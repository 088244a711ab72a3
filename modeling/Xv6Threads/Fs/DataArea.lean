/-
What the kernel's allocator hands out on a disk that mkfs wrote.

mkfs marks the blocks it used, and nothing else: not the sectors of the log, which are the last ones of the disk. `balloc`
takes the first free block of all sb.size blocks. So as long as a block below the log is free it stays below the log, and
then it hands out the log itself.
- `handed_below_log_iff`: the blocks handed out in a run are blocks of the data area exactly if, whenever `balloc` was
  called with a free block on the disk, one below the log was free.
- `log_handed_out`: on the image without files the 985th call returns the first sector of the log.
-/
import Xv6Threads.Fs.Image

namespace Xv6Threads.Fs.Mkfs

open Xv6Threads.Core

/-- the allocator, with the blocks of files and the numbers it has returned -/
structure Kernel where
  disk : Disk
  files : Finset ℕ
  handed : List ℕ
  /-- it has panicked -/
  halted : Bool

namespace Kernel

inductive Op where
  | balloc
  /-- the kernel frees blocks of files only -/
  | bfree (b : ℕ)

def step (w : Kernel) (o : Op) : Kernel :=
  if w.halted then w
  else match o with
    | .balloc =>
      match Fs.balloc w.disk with
      | .ok (b, d) => { w with disk := d, files := insert b w.files, handed := w.handed ++ [b] }
      | .error _ => { w with halted := true }
    | .bfree b =>
      if b ∈ w.files then
        match Fs.bfree w.disk b with
        | .ok d => { w with disk := d, files := w.files.erase b }
        | .error _ => { w with halted := true }
      else w

/-- the kernel starts on a disk that mkfs wrote -/
def boot (s : St) : Kernel := ⟨s.disk, Finset.Ico first s.usedblocks, [], false⟩

/-- above the bitmap, and below the log -/
def InDataArea (b : ℕ) : Prop := first ≤ b ∧ b < size - nlog

/-- if a block of the disk is free, then one below the log is -/
def RoomBelowLog (w : Kernel) : Op → Prop
  | .balloc => w.halted = false → (∃ b, b < size ∧ inUse w.disk b = false) → ∃ b, b < size - nlog ∧ inUse w.disk b = false
  | .bfree _ => True

/-- the super block is that of mkfs, and the metadata is neither free nor part of a file -/
structure Kept (w : Kernel) : Prop where
  sb : readsb w.disk = sb
  marked : ∀ b, b < first → inUse w.disk b = true
  files : ∀ b ∈ w.files, first ≤ b

variable {w : Kernel}

namespace Kept

theorem size_eq (h : w.Kept) : (readsb w.disk).size.toNat = size := by
  rw [h.sb]
  rfl

theorem firstData_eq (h : w.Kept) : firstData w.disk = first := by
  rw [firstData, h.sb]
  rfl

/-- what a call of `balloc` does -/
theorem balloc (h : w.Kept) (hrun : w.halted = false) :
    (step w .balloc = { w with halted := true } ∧ ∀ b, b < size → inUse w.disk b = true) ∨
      ∃ b d, step w .balloc = { w with disk := d, files := insert b w.files, handed := w.handed ++ [b] } ∧
        first ≤ b ∧ b < size ∧ inUse w.disk b = false ∧ (∀ j, j < b → inUse w.disk j = true) ∧ Allocates w.disk d b := by
  have hm : Marked w.disk := by
    intro b hb
    rw [h.firstData_eq] at hb
    exact h.marked b hb
  have hends := balloc_ends hm
  rw [h.firstData_eq, h.size_eq] at hends
  have hgo : ¬ w.halted = true := by
    rw [hrun]
    decide
  simp only [step, if_neg hgo]
  cases hr : Fs.balloc w.disk with
  | error e =>
    rw [hr] at hends
    exact .inl ⟨rfl, hends.2⟩
  | ok r =>
    rw [hr] at hends
    obtain ⟨hlow, hhigh, hclear, hmin, hall⟩ := hends
    exact .inr ⟨r.1, r.2, rfl, hlow, hhigh, hclear, hmin, hall⟩

theorem step_halted (h : w.halted = true) (o : Op) : step w o = w := if_pos h

theorem step (h : w.Kept) (o : Op) : (Kernel.step w o).Kept := by
  by_cases hrun : w.halted = true
  · rwa [step_halted hrun]
  · cases o with
    | balloc =>
      rcases h.balloc (by simpa using hrun) with ⟨he, _⟩ | ⟨b, d, he, hlow, _, _, _, hall⟩
      · rw [he]
        exact ⟨h.sb, h.marked, h.files⟩
      · rw [he]
        refine ⟨hall.sb.trans h.sb, ?_, ?_⟩
        · intro j hj
          rw [hall.bits j (by rw [h.size_eq]; exact hj.trans (by decide)), h.marked j hj, Bool.or_true]
        · intro j hj
          rcases Finset.mem_insert.1 hj with rfl | hj
          · exact hlow
          · exact h.files j hj
    | bfree b =>
      simp only [Kernel.step, if_neg hrun]
      by_cases hb : b ∈ w.files
      · rw [if_pos hb]
        have hends := bfree_ends (d := w.disk) (b := b)
        cases hr : Fs.bfree w.disk b with
        | error e => exact ⟨h.sb, h.marked, h.files⟩
        | ok d =>
          rw [hr] at hends
          obtain ⟨_, hfree⟩ := hends
          refine ⟨hfree.sb.trans h.sb, ?_, fun j hj => h.files j (Finset.mem_of_mem_erase hj)⟩
          intro j hj
          have hne : j ≠ b := (hj.trans_le (h.files b hb)).ne
          rw [hfree.bits, decide_eq_false hne, h.marked j hj]
          rfl
      · rw [if_neg hb]
        exact h

/-- the number that one step adds -/
theorem handed_step (h : w.Kept) (o : Op) :
    (∀ b ∈ (Kernel.step w o).handed, InDataArea b) ↔ (∀ b ∈ w.handed, InDataArea b) ∧ RoomBelowLog w o := by
  by_cases hrun : w.halted = true
  · rw [step_halted hrun]
    refine (and_iff_left ?_).symm
    cases o with
    | balloc => exact fun hgo => absurd (hrun.symm.trans hgo) (by decide)
    | bfree b => trivial
  · have hgo : w.halted = false := by simpa using hrun
    cases o with
    | balloc =>
      rcases h.balloc hgo with ⟨he, hfull⟩ | ⟨b, d, he, hlow, hhigh, hclear, hmin, _⟩
      · rw [he]
        refine (and_iff_left ?_).symm
        rintro _ ⟨b, hb, hclear⟩
        exact absurd ((hfull b hb).symm.trans hclear) (by decide)
      · have hroom : RoomBelowLog w .balloc ↔ InDataArea b := by
          constructor
          · intro hr
            obtain ⟨j, hj, hj'⟩ := hr hgo ⟨b, hhigh, hclear⟩
            -- the block is the first free one
            have hle : ¬ j < b := fun hlt => absurd ((hmin j hlt).symm.trans hj') (by decide)
            exact ⟨hlow, by omega⟩
          · intro hb _ _
            exact ⟨b, hb.2, hclear⟩
        rw [he, hroom]
        simp only [List.mem_append, List.mem_singleton]
        constructor
        · intro hall
          exact ⟨fun j hj => hall j (.inl hj), hall b (.inr rfl)⟩
        · rintro ⟨hall, hb⟩ j (hj | rfl)
          · exact hall j hj
          · exact hb
    | bfree b =>
      have hsame : (Kernel.step w (.bfree b)).handed = w.handed := by
        simp only [Kernel.step, if_neg hrun]
        split
        · split <;> rfl
        · rfl
      rw [hsame]
      exact (and_iff_left trivial).symm

theorem handed_run (ops : List Op) : ∀ {w : Kernel}, w.Kept →
    ((∀ b ∈ (run Kernel.step w ops).handed, InDataArea b) ↔
      (∀ b ∈ w.handed, InDataArea b) ∧ Along Kernel.step RoomBelowLog w ops) := by
  induction ops with
  | nil =>
    intro w _
    exact (and_iff_left trivial).symm
  | cons o ops ih =>
    intro w h
    rw [run_cons, ih (h.step o), h.handed_step o, and_assoc]
    rfl

end Kept

/-- an image with its inodes before the bitmap -/
theorem boot_kept {files : List (List Byte × List Byte)} (hfew : files.length + 2 ≤ inodeRoom) {s : St}
    (hmain : main files = .ok s) : (boot s).Kept := by
  obtain ⟨hlt, _, s₁, himage, hused, _, hdisk⟩ := (main_ends files hfew).of_ok hmain
  have hlow : first ≤ s.usedblocks := by
    rw [← hused, himage.laid.used]
    exact himage.laid.low
  constructor
  case sb => exact (congrArg readsb hdisk).trans (readsb_finished himage)
  case marked =>
    intro b hb
    change inUse s.disk b = true
    rw [hdisk, inUse_finished himage (by rwa [hused]) (hb.trans (by decide)), hused]
    exact decide_eq_true (hb.trans_le hlow)
  case files =>
    intro b hb
    exact (Finset.mem_Ico.1 hb).1

/-- **What `balloc` hands out.** From every image of mkfs whose inodes fit, in every run of allocations and frees: the
blocks handed out are all above the bitmap and below the log exactly if, at every call with a free block on the disk,
there was one below the log. -/
theorem handed_below_log_iff (files : List (List Byte × List Byte)) (hfew : files.length + 2 ≤ inodeRoom) (s : St)
    (hmain : main files = .ok s) (ops : List Op) :
    (∀ b ∈ (run step (boot s) ops).handed, InDataArea b) ↔ Along step RoomBelowLog (boot s) ops := by
  rw [(boot_kept hfew hmain).handed_run ops]
  exact and_iff_right fun _ hb => absurd hb List.not_mem_nil

/-! ## A full disk -/

theorem main_nil : ∃ s, main [] = .ok s ∧ s.usedblocks = first + 1 :=
  main_of_empty (fun _ hf => absurd hf List.not_mem_nil) (fun _ hf => absurd hf List.not_mem_nil) (Nat.le_of_ble_eq_true rfl)

/-- the first `used` blocks of the disk are in use -/
structure FilledTo (w : Kernel) (used : ℕ) : Prop extends w.Kept where
  running : w.halted = false
  bits : ∀ b, b < size → inUse w.disk b = decide (b < used)

theorem FilledTo.balloc {used : ℕ} (h : w.FilledTo used) (hused : used < size) :
    (step w .balloc).FilledTo (used + 1) ∧ (step w .balloc).handed = w.handed ++ [used] := by
  have hclear : inUse w.disk used = false := by
    rw [h.bits used hused]
    exact decide_eq_false (Nat.lt_irrefl _)
  rcases h.toKept.balloc h.running with ⟨_, hfull⟩ | ⟨b, d, he, _, hhigh, hb, hmin, hall⟩
  · exact absurd ((hfull used hused).symm.trans hclear) (by decide)
  · obtain rfl : b = used := by
      have hle : ¬ used < b := fun hlt => absurd ((hmin used hlt).symm.trans hclear) (by decide)
      have hge : ¬ b < used := by
        rw [h.bits b hhigh] at hb
        exact of_decide_eq_false hb
      omega
    have hkept := h.toKept.step .balloc
    rw [he] at hkept ⊢
    refine ⟨⟨hkept, h.running, ?_⟩, rfl⟩
    intro j hj
    rw [hall.bits j (by rwa [h.size_eq]), h.bits j hj, Bool.eq_iff_iff, Bool.or_eq_true, decide_eq_true_iff,
      decide_eq_true_iff, decide_eq_true_iff]
    omega

theorem FilledTo.fill (n : ℕ) : ∀ {w : Kernel} {used : ℕ}, w.FilledTo used → used + n ≤ size →
    (run step w (List.replicate n .balloc)).handed = w.handed ++ List.range' used n := by
  induction n with
  | zero =>
    intro w used _ _
    simp
  | succ n ih =>
    intro w used h hle
    obtain ⟨h', hhanded⟩ := h.balloc (by omega)
    rw [List.replicate_succ, run_cons, ih h' (by omega), hhanded, List.append_assoc]
    rfl

theorem boot_filledTo {s : St} (hmain : main [] = .ok s) (hused : s.usedblocks = first + 1) : (boot s).FilledTo (first + 1) := by
  obtain ⟨hlt, _, s₁, himage, hused₁, _, hdisk⟩ := (main_ends [] (Nat.le_of_ble_eq_true rfl)).of_ok hmain
  refine ⟨boot_kept (Nat.le_of_ble_eq_true rfl) hmain, rfl, ?_⟩
  intro b hb
  change inUse s.disk b = _
  rw [hdisk, inUse_finished himage (by rwa [hused₁]) (hb.trans (by decide)), hused₁, hused]

/-- **The log is handed out.** On the image of mkfs without files, the last of 985 calls of `balloc` returns the first
sector of the log. -/
theorem log_handed_out :
    ∃ s, main [] = .ok s ∧ size - nlog ∈ (run step (boot s) (List.replicate 985 .balloc)).handed := by
  obtain ⟨s, hmain, hused⟩ := main_nil
  refine ⟨s, hmain, ?_⟩
  rw [(boot_filledTo hmain hused).fill 985 (by decide)]
  exact List.mem_append_right _ (List.mem_range'_1.2 (by decide))

/-- the first call on that image -/
theorem first_handed_below_log :
    ∃ s, main [] = .ok s ∧ (run step (boot s) [.balloc]).handed ≠ [] ∧
      ∀ b ∈ (run step (boot s) [.balloc]).handed, InDataArea b := by
  obtain ⟨s, hmain, hused⟩ := main_nil
  have hfilled := boot_filledTo hmain hused
  refine ⟨s, hmain, ?_, ?_⟩
  · rw [run_cons, run_nil, (hfilled.balloc (by decide)).2]
    exact List.append_ne_nil_of_right_ne_nil _ (List.cons_ne_nil _ _)
  · apply (handed_below_log_iff [] (Nat.le_of_ble_eq_true rfl) s hmain [.balloc]).2
    refine ⟨?_, trivial⟩
    intro _ _
    refine ⟨first + 1, by decide, ?_⟩
    rw [hfilled.bits _ (by decide)]
    exact decide_eq_false (Nat.lt_irrefl _)

end Kernel

end Xv6Threads.Fs.Mkfs
