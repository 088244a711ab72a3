/-
The size of a process that has several slots: `growproc`, `fork` and `thread_create` on the memory of `Vm`.

`thread_create` copies `pgdir` and `sz` into the new slot; from then on the slots share the directory, and each has a size
of its own. `growproc` reads and writes only the size of the caller. A second slot with the same directory therefore keeps
the old size, and its next `sbrk` maps pages that are there already and panics. So the premise on a run is that a slot
changes its size only while nobody shares its directory; and that the call avoids two faults that one slot alone can
hit: shrinking to 0, which frees every page and then reports failure and keeps the size, and running out of memory at a
page table, which `allocuvm` does not notice.

Each system call is one step. Slots are UNUSED or in use; `kalloc` by the rest of the kernel may happen at any time.

Results:
- `step_agree`: every permitted step keeps the sizes and the directories in agreement.
- `sizes_agree`: so in every state of a run of such steps, slots that share a directory have one size, which is what the
  directory maps, and no step ends in `panic("remap")`.
- `shared_sbrk_panics`: two slots, two calls of `sbrk`, and the kernel panics.
-/
import Xv6Threads.Memory.Extent

namespace Xv6Threads.Memory

open Xv6Threads.Core Function

/-! ## States and steps -/

/-- the fields of `struct proc` that the size of a process is about -/
structure Slot where
  inUse : Bool
  kstack : Frame
  pgdir : ℕ
  sz : ℕ

structure St (N : ℕ) where
  mem : Mem
  slot : Fin N → Slot
  panicked : Option Panic

/-- a system call of slot `p`, or a page taken by the rest of the kernel -/
inductive Op (N : ℕ) where
  | threadCreate (p : Fin N)
  | sbrk (p : Fin N) (n : ℤ)
  | fork (p : Fin N)
  | kalloc
  deriving DecidableEq

variable {N : ℕ}

/-- `sz + n` on a `uint` -/
def addSize (sz : ℕ) (n : ℤ) : ℕ := ((sz + n) % 2 ^ 32).toNat

/-- `growproc`: the new size, or `none` for the result -1 -/
def growproc (m : Mem) (pgdir sz : ℕ) (n : ℤ) : Except Panic (Mem × Option ℕ) :=
  if 0 < n then
    match allocuvm m pgdir sz (addSize sz n) with
    | .error e => .error e
    | .ok (m, sz) => if sz = 0 then .ok (m, none) else .ok (m, some sz)
  else if n < 0 then
    match deallocuvm m pgdir sz (addSize sz n) with
    | .error e => .error e
    | .ok (m, sz) => if sz = 0 then .ok (m, none) else .ok (m, some sz)
  else .ok (m, some sz)

def sbrk (s : St N) (p : Fin N) (n : ℤ) : St N :=
  match growproc s.mem (s.slot p).pgdir (s.slot p).sz n with
  | .error e => { s with panicked := some e }
  | .ok (m, none) => { s with mem := m }
  | .ok (m, some sz) => { s with mem := m, slot := update s.slot p { s.slot p with sz := sz } }

/-- `allocproc`: the first UNUSED slot and a page for its kernel stack -/
def allocproc (s : St N) : Option (Fin N × Frame × Mem) :=
  match (List.finRange N).find? fun p => (s.slot p).inUse = false with
  | none => none
  | some np => (Memory.kalloc s.mem).map fun x => (np, x)

def fork (s : St N) (p : Fin N) : St N :=
  match allocproc s with
  | none => s
  | some (np, kstack, m) =>
    match copyuvm m (s.slot p).pgdir (s.slot p).sz with
    | .error e => { s with panicked := some e }
    | .ok (m, none) =>
      match kfree m kstack with
      | .error e => { s with panicked := some e }
      | .ok m => { s with mem := m }
    | .ok (m, some d) => { s with mem := m, slot := update s.slot np ⟨true, kstack, d, (s.slot p).sz⟩ }

def threadCreate (s : St N) (p : Fin N) : St N :=
  match allocproc s with
  | none => s
  | some (np, kstack, m) =>
    { s with mem := m, slot := update s.slot np ⟨true, kstack, (s.slot p).pgdir, (s.slot p).sz⟩ }

/-- the slot that makes the call -/
def Op.caller : Op N → Option (Fin N)
  | .threadCreate p | .sbrk p _ | .fork p => some p
  | .kalloc => none

/-- a step: nothing happens after a panic or in a slot that is not in use -/
def step (s : St N) (o : Op N) : St N :=
  if s.panicked.isSome ∨ ∃ p ∈ o.caller, (s.slot p).inUse = false then s
  else match o with
    | .threadCreate p => threadCreate s p
    | .sbrk p n => sbrk s p n
    | .fork p => fork s p
    | .kalloc => match Memory.kalloc s.mem with
      | none => s
      | some (_, m) => { s with mem := m }

/-! ## The invariant -/

structure Agree (s : St N) : Prop where
  linked : Linked s.mem
  handle : ∀ p, (s.slot p).inUse = true → (s.slot p).pgdir < s.mem.nextDir
  size : ∀ p, (s.slot p).inUse = true → (s.slot p).sz < KERNBASE
  same : ∀ p q, (s.slot p).inUse = true → (s.slot q).inUse = true → (s.slot p).pgdir = (s.slot q).pgdir →
    (s.slot p).sz = (s.slot q).sz
  extent : ∀ p, (s.slot p).inUse = true → (s.mem.dir (s.slot p).pgdir).Extent (pages (s.slot p).sz)
  panicked : ∀ e, s.panicked = some e → e = .kfree

/-- a slot changes its size only while nobody shares its directory, not to 0, and with memory for the page tables -/
def GrowOk (s : St N) : Op N → Prop
  | .sbrk p n => n = 0 ∨ ((∀ q, q ≠ p → (s.slot q).inUse = true → (s.slot q).pgdir ≠ (s.slot p).pgdir) ∧
      (n < 0 → addSize (s.slot p).sz n ≠ 0) ∧
      (0 < n → AllocFits s.mem (s.slot p).pgdir (s.slot p).sz (addSize (s.slot p).sz n)))
  | _ => True

instance (s : St N) (o : Op N) : Decidable (GrowOk s o) := by
  cases o <;> unfold GrowOk <;> infer_instance

section Steps

variable {s : St N} {p : Fin N}

/-- the memory changed in no directory that is in use -/
theorem Agree.older (h : Agree s) {m : Mem} (ho : Older s.mem m) : Agree { s with mem := m } := by
  obtain ⟨hlink, hhandle, hsize, hsame, hext, hp⟩ := h
  refine ⟨⟨by rw [ho.data]; exact hlink.aligned, by rw [ho.data]; exact hlink.after, by rw [ho.data]; exact hlink.before⟩,
    fun p hu => (hhandle p hu).trans_le ho.nextDir, hsize, hsame, fun p hu => ?_, hp⟩
  show (m.dir _).Extent _
  rw [ho.dir _ (hhandle p hu)]
  exact hext p hu

/-- a slot comes into use, with the directory and size of a slot in use or with a directory of its own -/
theorem Agree.add (h : Agree s) {np : Fin N} {kstack d sz : ℕ} (hd : d < s.mem.nextDir) (hsz : sz < KERNBASE)
    (hext : (s.mem.dir d).Extent (pages sz))
    (hsame : ∀ q, q ≠ np → (s.slot q).inUse = true → (s.slot q).pgdir = d → (s.slot q).sz = sz) :
    Agree { s with slot := update s.slot np ⟨true, kstack, d, sz⟩ } := by
  refine ⟨h.linked, fun p hu => ?_, fun p hu => ?_, fun p q hp hq hpq => ?_, fun p hu => ?_, h.panicked⟩
  · by_cases hpn : p = np
    · subst hpn
      simpa using hd
    · simp only [update_of_ne hpn] at hu ⊢
      exact h.handle p hu
  · by_cases hpn : p = np
    · subst hpn
      simpa using hsz
    · simp only [update_of_ne hpn] at hu ⊢
      exact h.size p hu
  · by_cases hpn : p = np <;> by_cases hqn : q = np
    · rw [hpn, hqn]
    · subst hpn
      simp only [update_of_ne hqn, update_self] at hq hpq ⊢
      exact (hsame q hqn hq hpq.symm).symm
    · subst hqn
      simp only [update_of_ne hpn, update_self] at hp hpq ⊢
      exact hsame p hpn hp hpq
    · simp only [update_of_ne hpn, update_of_ne hqn] at hp hq hpq ⊢
      exact h.same p q hp hq hpq
  · by_cases hpn : p = np
    · subst hpn
      simpa using hext
    · simp only [update_of_ne hpn] at hu ⊢
      exact h.extent p hu

theorem Agree.panic (h : Agree s) : Agree { s with panicked := some .kfree } :=
  ⟨h.linked, h.handle, h.size, h.same, h.extent, fun _ he => (Option.some.inj he).symm⟩

theorem allocproc_some {np : Fin N} {kstack : Frame} {m : Mem} (ha : allocproc s = some (np, kstack, m)) :
    SameDirs s.mem m := by
  unfold allocproc at ha
  split at ha
  · cases ha
  · obtain ⟨x, hx, he⟩ := Option.map_eq_some_iff.1 ha
    cases he
    exact kalloc_dirs hx

theorem threadCreate_agree (h : Agree s) (hu : (s.slot p).inUse = true) : Agree (threadCreate s p) := by
  unfold threadCreate
  split
  · exact h
  · rename_i np kstack m ha
    have hm := h.older (allocproc_some ha).older
    exact hm.add (hm.handle p hu) (hm.size p hu) (hm.extent p hu) fun q _ hq hqd => hm.same q p hq hu hqd

theorem fork_agree (h : Agree s) (hu : (s.slot p).inUse = true) : Agree (fork s p) := by
  unfold fork
  split
  · exact h
  · rename_i np kstack m ha
    have hm := h.older (allocproc_some ha).older
    rcases copyuvm_spec hm.linked (hm.handle p hu) (hm.size p hu).le (hm.extent p hu) with he | ⟨m', r, he, ho, hr⟩ <;>
      rw [show copyuvm m (s.slot p).pgdir (s.slot p).sz = _ from he]
    · exact h.panic
    cases r with
    | none =>
      dsimp only
      cases hk : kfree m' kstack with
      | error e => exact kfree_error hk ▸ h.panic
      | ok m'' => exact (hm.older ho).older (kfree_dirs hk).older
    | some d =>
      obtain ⟨hnew, hlt, hext⟩ := hr d rfl
      refine (hm.older ho).add hlt (hm.size p hu) hext fun q _ hq hqd => ?_
      -- the directory is new, so nobody else has it
      have := hm.handle q hq
      have : (s.slot q).pgdir < d := this.trans_le hnew
      exact absurd hqd this.ne

/-- `growproc` on a directory that nobody shares: the new size is what the directory maps -/
theorem growproc_spec (h : Agree s) (hu : (s.slot p).inUse = true) {n : ℤ} (hn : n ≠ 0) (hok : GrowOk s (.sbrk p n)) :
    growproc s.mem (s.slot p).pgdir (s.slot p).sz n = .error .kfree ∨
    ∃ m r, growproc s.mem (s.slot p).pgdir (s.slot p).sz n = .ok (m, r) ∧ Only (s.slot p).pgdir s.mem m ∧
      r.getD (s.slot p).sz < KERNBASE ∧ (m.dir (s.slot p).pgdir).Extent (pages (r.getD (s.slot p).sz)) := by
  obtain ⟨_, hzero, hfit⟩ := hok.resolve_left hn
  have hsz := h.size p hu
  have hext := h.extent p hu
  unfold growproc
  by_cases hpos : 0 < n
  · rw [if_pos hpos]
    rcases allocuvm_extent hsz hext (hfit hpos) with he | ⟨m, sz, he, ho, hlt, hx⟩ <;> rw [he]
    · exact Or.inl rfl
    by_cases h0 : sz = 0
    · simp only [h0, if_true] at hx ⊢
      exact Or.inr ⟨m, none, rfl, ho, hsz, hx⟩
    · simp only [h0, if_false] at hx ⊢
      exact Or.inr ⟨m, some sz, rfl, ho, hlt, hx⟩
  · have hneg : n < 0 := by omega
    have hne := hzero hneg
    rw [if_neg hpos, if_pos hneg]
    by_cases hlt : addSize (s.slot p).sz n < (s.slot p).sz
    · rcases deallocuvm_extent hsz.le hlt le_rfl hext with he | ⟨m, he, ho, hx⟩ <;> rw [he]
      · exact Or.inl rfl
      simp only [hne, if_false]
      rw [min_eq_right (pages_mono hlt.le)] at hx
      exact Or.inr ⟨m, some _, rfl, ho, hlt.trans hsz, hx⟩
    · -- the difference wrapped around: nothing happens
      have he : deallocuvm s.mem (s.slot p).pgdir (s.slot p).sz (addSize (s.slot p).sz n) =
          .ok (s.mem, (s.slot p).sz) := by
        unfold deallocuvm
        rw [if_pos (by omega)]
      rw [he]
      by_cases h0 : (s.slot p).sz = 0
      · simp only [h0, if_true]
        exact Or.inr ⟨s.mem, none, rfl, .refl _ _, by decide, h0 ▸ hext⟩
      · simp only [h0, if_false]
        exact Or.inr ⟨s.mem, some _, rfl, .refl _ _, hsz, hext⟩

/-- the directory of slot `p` and its size changed together, and nobody shares the directory -/
theorem Agree.resize (h : Agree s) (hu : (s.slot p).inUse = true) {m : Mem} {sz : ℕ}
    (halone : ∀ q, q ≠ p → (s.slot q).inUse = true → (s.slot q).pgdir ≠ (s.slot p).pgdir)
    (ho : Only (s.slot p).pgdir s.mem m) (hsz : sz < KERNBASE) (hext : (m.dir (s.slot p).pgdir).Extent (pages sz)) :
    Agree { s with mem := m, slot := update s.slot p { s.slot p with sz := sz } } := by
  have hkeep : ∀ q, (update s.slot p { s.slot p with sz := sz } q).inUse = (s.slot q).inUse ∧
      (update s.slot p { s.slot p with sz := sz } q).pgdir = (s.slot q).pgdir := by
    intro q
    by_cases hqp : q = p
    · subst hqp
      simp
    · simp [hqp]
  refine ⟨⟨by rw [ho.data]; exact h.linked.aligned, by rw [ho.data]; exact h.linked.after,
    by rw [ho.data]; exact h.linked.before⟩, fun q hq => ?_, fun q hq => ?_, fun q r hq hr hqr => ?_, fun q hq => ?_,
    h.panicked⟩
  · rw [(hkeep q).1] at hq
    rw [(hkeep q).2, ho.nextDir]
    exact h.handle q hq
  · by_cases hqp : q = p
    · subst hqp
      simpa using hsz
    · simp only [update_of_ne hqp] at hq ⊢
      exact h.size q hq
  · rw [(hkeep q).1] at hq
    rw [(hkeep r).1] at hr
    rw [(hkeep q).2, (hkeep r).2] at hqr
    by_cases hqp : q = p <;> by_cases hrp : r = p
    · rw [hqp, hrp]
    · exact absurd (hqp ▸ hqr.symm) (halone r hrp hr)
    · exact absurd (hrp ▸ hqr) (halone q hqp hq)
    · simp only [update_of_ne hqp, update_of_ne hrp]
      exact h.same q r hq hr hqr
  · rw [(hkeep q).1] at hq
    by_cases hqp : q = p
    · subst hqp
      simpa using hext
    · simp only [update_of_ne hqp]
      rw [ho.dir _ (halone q hqp hq)]
      exact h.extent q hq

theorem sbrk_agree (h : Agree s) (hu : (s.slot p).inUse = true) {n : ℤ} (hok : GrowOk s (.sbrk p n)) :
    Agree (sbrk s p n) := by
  unfold sbrk
  by_cases hn : n = 0
  · have he : growproc s.mem (s.slot p).pgdir (s.slot p).sz n = .ok (s.mem, some (s.slot p).sz) := by
      simp [growproc, hn]
    rw [he]
    simpa using h
  have halone := (hok.resolve_left hn).1
  rcases growproc_spec h hu hn hok with he | ⟨m, r, he, ho, hsz, hext⟩ <;> rw [he]
  · exact h.panic
  cases r with
  | some sz => exact h.resize hu halone ho hsz hext
  | none =>
    have := h.resize hu halone ho hsz hext
    simpa using this

theorem step_agree (h : Agree s) {o : Op N} (hok : GrowOk s o) : Agree (step s o) := by
  unfold step
  split
  · exact h
  · rename_i hgo
    have hu : ∀ p ∈ o.caller, (s.slot p).inUse = true := by
      intro p hp
      by_contra hc
      exact hgo (Or.inr ⟨p, hp, by simpa using hc⟩)
    cases o with
    | threadCreate p => exact threadCreate_agree h (hu p rfl)
    | sbrk p n => exact sbrk_agree h (hu p rfl) hok
    | fork p => exact fork_agree h (hu p rfl)
    | kalloc =>
      dsimp only
      split
      · exact h
      · rename_i f m hk
        exact h.older (kalloc_dirs hk).older

end Steps

/-! ## Runs -/

/-- one slot is in use, its directory maps exactly its size, as `exec` leaves a process -/
structure Start (s : St N) (p : Fin N) : Prop where
  alone : ∀ q, (s.slot q).inUse = true ↔ q = p
  linked : Linked s.mem
  handle : (s.slot p).pgdir < s.mem.nextDir
  size : (s.slot p).sz < KERNBASE
  extent : (s.mem.dir (s.slot p).pgdir).Extent (pages (s.slot p).sz)
  running : s.panicked = none

theorem Start.agree {s : St N} {p : Fin N} (h : Start s p) : Agree s := by
  have he : ∀ q, (s.slot q).inUse = true → q = p := fun q => (h.alone q).1
  refine ⟨h.linked, fun q hq => he q hq ▸ h.handle, fun q hq => he q hq ▸ h.size, fun q r hq hr _ => ?_,
    fun q hq => he q hq ▸ h.extent, fun e hp => ?_⟩
  · rw [he q hq, he r hr]
  · rw [h.running] at hp
    cases hp

/-- **Slots that share a directory agree on its size.** From a process with one slot, in every state of a run in which a
slot changes its size only under the premise `GrowOk`: slots with the same directory have the same size, the user pages
that are present are those below it, and no step ended in `panic("remap")`. -/
theorem sizes_agree (s : St N) (p : Fin N) (hs : Start s p) (ops : List (Op N)) (h : Along step GrowOk s ops) :
    let s' := run step s ops
    (∀ q r, (s'.slot q).inUse = true → (s'.slot r).inUse = true → (s'.slot q).pgdir = (s'.slot r).pgdir →
      (s'.slot q).sz = (s'.slot r).sz) ∧
    (∀ q, (s'.slot q).inUse = true → ∀ v, v < USERPAGES →
      (((s'.mem.dir (s'.slot q).pgdir).pteOf (v * PGSIZE)).isSome = true ↔ v * PGSIZE < pgroundup (s'.slot q).sz)) ∧
    s'.panicked ≠ some .remap := by
  intro s'
  have ha : Agree s' := h.inv (I := Agree) (fun _ _ ho hs => step_agree hs ho) hs.agree
  refine ⟨ha.same, fun q hq v hv => ?_, fun hp => ?_⟩
  · rw [ha.extent q hq v hv, pgroundup_eq (ha.size q hq).le]
    unfold PGSIZE
    omega
  · cases ha.panicked _ hp

/-- a process of one slot and one page, and ten free pages -/
def onePage : St 64 where
  mem :=
    { freelist := List.range' 0x300 10, page := fun _ _ => 0,
      dir := fun _ => ⟨0x200, fun i => if i = 0 then
        some ⟨0x201, fun j => if j = 0 then some ⟨0x202, true, true⟩ else none⟩ else none⟩,
      nextDir := 1, kend := 0x180, data := 0x80108000 }
  slot := fun p => if p = 0 then ⟨true, 0x203, 0, PGSIZE⟩ else ⟨false, 0, 0, 0⟩
  panicked := none

theorem onePage_start : Start onePage 0 := by
  refine ⟨fun q => ?_, ⟨by decide, by decide, by decide⟩, by decide, by decide, fun v hv => ?_, rfl⟩
  · by_cases hq : q = 0 <;> simp [onePage, hq]
  · have hpages : pages (onePage.slot 0).sz = 1 := by decide
    rw [hpages]
    unfold USERPAGES at hv
    by_cases h0 : v = 0
    · subst h0
      decide
    · -- page v has another index in the directory or in the table
      have hne : ¬ (pdx (v * PGSIZE) = 0 ∧ ptx (v * PGSIZE) = 0) := by
        have := (page_index (v := 0) (w := v) (by decide) (by omega)).not.2 h0
        simpa [pdx, ptx] using this
      have hnone : (onePage.mem.dir (onePage.slot 0).pgdir).pteOf (v * PGSIZE) = none := by
        by_cases h1 : pdx (v * PGSIZE) = 0
        · have h2 : ptx (v * PGSIZE) ≠ 0 := fun h => hne ⟨h1, h⟩
          simp [onePage, Dir.pteOf, h1, h2]
        · simp [onePage, Dir.pteOf, h1]
      rw [hnone]
      simp
      omega

/-- the process grows by two pages and shrinks by one; then it makes a thread, and the thread forks -/
def growThenShare : List (Op 64) := [.sbrk 0 8192, .sbrk 0 (-4096), .threadCreate 0, .fork 1]

theorem growThenShare_agree :
    let s := run step onePage growThenShare
    (∀ q r, (s.slot q).inUse = true → (s.slot r).inUse = true → (s.slot q).pgdir = (s.slot r).pgdir →
      (s.slot q).sz = (s.slot r).sz) ∧ s.panicked ≠ some .remap := by
  have h : Along step GrowOk onePage growThenShare := by decide +kernel
  obtain ⟨h1, _, h3⟩ := sizes_agree onePage 0 onePage_start growThenShare h
  exact ⟨h1, h3⟩

/-- **Shared directory, separate sizes.** After `thread_create` one slot grows the process by a page: the other slot
still has the old size. When that one grows too, `mappages` finds its page present and panics. -/
theorem shared_sbrk_panics :
    let s := run step onePage [.threadCreate 0, .sbrk 0 4096]
    Start onePage 0 ∧ (s.slot 0).inUse = true ∧ (s.slot 1).inUse = true ∧ (s.slot 0).pgdir = (s.slot 1).pgdir ∧
      (s.slot 0).sz = 8192 ∧ (s.slot 1).sz = 4096 ∧
      (run step onePage [.threadCreate 0, .sbrk 0 4096, .sbrk 1 4096]).panicked = some .remap := by
  intro s
  refine ⟨onePage_start, ?_⟩
  decide +kernel

end Xv6Threads.Memory
