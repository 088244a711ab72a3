/-
The image that mkfs writes.

`Laid T s t` says that the inodes `T` have the files `t` on the disk: the blocks that their lengths need and no others,
each of them handed out by mkfs and with one owner, and zeroes in all that was not handed out yet.
- `Filled`: a place of an inode has a block, and if it is new then nothing else changed.
- `place_ends`, `appendLoop_ends`: `iappend` adds its bytes to the file and changes no other one.
- `main_ends`: the files of the image are the root directory and those of the command line.
- `inUse_finished`: its bitmap has the blocks before `usedblocks`, and no others.
-/
import Xv6Threads.Fs.Contents
import Xv6Threads.Fs.Mkfs

namespace Xv6Threads.Fs.Mkfs

open Xv6Threads.Core Function

/-- the super block that mkfs writes -/
def sb : Superblock :=
  ⟨BitVec.ofNat 32 size, BitVec.ofNat 32 nblocks, BitVec.ofNat 32 ninodes, BitVec.ofNat 32 nlog⟩

/-- the first block that mkfs hands out -/
def first : ℕ := ninodes / IPB + 3 + bitblocks

/-- the number of inodes that fit into the blocks before the bitmap -/
def inodeRoom : ℕ := (ninodes / IPB + 1) * IPB

/-- the inodes in these blocks -/
def table (d : Disk) (i : ℕ) : Dinode := if i < inodeRoom then d.inode i else Dinode.empty

/-- the blocks handed out so far -/
def St.used (s : St) (b : ℕ) : Prop := first ≤ b ∧ b < s.freeblock

/-- what is true of the blocks when the inodes are `T` -/
structure Base (T : ℕ → Dinode) (s : St) : Prop where
  sb : readsb s.disk = sb
  low : first ≤ s.freeblock
  used : s.usedblocks = s.freeblock
  zero : ∀ b, s.freeblock ≤ b → s.disk b = zeroes
  allots : Allots (refs T s.disk) s.used

variable {T : ℕ → Dinode} {s s' : St} {inum : ℕ} {din' : Dinode} {sl : Slot}

theorem Base.first_le (h : Base T s) {j : ℕ} {sl : Slot} (h0 : (T j).ref s.disk sl ≠ 0) : first ≤ (T j).ref s.disk sl :=
  (h.allots.used (j, sl) h0).1

theorem readsb_of_low {d d' : Disk} (h : ∀ b, b < first → d' b = d b) : readsb d' = readsb d := by
  rw [readsb, readsb, h 1 (by decide)]

/-! ## A new block -/

/-- place `sl` of inode `inum` got the next block -/
structure Adds (T : ℕ → Dinode) (s : St) (inum : ℕ) (sl : Slot) (din' : Dinode) (s' : St) : Prop where
  freeblock : s'.freeblock = s.freeblock + 1
  usedblocks : s'.usedblocks = s.usedblocks + 1
  freeinode : s'.freeinode = s.freeinode
  fields : { din' with addrs := (T inum).addrs } = T inum
  /-- the indirect block is the only one that may be written -/
  disk : ∀ b, (b = (T inum).indirect → b = 0) → s'.disk b = s.disk b
  vacant : (T inum).ref s.disk sl = 0
  self : ∀ sl', din'.ref s'.disk sl' = if sl' = sl then s.freeblock else (T inum).ref s.disk sl'

namespace Adds

theorem unused (h : Adds T s inum sl din' s') (hb : Base T s) {b : ℕ} (hu : ¬ s.used b) : s'.disk b = s.disk b := by
  apply h.disk
  intro he
  by_contra h0
  rw [he] at h0 hu
  exact hu (hb.allots.used (inum, .indirect) h0)

theorem low (h : Adds T s inum sl din' s') (hb : Base T s) {b : ℕ} (hlt : b < first) : s'.disk b = s.disk b :=
  h.unused hb fun hu => absurd hu.1 (Nat.not_le.2 hlt)

theorem high (h : Adds T s inum sl din' s') (hb : Base T s) {b : ℕ} (hle : s.freeblock ≤ b) : s'.disk b = zeroes := by
  rw [h.unused hb fun hu => absurd hu.2 (Nat.not_lt.2 hle), hb.zero b hle]

theorem others (h : Adds T s inum sl din' s') (hb : Base T s) {j : ℕ} (hj : j ≠ inum) (sl' : Slot) :
    (T j).ref s'.disk sl' = (T j).ref s.disk sl' := by
  apply ref_congr
  intro h0
  apply h.disk
  intro he
  have hp := hb.allots.once (j, .indirect) (inum, .indirect) h0 he
  exact absurd (congrArg Prod.fst hp) hj

theorem data (h : Adds T s inum sl din' s') (hb : Base T s) {j : ℕ} {sl' : Slot} (hsl : sl' ≠ .indirect)
    (h0 : (T j).ref s.disk sl' ≠ 0) : s'.disk ((T j).ref s.disk sl') = s.disk ((T j).ref s.disk sl') := by
  apply h.disk
  intro he
  have hp := hb.allots.once (j, sl') (inum, .indirect) h0 he
  exact absurd (congrArg Prod.snd hp) hsl

theorem base (h : Adds T s inum sl din' s') (hb : Base T s) : Base (update T inum din') s' where
  sb := (readsb_of_low fun _ hlt => h.low hb hlt).trans hb.sb
  low := by
    rw [h.freeblock]
    exact hb.low.trans (Nat.le_succ _)
  used := by rw [h.usedblocks, h.freeblock, hb.used]
  zero b hle := by
    rw [h.freeblock] at hle
    exact h.high hb (by omega)
  allots := by
    refine hb.allots.add (p := (inum, sl)) (b := s.freeblock) ?_ ?_ ?_ ?_ ?_
    · rw [refs_update_self, h.self, if_pos rfl]
    · rintro ⟨j, sl'⟩ hne
      by_cases hj : j = inum
      · subst hj
        have hsl : sl' ≠ sl := fun e => hne (e ▸ rfl)
        rw [refs_update_self, h.self, if_neg hsl]
        rfl
      · rw [refs_update_of_ne hj, h.others hb hj]
        rfl
    · intro hused
      exact absurd hused.2 (Nat.lt_irrefl _)
    · exact ⟨hb.low, by rw [h.freeblock]; exact Nat.lt_succ_self _⟩
    · intro b hused
      exact ⟨hused.1, by rw [h.freeblock]; exact hused.2.trans (Nat.lt_succ_self _)⟩

/-- the new block holds what no block reads as -/
theorem byte (h : Adds T s inum sl din' s') (hb : Base T s) (j k : ℕ) :
    (update T inum din' j).byte s'.disk k = (T j).byte s.disk k := by
  cases hslot : slotOf (k / BSIZE) with
  | none => rw [byte_of_no_slot hslot, byte_of_no_slot hslot]
  | some sl' =>
    have hne := slotOf_ne_indirect hslot
    rw [byte_of_slot hslot, byte_of_slot hslot]
    by_cases hj : j = inum
    · subst hj
      rw [update_self, h.self]
      by_cases hsl : sl' = sl
      · subst hsl
        rw [if_pos rfl, h.vacant, if_pos rfl, h.high hb le_rfl, rd_zeroes, ite_self]
      · rw [if_neg hsl]
        by_cases h0 : (T j).ref s.disk sl' = 0
        · rw [if_pos h0, if_pos h0]
        · rw [if_neg h0, if_neg h0, h.data hb hne h0]
    · rw [update_of_ne hj, h.others hb hj]
      by_cases h0 : (T j).ref s.disk sl' = 0
      · rw [if_pos h0, if_pos h0]
      · rw [if_neg h0, if_neg h0, h.data hb hne h0]

end Adds

/-- place `sl` of inode `inum` has a block now -/
structure Filled (T : ℕ → Dinode) (s : St) (inum : ℕ) (sl : Slot) (din' : Dinode) (s' : St) : Prop where
  base : Base (update T inum din') s'
  fields : { din' with addrs := (T inum).addrs } = T inum
  freeinode : s'.freeinode = s.freeinode
  low : ∀ b, b < first → s'.disk b = s.disk b
  there : din'.ref s'.disk sl ≠ 0
  self : ∀ sl', sl' ≠ sl → din'.ref s'.disk sl' = (T inum).ref s.disk sl'
  others : ∀ j, j ≠ inum → ∀ sl', (T j).ref s'.disk sl' = (T j).ref s.disk sl'
  byte : ∀ j k, (update T inum din' j).byte s'.disk k = (T j).byte s.disk k
  count : s'.freeblock = s.freeblock + if (T inum).ref s.disk sl = 0 then 1 else 0

theorem Filled.refl (hb : Base T s) (h0 : (T inum).ref s.disk sl ≠ 0) : Filled T s inum sl (T inum) s where
  base := by rwa [update_eq_self]
  fields := rfl
  freeinode := rfl
  low _ _ := rfl
  there := h0
  self _ _ := rfl
  others _ _ _ := rfl
  byte j k := by rw [update_eq_self]
  count := by rw [if_neg h0, Nat.add_zero]

theorem Adds.filled (h : Adds T s inum sl din' s') (hb : Base T s) : Filled T s inum sl din' s' where
  base := h.base hb
  fields := h.fields
  freeinode := h.freeinode
  low _ hlt := h.low hb hlt
  there := by
    rw [h.self, if_pos rfl]
    exact (Nat.lt_of_lt_of_le (by decide) hb.low).ne'
  self sl' hne := by rw [h.self, if_neg hne]
  others _ hj sl' := h.others hb hj sl'
  byte := h.byte hb
  count := by rw [h.freeblock, if_pos h.vacant]

theorem toNat_freeblock (hsmall : s.freeblock < 2 ^ 32) : (BitVec.ofNat 32 s.freeblock).toNat = s.freeblock := by
  rw [BitVec.toNat_ofNat, Nat.mod_eq_of_lt hsmall]

theorem eq_zero_of_toNat {w : ℕ} {a : BitVec w} (h : a.toNat = 0) : a = 0 := BitVec.eq_of_toNat_eq (by simpa using h)

theorem direct_filled (hb : Base T s) (hsmall : s.freeblock < 2 ^ 32) (j : Fin NDIRECT) :
    Filled T s inum (.direct j) (s.direct (T inum) j).2.1 (s.direct (T inum) j).2.2 ∧
      (s.direct (T inum) j).1 = (s.direct (T inum) j).2.1.ref (s.direct (T inum) j).2.2.disk (.direct j) := by
  unfold St.direct
  by_cases h0 : (T inum).addrs j.castSucc = 0
  · rw [if_pos h0]
    have hself := ref_setDirect (x := T inum) (d := s.disk) j (BitVec.ofNat 32 s.freeblock)
    rw [toNat_freeblock hsmall] at hself
    have hadds : Adds T s inum (.direct j) ((T inum).setAddr j.castSucc (BitVec.ofNat 32 s.freeblock)) s.fresh.2 :=
      ⟨rfl, rfl, rfl, rfl, fun _ _ => rfl, by rw [Dinode.ref, h0]; rfl, hself⟩
    refine ⟨hadds.filled hb, ?_⟩
    change (BitVec.ofNat 32 s.freeblock).toNat =
      ((T inum).setAddr j.castSucc (BitVec.ofNat 32 s.freeblock)).ref s.disk (.direct j)
    rw [toNat_freeblock hsmall, hself, if_pos rfl]
  · rw [if_neg h0]
    refine ⟨Filled.refl hb ?_, rfl⟩
    intro he
    exact h0 (eq_zero_of_toNat he)

theorem indirect_filled (hb : Base T s) (hsmall : s.freeblock < 2 ^ 32) :
    Filled T s inum .indirect (s.indirect (T inum)).1 (s.indirect (T inum)).2 := by
  unfold St.indirect
  by_cases h0 : (T inum).addrs (Fin.last NDIRECT) = 0
  · rw [if_pos h0]
    have hind : (T inum).indirect = 0 := by rw [Dinode.indirect, h0]; rfl
    have hzero : s.disk (BitVec.ofNat 32 s.freeblock).toNat = zeroes := by
      rw [toNat_freeblock hsmall]
      exact hb.zero _ le_rfl
    have hself := ref_setIndirect hind (BitVec.ofNat 32 s.freeblock) hzero
    rw [toNat_freeblock hsmall] at hself
    have hadds : Adds T s inum .indirect ((T inum).setAddr (Fin.last NDIRECT) (BitVec.ofNat 32 s.freeblock)) s.fresh.2 :=
      ⟨rfl, rfl, rfl, rfl, fun _ _ => rfl, hind, hself⟩
    exact hadds.filled hb
  · rw [if_neg h0]
    refine Filled.refl hb ?_
    intro he
    exact h0 (eq_zero_of_toNat he)

theorem entry_filled (hb : Base T s) (hsmall : s.freeblock < 2 ^ 32) (hi : (T inum).indirect ≠ 0) (j : Fin NINDIRECT) :
    Filled T s inum (.entry j) (T inum) (s.entry (T inum) j).2 ∧
      (s.entry (T inum) j).1 = (T inum).ref (s.entry (T inum) j).2.disk (.entry j) := by
  unfold St.entry
  by_cases h0 : word.get (s.disk (T inum).indirect) j = 0
  · simp only [if_pos h0]
    have hset : (s.fresh.2.wsect (T inum).indirect (word.set (s.disk (T inum).indirect) j s.fresh.1)).disk (T inum).indirect =
        word.set (s.disk (T inum).indirect) j (BitVec.ofNat 32 s.freeblock) := update_self ..
    have hself := ref_setEntry hi hset
    rw [toNat_freeblock hsmall] at hself
    have hadds : Adds T s inum (.entry j) (T inum)
        (s.fresh.2.wsect (T inum).indirect (word.set (s.disk (T inum).indirect) j s.fresh.1)) := by
      refine ⟨rfl, rfl, rfl, rfl, ?_, ?_, hself⟩
      · intro b hne
        refine update_of_ne ?_ _ _
        intro he
        exact hi (he ▸ hne he)
      · rw [Dinode.ref, if_neg hi, h0]
        rfl
    refine ⟨hadds.filled hb, ?_⟩
    rw [hself, if_pos rfl]
    exact toNat_freeblock hsmall
  · simp only [if_neg h0]
    have href : (T inum).ref s.disk (.entry j) = (word.get (s.disk (T inum).indirect) j).toNat := if_neg hi
    refine ⟨Filled.refl hb ?_, href.symm⟩
    rw [href]
    intro he
    exact h0 (eq_zero_of_toNat he)

/-! ## A block of a file -/

/-- block `fbn` of the file of inode `inum` is `x` now -/
structure Placed (T : ℕ → Dinode) (s : St) (inum fbn x : ℕ) (din' : Dinode) (s' : St) : Prop where
  base : Base (update T inum din') s'
  fields : { din' with addrs := (T inum).addrs } = T inum
  freeinode : s'.freeinode = s.freeinode
  low : ∀ b, b < first → s'.disk b = s.disk b
  found : x = din'.block s'.disk fbn
  there : x ≠ 0
  blocks : ∀ bn, bn ≠ fbn → din'.block s'.disk bn = (T inum).block s.disk bn
  indirect : din'.indirect ≠ 0 ↔ (T inum).indirect ≠ 0 ∨ NDIRECT ≤ fbn
  others : ∀ j, j ≠ inum → ∀ sl, (T j).ref s'.disk sl = (T j).ref s.disk sl
  byte : ∀ j k, (update T inum din' j).byte s'.disk k = (T j).byte s.disk k
  count : s'.freeblock = s.freeblock + (if NDIRECT ≤ fbn ∧ (T inum).indirect = 0 then 1 else 0) +
    if (T inum).block s.disk fbn = 0 then 1 else 0

theorem block_congr {x y : Dinode} {d d' : Disk} {bn : ℕ} (h : ∀ sl, slotOf bn = some sl → y.ref d' sl = x.ref d sl) :
    y.block d' bn = x.block d bn := by
  unfold Dinode.block
  cases hsl : slotOf bn with
  | none => rfl
  | some sl => exact h sl hsl

theorem place_direct (hb : Base T s) (hsmall : s.freeblock < 2 ^ 32) {fbn : ℕ} (hlt : fbn < NDIRECT) :
    ∃ x din' s', s.place (T inum) fbn = .ok (x, din', s') ∧ Placed T s inum fbn x din' s' := by
  obtain ⟨hfill, hx⟩ := direct_filled hb hsmall ⟨fbn, hlt⟩
  have hplace : s.place (T inum) fbn = .ok (s.direct (T inum) ⟨fbn, hlt⟩) := dif_pos hlt
  generalize s.direct (T inum) ⟨fbn, hlt⟩ = r at hfill hx hplace
  refine ⟨_, _, _, hplace, ?_⟩
  constructor
  case base => exact hfill.base
  case fields => exact hfill.fields
  case freeinode => exact hfill.freeinode
  case low => exact hfill.low
  case found => rw [block_eq_direct hlt, ← hx]
  case there =>
    rw [hx]
    exact hfill.there
  case blocks =>
    intro bn hne
    refine block_congr fun sl hsl => hfill.self sl ?_
    rintro rfl
    have hfbn : slotOf fbn = some (.direct ⟨fbn, hlt⟩) := dif_pos hlt
    exact hne (slotOf_injective hsl hfbn)
  case indirect =>
    rw [or_iff_left (Nat.not_le.2 hlt)]
    exact iff_of_eq (congrArg (· ≠ 0) (hfill.self .indirect (by simp)))
  case others => exact hfill.others
  case byte => exact hfill.byte
  case count =>
    have hno : ¬ (NDIRECT ≤ fbn ∧ (T inum).indirect = 0) := fun h => absurd h.1 (Nat.not_le.2 hlt)
    rw [hfill.count, if_neg hno, block_eq_direct hlt, Nat.add_zero]

theorem place_entry (hb : Base T s) (hsmall : s.freeblock + 1 < 2 ^ 32) {fbn : ℕ} (hge : ¬ fbn < NDIRECT)
    (hlt : fbn - NDIRECT < NINDIRECT) :
    ∃ x din' s', s.place (T inum) fbn = .ok (x, din', s') ∧ Placed T s inum fbn x din' s' := by
  have hind : Filled T s inum .indirect _ _ := indirect_filled hb (by omega)
  generalize hdin : (s.indirect (T inum)).1 = din₁ at hind
  generalize hs₁ : (s.indirect (T inum)).2 = s₁ at hind
  have hself : update T inum din₁ inum = din₁ := update_self ..
  have hsmall₁ : s₁.freeblock < 2 ^ 32 := by
    have := hind.count
    split at this <;> omega
  obtain ⟨hfill, hx⟩ := entry_filled hind.base hsmall₁ (by rw [hself]; exact hind.there) ⟨fbn - NDIRECT, hlt⟩
  rw [hself] at hfill hx
  have hplace : s.place (T inum) fbn = .ok ((s₁.entry din₁ ⟨fbn - NDIRECT, hlt⟩).1, din₁,
      (s₁.entry din₁ ⟨fbn - NDIRECT, hlt⟩).2) := by
    rw [St.place, dif_neg hge, dif_pos hlt, ← hdin, ← hs₁]
  have hslot : slotOf fbn = some (.entry ⟨fbn - NDIRECT, hlt⟩) := by
    rw [slotOf, dif_neg hge, dif_pos hlt]
  have hupdate : update (update T inum din₁) inum din₁ = update T inum din₁ :=
    update_idem ..
  generalize s₁.entry din₁ ⟨fbn - NDIRECT, hlt⟩ = r at hfill hx hplace
  refine ⟨_, _, _, hplace, ?_⟩
  constructor
  case base =>
    have := hfill.base
    rwa [hupdate] at this
  case fields => exact hind.fields
  case freeinode => exact hfill.freeinode.trans hind.freeinode
  case low =>
    intro b hb
    rw [hfill.low b hb, hind.low b hb]
  case found => rw [block_eq_entry hge hlt, hx]
  case there =>
    rw [hx]
    exact hfill.there
  case blocks =>
    intro bn hne
    refine block_congr fun sl hsl => ?_
    have hother : sl ≠ .entry ⟨fbn - NDIRECT, hlt⟩ := by
      rintro rfl
      exact hne (slotOf_injective hsl hslot)
    have h2 := hfill.self sl hother
    rw [hself] at h2
    rw [h2, hind.self sl (slotOf_ne_indirect hsl)]
  case indirect =>
    refine ⟨fun _ => .inr (Nat.le_of_not_lt hge), fun _ => ?_⟩
    exact hind.there
  case others =>
    intro j hj sl
    have h2 := hfill.others j hj sl
    rw [update_of_ne hj] at h2
    rw [h2, hind.others j hj sl]
  case byte =>
    intro j k
    have h2 := hfill.byte j k
    rw [hupdate] at h2
    rw [h2, hind.byte j k]
  case count =>
    have hentry := hind.self (.entry ⟨fbn - NDIRECT, hlt⟩) (by simp)
    rw [hfill.count, hself, hentry, hind.count, block_eq_entry hge hlt]
    simp only [Nat.le_of_not_lt hge, true_and]
    rfl

/-- **A block for each part of a file**, up to MAXFILE of them. -/
theorem place_ends (hb : Base T s) (hsmall : s.freeblock + 1 < 2 ^ 32) (fbn : ℕ) :
    Ends (s.place (T inum) fbn) (fun r => fbn < MAXFILE ∧ Placed T s inum fbn r.1 r.2.1 r.2.2) fun _ => MAXFILE ≤ fbn := by
  by_cases hdir : fbn < NDIRECT
  · obtain ⟨x, din', s', he, hp⟩ := place_direct hb (by omega) hdir
    rw [he]
    refine Ends.ok ⟨?_, hp⟩
    unfold MAXFILE
    omega
  · by_cases hind : fbn - NDIRECT < NINDIRECT
    · obtain ⟨x, din', s', he, hp⟩ := place_entry hb hsmall hdir hind
      rw [he]
      refine Ends.ok ⟨?_, hp⟩
      unfold MAXFILE
      omega
    · rw [St.place, dif_neg hdir, dif_neg hind]
      refine Ends.error ?_
      unfold MAXFILE
      omega

/-! ## Files -/

/-- the blocks of a file of `n` bytes, with the indirect block -/
def blocksFor (n : ℕ) : ℕ := (n + BSIZE - 1) / BSIZE + if NDIRECT * BSIZE < n then 1 else 0

theorem blocksFor_le {n : ℕ} (h : n ≤ MAXFILE * BSIZE) : blocksFor n ≤ MAXFILE + 1 := by
  unfold blocksFor
  unfold MAXFILE NDIRECT NINDIRECT BSIZE at *
  split <;> omega

/-- the inode has these bytes, and no more blocks than they need -/
structure Holds (x : Dinode) (d : Disk) (bytes : List Byte) : Prop where
  fits : bytes.length ≤ MAXFILE * BSIZE
  block : ∀ bn, x.block d bn ≠ 0 ↔ bn * BSIZE < bytes.length
  indirect : x.indirect ≠ 0 ↔ NDIRECT * BSIZE < bytes.length
  byte : ∀ k, x.byte d k = bytes.getD k 0

/-- the inodes `T` have the files `t` -/
structure Laid (T : ℕ → Dinode) (s : St) (t : ℕ → List Byte) : Prop extends Base T s where
  holds : ∀ i, Holds (T i) s.disk (t i)
  count : s.freeblock = first + ∑ i ∈ Finset.range inodeRoom, blocksFor (t i).length

variable {t : ℕ → List Byte}

theorem Laid.small (h : Laid T s t) : s.freeblock + 1 < 2 ^ 32 := by
  have hsum : ∑ i ∈ Finset.range inodeRoom, blocksFor (t i).length ≤ inodeRoom * (MAXFILE + 1) := by
    have hle := Finset.sum_le_card_nsmul (Finset.range inodeRoom) (fun i => blocksFor (t i).length) (MAXFILE + 1)
      fun i _ => blocksFor_le (h.holds i).fits
    rwa [Finset.card_range, smul_eq_mul] at hle
  have hcount := h.count
  have hroom : first + inodeRoom * (MAXFILE + 1) + 1 < 2 ^ 32 := by decide
  omega

theorem sum_blocksFor_update (hi : inum < inodeRoom) (bytes : List Byte) :
    ∑ i ∈ Finset.range inodeRoom, blocksFor (update t inum bytes i).length + blocksFor (t inum).length =
      ∑ i ∈ Finset.range inodeRoom, blocksFor (t i).length + blocksFor bytes.length := by
  have hmem : inum ∈ Finset.range inodeRoom := Finset.mem_range.2 hi
  rw [← Finset.add_sum_erase _ _ hmem, ← Finset.add_sum_erase (Finset.range inodeRoom) (fun i => blocksFor (t i).length) hmem,
    update_self]
  have hrest : ∑ i ∈ (Finset.range inodeRoom).erase inum, blocksFor (update t inum bytes i).length =
      ∑ i ∈ (Finset.range inodeRoom).erase inum, blocksFor (t i).length := by
    apply Finset.sum_congr rfl
    intro i hmem
    rw [update_of_ne (Finset.ne_of_mem_erase hmem)]
  rw [hrest]
  omega

/-- a store in a block of a file keeps the blocks -/
theorem Base.store (hb : Base T s) {bn : ℕ} (h0 : (T inum).block s.disk bn ≠ 0) (v : Block) :
    Base T (s.wsect ((T inum).block s.disk bn) v) ∧
      ∀ j sl, (T j).ref (s.wsect ((T inum).block s.disk bn) v).disk sl = (T j).ref s.disk sl := by
  obtain ⟨sl, hsl⟩ := slot_of_block h0
  rw [block_of_slot hsl] at h0 ⊢
  obtain ⟨hge, hlt⟩ := hb.allots.used (inum, sl) h0
  have hrefs : ∀ j sl', (T j).ref (s.wsect ((T inum).ref s.disk sl) v).disk sl' = (T j).ref s.disk sl' :=
    fun j sl' => ref_of_data hb.allots (slotOf_ne_indirect hsl) h0 v j sl'
  refine ⟨⟨?_, hb.low, hb.used, ?_, ?_⟩, hrefs⟩
  · have hone : (T inum).ref s.disk sl ≠ 1 := (Nat.lt_of_lt_of_le (by decide) hge).ne'
    exact (readsb_update hone v).trans hb.sb
  · intro b hle
    have hne : b ≠ (T inum).ref s.disk sl := (Nat.lt_of_lt_of_le hlt hle).ne'
    exact (update_of_ne hne _ _).trans (hb.zero b hle)
  · exact hb.allots.congr (fun p => hrefs p.1 p.2) fun _ hu => hu

/-- what one turn of `iappend` adds to the count -/
theorem blocksFor_turn {off fbn m : ℕ} (hfbn : fbn = off / BSIZE) (hpos : 0 < m) (hm : off + m ≤ (fbn + 1) * BSIZE) :
    blocksFor (off + m) = blocksFor off + (if NDIRECT ≤ fbn ∧ ¬ NDIRECT * BSIZE < off then 1 else 0) +
      if ¬ fbn * BSIZE < off then 1 else 0 := by
  unfold blocksFor
  unfold BSIZE NDIRECT at *
  have hceil : (off + m + 512 - 1) / 512 = fbn + 1 := by omega
  rw [hceil]
  by_cases hstart : fbn * 512 < off
  · have hold : (off + 512 - 1) / 512 = fbn + 1 := by omega
    have hiff : 12 * 512 < off + m ↔ 12 * 512 < off := by omega
    simp only [hold, hiff, hstart, not_true_eq_false, if_false]
    split <;> split <;> omega
  · have hold : (off + 512 - 1) / 512 = fbn := by omega
    simp only [hold, hstart, not_false_eq_true, if_true]
    split <;> split <;> split <;> omega

/-- **One turn of `iappend`**, once the block is found: the bytes up to its end are added to the file. -/
theorem Laid.turn (h : Laid T s t) (hi : inum < inodeRoom) {fbn x : ℕ} (hfbn : fbn = (t inum).length / BSIZE)
    (hmax : fbn < MAXFILE) (hp : Placed T s inum fbn x din' s') {q : List Byte} (hq : q ≠ [])
    (hfit : (t inum).length + q.length ≤ (fbn + 1) * BSIZE) :
    Laid (update T inum din')
      (s'.wsect x (splice (s'.disk x) ((t inum).length - fbn * BSIZE) q)) (update t inum (t inum ++ q)) := by
  have hself : update T inum din' inum = din' := update_self ..
  have hpos : 0 < q.length := List.length_pos_iff.2 hq
  have hle : fbn * BSIZE ≤ (t inum).length := by
    rw [hfbn]
    exact Nat.div_mul_le_self _ _
  have hx : x = (update T inum din' inum).block s'.disk fbn := by rw [hself, hp.found]
  have h0 : (update T inum din' inum).block s'.disk fbn ≠ 0 := by
    rw [← hx]
    exact hp.there
  obtain ⟨hbase, hrefs⟩ := hp.base.store h0 (splice (s'.disk x) ((t inum).length - fbn * BSIZE) q)
  have hqfit : (t inum).length - fbn * BSIZE + q.length ≤ BSIZE := by
    rw [Nat.succ_mul] at hfit
    omega
  have hbyte := byte_store hp.base.allots h0 hqfit
  rw [← hx] at hbase hrefs hbyte
  rw [Nat.add_sub_cancel' hle] at hbyte
  have hblocks : ∀ j bn, (update T inum din' j).block
      (s'.wsect x (splice (s'.disk x) ((t inum).length - fbn * BSIZE) q)).disk bn =
      (update T inum din' j).block s'.disk bn := fun j bn => block_congr fun sl _ => hrefs j sl
  refine ⟨hbase, ?_, ?_⟩
  · intro j
    by_cases hj : j = inum
    · subst hj
      have hnew : update t j (t j ++ q) j = t j ++ q := update_self ..
      rw [hnew]
      have hlen : (t j ++ q).length = (t j).length + q.length := List.length_append
      refine ⟨?_, ?_, ?_, ?_⟩
      · rw [hlen]
        exact hfit.trans (Nat.mul_le_mul_right _ hmax)
      · intro bn
        rw [hblocks, hself, hlen]
        by_cases hbn : bn = fbn
        · rw [hbn, ← hp.found]
          exact iff_of_true hp.there (by omega)
        · rw [hp.blocks bn hbn, (h.holds j).block]
          -- the other blocks end before the old length or start after the new one
          unfold BSIZE at *
          omega
      · rw [hself, hp.indirect, (h.holds j).indirect, hlen]
        unfold BSIZE NDIRECT at *
        omega
      · intro k
        refine (hbyte j k).trans ?_
        rw [hp.byte, (h.holds j).byte]
        simp only [true_and]
        by_cases hin : (t j).length ≤ k
        · rw [List.getD_append_right _ _ _ _ hin]
          split
          · rfl
          · rw [List.getD_eq_default _ _ hin, List.getD_eq_default _ _ (by omega)]
        · rw [if_neg (fun hc => hin hc.1), List.getD_append _ _ _ _ (by omega)]
    · have hsame : update t inum (t inum ++ q) j = t j := update_of_ne hj ..
      rw [hsame]
      have hold := h.holds j
      refine ⟨hold.fits, ?_, ?_, ?_⟩
      · intro bn
        rw [hblocks, update_of_ne hj, block_congr fun sl _ => hp.others j hj sl]
        exact hold.block bn
      · rw [update_of_ne hj]
        exact hold.indirect
      · intro k
        refine (hbyte j k).trans ?_
        rw [if_neg (fun hc => hj hc.1), hp.byte]
        exact hold.byte k
  · change s'.freeblock = _
    have hsum := sum_blocksFor_update (t := t) hi (t inum ++ q)
    rw [List.length_append, blocksFor_turn hfbn hpos hfit] at hsum
    have hblock0 : ((T inum).block s.disk fbn = 0) = ¬ fbn * BSIZE < (t inum).length := by
      apply propext
      rw [← (h.holds inum).block, not_not]
    have hind0 : ((T inum).indirect = 0) = ¬ NDIRECT * BSIZE < (t inum).length := by
      apply propext
      rw [← (h.holds inum).indirect, not_not]
    have hcount := hp.count
    simp only [hblock0, hind0] at hcount
    rw [hcount, h.count]
    omega

/-- **The loop of `iappend`** adds all of its bytes to the file, unless it gets too long. -/
theorem appendLoop_ends (hi : inum < inodeRoom) (turns : ℕ) : ∀ {T : ℕ → Dinode} {s : St} {t : ℕ → List Byte}
    (p : List Byte), Laid T s t → p.length ≤ turns →
    Ends (St.appendLoop turns s (T inum) (t inum).length p)
      (fun r => r.2.1 = (t inum).length + p.length ∧
        Laid (update T inum r.1) r.2.2 (update t inum (t inum ++ p)) ∧
        { r.1 with addrs := (T inum).addrs } = T inum ∧ r.2.2.freeinode = s.freeinode ∧
        ∀ b, b < first → r.2.2.disk b = s.disk b)
      fun _ => MAXFILE * BSIZE < (t inum).length + p.length := by
  induction turns with
  | zero =>
    intro T s t p h hp
    obtain rfl : p = [] := List.length_eq_zero_iff.1 (Nat.le_zero.1 hp)
    refine Ends.ok ⟨rfl, ?_, rfl, rfl, fun _ _ => rfl⟩
    rwa [List.append_nil, update_eq_self, update_eq_self]
  | succ turns ih =>
    intro T s t p h hp
    unfold St.appendLoop
    by_cases hnil : p = []
    · subst hnil
      rw [if_pos rfl]
      refine Ends.ok ⟨rfl, ?_, rfl, rfl, fun _ _ => rfl⟩
      rwa [List.append_nil, update_eq_self, update_eq_self]
    · rw [if_neg hnil]
      have hpos : 0 < p.length := List.length_pos_iff.2 hnil
      generalize hfbn : (t inum).length / 512 = fbn
      have hdiv : fbn * 512 ≤ (t inum).length ∧ (t inum).length < (fbn + 1) * 512 := by omega
      have hlong : MAXFILE ≤ fbn → MAXFILE * BSIZE < (t inum).length + p.length := by
        intro hle
        have hmul : MAXFILE * BSIZE ≤ fbn * 512 := Nat.mul_le_mul_right 512 hle
        omega
      refine ((place_ends h.toBase h.small fbn).mono (fun _ hr => hr) fun _ hle => hlong hle).bind ?_
      rintro ⟨x, din', s'⟩ ⟨hmax, hpl⟩
      simp only at hpl
      generalize hn1 : min p.length ((fbn + 1) * 512 - (t inum).length) = n1
      have hn1p : 0 < n1 ∧ n1 ≤ p.length ∧ (t inum).length + n1 ≤ (fbn + 1) * 512 := by omega
      have hqlen : (p.take n1).length = n1 := by
        rw [List.length_take]
        omega
      have hq : p.take n1 ≠ [] := by
        intro he
        rw [he, List.length_nil] at hqlen
        omega
      have hturn := h.turn hi hfbn.symm hmax hpl hq (by rw [hqlen]; exact hn1p.2.2)
      have htself : update t inum (t inum ++ p.take n1) inum = t inum ++ p.take n1 := update_self ..
      have hTself : update T inum din' inum = din' := update_self ..
      have hrest := ih (p.drop n1) hturn (by rw [List.length_drop]; omega)
      rw [htself, hTself, List.length_append, hqlen, List.length_drop, List.append_assoc, List.take_append_drop,
        update_idem] at hrest
      refine hrest.mono ?_ ?_
      · rintro r ⟨hoff, hlaid, hfields, hfree, hlow⟩
        rw [update_idem] at hlaid
        refine ⟨by omega, hlaid, ?_, hfree.trans hpl.freeinode, ?_⟩
        · have h1 := hpl.fields
          rw [← hfields] at h1
          exact h1
        · intro b hb
          rw [hlow b hb]
          have hbase := hpl.base.allots
          have hge : first ≤ x := by
            have hu := hpl.there
            rw [hpl.found] at hu
            obtain ⟨sl, hsl⟩ := slot_of_block hu
            rw [block_of_slot hsl] at hu
            have := (hbase.used (inum, sl) (by rw [refs_update_self]; exact hu)).1
            rw [refs_update_self, ← block_of_slot hsl, ← hpl.found] at this
            exact this
          have hne : b ≠ x := (Nat.lt_of_lt_of_le hb hge).ne
          exact (update_of_ne hne _ _).trans (hpl.low b hb)
      · intro _ hlt
        omega

/-! ## Inodes -/

theorem IBLOCK_lt_bitmap {i : ℕ} (h : i < inodeRoom) : IBLOCK i < ninodes / IPB + 3 := by
  unfold inodeRoom at h
  unfold IBLOCK IPB at *
  omega

theorem IBLOCK_lt_first {i : ℕ} (h : i < inodeRoom) : IBLOCK i < first :=
  (IBLOCK_lt_bitmap h).trans (by decide)

/-- the inodes are before the bitmap -/
theorem table_of_low {d d' : Disk} (h : ∀ b, b < ninodes / IPB + 3 → d' b = d b) : table d' = table d := by
  funext i
  unfold table
  split
  · rename_i hi
    rw [Disk.inode, Disk.inode, h _ (IBLOCK_lt_bitmap hi)]
  · rfl

theorem table_setInode (hi : inum < inodeRoom) (d : Disk) (x : Dinode) :
    table (d.setInode inum x) = update (table d) inum x := by
  funext i
  by_cases h : i = inum
  · subst h
    rw [update_self, table, if_pos hi, Disk.inode_setInode_self]
  · rw [update_of_ne h, table, table, Disk.inode_setInode_of_ne h]

/-- stores before the first block of a file, and to other fields of inodes, change no file -/
theorem Laid.of_refs (h : Laid T s t) {T' : ℕ → Dinode} {d' : Disk} (hd : ∀ b, first ≤ b → d' b = s.disk b)
    (hsb : d' 1 = s.disk 1) (hT : ∀ i sl, (T' i).ref s.disk sl = (T i).ref s.disk sl) (n : ℕ) :
    Laid T' { s with disk := d', freeinode := n } t := by
  have hfirst : ∀ i sl, (T i).ref s.disk sl ≠ 0 → first ≤ (T i).ref s.disk sl := fun i sl h0 => h.first_le h0
  have hrefs : ∀ i sl, (T' i).ref d' sl = (T i).ref s.disk sl := by
    intro i sl
    rw [← hT]
    apply ref_congr
    intro h0
    have hind : (T' i).indirect = (T i).indirect := hT i .indirect
    rw [hind] at h0 ⊢
    exact hd _ (hfirst i .indirect h0)
  have hblocks : ∀ i bn, (T' i).block d' bn = (T i).block s.disk bn := fun i bn => block_congr fun sl _ => hrefs i sl
  constructor
  case toBase =>
    refine ⟨?_, h.low, h.used, ?_, ?_⟩
    · exact (congrArg (superblock.get · 0) hsb).trans h.sb
    · intro b hle
      exact (hd b (h.low.trans hle)).trans (h.zero b hle)
    · exact h.allots.congr (fun p => hrefs p.1 p.2) fun _ hu => hu
  case holds =>
    intro i
    have hold := h.holds i
    refine ⟨hold.fits, ?_, ?_, ?_⟩
    · intro bn
      rw [hblocks]
      exact hold.block bn
    · have hind : (T' i).indirect = (T i).indirect := hT i .indirect
      rw [hind]
      exact hold.indirect
    · intro k
      rw [← hold.byte k, Dinode.byte, Dinode.byte, hblocks]
      by_cases h0 : (T i).block s.disk (k / BSIZE) = 0
      · rw [if_pos h0, if_pos h0]
      · rw [if_neg h0, if_neg h0]
        obtain ⟨sl, hsl⟩ := slot_of_block h0
        rw [block_of_slot hsl] at h0 ⊢
        change rd (d' _) _ = _
        rw [hd _ (hfirst i sl h0)]
  case count => exact h.count

/-- the type of inode `i` when the next one is `n` -/
def typeOf (n i : ℕ) : BitVec 16 := if i = 0 ∨ n ≤ i then 0 else if i = ROOTINO then T_DIR else T_FILE

/-- the disk has the files `t` -/
structure Image (s : St) (t : ℕ → List Byte) : Prop where
  laid : Laid (table s.disk) s t
  size : ∀ i, (table s.disk i).size.toNat = (t i).length
  type : ∀ i, (table s.disk i).type = typeOf s.freeinode i
  fresh : ∀ i, s.freeinode ≤ i → t i = []

theorem setInode_of_first {d : Disk} (hi : inum < inodeRoom) (x : Dinode) {b : ℕ} (hb : first ≤ b) :
    d.setInode inum x b = d b :=
  update_of_ne (Nat.lt_of_lt_of_le (IBLOCK_lt_first hi) hb).ne' _ _

theorem setInode_one {d : Disk} (x : Dinode) : d.setInode inum x 1 = d 1 :=
  update_of_ne (one_lt_IBLOCK inum).ne _ _

/-- a new inode is an empty file -/
theorem ialloc_image (h : Image s t) (hroom : s.freeinode < inodeRoom) {type : BitVec 16}
    (htype : type = typeOf (s.freeinode + 1) s.freeinode) : Image (s.ialloc type).2 t := by
  have hempty : t s.freeinode = [] := h.fresh _ le_rfl
  have hnone : ∀ sl, (table s.disk s.freeinode).ref s.disk sl = 0 := by
    have hold := h.laid.holds s.freeinode
    have hind : (table s.disk s.freeinode).indirect = 0 := by
      by_contra h0
      have := hold.indirect.1 h0
      rw [hempty] at this
      exact absurd this (Nat.not_lt_zero _)
    intro sl
    cases sl with
    | direct j =>
      have hblock := block_eq_direct (x := table s.disk s.freeinode) (d := s.disk) j.isLt
      rw [← hblock]
      by_contra h0
      have := (hold.block j).1 h0
      rw [hempty] at this
      exact absurd this (Nat.not_lt_zero _)
    | indirect => exact hind
    | entry j => exact if_pos hind
  have htable : table (s.ialloc type).2.disk =
      update (table s.disk) s.freeinode { Dinode.empty with type := type, nlink := 1 } := table_setInode hroom _ _
  have hlaid : Laid (table (s.ialloc type).2.disk) (s.ialloc type).2 t := by
    rw [htable]
    refine h.laid.of_refs (fun b hb => setInode_of_first hroom _ hb) (setInode_one _) ?_ (s.freeinode + 1)
    intro i sl
    by_cases hi : i = s.freeinode
    · rw [hi, update_self, hnone]
      exact ref_of_no_addrs rfl sl
    · rw [update_of_ne hi]
  constructor
  case laid => exact hlaid
  case size =>
    intro i
    rw [htable]
    by_cases hi : i = s.freeinode
    · rw [hi, update_self, hempty]
      rfl
    · rw [update_of_ne hi]
      exact h.size i
  case type =>
    intro i
    rw [htable]
    change _ = typeOf (s.freeinode + 1) i
    by_cases hi : i = s.freeinode
    · rw [hi, update_self]
      exact htype
    · rw [update_of_ne hi, h.type i, typeOf, typeOf]
      have hiff : (i = 0 ∨ s.freeinode ≤ i) = (i = 0 ∨ s.freeinode + 1 ≤ i) := propext (by omega)
      simp only [hiff]
  case fresh =>
    intro i hi
    exact h.fresh i (Nat.le_of_succ_le hi)

/-- **`iappend` appends.** -/
theorem iappend_ends (h : Image s t) (hi : inum < s.freeinode) (hroom : s.freeinode ≤ inodeRoom) (p : List Byte) :
    Ends (s.iappend inum p)
      (fun s' => Image s' (update t inum (t inum ++ p)) ∧ s'.freeinode = s.freeinode)
      fun _ => MAXFILE * BSIZE < (t inum).length + p.length := by
  have hlt : inum < inodeRoom := hi.trans_le hroom
  have hdin : s.disk.inode inum = table s.disk inum := (if_pos hlt).symm
  simp only [St.iappend, hdin, h.size inum]
  refine (appendLoop_ends hlt p.length p h.laid le_rfl).bind ?_
  rintro ⟨din, off, s'⟩ ⟨hoff, hlaid, hfields, hfree, hlow⟩
  simp only at hoff hlaid hfields hfree hlow
  have hself : update t inum (t inum ++ p) inum = t inum ++ p := update_self ..
  have htable : table s'.disk = table s.disk := table_of_low fun b hb => hlow b (hb.trans (by decide))
  have htable' : table (s'.winode inum { din with size := BitVec.ofNat 32 off }).disk =
      update (table s.disk) inum { din with size := BitVec.ofNat 32 off } := by
    rw [← htable]
    exact table_setInode hlt _ _
  have hsmall : off < 2 ^ 32 := by
    have hfits := (hlaid.holds inum).fits
    rw [hself, List.length_append, ← hoff] at hfits
    exact Nat.lt_of_le_of_lt hfits (by decide)
  refine Ends.ok ⟨?_, hfree⟩
  constructor
  case laid =>
    rw [htable']
    refine hlaid.of_refs (fun b hb => setInode_of_first hlt _ hb) (setInode_one _) ?_ s'.freeinode
    intro i sl
    by_cases hii : i = inum
    · rw [hii, update_self, update_self]
      cases sl <;> rfl
    · rw [update_of_ne hii, update_of_ne hii]
  case size =>
    intro i
    rw [htable']
    by_cases hii : i = inum
    · rw [hii, update_self, hself, List.length_append, ← hoff]
      exact Nat.mod_eq_of_lt hsmall
    · rw [update_of_ne hii]
      have hsame : update t inum (t inum ++ p) i = t i := update_of_ne hii ..
      rw [hsame]
      exact h.size i
  case type =>
    intro i
    rw [htable']
    change _ = typeOf s'.freeinode i
    rw [hfree, ← h.type i]
    by_cases hii : i = inum
    · have htype := congrArg Dinode.type hfields
      rw [hii, update_self]
      exact htype
    · rw [update_of_ne hii]
  case fresh =>
    intro i hle
    change s'.freeinode ≤ i at hle
    rw [hfree] at hle
    have hii : i ≠ inum := (hi.trans_le hle).ne'
    have hsame : update t inum (t inum ++ p) i = t i := update_of_ne hii ..
    rw [hsame]
    exact h.fresh i hle

theorem appendFile_ends (hroom : s.freeinode ≤ inodeRoom) (hi : inum < s.freeinode) (turns : ℕ) :
    ∀ {s₁ : St} {t : ℕ → List Byte} (bytes : List Byte), Image s₁ t → s₁.freeinode = s.freeinode → bytes.length ≤ turns →
    Ends (St.appendFile turns s₁ inum bytes)
      (fun s' => Image s' (update t inum (t inum ++ bytes)) ∧ s'.freeinode = s.freeinode)
      fun _ => MAXFILE * BSIZE < (t inum).length + bytes.length := by
  induction turns with
  | zero =>
    intro s₁ t bytes h hn hlen
    obtain rfl : bytes = [] := List.length_eq_zero_iff.1 (Nat.le_zero.1 hlen)
    refine Ends.ok ⟨?_, hn⟩
    rwa [List.append_nil, update_eq_self]
  | succ turns ih =>
    intro s₁ t bytes h hn hlen
    unfold St.appendFile
    by_cases hnil : bytes = []
    · subst hnil
      rw [if_pos rfl]
      refine Ends.ok ⟨?_, hn⟩
      rwa [List.append_nil, update_eq_self]
    · rw [if_neg hnil]
      have hpos : 0 < bytes.length := List.length_pos_iff.2 hnil
      have happend := iappend_ends h (hi.trans_eq hn.symm) (hn.trans_le hroom) (bytes.take 512)
      refine (happend.mono (fun _ hr => hr) ?_).bind ?_
      · intro _ hlong
        rw [List.length_take] at hlong
        omega
      · rintro s₂ ⟨h₂, hn₂⟩
        have hrest := ih (bytes.drop 512) h₂ (hn₂.trans hn) (by rw [List.length_drop]; omega)
        have hself : update t inum (t inum ++ bytes.take 512) inum = t inum ++ bytes.take 512 :=
          update_self ..
        rw [hself, List.append_assoc, List.take_append_drop, List.length_append, List.length_take, List.length_drop,
          update_idem] at hrest
        refine hrest.mono (fun _ hr => hr) ?_
        intro _ hlong
        omega

/-! ## The command line -/

/-- the name that a file gets -/
def fileName (name : List Byte) : List Byte := if name.head? = some underscore then name.drop 1 else name

theorem length_entryBytes (i : ℕ) (name : List Byte) : (entryBytes i name).length = 16 := List.length_ofFn

/-- the files when `name` has been added as inode `n` -/
def added (t : ℕ → List Byte) (n : ℕ) (name bytes : List Byte) : ℕ → List Byte :=
  update (update t ROOTINO (t ROOTINO ++ entryBytes n (fileName name))) n bytes

theorem addFile_ends (h : Image s t) (hlow : 2 ≤ s.freeinode) (hroom : s.freeinode < inodeRoom) (name bytes : List Byte) :
    Ends (addFile s ROOTINO name bytes)
      (fun s' => Image s' (added t s.freeinode name bytes) ∧ s'.freeinode = s.freeinode + 1)
      fun _ => slash ∈ name ∨ MAXFILE * BSIZE < (t ROOTINO).length + 16 ∨ MAXFILE * BSIZE < bytes.length := by
  unfold addFile
  by_cases hslash : slash ∈ name
  · rw [if_pos hslash]
    exact Ends.error (.inl hslash)
  · rw [if_neg hslash]
    have htype : T_FILE = typeOf (s.freeinode + 1) s.freeinode := by
      unfold typeOf ROOTINO
      rw [if_neg (by omega), if_neg (by omega)]
    have h₁ : Image (s.ialloc T_FILE).2 t := ialloc_image h hroom htype
    have hn₁ : (s.ialloc T_FILE).2.freeinode = s.freeinode + 1 := rfl
    have hroot : ROOTINO < s.freeinode + 1 := by
      unfold ROOTINO
      omega
    have hentry := iappend_ends h₁ (hroot.trans_eq hn₁.symm) hroom (entryBytes s.freeinode (fileName name))
    rw [length_entryBytes] at hentry
    refine (hentry.mono (fun _ hr => hr) fun _ hlong => .inr (.inl hlong)).bind ?_
    rintro s₂ ⟨h₂, hn₂⟩
    have hne : s.freeinode ≠ ROOTINO := by
      unfold ROOTINO
      omega
    have hempty : update t ROOTINO (t ROOTINO ++ entryBytes s.freeinode (fileName name)) s.freeinode = [] := by
      rw [update_of_ne hne]
      exact h.fresh _ le_rfl
    have hfile := appendFile_ends (s := (s.ialloc T_FILE).2) hroom (Nat.lt_succ_self _)
      (bytes.length + 1) bytes h₂ hn₂ (Nat.le_succ _)
    rw [hempty, List.nil_append, List.length_nil, Nat.zero_add] at hfile
    refine hfile.mono (fun _ hr => hr) fun _ hlong => .inr (.inr hlong)

/-- the files when those of the command line have been added, from inode `n` on -/
def allAdded : (ℕ → List Byte) → ℕ → List (List Byte × List Byte) → ℕ → List Byte
  | t, _, [] => t
  | t, n, (name, bytes) :: files => allAdded (added t n name bytes) (n + 1) files

theorem addFiles_ends (files : List (List Byte × List Byte)) : ∀ {s : St} {t : ℕ → List Byte}, Image s t →
    2 ≤ s.freeinode → s.freeinode + files.length ≤ inodeRoom → (t ROOTINO).length = 16 * s.freeinode →
    Ends (addFiles s ROOTINO files)
      (fun s' => Image s' (allAdded t s.freeinode files) ∧ s'.freeinode = s.freeinode + files.length)
      fun _ => ∃ f ∈ files, slash ∈ f.1 ∨ MAXFILE * BSIZE < f.2.length := by
  induction files with
  | nil =>
    intro s t h _ _ _
    exact Ends.ok ⟨h, rfl⟩
  | cons f files ih =>
    intro s t h hlow hroom hroot
    obtain ⟨name, bytes⟩ := f
    rw [List.length_cons] at hroom
    unfold addFiles
    refine ((addFile_ends h hlow (by omega) name bytes).mono (fun _ hr => hr) ?_).bind ?_
    · rintro _ (hslash | hlong | hlong)
      · exact ⟨_, List.mem_cons_self, .inl hslash⟩
      · -- there are not as many inodes as entries that fit
        have hmany : 16 * inodeRoom ≤ MAXFILE * BSIZE := by decide
        omega
      · exact ⟨_, List.mem_cons_self, .inr hlong⟩
    · rintro s₁ ⟨h₁, hn₁⟩
      have hne : ROOTINO ≠ s.freeinode := by
        unfold ROOTINO
        omega
      have hroot₁ : (added t s.freeinode name bytes ROOTINO).length = 16 * s₁.freeinode := by
        rw [added, update_of_ne hne, update_self, List.length_append, length_entryBytes, hroot, hn₁]
        omega
      refine (ih h₁ (by omega) (by omega) hroot₁).mono ?_ ?_
      · rintro s' ⟨h', hn'⟩
        rw [hn₁] at h' hn'
        refine ⟨h', ?_⟩
        rw [hn', List.length_cons]
        omega
      · rintro _ ⟨f, hf, hbad⟩
        exact ⟨f, List.mem_cons_of_mem _ hf, hbad⟩

/-- the files before the first one of the command line: the root directory -/
def rootOnly : ℕ → List Byte :=
  update (fun _ => []) ROOTINO (entryBytes ROOTINO [dot] ++ entryBytes ROOTINO [dot, dot])

/-- the files of the image -/
def contents (files : List (List Byte × List Byte)) : ℕ → List Byte := allAdded rootOnly 2 files

/-- the blocks in use then -/
def blocksOf (files : List (List Byte × List Byte)) : ℕ :=
  first + ∑ i ∈ Finset.range inodeRoom, blocksFor (contents files i).length

theorem blank_disk : blank.disk = update (fun _ => zeroes) 1 (superblock.set zeroes 0 sb) := rfl

theorem blank_image : Image blank fun _ => [] := by
  have hdisk : ∀ b, b ≠ 1 → blank.disk b = zeroes := by
    intro b hb
    rw [blank_disk, update_of_ne hb]
  have htable : ∀ i, table blank.disk i = Dinode.empty := by
    intro i
    unfold table
    split
    · exact inode_zeroes i (hdisk _ (one_lt_IBLOCK i).ne')
    · rfl
  have hrefs : ∀ i sl, (table blank.disk i).ref blank.disk sl = 0 := by
    intro i sl
    rw [htable]
    exact ref_of_no_addrs rfl sl
  have hblocks : ∀ i bn, (table blank.disk i).block blank.disk bn = 0 := by
    intro i bn
    unfold Dinode.block
    split
    · exact hrefs i _
    · rfl
  constructor
  case laid =>
    constructor
    case toBase =>
      refine ⟨?_, le_rfl, rfl, ?_, ?_⟩
      · rw [readsb, blank_disk, update_self, superblock.get_set_self _ _ (by decide)]
      · intro b hle
        exact hdisk b (Nat.lt_of_lt_of_le (by decide) hle).ne'
      · exact ⟨fun p h0 => absurd (hrefs p.1 p.2) h0, fun p _ h0 => absurd (hrefs p.1 p.2) h0⟩
    case holds =>
      intro i
      refine ⟨Nat.zero_le _, ?_, ?_, ?_⟩
      · intro bn
        rw [hblocks]
        exact iff_of_false (fun h => h rfl) (Nat.not_lt_zero _)
      · rw [htable]
        exact iff_of_false (fun h => h rfl) (Nat.not_lt_zero _)
      · intro k
        exact byte_of_block_zero (hblocks i _)
    case count =>
      have hsum : ∑ i ∈ Finset.range inodeRoom, blocksFor ([] : List Byte).length = 0 :=
        Finset.sum_eq_zero fun _ _ => rfl
      rw [hsum]
      rfl
  case size =>
    intro i
    rw [htable]
    rfl
  case type =>
    intro i
    rw [htable, typeOf, if_pos]
    · rfl
    · change i = 0 ∨ 1 ≤ i
      omega
  case fresh => exact fun _ _ => rfl

/-- the disk that mkfs leaves: the size of the root directory is rounded up, and the bitmap is written -/
def finished (s : St) : Disk :=
  let din := s.disk.inode ROOTINO
  update (s.disk.setInode ROOTINO { din with size := BitVec.ofNat 32 ((din.size.toNat / BSIZE + 1) * BSIZE) })
    (ninodes / IPB + 3) (St.bitmap s.usedblocks)

/-- **The image.** If its inodes fit and mkfs does not fail, its files are those of the command line. -/
theorem main_ends (files : List (List Byte × List Byte)) (hfew : files.length + 2 ≤ inodeRoom) :
    Ends (main files)
      (fun s => s.usedblocks < 512 * 8 ∧ s.usedblocks = blocksOf files ∧ ∃ s₁, Image s₁ (contents files) ∧
        s₁.usedblocks = s.usedblocks ∧ s₁.freeinode = files.length + 2 ∧ s.disk = finished s₁)
      fun _ => (∃ f ∈ files, slash ∈ f.1 ∨ MAXFILE * BSIZE < f.2.length) ∨ 512 * 8 ≤ blocksOf files := by
  have hlayout : ¬ nblocks + blank.usedblocks + nlog ≠ size := by decide
  have hrootino : ¬ (blank.ialloc T_DIR).1 ≠ ROOTINO := by decide
  unfold main
  simp only [if_neg hlayout]
  rw [if_neg hrootino, show (blank.ialloc T_DIR).1 = ROOTINO from rfl]
  -- the root directory and its two entries
  have h₁ : Image (blank.ialloc T_DIR).2 fun _ => [] := ialloc_image blank_image (by decide) (by decide)
  have hn₁ : (blank.ialloc T_DIR).2.freeinode = 2 := rfl
  generalize (blank.ialloc T_DIR).2 = s₁ at h₁ hn₁ ⊢
  have hroot₁ : ROOTINO < s₁.freeinode := by
    rw [hn₁]
    decide
  have hdot := iappend_ends h₁ hroot₁ (by rw [hn₁]; decide) (entryBytes ROOTINO [dot])
  rw [length_entryBytes, List.nil_append] at hdot
  refine (hdot.mono (fun _ hr => hr) fun _ hlong => absurd hlong (by decide)).bind ?_
  rintro s₂ ⟨h₂, hn₂⟩
  rw [hn₁] at hn₂
  have hself₂ : update (fun _ => []) ROOTINO (entryBytes ROOTINO [dot]) ROOTINO = entryBytes ROOTINO [dot] :=
    update_self ..
  have hroot₂ : ROOTINO < s₂.freeinode := by
    rw [hn₂]
    decide
  have hdots := iappend_ends h₂ hroot₂ (by rw [hn₂]; decide) (entryBytes ROOTINO [dot, dot])
  rw [hself₂, length_entryBytes, length_entryBytes, update_idem] at hdots
  refine (hdots.mono (fun _ hr => hr) fun _ hlong => absurd hlong (by decide)).bind ?_
  rintro s₃ ⟨h₃, hn₃⟩
  rw [hn₂] at hn₃
  have hroot : (rootOnly ROOTINO).length = 16 * s₃.freeinode := by
    rw [rootOnly, update_self, List.length_append, length_entryBytes, length_entryBytes, hn₃]
  have hfiles := addFiles_ends files h₃ (by omega) (by omega) hroot
  refine (hfiles.mono (fun _ hr => hr) fun _ hbad => .inl hbad).bind ?_
  rintro s₄ ⟨h₄, hn₄⟩
  rw [hn₃] at h₄ hn₄
  have hused : s₄.usedblocks = blocksOf files := h₄.laid.used.trans h₄.laid.count
  unfold St.balloc
  split
  · rename_i hlt
    exact Ends.ok ⟨hlt, hused, s₄, h₄, rfl, by omega, rfl⟩
  · rename_i hge
    refine Ends.error (.inr ?_)
    rw [← hused]
    exact Nat.le_of_not_lt hge

/-! ## The finished image -/

theorem bit_bitmap {used : ℕ} (h : used ≤ 512 * 8) (b : ℕ) : bit (St.bitmap used) b = decide (b < used) := by
  induction used with
  | zero =>
    have hzero : bit (zeroes : Block) b = false := by
      rw [bit, rd_zeroes]
      exact bne_eq_false_iff_eq.2 BitVec.zero_and
    rw [St.bitmap, List.range_zero, List.foldl_nil, hzero, decide_eq_false (Nat.not_lt_zero b)]
  | succ used ih =>
    have hbyte : used / 8 < BSIZE := by
      unfold BSIZE
      omega
    have hsucc : St.bitmap (used + 1) = setBit (St.bitmap used) used := by
      rw [St.bitmap, List.range_succ, List.foldl_append]
      rfl
    rw [hsucc, bit_setBit _ hbyte, ih (Nat.le_of_succ_le h), Bool.eq_iff_iff, Bool.or_eq_true, decide_eq_true_iff,
      decide_eq_true_iff, decide_eq_true_iff]
    omega

theorem readsb_finished (h : Image s t) : readsb (finished s) = sb := by
  have hone : finished s 1 = s.disk 1 := by
    rw [finished, update_of_ne (by decide), setInode_one]
  rw [readsb, hone]
  exact h.laid.sb

theorem firstData_finished (h : Image s t) : firstData (finished s) = first := by
  rw [firstData, readsb_finished h]
  rfl

theorem inUse_finished (h : Image s t) (hused : s.usedblocks < 512 * 8) {b : ℕ} (hb : b < BPB) :
    inUse (finished s) b = decide (b < s.usedblocks) := by
  have hbb : BBLOCK b (readsb (finished s)).ninodes.toNat = ninodes / IPB + 3 := by
    rw [readsb_finished h, BBLOCK, Nat.div_eq_of_lt hb, Nat.zero_add]
    rfl
  rw [inUse, hbb, finished, update_self, Nat.mod_eq_of_lt hb, bit_bitmap hused.le]

/-- the inodes of the finished image: the root directory has its size rounded up -/
theorem table_finished (h : Image s t) :
    table (finished s) = update (table s.disk) ROOTINO
      { table s.disk ROOTINO with size := BitVec.ofNat 32 (((t ROOTINO).length / BSIZE + 1) * BSIZE) } := by
  have hroot : table s.disk ROOTINO = s.disk.inode ROOTINO := if_pos (by decide)
  have hsize := h.size ROOTINO
  rw [hroot] at hsize
  have hlow : table (finished s) = table (s.disk.setInode ROOTINO
      { s.disk.inode ROOTINO with size := BitVec.ofNat 32 (((s.disk.inode ROOTINO).size.toNat / BSIZE + 1) * BSIZE) }) := by
    apply table_of_low
    intro b hb
    exact update_of_ne hb.ne ..
  rw [hlow, table_setInode (by decide), hroot, hsize]

theorem laid_finished (h : Image s t) : Laid (table (finished s)) { s with disk := finished s } t := by
  refine h.laid.of_refs ?_ ?_ ?_ s.freeinode
  · intro b hb
    have hne : b ≠ ninodes / IPB + 3 := (Nat.lt_of_lt_of_le (by decide) hb).ne'
    rw [finished, update_of_ne hne, setInode_of_first (by decide) _ hb]
  · rw [finished, update_of_ne (by decide), setInode_one]
  · intro i sl
    rw [table_finished h]
    by_cases hi : i = ROOTINO
    · rw [hi, update_self]
      cases sl <;> rfl
    · rw [update_of_ne hi]

/-- on an image whose blocks fit, every block of a file is in use and has one owner -/
theorem owned_finished (h : Image s t) (hfit : s.usedblocks ≤ size) : Owned (table (finished s)) (finished s) := by
  have hused : s.usedblocks < 512 * 8 := hfit.trans_lt (by decide)
  have hfreeblock := h.laid.used
  have hlow := h.laid.low
  constructor
  · intro b hb
    rw [firstData_finished h] at hb
    rw [inUse_finished h hused (hb.trans (by decide))]
    exact decide_eq_true (by omega)
  · refine (laid_finished h).allots.congr (fun _ => rfl) ?_
    intro b hb
    have hlt : b < s.usedblocks := hb.2.trans_eq hfreeblock.symm
    refine ⟨?_, ?_, ?_⟩
    · rw [firstData_finished h]
      exact hb.1
    · rw [readsb_finished h]
      exact hlt.trans_le hfit
    · rw [inUse_finished h hused (hlt.trans (hfit.trans_lt (by decide)))]
      exact decide_eq_true hlt

/-! ## The files of the command line -/

/-- the entries of the root directory for the files, from inode `n` on -/
def entriesFrom : ℕ → List (List Byte × List Byte) → List Byte
  | _, [] => []
  | n, (name, _) :: files => entryBytes n (fileName name) ++ entriesFrom (n + 1) files

theorem length_entriesFrom (n : ℕ) (files : List (List Byte × List Byte)) :
    (entriesFrom n files).length = 16 * files.length := by
  induction files generalizing n with
  | nil => rfl
  | cons f files ih =>
    rw [entriesFrom, List.length_append, length_entryBytes, ih, List.length_cons]
    omega

theorem allAdded_root (files : List (List Byte × List Byte)) (t : ℕ → List Byte) {n : ℕ} (hn : 2 ≤ n) :
    allAdded t n files ROOTINO = t ROOTINO ++ entriesFrom n files := by
  induction files generalizing t n with
  | nil => exact (List.append_nil _).symm
  | cons f files ih =>
    have hne : ROOTINO ≠ n := by
      unfold ROOTINO
      omega
    rw [allAdded, ih _ (by omega), added, update_of_ne hne, update_self, List.append_assoc]
    rfl

theorem contents_root (files : List (List Byte × List Byte)) :
    contents files ROOTINO = entryBytes ROOTINO [dot] ++ entryBytes ROOTINO [dot, dot] ++ entriesFrom 2 files := by
  rw [contents, allAdded_root files _ le_rfl, rootOnly, update_self]

theorem length_contents_root (files : List (List Byte × List Byte)) :
    (contents files ROOTINO).length = 16 * (files.length + 2) := by
  rw [contents_root, List.length_append, List.length_append, length_entryBytes, length_entryBytes, length_entriesFrom]
  omega

/-! ## Empty files -/

theorem allAdded_empty {files : List (List Byte × List Byte)} (hempty : ∀ f ∈ files, f.2 = []) {i : ℕ} (hroot : i ≠ ROOTINO)
    (t : ℕ → List Byte) (n : ℕ) (ht : t i = []) : allAdded t n files i = [] := by
  induction files generalizing t n with
  | nil => exact ht
  | cons f files ih =>
    rw [allAdded]
    refine ih (fun g hg => hempty g (List.mem_cons_of_mem _ hg)) _ _ ?_
    rw [added]
    by_cases hi : i = n
    · rw [hi, update_self]
      exact hempty f List.mem_cons_self
    · rw [update_of_ne hi, update_of_ne hroot, ht]

/-- only the root directory takes blocks then -/
theorem blocksOf_empty {files : List (List Byte × List Byte)} (hempty : ∀ f ∈ files, f.2 = []) :
    blocksOf files = first + blocksFor (16 * (files.length + 2)) := by
  have hsum : ∑ i ∈ Finset.range inodeRoom, blocksFor (contents files i).length = blocksFor (contents files ROOTINO).length := by
    apply Finset.sum_eq_single_of_mem
    · decide
    · intro i _ hi
      rw [contents, allAdded_empty hempty hi rootOnly 2 (update_of_ne hi ..)]
      rfl
  rw [blocksOf, hsum, length_contents_root]

theorem main_of_empty {files : List (List Byte × List Byte)} (hempty : ∀ f ∈ files, f.2 = [])
    (hslash : ∀ f ∈ files, slash ∉ f.1) (hfew : files.length + 2 ≤ inodeRoom) :
    ∃ s, main files = .ok s ∧ s.usedblocks = first + blocksFor (16 * (files.length + 2)) := by
  have hends := main_ends files hfew
  cases hr : main files with
  | error e =>
    rcases hends.of_error hr with ⟨f, hf, hbad | hlong⟩ | hbig
    · exact absurd hbad (hslash f hf)
    · rw [hempty f hf] at hlong
      exact absurd hlong (Nat.not_lt_zero _)
    · have hle := blocksFor_le (n := 16 * (files.length + 2)) ((Nat.mul_le_mul_left 16 hfew).trans (by decide))
      have hsmall : first + (MAXFILE + 1) < 512 * 8 := by decide
      rw [blocksOf_empty hempty] at hbig
      omega
  | ok s => exact ⟨s, rfl, (hends.of_ok hr).2.1.trans (blocksOf_empty hempty)⟩

end Xv6Threads.Fs.Mkfs
