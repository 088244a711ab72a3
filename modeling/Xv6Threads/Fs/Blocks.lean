/-
The block allocator of fs.c: `balloc` and `bfree`.

`balloc` takes the first block whose bit of the bitmap is clear, of all sb.size blocks of the disk, and panics if there is
none. `log_write` is the store of the block.
- `inUse`: a bit of the bitmap. `firstData`: the block after the bitmap.
- `Marked`: the blocks before `firstData` are marked in use, so that `balloc` does not hand them out.
- `balloc_ends`, `bfree_ends`: what the two calls do.
-/
import Xv6Threads.Core.Outcome
import Xv6Threads.Fs.Layout

namespace Xv6Threads.Fs

open Xv6Threads.Core Function

/-- the panics of fs.c and sysfile.c -/
inductive Panic where
  | outOfBlocks
  | freeingFreeBlock
  | bmapOutOfRange
  | iallocNoInodes
  | igetNoInodes
  | ilock
  | ilockNoType
  | iunlock
  | iputBusy
  | dirlookupNotDir
  | dirlinkRead
  | dirlink
  deriving DecidableEq

/-! ## The code -/

/-- `readsb` -/
def readsb (d : Disk) : Superblock := superblock.get (d 1) 0

/-- zero a block -/
def bzero (d : Disk) (bno : ℕ) : Disk := update d bno zeroes

/-- the bit of block `b` -/
def inUse (d : Disk) (b : ℕ) : Bool := bit (d (BBLOCK b (readsb d).ninodes.toNat)) (b % BPB)

/-- the loop of `balloc` over the bits of the bitmap block for the blocks from `b` on -/
def freeBit (d : Disk) (b : ℕ) : Option ℕ :=
  (List.range (min BPB ((readsb d).size.toNat - b))).find? fun bi =>
    bit (d (BBLOCK b (readsb d).ninodes.toNat)) bi = false

/-- its loop over the bitmap blocks -/
def freeBlock (d : Disk) : Option ℕ :=
  (List.range (((readsb d).size.toNat + BPB - 1) / BPB)).findSome? fun k =>
    (freeBit d (BPB * k)).map fun bi => BPB * k + bi

/-- the disk with the bit of block `b` set -/
def mark (d : Disk) (b : ℕ) : Disk :=
  let bb := BBLOCK b (readsb d).ninodes.toNat
  update d bb (setBit (d bb) (b % BPB))

/-- the disk with the bit of block `b` clear -/
def unmark (d : Disk) (b : ℕ) : Disk :=
  let bb := BBLOCK b (readsb d).ninodes.toNat
  update d bb (clearBit (d bb) (b % BPB))

/-- allocate a zeroed disk block -/
def balloc (d : Disk) : Except Panic (ℕ × Disk) :=
  match freeBlock d with
  | some b => .ok (b, bzero (mark d b) b)
  | none => .error .outOfBlocks

/-- free a disk block -/
def bfree (d : Disk) (b : ℕ) : Except Panic Disk :=
  if inUse d b = false then .error .freeingFreeBlock else .ok (unmark d b)

/-! ## The search -/

variable {d : Disk} {b : ℕ}

theorem BBLOCK_add {k bi n : ℕ} (h : bi < BPB) : BBLOCK (BPB * k + bi) n = BBLOCK (BPB * k) n := by
  unfold BBLOCK
  unfold BPB at h ⊢
  omega

theorem inUse_add {k bi : ℕ} (h : bi < BPB) :
    inUse d (BPB * k + bi) = bit (d (BBLOCK (BPB * k) (readsb d).ninodes.toNat)) bi := by
  rw [inUse, BBLOCK_add h, Nat.mul_add_mod, Nat.mod_eq_of_lt h]

theorem freeBit_some {k bi : ℕ} (h : freeBit d (BPB * k) = some bi) :
    bi < BPB ∧ BPB * k + bi < (readsb d).size.toNat ∧ inUse d (BPB * k + bi) = false ∧
      ∀ j, j < bi → inUse d (BPB * k + j) = true := by
  rw [freeBit, List.find?_range_eq_some] at h
  obtain ⟨hclear, hmem, hmin⟩ := h
  have hlt : bi < BPB := by
    rw [List.mem_range] at hmem
    omega
  refine ⟨hlt, ?_, ?_, ?_⟩
  · rw [List.mem_range] at hmem
    omega
  · rw [inUse_add hlt]
    simpa using hclear
  · intro j hj
    rw [inUse_add (hj.trans hlt)]
    simpa using hmin j hj

theorem freeBit_none {k : ℕ} (h : freeBit d (BPB * k) = none) {j : ℕ} (hj : j < BPB)
    (hs : BPB * k + j < (readsb d).size.toNat) : inUse d (BPB * k + j) = true := by
  rw [freeBit, List.find?_eq_none] at h
  have hset := h j (List.mem_range.2 (by omega))
  rw [inUse_add hj]
  simpa using hset

theorem freeBlock_some (h : freeBlock d = some b) :
    b < (readsb d).size.toNat ∧ inUse d b = false ∧ ∀ j, j < b → inUse d j = true := by
  rw [freeBlock, List.findSome?_eq_some_iff] at h
  obtain ⟨before, k, after, hlist, hk, hnone⟩ := h
  obtain ⟨bi, hbi, rfl⟩ := Option.map_eq_some_iff.1 hk
  obtain ⟨hlt, hsize, hclear, hmin⟩ := freeBit_some hbi
  -- the list is 0, 1, 2, .. so what stands before k is what is less
  have hlen : before.length = k := by
    have hget := congrArg (fun l => l[before.length]?) hlist
    have hin : before.length < ((readsb d).size.toNat + BPB - 1) / BPB := by
      have := congrArg List.length hlist
      simp only [List.length_range, List.length_append, List.length_cons] at this
      omega
    simpa [hin] using hget
  have hbefore : ∀ j, j < k → j ∈ before := by
    intro j hj
    have hget := congrArg (fun l => l[j]?) hlist
    have hin : j < ((readsb d).size.toNat + BPB - 1) / BPB := by
      have := congrArg List.length hlist
      simp only [List.length_range, List.length_append, List.length_cons] at this
      omega
    rw [← hlen] at hj
    simp only [List.getElem?_range hin, List.getElem?_append_left hj] at hget
    exact List.mem_of_getElem? hget.symm
  refine ⟨hsize, hclear, ?_⟩
  intro j hj
  have hpos : 0 < BPB := by decide
  rw [← Nat.div_add_mod j BPB]
  rcases Nat.lt_or_ge (j / BPB) k with hjk | hjk
  · have hn := hnone _ (hbefore _ hjk)
    apply freeBit_none (Option.map_eq_none_iff.1 hn) (Nat.mod_lt _ hpos)
    rw [Nat.div_add_mod]
    omega
  · have heq : j / BPB = k := by
      unfold BPB at hj hlt hjk ⊢
      omega
    rw [heq]
    apply hmin
    unfold BPB at hj hlt heq ⊢
    omega

theorem freeBlock_none (h : freeBlock d = none) (hb : b < (readsb d).size.toNat) : inUse d b = true := by
  rw [freeBlock, List.findSome?_eq_none_iff] at h
  have hk := h (b / BPB) (List.mem_range.2 (by unfold BPB; omega))
  rw [← Nat.div_add_mod b BPB]
  apply freeBit_none (Option.map_eq_none_iff.1 hk) (Nat.mod_lt _ (by decide))
  rw [Nat.div_add_mod]
  exact hb

/-! ## The metadata -/

/-- the first block after the bitmap -/
def firstData (d : Disk) : ℕ := (readsb d).ninodes.toNat / IPB + 3 + ((readsb d).size.toNat / BPB + 1)

/-- no block before `firstData` is free -/
def Marked (d : Disk) : Prop := ∀ b, b < firstData d → inUse d b = true

theorem BBLOCK_lt (hb : b < (readsb d).size.toNat) : BBLOCK b (readsb d).ninodes.toNat < firstData d := by
  unfold BBLOCK firstData BPB
  omega

theorem one_lt_firstData : 1 < firstData d := by
  unfold firstData IPB BPB
  omega

theorem one_lt_BBLOCK (b n : ℕ) : 1 < BBLOCK b n := by
  unfold BBLOCK BPB IPB
  omega

/-- a store to another block than the first keeps the superblock -/
theorem readsb_update {x : ℕ} (hx : x ≠ 1) (v : Block) : readsb (update d x v) = readsb d := by
  rw [readsb, readsb, update_of_ne (Ne.symm hx)]

theorem readsb_mark : readsb (mark d b) = readsb d := readsb_update (one_lt_BBLOCK _ _).ne' _

theorem readsb_unmark : readsb (unmark d b) = readsb d := readsb_update (one_lt_BBLOCK _ _).ne' _

theorem bit_index_lt (b : ℕ) : b % BPB / 8 < BSIZE := by
  unfold BPB BSIZE
  omega

/-- two blocks with their bits in one bitmap block -/
theorem eq_of_BBLOCK_eq {j n : ℕ} (h : BBLOCK j n = BBLOCK b n) (hm : j % BPB = b % BPB) : j = b := by
  unfold BBLOCK at h
  unfold BPB at h hm
  omega

theorem inUse_mark (j : ℕ) : inUse (mark d b) j = (decide (j = b) || inUse d j) := by
  rw [inUse, inUse, readsb_mark]
  simp only [mark]
  by_cases hbb : BBLOCK j (readsb d).ninodes.toNat = BBLOCK b (readsb d).ninodes.toNat
  · have hiff : (j % BPB = b % BPB) = (j = b) := propext ⟨eq_of_BBLOCK_eq hbb, fun e => e ▸ rfl⟩
    rw [hbb, update_self, bit_setBit _ (bit_index_lt b)]
    simp only [hiff]
  · have hne : j ≠ b := fun e => hbb (e ▸ rfl)
    rw [update_of_ne hbb, decide_eq_false hne, Bool.false_or]

theorem inUse_unmark (j : ℕ) : inUse (unmark d b) j = (!decide (j = b) && inUse d j) := by
  rw [inUse, inUse, readsb_unmark]
  simp only [unmark]
  by_cases hbb : BBLOCK j (readsb d).ninodes.toNat = BBLOCK b (readsb d).ninodes.toNat
  · have hiff : (j % BPB = b % BPB) = (j = b) := propext ⟨eq_of_BBLOCK_eq hbb, fun e => e ▸ rfl⟩
    rw [hbb, update_self, bit_clearBit _ (bit_index_lt b)]
    simp only [hiff]
  · have hne : j ≠ b := fun e => hbb (e ▸ rfl)
    rw [update_of_ne hbb, decide_eq_false hne, Bool.not_false, Bool.true_and]

/-- a store to a block after the bitmap keeps the bitmap -/
theorem inUse_update {x j : ℕ} (hx : firstData d ≤ x) (hj : j < (readsb d).size.toNat) (v : Block) :
    inUse (update d x v) j = inUse d j := by
  have hlt := BBLOCK_lt hj
  have hone : x ≠ 1 := (one_lt_firstData.trans_le hx).ne'
  rw [inUse, inUse, readsb_update hone, update_of_ne (by omega)]

/-! ## What the calls do -/

/-- block `b` has been allocated, and holds zeroes -/
structure Allocates (d d' : Disk) (b : ℕ) : Prop where
  sb : readsb d' = readsb d
  zero : d' b = zeroes
  bits : ∀ j, j < (readsb d).size.toNat → inUse d' j = (decide (j = b) || inUse d j)
  same : ∀ x, x ≠ b → x ≠ BBLOCK b (readsb d).ninodes.toNat → d' x = d x

/-- block `b` has been freed -/
structure Frees (d d' : Disk) (b : ℕ) : Prop where
  sb : readsb d' = readsb d
  bits : ∀ j, inUse d' j = (!decide (j = b) && inUse d j)
  same : ∀ x, x ≠ BBLOCK b (readsb d).ninodes.toNat → d' x = d x

theorem allocates_of_free (hb : firstData d ≤ b) : Allocates d (bzero (mark d b) b) b := by
  have hone : b ≠ 1 := (one_lt_firstData.trans_le hb).ne'
  have hfirst : firstData (mark d b) = firstData d := by rw [firstData, firstData, readsb_mark]
  refine ⟨(readsb_update hone _).trans readsb_mark, update_self .., ?_, ?_⟩
  · intro j hj
    rw [bzero, inUse_update (by rwa [hfirst]) (by rwa [readsb_mark]), inUse_mark]
  · intro x hx hbb
    rw [bzero, update_of_ne hx, mark, update_of_ne hbb]

/-- **`balloc` hands out the first free block**, or panics as there is none. -/
theorem balloc_ends (hm : Marked d) :
    Ends (balloc d)
      (fun r => firstData d ≤ r.1 ∧ r.1 < (readsb d).size.toNat ∧ inUse d r.1 = false ∧
        (∀ j, j < r.1 → inUse d j = true) ∧ Allocates d r.2 r.1)
      (fun e => e = .outOfBlocks ∧ ∀ b, b < (readsb d).size.toNat → inUse d b = true) := by
  unfold balloc
  cases h : freeBlock d with
  | none => exact ⟨rfl, fun b hb => freeBlock_none h hb⟩
  | some b =>
    obtain ⟨hsize, hclear, hmin⟩ := freeBlock_some h
    have hb : firstData d ≤ b := by
      by_contra hlt
      rw [hm b (Nat.lt_of_not_le hlt)] at hclear
      cases hclear
    exact ⟨hb, hsize, hclear, hmin, allocates_of_free hb⟩

/-- **`bfree` frees a block in use**, and panics on another one. -/
theorem bfree_ends : Ends (bfree d b) (fun d' => inUse d b = true ∧ Frees d d' b)
    (fun e => e = .freeingFreeBlock ∧ inUse d b = false) := by
  unfold bfree
  split
  · rename_i h
    exact ⟨rfl, h⟩
  · rename_i h
    refine ⟨by simpa using h, readsb_unmark, inUse_unmark, ?_⟩
    intro x hx
    rw [unmark, update_of_ne hx]

end Xv6Threads.Fs
