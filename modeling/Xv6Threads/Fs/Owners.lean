/-
The blocks of an inode, and what the steps that add one do to them.

An inode has NDIRECT direct addresses and the address of an indirect block, whose words are NINDIRECT more (`Slot`).
`Dinode.ref` is the block at one of these places, and `Dinode.block` the block that holds the nth part of the file.
- `ref_setDirect`, `ref_setIndirect`, `ref_setEntry`: a store of one address changes one place.
- `ref_congr`: a store elsewhere than in the indirect block changes none.
-/
import Xv6Threads.Core.Allotment
import Xv6Threads.Fs.Blocks

namespace Xv6Threads.Fs

open Xv6Threads.Core Function

/-- where an inode has the addresses of blocks -/
inductive Slot where
  | direct (j : Fin NDIRECT)
  | indirect
  | entry (j : Fin NINDIRECT)
  deriving DecidableEq

namespace Dinode

/-- a free inode -/
def empty : Dinode := ⟨0, 0, 0, 0, 0, fun _ => 0⟩

/-- `addrs[NDIRECT]` -/
def indirect (x : Dinode) : ℕ := (x.addrs (Fin.last NDIRECT)).toNat

/-- the block at a place, or 0 -/
def ref (x : Dinode) (d : Disk) : Slot → ℕ
  | .direct j => (x.addrs j.castSucc).toNat
  | .indirect => x.indirect
  | .entry j => if x.indirect = 0 then 0 else (word.get (d x.indirect) j).toNat

def setAddr (x : Dinode) (j : Fin (NDIRECT + 1)) (a : BitVec 32) : Dinode :=
  { x with addrs := update x.addrs j a }

end Dinode

variable {x : Dinode} {d d' : Disk}

theorem word_get_zeroes (j : ℕ) : word.get zeroes j = 0 := by
  have hread : (fun i : Fin 4 => rd zeroes (4 * j + i)) = fun _ => 0 := by
    funext i
    unfold rd
    split <;> rfl
  rw [Codec.get, hread]
  exact littleEndian_zero 4 (by decide)

theorem inode_zeroes (i : ℕ) (h : d (IBLOCK i) = zeroes) : d.inode i = Dinode.empty := by
  have hread : (fun k : Fin 64 => rd (d (IBLOCK i)) (64 * (i % IPB) + k)) = fun _ => 0 := by
    funext k
    rw [h]
    unfold rd
    split <;> rfl
  have hhalf : half.decode (fun _ => 0) = 0 := littleEndian_zero 2 (by decide)
  have hword : word.decode (fun _ => 0) = 0 := littleEndian_zero 4 (by decide)
  rw [Disk.inode, Codec.get, hread]
  simp only [dinode, Codec.map, Codec.prod, Codec.array, hhalf, hword]
  rfl

/-- the places are those of the inode and of its indirect block -/
theorem ref_congr (h : x.indirect ≠ 0 → d' x.indirect = d x.indirect) (sl : Slot) : x.ref d' sl = x.ref d sl := by
  cases sl with
  | direct j | indirect => rfl
  | entry j =>
    simp only [Dinode.ref]
    split
    · rfl
    · rw [h (by assumption)]

theorem indirect_setAddr_direct (j : Fin NDIRECT) (a : BitVec 32) : (x.setAddr j.castSucc a).indirect = x.indirect := by
  have hne : Fin.last NDIRECT ≠ j.castSucc := (Fin.castSucc_lt_last j).ne'
  rw [Dinode.indirect, Dinode.setAddr, Dinode.indirect]
  simp only [update_of_ne hne]

theorem ref_setDirect (j : Fin NDIRECT) (a : BitVec 32) (sl : Slot) :
    (x.setAddr j.castSucc a).ref d sl = if sl = .direct j then a.toNat else x.ref d sl := by
  cases sl with
  | direct k =>
    simp only [Dinode.ref, Dinode.setAddr, Slot.direct.injEq]
    by_cases hk : k = j
    · rw [if_pos hk, hk, update_self]
    · have hne : k.castSucc ≠ j.castSucc := fun e => hk (Fin.castSucc_injective _ e)
      rw [if_neg hk, update_of_ne hne]
  | indirect =>
    rw [if_neg (by simp)]
    exact indirect_setAddr_direct j a
  | entry k =>
    rw [if_neg (by simp)]
    simp only [Dinode.ref, indirect_setAddr_direct]

/-- a new indirect block has no entries -/
theorem ref_setIndirect (hx : x.indirect = 0) (a : BitVec 32) (ha : d a.toNat = zeroes) (sl : Slot) :
    (x.setAddr (Fin.last NDIRECT) a).ref d sl = if sl = .indirect then a.toNat else x.ref d sl := by
  have hind : (x.setAddr (Fin.last NDIRECT) a).indirect = a.toNat := by
    simp only [Dinode.indirect, Dinode.setAddr, update_self]
  cases sl with
  | direct k =>
    have hne : k.castSucc ≠ Fin.last NDIRECT := (Fin.castSucc_lt_last k).ne
    rw [if_neg (by simp)]
    simp only [Dinode.ref, Dinode.setAddr, update_of_ne hne]
  | indirect =>
    rw [if_pos rfl]
    exact hind
  | entry k =>
    rw [if_neg (by simp)]
    simp only [Dinode.ref, hind, hx, if_true, ha, word_get_zeroes]
    split <;> rfl

/-- a store in the indirect block -/
theorem ref_setEntry (hx : x.indirect ≠ 0) {k : Fin NINDIRECT} {a : BitVec 32}
    (hd : d' x.indirect = word.set (d x.indirect) k a) (sl : Slot) :
    x.ref d' sl = if sl = .entry k then a.toNat else x.ref d sl := by
  cases sl with
  | direct j | indirect => rfl
  | entry j =>
    simp only [Dinode.ref, if_neg hx, hd, Slot.entry.injEq]
    by_cases hj : j = k
    · have hfit : 4 * (k.val + 1) ≤ BSIZE := by
        have := k.isLt
        unfold NINDIRECT at this
        unfold BSIZE
        omega
      rw [if_pos hj, hj, word.get_set_self _ _ hfit]
    · rw [if_neg hj, word.get_set_of_ne _ _ (fun e => hj (Fin.ext e))]

/-- an inode that was just allocated -/
theorem ref_of_no_addrs (h : x.addrs = fun _ => 0) (sl : Slot) : x.ref d sl = 0 := by
  cases sl <;> simp [Dinode.ref, Dinode.indirect, h]

/-! ## The parts of a file -/

/-- where block `bn` of a file has its address -/
def slotOf (bn : ℕ) : Option Slot :=
  if h : bn < NDIRECT then some (.direct ⟨bn, h⟩)
  else if h : bn - NDIRECT < NINDIRECT then some (.entry ⟨bn - NDIRECT, h⟩)
  else none

/-- the block that holds block `bn` of the file, or 0 -/
def Dinode.block (x : Dinode) (d : Disk) (bn : ℕ) : ℕ :=
  match slotOf bn with
  | some sl => x.ref d sl
  | none => 0

theorem slotOf_lt {bn : ℕ} {sl : Slot} (h : slotOf bn = some sl) : bn < MAXFILE := by
  unfold slotOf at h
  unfold MAXFILE NDIRECT NINDIRECT at *
  split at h
  · omega
  · split at h
    · omega
    · cases h

theorem slotOf_injective {bn bn' : ℕ} {sl : Slot} (h : slotOf bn = some sl) (h' : slotOf bn' = some sl) : bn = bn' := by
  unfold slotOf at h h'
  split at h <;> split at h'
  · cases h
    simpa using h'.symm
  · split at h'
    · cases h
      cases h'
    · cases h'
  · split at h
    · cases h
      cases h'
    · cases h
  · split at h <;> split at h' <;> cases h
    · simp only [Option.some.injEq, Slot.entry.injEq, Fin.mk.injEq] at h'
      omega
    · cases h'

theorem slotOf_ne_indirect {bn : ℕ} {sl : Slot} (h : slotOf bn = some sl) : sl ≠ .indirect := by
  unfold slotOf at h
  split at h
  · cases h
    simp
  · split at h <;> cases h
    simp

/-! ## The blocks of all inodes -/

/-- the allocated inodes of a disk, and empty ones in the place of the others -/
def Disk.inodes (d : Disk) (i : ℕ) : Dinode :=
  if i < (readsb d).ninodes.toNat ∧ (d.inode i).type ≠ 0 then d.inode i else Dinode.empty

/-- the block at a place of an inode of the table -/
def refs (t : ℕ → Dinode) (d : Disk) (p : ℕ × Slot) : ℕ := (t p.1).ref d p.2

section Tables

variable {t : ℕ → Dinode} {used used' : ℕ → Prop} {i : ℕ} {a : BitVec 32}

theorem refs_update_self (x : Dinode) (sl : Slot) : refs (update t i x) d (i, sl) = x.ref d sl := by
  rw [refs, update_self]

theorem refs_update_of_ne {j : ℕ} (hj : j ≠ i) (x : Dinode) (sl : Slot) :
    refs (update t i x) d (j, sl) = (t j).ref d sl := by
  rw [refs, update_of_ne hj]

theorem indirect_used (h : Allots (refs t d) used) (hi : (t i).indirect ≠ 0) : used (t i).indirect :=
  h.used (i, .indirect) hi

/-- stores to blocks that no inode has change no address -/
theorem ref_of_agree (h : Allots (refs t d) used) (hd : ∀ b, used b → d' b = d b) (sl : Slot) :
    (t i).ref d' sl = (t i).ref d sl :=
  ref_congr (fun hi => hd _ (indirect_used h hi)) sl

/-- **A store in a block of a file changes no address.** The block is not the indirect block of any inode. -/
theorem ref_of_data (h : Allots (refs t d) used) {sl : Slot} (hsl : sl ≠ .indirect) (h0 : (t i).ref d sl ≠ 0)
    (v : Block) (j : ℕ) (sl' : Slot) :
    (t j).ref (update d ((t i).ref d sl) v) sl' = (t j).ref d sl' := by
  apply ref_congr
  intro _
  apply update_of_ne
  intro he
  have hp := h.once (i, sl) (j, .indirect) h0 he.symm
  exact hsl (congrArg Prod.snd hp)

end Tables

end Xv6Threads.Fs
