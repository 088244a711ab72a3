/-
The blocks of a file as fs.c finds, adds and frees them: `bmap` and `itrunc`.

`bmap` works on the in-memory copy of an inode, whose number is `i`. The other inodes are those of a table `t`, as
the kernel has them: in memory, or on the disk.
- `Owned`: every block of an inode of the table is in use and has one owner, and no block of the metadata is free.
- `Fills`: one place of one inode got a new block.
- `Grows`: places of one inode got new blocks, which hold zeroes, and nothing else changed.
- `bmap_ends`: so it is after `bmap`, and the part of the file that it was asked for has a block. It panics only if there
  are not as many free blocks as places to fill.
-/
import Xv6Threads.Fs.Owners

namespace Xv6Threads.Fs

open Xv6Threads.Core Function

/-! ## The code -/

/-- `bmap` for one of the first NDIRECT blocks -/
def bmapDirect (d : Disk) (x : Dinode) (bn : Fin NDIRECT) : Except Panic (ℕ × Dinode × Disk) :=
  if x.addrs bn.castSucc = 0 then do
    let (b, d) ← balloc d
    return (b, x.setAddr bn.castSucc (BitVec.ofNat 32 b), d)
  else .ok ((x.addrs bn.castSucc).toNat, x, d)

/-- the indirect block, allocated if necessary -/
def indirectBlock (d : Disk) (x : Dinode) : Except Panic (Dinode × Disk) :=
  if x.indirect = 0 then do
    let (b, d) ← balloc d
    return (x.setAddr (Fin.last NDIRECT) (BitVec.ofNat 32 b), d)
  else .ok (x, d)

/-- a block of the indirect block -/
def bmapEntry (d : Disk) (x : Dinode) (bn : Fin NINDIRECT) : Except Panic (ℕ × Disk) :=
  let a := d x.indirect
  if word.get a bn = 0 then do
    let (b, d) ← balloc d
    return (b, update d x.indirect (word.set a bn (BitVec.ofNat 32 b)))
  else .ok ((word.get a bn).toNat, d)

/-- the block that holds the nth block of the inode's file; if there is none, it allocates one -/
def bmap (d : Disk) (x : Dinode) (bn : ℕ) : Except Panic (ℕ × Dinode × Disk) :=
  if h : bn < NDIRECT then bmapDirect d x ⟨bn, h⟩
  else if h : bn - NDIRECT < NINDIRECT then do
    let (x, d) ← indirectBlock d x
    let (b, d) ← bmapEntry d x ⟨bn - NDIRECT, h⟩
    return (b, x, d)
  else .error .bmapOutOfRange

/-- the loop of `itrunc` over the direct blocks -/
def truncDirect (r : Dinode × Disk) (i : Fin NDIRECT) : Except Panic (Dinode × Disk) :=
  if r.1.addrs i.castSucc = 0 then .ok r
  else do
    let d ← bfree r.2 (r.1.addrs i.castSucc).toNat
    return (r.1.setAddr i.castSucc 0, d)

/-- its loop over the words `a` of the indirect block -/
def truncEntry (a : Block) (d : Disk) (j : Fin NINDIRECT) : Except Panic Disk :=
  if word.get a j = 0 then .ok d else bfree d (word.get a j).toNat

/-- its blocks of the indirect block, and the block itself -/
def truncIndirect (d : Disk) (x : Dinode) : Except Panic (Dinode × Disk) :=
  if x.indirect = 0 then .ok (x, d)
  else do
    let d ← (List.finRange NINDIRECT).foldlM (truncEntry (d x.indirect)) d
    let d ← bfree d x.indirect
    return (x.setAddr (Fin.last NDIRECT) 0, d)

/-- discard the contents of inode `inum` -/
def itrunc (d : Disk) (inum : ℕ) (x : Dinode) : Except Panic (Dinode × Disk) := do
  let (x, d) ← (List.finRange NDIRECT).foldlM truncDirect (x, d)
  let (x, d) ← truncIndirect d x
  let x := { x with size := 0 }
  return (x, d.setInode inum x)

/-! ## Owners -/

/-- a block after the metadata that is in use -/
def Taken (d : Disk) (b : ℕ) : Prop := firstData d ≤ b ∧ b < (readsb d).size.toNat ∧ inUse d b = true

structure Owned (t : ℕ → Dinode) (d : Disk) : Prop where
  marked : Marked d
  allots : Allots (refs t d) (Taken d)

/-- the number of blocks that `balloc` can hand out -/
def free (d : Disk) : ℕ := ((Finset.range (readsb d).size.toNat).filter fun b => inUse d b = false).card

/-- the number of places of `S` without a block -/
def Dinode.empties (x : Dinode) (d : Disk) (S : Finset Slot) : ℕ := (S.filter fun sl => x.ref d sl = 0).card

/-- place `sl` of inode `i` got block `b` -/
structure Fills (t : ℕ → Dinode) (d : Disk) (i : ℕ) (sl : Slot) (b : ℕ) (x' : Dinode) (d' : Disk) : Prop where
  sb : readsb d' = readsb d
  fields : { x' with addrs := (t i).addrs } = t i
  low : firstData d ≤ b
  high : b < (readsb d).size.toNat
  clear : inUse d b = false
  bits : ∀ c, c < (readsb d).size.toNat → inUse d' c = (decide (c = b) || inUse d c)
  zero : d' b = zeroes
  self : ∀ sl', x'.ref d' sl' = if sl' = sl then b else (t i).ref d sl'
  others : ∀ j, j ≠ i → ∀ sl', (t j).ref d' sl' = (t j).ref d sl'
  data : ∀ j sl', sl' ≠ .indirect → (t j).ref d sl' ≠ 0 → d' ((t j).ref d sl') = d ((t j).ref d sl')
  inode : ∀ k, k < (readsb d).ninodes.toNat → d'.inode k = d.inode k

variable {t : ℕ → Dinode} {d d' : Disk} {i b : ℕ} {x' : Dinode} {sl : Slot}

theorem firstData_congr (h : readsb d' = readsb d) : firstData d' = firstData d := by
  rw [firstData, firstData, h]

theorem IBLOCK_lt_firstData {k : ℕ} (h : k < (readsb d).ninodes.toNat) : IBLOCK k < firstData d := by
  unfold IBLOCK firstData IPB BPB
  omega

theorem IBLOCK_ne_BBLOCK {k c n : ℕ} (h : k < n) : IBLOCK k ≠ BBLOCK c n := by
  unfold IBLOCK BBLOCK IPB BPB
  omega

namespace Fills

variable (h : Fills t d i sl b x' d')

include h

theorem pos : b ≠ 0 := by
  have := one_lt_firstData (d := d)
  have := h.low
  omega

theorem taken {c : ℕ} (hc : Taken d c) : Taken d' c := by
  obtain ⟨hlow, hhigh, hbit⟩ := hc
  refine ⟨?_, ?_, ?_⟩
  · rwa [firstData_congr h.sb]
  · rwa [h.sb]
  · rw [h.bits c hhigh, hbit, Bool.or_true]

theorem owned (ho : Owned t d) : Owned (update t i x') d' := by
  refine ⟨?_, ?_⟩
  · intro c hc
    rw [firstData_congr h.sb] at hc
    have hsize : c < (readsb d).size.toNat := (hc.trans_le h.low).trans h.high
    rw [h.bits c hsize, ho.marked c hc, Bool.or_true]
  · have hnew : ¬ Taken d b := by
      intro hb
      have hset := hb.2.2
      rw [h.clear] at hset
      cases hset
    have hnow : Taken d' b := by
      refine ⟨?_, ?_, ?_⟩
      · rw [firstData_congr h.sb]
        exact h.low
      · rw [h.sb]
        exact h.high
      · rw [h.bits b h.high, decide_eq_true rfl, Bool.true_or]
    refine ho.allots.add (p := (i, sl)) ?_ ?_ hnew hnow fun c => h.taken
    · rw [refs_update_self, h.self, if_pos rfl]
    · intro q hq
      obtain ⟨j, sl'⟩ := q
      by_cases hj : j = i
      · subst hj
        have hsl : sl' ≠ sl := fun e => hq (e ▸ rfl)
        rw [refs_update_self, h.self, if_neg hsl]
        rfl
      · rw [refs_update_of_ne hj, h.others j hj]
        rfl

theorem free_eq : free d = free d' + 1 := by
  have herase : (Finset.range (readsb d').size.toNat).filter (fun c => inUse d' c = false) =
      ((Finset.range (readsb d).size.toNat).filter fun c => inUse d c = false).erase b := by
    ext c
    rw [h.sb, Finset.mem_filter, Finset.mem_erase, Finset.mem_filter, Finset.mem_range]
    constructor
    · intro hc
      rw [h.bits c hc.1] at hc
      simpa [and_assoc, and_left_comm] using hc
    · intro hc
      rw [h.bits c hc.2.1]
      simpa [and_assoc, and_left_comm] using hc
  have hmem : b ∈ (Finset.range (readsb d).size.toNat).filter fun c => inUse d c = false :=
    Finset.mem_filter.2 ⟨Finset.mem_range.2 h.high, h.clear⟩
  rw [free, free, herase, Finset.card_erase_add_one hmem]

theorem empties_eq {S : Finset Slot} (hS : sl ∈ S) (h0 : (t i).ref d sl = 0) :
    (t i).empties d S = x'.empties d' S + 1 := by
  have herase : S.filter (fun sl' => x'.ref d' sl' = 0) = (S.filter fun sl' => (t i).ref d sl' = 0).erase sl := by
    ext sl'
    rw [Finset.mem_filter, Finset.mem_erase, Finset.mem_filter, h.self]
    by_cases hsl : sl' = sl
    · rw [if_pos hsl]
      exact ⟨fun hb => absurd hb.2 h.pos, fun hb => absurd hsl hb.1⟩
    · rw [if_neg hsl]
      exact ⟨fun hb => ⟨hsl, hb⟩, fun hb => hb.2⟩
  have hmem : sl ∈ S.filter fun sl' => (t i).ref d sl' = 0 := Finset.mem_filter.2 ⟨hS, h0⟩
  rw [Dinode.empties, Dinode.empties, herase, Finset.card_erase_add_one hmem]

end Fills

/-! ## A new block -/

/-- block `b` was free, and `balloc` handed it out -/
structure Hands (d d₁ : Disk) (b : ℕ) : Prop extends Allocates d d₁ b where
  low : firstData d ≤ b
  high : b < (readsb d).size.toNat
  clear : inUse d b = false

theorem balloc_hands (hm : Marked d) :
    Ends (balloc d) (fun r => Hands d r.2 r.1) (fun e => e = .outOfBlocks ∧ free d = 0) := by
  refine (balloc_ends hm).mono ?_ ?_
  · intro r hr
    exact ⟨hr.2.2.2.2, hr.1, hr.2.1, hr.2.2.1⟩
  · intro e he
    refine ⟨he.1, ?_⟩
    rw [free, Finset.card_eq_zero, Finset.filter_eq_empty_iff]
    intro c hc
    rw [he.2 c (Finset.mem_range.1 hc)]
    exact Bool.noConfusion

namespace Hands

variable {d₁ : Disk} (h : Hands d d₁ b)

include h

theorem toNat_ofNat : (BitVec.ofNat 32 b).toNat = b := by
  have hhigh := h.high
  have := (readsb d).size.isLt
  rw [BitVec.toNat_ofNat, Nat.mod_eq_of_lt (by omega)]

theorem of_taken {c : ℕ} (hc : Taken d c) : d₁ c = d c := by
  obtain ⟨hlow, hhigh, hbit⟩ := hc
  apply h.same
  · intro e
    rw [e, h.clear] at hbit
    cases hbit
  · have := BBLOCK_lt h.high
    omega

theorem not_taken : ¬ Taken d b := by
  intro hb
  have hset := hb.2.2
  rw [h.clear] at hset
  cases hset

theorem inode {k : ℕ} (hk : k < (readsb d).ninodes.toNat) : d₁.inode k = d.inode k := by
  have hlt := IBLOCK_lt_firstData hk
  have hlow := h.low
  rw [Disk.inode, Disk.inode, h.same _ (by omega) (IBLOCK_ne_BBLOCK hk)]

variable (ho : Owned t d)

include ho

theorem ref_eq (j : ℕ) (sl' : Slot) : (t j).ref d₁ sl' = (t j).ref d sl' :=
  ref_of_agree ho.allots (fun _ => h.of_taken) sl'

/-- the new block goes to the inode itself -/
theorem fills (hself : ∀ sl', x'.ref d₁ sl' = if sl' = sl then b else (t i).ref d₁ sl')
    (hfields : { x' with addrs := (t i).addrs } = t i) : Fills t d i sl b x' d₁ where
  sb := h.sb
  fields := hfields
  low := h.low
  high := h.high
  clear := h.clear
  bits := h.bits
  zero := h.zero
  self sl' := by rw [hself, h.ref_eq ho]
  others j _ sl' := h.ref_eq ho j sl'
  data j sl' _ h0 := h.of_taken (ho.allots.used (j, sl') h0)
  inode _ := h.inode

theorem fills_direct (j : Fin NDIRECT) :
    Fills t d i (.direct j) b ((t i).setAddr j.castSucc (BitVec.ofNat 32 b)) d₁ := by
  refine h.fills ho ?_ rfl
  intro sl'
  rw [ref_setDirect, h.toNat_ofNat]

theorem fills_indirect (h0 : (t i).indirect = 0) :
    Fills t d i .indirect b ((t i).setAddr (Fin.last NDIRECT) (BitVec.ofNat 32 b)) d₁ := by
  refine h.fills ho ?_ rfl
  intro sl'
  rw [ref_setIndirect h0 _ (by rw [h.toNat_ofNat, h.zero]), h.toNat_ofNat]

/-- the new block goes to the indirect block of the inode -/
theorem fills_entry (h0 : (t i).indirect ≠ 0) (k : Fin NINDIRECT) :
    Fills t d i (.entry k) b (t i)
      (update d₁ (t i).indirect (word.set (d (t i).indirect) k (BitVec.ofNat 32 b))) := by
  have htaken : Taken d (t i).indirect := indirect_used ho.allots h0
  have hone : (t i).indirect ≠ 1 := (one_lt_firstData.trans_le htaken.1).ne'
  have hfirst : firstData d₁ ≤ (t i).indirect := by
    rw [firstData_congr h.sb]
    exact htaken.1
  constructor
  case sb => exact (readsb_update hone _).trans h.sb
  case fields => rfl
  case low => exact h.low
  case high => exact h.high
  case clear => exact h.clear
  case bits =>
    intro c hc
    rw [inUse_update hfirst (by rwa [h.sb]), h.bits c hc]
  case zero =>
    have hne : b ≠ (t i).indirect := fun e => h.not_taken (e ▸ htaken)
    rw [update_of_ne hne, h.zero]
  case self =>
    intro sl'
    rw [ref_setEntry h0 (update_self ..), h.toNat_ofNat]
  case others =>
    intro j hj sl'
    apply ref_congr
    intro hj0
    have hne : (t j).indirect ≠ (t i).indirect := by
      intro e
      exact hj (congrArg Prod.fst (ho.allots.once (j, .indirect) (i, .indirect) hj0 e))
    rw [update_of_ne hne, h.of_taken (indirect_used ho.allots hj0)]
  case data =>
    intro j sl' hsl hj0
    have hne : (t j).ref d sl' ≠ (t i).indirect := by
      intro e
      exact hsl (congrArg Prod.snd (ho.allots.once (j, sl') (i, .indirect) hj0 e))
    rw [update_of_ne hne]
    exact h.of_taken (ho.allots.used (j, sl') hj0)
  case inode =>
    intro k' hk
    have hlt := IBLOCK_lt_firstData hk
    have hlow := htaken.1
    rw [Disk.inode_update (by omega), h.inode hk]

end Hands

/-! ## Places filled -/

/-- places of `S` of inode `i` got blocks that hold zeroes, and nothing else changed -/
structure Grows (t : ℕ → Dinode) (d : Disk) (i : ℕ) (S : Finset Slot) (x' : Dinode) (d' : Disk) : Prop where
  sb : readsb d' = readsb d
  fields : { x' with addrs := (t i).addrs } = t i
  kept : ∀ sl, (t i).ref d sl ≠ 0 → x'.ref d' sl = (t i).ref d sl
  fresh : ∀ sl, sl ≠ .indirect → (t i).ref d sl = 0 → x'.ref d' sl ≠ 0 → d' (x'.ref d' sl) = zeroes
  others : ∀ j, j ≠ i → ∀ sl, (t j).ref d' sl = (t j).ref d sl
  data : ∀ j sl, sl ≠ .indirect → (t j).ref d sl ≠ 0 → d' ((t j).ref d sl) = d ((t j).ref d sl)
  inode : ∀ k, k < (readsb d).ninodes.toNat → d'.inode k = d.inode k
  count : free d + x'.empties d' S = free d' + (t i).empties d S
  owned : Owned (update t i x') d'

variable {S : Finset Slot}

theorem Fills.grows (h : Fills t d i sl b x' d') (ho : Owned t d) (h0 : (t i).ref d sl = 0) (hS : sl ∈ S) :
    Grows t d i S x' d' where
  sb := h.sb
  fields := h.fields
  kept sl' hsl := by
    have hne : sl' ≠ sl := fun e => hsl (e ▸ h0)
    rw [h.self, if_neg hne]
  fresh sl' _ hz hnz := by
    by_cases hsl : sl' = sl
    · rw [h.self, if_pos hsl, h.zero]
    · rw [h.self, if_neg hsl] at hnz
      exact absurd hz hnz
  others := h.others
  data := h.data
  inode := h.inode
  count := by
    have := h.free_eq
    have := h.empties_eq hS h0
    omega
  owned := h.owned ho

namespace Grows

theorem refl (ho : Owned t d) : Grows t d i S (t i) d where
  sb := rfl
  fields := rfl
  kept _ _ := rfl
  fresh _ _ hz hnz := absurd hz hnz
  others _ _ _ := rfl
  data _ _ _ _ := rfl
  inode _ _ := rfl
  count := rfl
  owned := by rwa [update_eq_self]

variable {x'' : Dinode} {d'' : Disk}

theorem trans (h : Grows t d i S x' d') (h' : Grows (update t i x') d' i S x'' d'') :
    Grows t d i S x'' d'' := by
  have hself : update t i x' i = x' := update_self ..
  have hother : ∀ j, j ≠ i → update t i x' j = t j := fun j hj => update_of_ne hj ..
  constructor
  case sb => exact h'.sb.trans h.sb
  case fields =>
    have hf := h.fields
    have hf' := h'.fields
    rw [hself] at hf'
    rw [← hf, ← hf']
  case kept =>
    intro sl hsl
    have hk := h.kept sl hsl
    have hk' := h'.kept sl (by rw [hself, hk]; exact hsl)
    rw [hk', hself, hk]
  case fresh =>
    intro sl hsl hz hnz
    by_cases hmid : x'.ref d' sl = 0
    · exact h'.fresh sl hsl (by rwa [hself]) hnz
    · have hk' := h'.kept sl (by rwa [hself])
      rw [hself] at hk'
      have hdata := h'.data i sl hsl (by rwa [hself])
      rw [hself] at hdata
      rw [hk', hdata]
      exact h.fresh sl hsl hz hmid
  case others =>
    intro j hj sl
    have ho := h'.others j hj sl
    rw [hother j hj] at ho
    rw [ho, h.others j hj]
  case data =>
    intro j sl hsl hj0
    by_cases hj : j = i
    · subst hj
      have hk := h.kept sl hj0
      have hdata := h'.data j sl hsl (by rw [hself, hk]; exact hj0)
      rw [hself, hk] at hdata
      rw [hdata, h.data j sl hsl hj0]
    · have ho := h.others j hj sl
      have hdata := h'.data j sl hsl (by rw [hother j hj, ho]; exact hj0)
      rw [hother j hj, ho] at hdata
      rw [hdata, h.data j sl hsl hj0]
  case inode =>
    intro k hk
    rw [h'.inode k (by rwa [h.sb]), h.inode k hk]
  case count =>
    have hc := h.count
    have hc' := h'.count
    rw [hself] at hc'
    omega
  case owned =>
    have := h'.owned
    rwa [update_idem] at this

end Grows

/-! ## What `bmap` does -/

/-- the places that `bmap` fills for block `bn` -/
def slotsFor (bn : ℕ) : Finset Slot :=
  if h : bn < NDIRECT then {.direct ⟨bn, h⟩}
  else if h : bn - NDIRECT < NINDIRECT then {.indirect, .entry ⟨bn - NDIRECT, h⟩}
  else ∅

theorem empties_pos {x : Dinode} (hS : sl ∈ S) (h0 : x.ref d sl = 0) : 0 < x.empties d S :=
  Finset.card_pos.2 ⟨sl, Finset.mem_filter.2 ⟨hS, h0⟩⟩

theorem bmapDirect_ends (ho : Owned t d) {j : Fin NDIRECT} (hS : .direct j ∈ S) :
    Ends (bmapDirect d (t i) j)
      (fun r => Grows t d i S r.2.1 r.2.2 ∧ r.2.1.ref r.2.2 (.direct j) = r.1 ∧ r.1 ≠ 0)
      (fun e => e = .outOfBlocks ∧ free d < (t i).empties d S) := by
  unfold bmapDirect
  split
  · rename_i hz
    have h0 : (t i).ref d (.direct j) = 0 := by
      rw [Dinode.ref, hz]
      rfl
    refine ((balloc_hands ho.marked).mono (fun _ h => h) fun e he => ?_).bind fun r hr => ?_
    · have := empties_pos hS h0
      exact ⟨he.1, by omega⟩
    · have hfill := hr.fills_direct ho (i := i) j
      refine Ends.ok ⟨hfill.grows ho h0 hS, ?_, hfill.pos⟩
      rw [hfill.self, if_pos rfl]
  · rename_i hz
    refine Ends.ok ⟨Grows.refl ho, rfl, ?_⟩
    intro he
    exact hz (BitVec.eq_of_toNat_eq he)

theorem indirectBlock_ends (ho : Owned t d) (hS : .indirect ∈ S) :
    Ends (indirectBlock d (t i))
      (fun r => Grows t d i S r.1 r.2 ∧ r.1.indirect ≠ 0)
      (fun e => e = .outOfBlocks ∧ free d < (t i).empties d S) := by
  unfold indirectBlock
  split
  · rename_i hz
    refine ((balloc_hands ho.marked).mono (fun _ h => h) fun e he => ?_).bind fun r hr => ?_
    · have := empties_pos (x := t i) (d := d) hS hz
      exact ⟨he.1, by omega⟩
    · have hfill := hr.fills_indirect ho hz
      refine Ends.ok ⟨hfill.grows ho hz hS, ?_⟩
      have hself := hfill.self .indirect
      rw [if_pos rfl] at hself
      intro he
      exact hfill.pos (hself.symm.trans he)
  · rename_i hz
    exact Ends.ok ⟨Grows.refl ho, hz⟩

theorem bmapEntry_ends (ho : Owned t d) (hi : (t i).indirect ≠ 0) {j : Fin NINDIRECT} (hS : .entry j ∈ S) :
    Ends (bmapEntry d (t i) j)
      (fun r => Grows t d i S (t i) r.2 ∧ (t i).ref r.2 (.entry j) = r.1 ∧ r.1 ≠ 0)
      (fun e => e = .outOfBlocks ∧ free d < (t i).empties d S) := by
  have href : (t i).ref d (.entry j) = (word.get (d (t i).indirect) j).toNat := if_neg hi
  simp only [bmapEntry]
  split
  · rename_i hz
    have h0 : (t i).ref d (.entry j) = 0 := by
      rw [href, hz]
      rfl
    refine ((balloc_hands ho.marked).mono (fun _ h => h) fun e he => ?_).bind fun r hr => ?_
    · have := empties_pos hS h0
      exact ⟨he.1, by omega⟩
    · have hfill := hr.fills_entry ho hi j
      refine Ends.ok ⟨hfill.grows ho h0 hS, ?_, hfill.pos⟩
      rw [hfill.self, if_pos rfl]
  · rename_i hz
    refine Ends.ok ⟨Grows.refl ho, href, ?_⟩
    intro he
    exact hz (BitVec.eq_of_toNat_eq he)

/-- **What `bmap` does.** Block `bn` of the file has a block then, and if it had one before, nothing has changed. -/
theorem bmap_ends (ho : Owned t d) {bn : ℕ} (hbn : bn < MAXFILE) (hS : slotsFor bn ⊆ S) :
    Ends (bmap d (t i) bn)
      (fun r => Grows t d i S r.2.1 r.2.2 ∧ r.2.1.block r.2.2 bn = r.1 ∧ r.1 ≠ 0)
      (fun e => e = .outOfBlocks ∧ free d < (t i).empties d S) := by
  unfold bmap
  by_cases hdir : bn < NDIRECT
  · rw [dif_pos hdir]
    have hmem : Slot.direct ⟨bn, hdir⟩ ∈ S := hS (by rw [slotsFor, dif_pos hdir]; exact Finset.mem_singleton_self _)
    have hblock : ∀ (x : Dinode) (d : Disk), x.block d bn = x.ref d (.direct ⟨bn, hdir⟩) := by
      intro x d
      rw [Dinode.block, slotOf, dif_pos hdir]
    exact (bmapDirect_ends ho hmem).mono (fun r hr => by rwa [hblock]) fun _ he => he
  · have hind : bn - NDIRECT < NINDIRECT := by
      unfold MAXFILE at hbn
      omega
    have hsub : ({.indirect, .entry ⟨bn - NDIRECT, hind⟩} : Finset Slot) ⊆ S := by
      rwa [slotsFor, dif_neg hdir, dif_pos hind] at hS
    have hblock : ∀ (x : Dinode) (d : Disk), x.block d bn = x.ref d (.entry ⟨bn - NDIRECT, hind⟩) := by
      intro x d
      rw [Dinode.block, slotOf, dif_neg hdir, dif_pos hind]
    rw [dif_neg hdir, dif_pos hind]
    refine (indirectBlock_ends ho (hsub (by simp))).bind fun r hr => ?_
    obtain ⟨x₁, d₁⟩ := r
    obtain ⟨hgrows, hne⟩ := hr
    have hself : update t i x₁ i = x₁ := update_self ..
    have hentry := bmapEntry_ends (i := i) (S := S) (j := ⟨bn - NDIRECT, hind⟩) hgrows.owned (by rwa [hself])
      (hsub (by simp))
    rw [hself] at hentry
    refine (hentry.mono (fun _ h => h) fun e he => ?_).bind fun r hr => Ends.ok ?_
    · have hcount : free d + x₁.empties d₁ S = free d₁ + (t i).empties d S := hgrows.count
      have hless : free d₁ < x₁.empties d₁ S := he.2
      exact ⟨he.1, by omega⟩
    · have hgrows' : Grows (update t i x₁) d₁ i S x₁ r.2 := hr.1
      rw [hblock]
      exact ⟨hgrows.trans hgrows', hr.2⟩

end Xv6Threads.Fs
