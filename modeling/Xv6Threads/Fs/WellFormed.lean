/-
Whether the kernel finds all blocks of the image that mkfs wrote.

A block of an allocated inode resolves if the kernel's `bmap` finds it and changes nothing. mkfs rounds the size of the
root directory up to the next multiple of BSIZE that is greater, so a directory whose entries fill its blocks exactly gets
a size with one block more than it has.
- `wellFormed_iff`: every block of every inode resolves, to a block of its own in the data area that is marked in use,
  exactly if the entries of the root directory do not fill its last block.
- `thirty_files_hole`: with 30 files, `bmap` does not find block 1 of the root directory.
-/
import Xv6Threads.Fs.Image

namespace Xv6Threads.Fs.Mkfs

open Xv6Threads.Core Function

/-- block `bn` is one of an allocated inode, by its size -/
def LiveBlock (d : Disk) (i bn : ℕ) : Prop :=
  i < inodeRoom ∧ (d.inode i).type ≠ 0 ∧ bn * BSIZE < (d.inode i).size.toNat

/-- `bmap` finds the block, and allocates nothing -/
def Resolves (d : Disk) (i bn b : ℕ) : Prop := bmap d (d.inode i) bn = .ok (b, d.inode i, d)

structure WellFormed (d : Disk) : Prop where
  resolves : ∀ i bn, LiveBlock d i bn → ∃ b, Resolves d i bn b ∧ b ≠ 0 ∧ firstData d ≤ b ∧
    b < (readsb d).size.toNat - (readsb d).nlog.toNat ∧ inUse d b = true
  distinct : ∀ i bn j bn' b, LiveBlock d i bn → LiveBlock d j bn' → Resolves d i bn b → Resolves d j bn' b →
    i = j ∧ bn = bn'

variable {s : St} {t : ℕ → List Byte} {i j bn bn' b : ℕ}

theorem table_of_lt {d : Disk} (h : i < inodeRoom) : table d i = d.inode i := if_pos h

theorem LiveBlock.lt_MAXFILE {d : Disk} (h : LiveBlock d i bn) (hsize : (d.inode i).size.toNat ≤ MAXFILE * BSIZE) :
    bn < MAXFILE := Nat.lt_of_mul_lt_mul_right (h.2.2.trans_le hsize)

/-- on a disk where every block has one owner, `bmap` resolves a block to what the inode has there -/
theorem Resolves.block {d : Disk} (ho : Owned (table d) d) (hi : i < inodeRoom) (hbn : bn < MAXFILE) (h : Resolves d i bn b) :
    (d.inode i).block d bn = b ∧ b ≠ 0 := by
  have hends := bmap_ends ho (i := i) hbn (Finset.Subset.refl (slotsFor bn))
  rw [table_of_lt hi] at hends
  exact (hends.of_ok h).2

/-- the blocks of the image, by the sizes of the files -/
theorem block_finished (h : Image s t) (hi : i < inodeRoom) :
    ((finished s).inode i).block (finished s) bn ≠ 0 ↔ bn * BSIZE < (t i).length := by
  have := ((laid_finished h).holds i).block bn
  rwa [table_of_lt hi] at this

theorem size_finished_root (h : Image s t) :
    ((finished s).inode ROOTINO).size.toNat = ((t ROOTINO).length / BSIZE + 1) * BSIZE := by
  have hfits : (t ROOTINO).length ≤ MAXFILE * BSIZE := (h.laid.holds ROOTINO).fits
  have hsmall : ((t ROOTINO).length / BSIZE + 1) * BSIZE < 2 ^ 32 := by
    unfold MAXFILE NDIRECT NINDIRECT BSIZE at hfits
    unfold BSIZE
    omega
  rw [← table_of_lt (by decide), table_finished h, update_self]
  exact (BitVec.toNat_ofNat _ _).trans (Nat.mod_eq_of_lt hsmall)

theorem size_finished_of_ne (h : Image s t) (hi : i < inodeRoom) (hroot : i ≠ ROOTINO) :
    ((finished s).inode i).size.toNat = (t i).length := by
  rw [← table_of_lt hi, table_finished h, update_of_ne hroot]
  exact h.size i

theorem type_finished (h : Image s t) (hi : i < inodeRoom) : ((finished s).inode i).type = typeOf s.freeinode i := by
  rw [← table_of_lt hi, table_finished h, ← h.type i]
  by_cases hroot : i = ROOTINO
  · rw [hroot, update_self]
  · rw [update_of_ne hroot]

/-- the root directory has an entry more than its blocks hold, or room in the last one -/
theorem liveBlock_block (h : Image s t) (hroom : (t ROOTINO).length % BSIZE ≠ 0) (hlive : LiveBlock (finished s) i bn) :
    ((finished s).inode i).block (finished s) bn ≠ 0 := by
  obtain ⟨hi, _, hbn⟩ := hlive
  rw [block_finished h hi]
  by_cases hroot : i = ROOTINO
  · subst hroot
    rw [size_finished_root h] at hbn
    have hle : bn ≤ (t ROOTINO).length / BSIZE := Nat.lt_succ_iff.1 (Nat.lt_of_mul_lt_mul_right hbn)
    have hmul := Nat.mul_le_mul_right BSIZE hle
    have hdiv := Nat.div_add_mod' (t ROOTINO).length BSIZE
    omega
  · rwa [size_finished_of_ne h hi hroot] at hbn

theorem liveBlock_lt_MAXFILE (h : Image s t) (hshort : (t ROOTINO).length < MAXFILE * BSIZE)
    (hlive : LiveBlock (finished s) i bn) : bn < MAXFILE := by
  apply hlive.lt_MAXFILE
  by_cases hroot : i = ROOTINO
  · rw [hroot, size_finished_root h]
    exact Nat.mul_le_mul_right _ (Nat.div_lt_of_lt_mul (by rwa [Nat.mul_comm]))
  · rw [size_finished_of_ne h hlive.1 hroot]
    exact (h.laid.holds i).fits

theorem wellFormed_of_room (h : Image s t) (hfit : s.usedblocks ≤ size - nlog)
    (hshort : (t ROOTINO).length < MAXFILE * BSIZE) (hroom : (t ROOTINO).length % BSIZE ≠ 0) : WellFormed (finished s) := by
  have ho := owned_finished h (hfit.trans (by decide))
  have hlog : (readsb (finished s)).size.toNat - (readsb (finished s)).nlog.toNat = size - nlog := by
    rw [readsb_finished h]
    rfl
  constructor
  · intro i bn hlive
    have h0 := liveBlock_block h hroom hlive
    obtain ⟨sl, hsl⟩ := slot_of_block h0
    have hused : s.used (((finished s).inode i).block (finished s) bn) := by
      have := (laid_finished h).allots.used (i, sl)
      rw [refs, table_of_lt hlive.1, ← block_of_slot hsl] at this
      exact this h0
    have htaken : Taken (finished s) (((finished s).inode i).block (finished s) bn) := by
      have := ho.allots.used (i, sl)
      rw [refs, table_of_lt hlive.1, ← block_of_slot hsl] at this
      exact this h0
    refine ⟨_, bmap_of_block h0, h0, htaken.1, ?_, htaken.2.2⟩
    rw [hlog]
    exact (hused.2.trans_eq h.laid.used.symm).trans_le hfit
  · intro i bn j bn' b hlive hlive' hb hb'
    obtain ⟨he, h0⟩ := hb.block ho hlive.1 (liveBlock_lt_MAXFILE h hshort hlive)
    obtain ⟨he', _⟩ := hb'.block ho hlive'.1 (liveBlock_lt_MAXFILE h hshort hlive')
    obtain ⟨sl, hsl⟩ := slot_of_block (he ▸ h0)
    obtain ⟨sl', hsl'⟩ := slot_of_block (he' ▸ h0)
    have hp := ho.allots.once (i, sl) (j, sl')
    rw [refs, refs, table_of_lt hlive.1, table_of_lt hlive'.1, ← block_of_slot hsl, ← block_of_slot hsl', he, he'] at hp
    have hpair := hp h0 rfl
    have hslot : sl = sl' := congrArg Prod.snd hpair
    rw [← hslot] at hsl'
    exact ⟨congrArg Prod.fst hpair, slotOf_injective hsl hsl'⟩

/-- the size of a root directory whose entries fill its blocks is that of one block more, which is not there -/
theorem root_hole (h : Image s t) (hfit : s.usedblocks ≤ size - nlog) (hroot : ROOTINO < s.freeinode)
    (hshort : (t ROOTINO).length < MAXFILE * BSIZE) (hfull : (t ROOTINO).length % BSIZE = 0) :
    LiveBlock (finished s) ROOTINO ((t ROOTINO).length / BSIZE) ∧
      ¬ ∃ b, Resolves (finished s) ROOTINO ((t ROOTINO).length / BSIZE) b := by
  have hlive : LiveBlock (finished s) ROOTINO ((t ROOTINO).length / BSIZE) := by
    refine ⟨by decide, ?_, ?_⟩
    · rw [type_finished h (by decide), typeOf, if_neg (by unfold ROOTINO at *; omega), if_pos rfl]
      decide
    · rw [size_finished_root h]
      exact Nat.mul_lt_mul_of_pos_right (Nat.lt_succ_self _) BSIZE_pos
  refine ⟨hlive, ?_⟩
  rintro ⟨b, hb⟩
  obtain ⟨he, h0⟩ := hb.block (owned_finished h (hfit.trans (by decide))) (by decide) (liveBlock_lt_MAXFILE h hshort hlive)
  have hlt := (block_finished h (by decide)).1 (he ▸ h0)
  rw [Nat.div_mul_cancel (Nat.dvd_of_mod_eq_zero hfull)] at hlt
  exact absurd hlt (Nat.lt_irrefl _)

/-- **When the image is well formed.** For every list of files that mkfs accepts and whose inodes and blocks fit: the
kernel finds every block of every allocated inode, each at a place of its own in the data area and marked in use, exactly
if the number of entries of the root directory is not a multiple of the 32 that a block holds. -/
theorem wellFormed_iff (files : List (List Byte × List Byte)) (s : St) (hmain : main files = .ok s)
    (hfew : files.length + 2 ≤ inodeRoom) (hfit : s.usedblocks ≤ size - nlog) :
    WellFormed s.disk ↔ (files.length + 2) % 32 ≠ 0 := by
  obtain ⟨_, _, s₁, himage, hused, hn, hdisk⟩ := (main_ends files hfew).of_ok hmain
  have hlen := length_contents_root files
  have hshort : (contents files ROOTINO).length < MAXFILE * BSIZE := by
    rw [hlen]
    exact (Nat.mul_le_mul_left 16 hfew).trans_lt (by decide)
  have hmod : (contents files ROOTINO).length % BSIZE = 16 * ((files.length + 2) % 32) := by
    rw [hlen]
    exact Nat.mul_mod_mul_left 16 (files.length + 2) 32
  rw [hdisk]
  constructor
  · intro hw hfull
    have hroot : ROOTINO < s₁.freeinode := by
      rw [hn]
      unfold ROOTINO
      omega
    obtain ⟨hlive, hnone⟩ := root_hole himage (by rwa [hused]) hroot hshort (by rw [hmod, hfull])
    obtain ⟨b, hb, _⟩ := hw.resolves _ _ hlive
    exact hnone ⟨b, hb⟩
  · intro hroom
    exact wellFormed_of_room himage (by rwa [hused]) hshort (by rw [hmod]; omega)

/-- the image without files -/
theorem wellFormed_nil : ∃ s, main [] = .ok s ∧ s.usedblocks ≤ size - nlog ∧ WellFormed s.disk := by
  obtain ⟨s, hmain, hused⟩ : ∃ s, main [] = .ok s ∧ s.usedblocks = first + 1 :=
    main_of_empty (fun _ hf => absurd hf List.not_mem_nil) (fun _ hf => absurd hf List.not_mem_nil)
      (Nat.le_of_ble_eq_true rfl)
  have hfit : s.usedblocks ≤ size - nlog := by
    rw [hused]
    decide
  exact ⟨s, hmain, hfit, (wellFormed_iff [] s hmain (Nat.le_of_ble_eq_true rfl) hfit).2 (by decide)⟩

/-- 30 empty files, with the names a, b, c and so on -/
def thirty : List (List Byte × List Byte) := (List.range 30).map fun k => ([BitVec.ofNat 8 (97 + k)], [])

/-- **A hole.** mkfs accepts 30 empty files; the root directory then has size 1024, and the kernel's `bmap` does not find
its block 1 without a change. -/
theorem thirty_files_hole :
    ∃ s, main thirty = .ok s ∧ s.usedblocks ≤ size - nlog ∧ LiveBlock s.disk ROOTINO 1 ∧
      ¬ ∃ b, Resolves s.disk ROOTINO 1 b := by
  have hempty : ∀ f ∈ thirty, f.2 = [] := by decide
  have hslash : ∀ f ∈ thirty, slash ∉ f.1 := by decide
  obtain ⟨s, hmain, hused⟩ := main_of_empty hempty hslash (by decide)
  have hfit : s.usedblocks ≤ size - nlog := by
    rw [hused]
    decide
  obtain ⟨_, _, s₁, himage, hused₁, hn, hdisk⟩ := (main_ends thirty (by decide)).of_ok hmain
  have hlen : (contents thirty ROOTINO).length = 512 := length_contents_root thirty
  have hhole := root_hole himage (by rwa [hused₁]) (by rw [hn]; decide) (by rw [hlen]; decide) (by rw [hlen]; rfl)
  rw [hlen] at hhole
  rw [← hdisk] at hhole
  exact ⟨s, hmain, hfit, hhole⟩

end Xv6Threads.Fs.Mkfs
