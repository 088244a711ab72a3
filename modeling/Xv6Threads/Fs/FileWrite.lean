/-
`filewrite` of file.c on a regular file, by one caller: is it all or nothing?

The bytes are stored in chunks of at most 1536, each in its own transaction, and `writei` checks the largest size of a
file for each chunk. A call that goes past the largest size stores the chunks that fit, advances the offset over them and
then returns -1.
- `Call.loop_ends`: what the loop has stored when it ends: whole chunks, up to the one that is refused.
- `filewrite_all_or_nothing_iff`: the call is all or nothing iff the file is not writable, or all its bytes fit and there
  are free blocks for them, or its first chunk is refused.
- `filewrite_stores_a_part`: 71681 bytes to an empty file. It returns -1, and the file has more than 70144 bytes.
-/
import Xv6Threads.Fs.SharedWrites

namespace Xv6Threads.Fs

open Xv6Threads.Core Function

/-! ## The code -/

/-- why `filewrite` does not return -/
inductive Stuck where
  | fs (e : Stop)
  | shortFilewrite

/-- the loop of `filewrite`: the number of bytes stored -/
def Call.loop : ℕ → Call → WFile → St → Except Stuck (ℕ × WFile × St)
  | 0, c, f, s => .ok (c.i, f, s)
  | turns + 1, c, f, s =>
    if (c.i : ℤ) < c.n then
      match FsProg.exec (FsProg.writeChunk f c.next) s with
      | .error e => .error (.fs e)
      | .ok ((none, f), s) => .ok (c.i, f, s)
      | .ok ((some r, f), s) =>
        if r ≠ c.next.length then .error .shortFilewrite else loop turns { c with i := c.i + r } f s
    else .ok (c.i, f, s)

/-- `filewrite` on a file of type FD_INODE. Each turn of its loop stores a byte at least. -/
def filewrite (f : WFile) (addr : ℕ → Byte) (n : ℤ) (s : St) : Except Stuck (ℤ × WFile × St) :=
  if f.writable = false then .ok (-1, f, s)
  else do
    let (i, f, s) ← Call.loop n.toNat ⟨addr, n, 0, none⟩ f s
    return (if (i : ℤ) = n then n else -1, f, s)

/-! ## The property -/

/-- the contents and the size of a file -/
def fileOf (s : St) (ip : Fin NINODE) : List Byte × BitVec 32 :=
  ((s.icache ip).din.contents s.disk, (s.icache ip).din.size)

/-- the call returns, and it has stored all its bytes as one `writei` would, or nothing -/
def AllOrNothing (s : St) (f : WFile) (addr : ℕ → Byte) (n : ℤ) : Prop :=
  ∃ r f' s', filewrite f addr n s = .ok (r, f', s') ∧
    ((r = n ∧ (∃ s₁, FsProg.exec (FsProg.writei f.ip f.off.toNat ((List.range n.toNat).map addr)) s = .ok (some n.toNat, s₁) ∧
        fileOf s' f.ip = fileOf s₁ f.ip) ∧ f'.off.toNat = f.off.toNat + n.toNat) ∨
      (r = -1 ∧ fileOf s' f.ip = fileOf s f.ip ∧ f'.off = f.off))

/-! ## The blocks of a range -/

theorem touched_mono {off n off' n' : ℕ} (hlow : off ≤ off') (hhigh : off' + n' ≤ off + n) :
    touched off' n' ⊆ touched off n := by
  apply Finset.biUnion_subset_biUnion_of_subset_left
  exact Finset.Ico_subset_Ico hlow hhigh

theorem ref_of_block {x : Dinode} {d : Disk} {bn : ℕ} {sl : Slot} (hb : x.block d bn ≠ 0) (hsl : sl ∈ slotsFor bn) :
    x.ref d sl ≠ 0 := by
  unfold slotsFor at hsl
  split at hsl
  case isTrue hdir =>
    rw [Finset.mem_singleton.1 hsl, ← block_eq_direct hdir]
    exact hb
  case isFalse hdir =>
    split at hsl
    case isTrue hind =>
      rw [block_eq_entry hdir hind] at hb
      rcases Finset.mem_insert.1 hsl with rfl | hsl
      · intro h0
        have hind0 : x.indirect = 0 := h0
        apply hb
        rw [Dinode.ref, if_pos hind0]
      · rw [Finset.mem_singleton.1 hsl]
        exact hb
    case isFalse => exact absurd hsl (Finset.notMem_empty _)

variable {s s' s'' : St} {f f' f'' : WFile} {S : Finset Slot}

namespace Ready

variable {ip : Fin NINODE}

theorem table_eq (h : Ready s ip) : s.table (s.icache ip).inum = (s.icache ip).din :=
  St.table_of_cached (h.sound.cached_self h.ref h.valid)

theorem noHoles (h : Ready s ip) : (s.icache ip).din.NoHoles s.disk := by
  rw [← h.table_eq]
  exact h.sound.noHoles _

theorem size_le (h : Ready s ip) : (s.icache ip).din.size.toNat ≤ MAXFILE * BSIZE := by
  by_contra hlt
  exact absurd (block_lt_MAXFILE (h.noHoles MAXFILE (not_le.1 hlt))) (lt_irrefl _)

/-- a range inside of the file has all its blocks -/
theorem empties_touched (h : Ready s ip) {off n : ℕ} (hin : off + n ≤ (s.icache ip).din.size.toNat) :
    (s.icache ip).din.empties s.disk (touched off n) = 0 := by
  rw [Dinode.empties, Finset.card_eq_zero, Finset.filter_eq_empty_iff]
  intro sl hsl
  obtain ⟨k, hk, hmem⟩ := Finset.mem_biUnion.1 hsl
  have hlt := (Finset.mem_Ico.1 hk).2
  have hle : k / BSIZE * BSIZE ≤ k := Nat.div_mul_le_self k BSIZE
  exact ref_of_block (h.noHoles _ (by omega)) hmem

end Ready

/-! ## What the loop stores -/

/-- the bytes `src` have been stored from the offset of the file on -/
structure Stored (S : Finset Slot) (s : St) (f : WFile) (src : List Byte) (s' : St) (f' : WFile) : Prop where
  ready : Ready s' f.ip
  file : f' = { f with off := f.off + BitVec.ofNat 32 src.length }
  contents : (s'.icache f.ip).din.contents s'.disk = spliced ((s.icache f.ip).din.contents s.disk) f.off.toNat src
  size : (s'.icache f.ip).din.size.toNat = max (s.icache f.ip).din.size.toNat (f.off.toNat + src.length)
  count : free s.disk + (s'.icache f.ip).din.empties s'.disk S = free s'.disk + (s.icache f.ip).din.empties s.disk S

namespace Stored

variable {src rest : List Byte}

theorem nil (h : Ready s f.ip) (hoff : f.off.toNat ≤ (s.icache f.ip).din.size.toNat) : Stored S s f [] s f where
  ready := h
  file := by
    have hzero : f.off + BitVec.ofNat 32 0 = f.off := BitVec.add_zero _
    rw [List.length_nil, hzero]
  contents := (spliced_nil ..).symm
  size := (max_eq_left (by simpa using hoff)).symm
  count := rfl

theorem chunk (h : Ready s f.ip) (hoff : f.off.toNat ≤ (s.icache f.ip).din.size.toNat) {x' : Dinode} {d' : Disk}
    (hw : Written s f.ip f.off.toNat src x' d')
    (hcount : free s.disk + x'.empties d' S = free d' + (s.icache f.ip).din.empties s.disk S) :
    Stored S s f src (s.hold f.ip x' d') { f with off := f.off + BitVec.ofNat 32 src.length } where
  ready := h.hold hw
  file := rfl
  contents := by
    rw [St.hold_self, St.hold_disk]
    exact hw.contents_eq h.table_eq hoff
  size := by
    rw [St.hold_self]
    exact hw.size
  count := by
    rw [St.hold_self, St.hold_disk]
    exact hcount

/-- the offset after bytes that fit -/
theorem off_eq (h : Stored S s f src s' f') (hfit : f.off.toNat + src.length ≤ MAXFILE * BSIZE) :
    f'.off.toNat = f.off.toNat + src.length := by
  have hmax : MAXFILE * BSIZE < 2 ^ 32 := by decide
  rw [h.file, BitVec.toNat_add, BitVec.toNat_ofNat]
  omega

theorem inside (h : Stored S s f src s' f') (hfit : f.off.toNat + src.length ≤ MAXFILE * BSIZE) :
    f'.off.toNat ≤ (s'.icache f.ip).din.size.toNat := by
  rw [h.off_eq hfit, h.size]
  exact le_max_right _ _

theorem append (h : Stored S s f src s' f') (hoff : f.off.toNat ≤ (s.icache f.ip).din.size.toNat)
    (hfit : f.off.toNat + src.length ≤ MAXFILE * BSIZE) (h' : Stored S s' f' rest s'' f'') :
    Stored S s f (src ++ rest) s'' f'' := by
  have hip : f'.ip = f.ip := by rw [h.file]
  have hnext := h.off_eq hfit
  obtain ⟨hready, hfile, hcontents, hsize, hcount⟩ := h'
  rw [hip] at hready hcontents hsize hcount
  constructor
  case ready => exact hready
  case file =>
    rw [hfile, h.file, List.length_append, BitVec.ofNat_add, BitVec.add_assoc]
  case contents =>
    rw [hcontents, h.contents, hnext, spliced_spliced (by rwa [length_contents])]
  case size =>
    rw [hsize, h.size, hnext, List.length_append, max_assoc, Nat.add_assoc, max_eq_right (a := f.off.toNat + src.length)]
    omega
  case count =>
    have hfirst := h.count
    omega

/-- the blocks it took were free -/
theorem room {n : ℕ} (hlen : src.length = n) (h : Stored (touched f.off.toNat n) s f src s' f') :
    (s.icache f.ip).din.empties s.disk (touched f.off.toNat n) ≤ free s.disk := by
  have hcount := h.count
  rw [h.ready.empties_touched (by rw [h.size, hlen]; exact le_max_right _ _)] at hcount
  omega

end Stored

namespace Call

variable {c : Call}

theorem length_next (c : Call) : c.next.length = min maxChunk (c.n.toNat - c.i) := by
  rw [next_eq, List.length_take, List.length_drop, length_data]

/-- where the loop ends: after `i` bytes, because it has stored them all or because the next chunk does not fit -/
structure Ended (S : Finset Slot) (c : Call) (s : St) (f : WFile) (i : ℕ) (s' : St) (f' : WFile) : Prop where
  low : c.i ≤ i
  high : i ≤ c.n.toNat
  fits : f.off.toNat + (i - c.i) ≤ MAXFILE * BSIZE
  stored : Stored S s f ((c.data.drop c.i).take (i - c.i)) s' f'
  refused : i < c.n.toNat → MAXFILE * BSIZE < f.off.toNat + (i - c.i) + min maxChunk (c.n.toNat - i)

theorem length_piece {i : ℕ} (hhigh : i ≤ c.n.toNat) : ((c.data.drop c.i).take (i - c.i)).length = i - c.i := by
  rw [List.length_take, List.length_drop, length_data]
  omega

theorem Ended.stop (h : Ready s f.ip) (hoff : f.off.toNat ≤ (s.icache f.ip).din.size.toNat) (hi : c.i ≤ c.n.toNat)
    (hrefused : c.i < c.n.toNat → MAXFILE * BSIZE < f.off.toNat + min maxChunk (c.n.toNat - c.i)) :
    Ended S c s f c.i s f where
  low := le_rfl
  high := hi
  fits := by
    rw [Nat.sub_self]
    exact hoff.trans h.size_le
  stored := by
    rw [Nat.sub_self, List.take_zero]
    exact Stored.nil h hoff
  refused := by
    rw [Nat.sub_self]
    exact hrefused

/-- a chunk, and then the rest of the loop -/
theorem Ended.cons {i : ℕ} (hoff : f.off.toNat ≤ (s.icache f.ip).din.size.toNat)
    (hfit : f.off.toNat + c.next.length ≤ MAXFILE * BSIZE) (hchunk : Stored S s f c.next s' f')
    (hrest : Ended S { c with i := c.i + c.next.length } s' f' i s'' f'') : Ended S c s f i s'' f'' := by
  obtain ⟨hlow, hhigh, hfits, hstored, hrefused⟩ := hrest
  simp only at hlow hhigh hfits hstored hrefused
  rw [hchunk.off_eq hfit] at hfits hrefused
  have hpieces : c.next ++ (c.data.drop (c.i + c.next.length)).take (i - (c.i + c.next.length)) =
      (c.data.drop c.i).take (i - c.i) := by
    have htake : c.next = (c.data.drop c.i).take c.next.length := by
      have hnext := c.next_eq
      rw [hnext, List.length_take, List.take_eq_take_min]
    have hsplit : i - c.i = c.next.length + (i - (c.i + c.next.length)) := by omega
    rw [hsplit, List.take_add, List.drop_drop, ← htake]
  constructor
  case low => omega
  case high => exact hhigh
  case fits => omega
  case stored =>
    rw [← hpieces]
    exact hchunk.append hoff hfit hstored
  case refused =>
    intro hi
    have := hrefused hi
    omega

/-- **The loop.** It stores whole chunks until all the bytes are stored or a chunk does not fit; it panics only if there are
not as many free blocks as places to fill. -/
theorem loop_ends (turns : ℕ) (hturns : c.n.toNat ≤ c.i + turns) (hi : c.i ≤ c.n.toNat) (h : Ready s f.ip)
    (hoff : f.off.toNat ≤ (s.icache f.ip).din.size.toNat) (hS : touched f.off.toNat (c.n.toNat - c.i) ⊆ S) :
    Ends (c.loop turns f s) (fun r => Ended S c s f r.1 r.2.2 r.2.1)
      (fun _ => free s.disk < (s.icache f.ip).din.empties s.disk S) := by
  induction turns generalizing c f s with
  | zero => exact Ends.ok (Ended.stop h hoff hi fun hlt => absurd hlt (by omega))
  | succ turns ih =>
    rw [loop]
    split
    case isFalse hdone => exact Ends.ok (Ended.stop h hoff hi fun hlt => absurd hlt (by omega))
    case isTrue hmore =>
      have hlen := c.length_next
      have hpos : 0 < c.next.length := by
        rw [hlen]
        have : 0 < maxChunk := by decide
        omega
      by_cases hfit : f.off.toNat + c.next.length ≤ MAXFILE * BSIZE
      · have hchunk := chunk_ends h hoff hfit hpos (S := S) ((touched_mono le_rfl (by omega)).trans hS)
        cases hexec : FsProg.exec (FsProg.writeChunk f c.next) s with
        | error e => exact hchunk.of_error hexec
        | ok r =>
          obtain ⟨x', d', rfl, hw, hcount⟩ := hchunk.of_ok hexec
          have hstored := Stored.chunk h hoff hw hcount
          have hnext := hstored.off_eq hfit
          simp only [ne_eq, not_true_eq_false, ↓reduceIte]
          refine (ih (c := { c with i := c.i + c.next.length })
            (f := { f with off := f.off + BitVec.ofNat 32 c.next.length }) (by simp only; omega) (by simp only; omega)
            hstored.ready (hstored.inside hfit) ?_).mono ?_ ?_
          · rw [hnext]
            exact (touched_mono (by omega) (by simp only; omega)).trans hS
          · intro r hr
            exact Ended.cons hoff hfit hstored hr
          · intro e he
            have hc := hstored.count
            simp only at he
            omega
      · rw [chunk_refused h (not_le.1 hfit)]
        refine Ends.ok (Ended.stop h hoff hi fun _ => ?_)
        omega

end Call

/-! ## All or nothing -/

/-- what `filewrite` returns, and what it has stored -/
theorem filewrite_ends (addr : ℕ → Byte) (n : ℤ) (h : Ready s f.ip) (hoff : f.off.toNat ≤ (s.icache f.ip).din.size.toNat)
    (hw : f.writable = true) :
    Ends (filewrite f addr n s)
      (fun r => ∃ i : ℕ, Call.Ended (touched f.off.toNat n.toNat) ⟨addr, n, 0, none⟩ s f i r.2.2 r.2.1 ∧
        r.1 = if (i : ℤ) = n then n else -1)
      (fun _ => free s.disk < (s.icache f.ip).din.empties s.disk (touched f.off.toNat n.toNat)) := by
  rw [filewrite, if_neg (by rw [hw]; decide)]
  refine (Call.loop_ends n.toNat (by simp) (Nat.zero_le _) h hoff subset_rfl).bind fun r hr => Ends.ok ?_
  exact ⟨r.1, hr, rfl⟩

theorem Call.Ended.all {addr : ℕ → Byte} {n : ℤ} (h : Call.Ended S ⟨addr, n, 0, none⟩ s f n.toNat s' f') :
    Stored S s f ((List.range n.toNat).map addr) s' f' := by
  have hlen : (Call.data ⟨addr, n, 0, none⟩).length ≤ n.toNat := (Call.length_data _).le
  have hdata := h.stored
  rwa [Nat.sub_zero, List.drop_zero, List.take_of_length_le hlen] at hdata

theorem fileOf_eq {ip : Fin NINODE}
    (hcontents : (s.icache ip).din.contents s.disk = (s'.icache ip).din.contents s'.disk) : fileOf s ip = fileOf s' ip := by
  have hlen := congrArg List.length hcontents
  rw [length_contents, length_contents] at hlen
  rw [fileOf, fileOf, hcontents, BitVec.eq_of_toNat_eq hlen]

/-- **All or nothing.** A call of `filewrite` stores all its bytes as one `writei` would, or returns -1 and stores nothing,
exactly if the file is not writable, or the bytes fit in a file and there are free blocks for them, or already the first
chunk does not fit. -/
theorem filewrite_all_or_nothing_iff (s : St) (f : WFile) (addr : ℕ → Byte) (n : ℤ) (h : Ready s f.ip)
    (hoff : f.off.toNat ≤ (s.icache f.ip).din.size.toNat) (hn : 0 ≤ n) :
    AllOrNothing s f addr n ↔
      f.writable = false ∨ HasRoom s f n.toNat ∨ MAXFILE * BSIZE < f.off.toNat + min maxChunk n.toNat := by
  have hlen : ((List.range n.toNat).map addr).length = n.toNat := by
    rw [List.length_map, List.length_range]
  constructor
  · rintro ⟨r, f', s', hcall, hres⟩
    by_contra hnot
    obtain ⟨hw, hnot⟩ := not_or.1 hnot
    obtain ⟨hroom, hfirst⟩ := not_or.1 hnot
    obtain ⟨i, hended, hr⟩ := (filewrite_ends addr n h hoff (by simpa using hw)).of_ok hcall
    simp only at hended hr
    have hhigh : i ≤ n.toNat := hended.high
    by_cases hi : i = n.toNat
    · -- all was stored, so there was room
      subst hi
      have hfits : f.off.toNat + (n.toNat - 0) ≤ MAXFILE * BSIZE := hended.fits
      exact hroom ⟨hfits, hended.all.room hlen⟩
    · -- a later chunk was refused, and the offset has moved
      have hpart : MAXFILE * BSIZE < f.off.toNat + (i - 0) + min maxChunk (n.toNat - i) := hended.refused (by
        change i < n.toNat
        omega)
      have hpos : 0 < i := by
        by_contra h0
        obtain rfl : i = 0 := by omega
        rw [Nat.sub_zero] at hpart
        omega
      have hmoved := hended.stored.off_eq (by rw [Call.length_piece hhigh]; exact hended.fits)
      rw [Call.length_piece hhigh] at hmoved
      rw [if_neg (by omega)] at hr
      rcases hres with ⟨hrn, _⟩ | ⟨_, _, hsame⟩
      · omega
      · rw [hsame] at hmoved
        simp only at hmoved
        omega
  · intro hcond
    by_cases hw : f.writable = false
    · exact ⟨-1, f, s, by rw [filewrite, if_pos hw], .inr ⟨rfl, rfl, rfl⟩⟩
    · have hends := filewrite_ends addr n h hoff (by simpa using hw)
      rcases hcond.resolve_left hw with hroom | hfirst
      · -- no chunk is refused
        have hret : Ends (filewrite f addr n s) _ fun _ => False :=
          hends.mono (fun _ hr => hr) fun _ he => not_lt.2 hroom.2 he
        obtain ⟨⟨r, f', s'⟩, hcall, i, hended, hr⟩ := hret.returns
        simp only at hended hr
        have hhigh : i ≤ n.toNat := hended.high
        have hi : i = n.toNat := by
          by_contra hne
          have hpart : MAXFILE * BSIZE < f.off.toNat + (i - 0) + min maxChunk (n.toNat - i) := hended.refused (by
            change i < n.toNat
            omega)
          have hfit := hroom.1
          omega
        subst hi
        have hall := hended.all
        obtain ⟨x', d', hexec, hwritten⟩ := FsProg.writei_holds h.sound h.ref h.valid (by rw [h.regular]; decide) hoff
          (hlen.symm ▸ hroom.1) (hlen.symm ▸ hroom.2)
        rw [hlen] at hexec
        refine ⟨r, f', s', hcall, .inl ⟨?_, ⟨_, hexec, fileOf_eq ?_⟩, ?_⟩⟩
        · rw [hr, if_pos (Int.toNat_of_nonneg hn)]
        · rw [hall.contents, St.hold_self, St.hold_disk, hwritten.contents_eq h.table_eq hoff]
        · rw [hall.off_eq (by rw [hlen]; exact hroom.1), hlen]
      · -- the first chunk is refused
        have hpos : 0 < n.toNat := by
          by_contra h0
          have hle := hoff.trans h.size_le
          omega
        have hrefused : FsProg.exec (FsProg.writeChunk f (Call.next ⟨addr, n, 0, none⟩)) s = .ok ((none, f), s) :=
          chunk_refused h (by rw [Call.length_next]; exact hfirst)
        obtain ⟨turns, hturns⟩ : ∃ turns, n.toNat = turns + 1 := ⟨n.toNat - 1, by omega⟩
        refine ⟨-1, f, s, ?_, .inr ⟨rfl, rfl, rfl⟩⟩
        have hloop : Call.loop n.toNat ⟨addr, n, 0, none⟩ f s = .ok (0, f, s) := by
          rw [hturns, Call.loop, if_pos (by simp only; omega), hrefused]
        rw [filewrite, if_neg hw, hloop]
        change Except.ok (if ((0 : ℕ) : ℤ) = n then n else -1, f, s) = _
        rw [if_neg (by omega)]

/-- two bytes to an empty file -/
theorem two_bytes_all_or_nothing :
    AllOrNothing (small.setLocks 0 false) ⟨⟨true, 0, 0⟩, true⟩ (fun k => BitVec.ofNat 8 (k + 7)) 2 :=
  (filewrite_all_or_nothing_iff _ ⟨⟨true, 0, 0⟩, true⟩ _ 2
    ⟨(small.like_setLocks 0 false).sound small_sound, by decide, rfl, rfl, rfl, rfl⟩ (Nat.zero_le _) (by decide)).2
    (.inr (.inl ⟨by decide, small_room⟩))

/-! ## A part of the bytes -/

/-- a disk of 256 blocks, of which the first 5 are in use -/
def wideDisk : Disk := update smallDisk 1 (superblock.set zeroes 0 ⟨256, 251, 8, 0⟩)

theorem readsb_wide : readsb wideDisk = ⟨256, 251, 8, 0⟩ := by
  rw [readsb, wideDisk, update_self]
  exact superblock.get_set_self _ _ (by decide)

theorem inUse_wide {b : ℕ} (hb : b < 256) : inUse wideDisk b = decide (b < 5) := by
  have hbb : BBLOCK b 8 = 4 := by
    unfold BBLOCK BPB IPB
    omega
  have hblock : wideDisk 4 = smallBitmap := by
    rw [wideDisk, update_of_ne (by decide)]
    exact update_self ..
  rw [inUse, readsb_wide]
  change bit (wideDisk (BBLOCK b 8)) (b % BPB) = _
  rw [hbb, hblock]
  revert b
  decide +kernel

theorem wide_sound : (smallOn wideDisk).Sound := by
  refine smallOn_sound readsb_wide (by decide) ?_ ?_
  · rw [wideDisk, update_of_ne (by decide), smallDisk, update_of_ne (by decide),
      update_of_ne (by decide)]
  · intro b hb
    rw [inUse_wide (by omega)]
    exact decide_eq_true hb

theorem wide_free : 251 ≤ free wideDisk := by
  have hsub : Finset.Ico 5 256 ⊆ (Finset.range (readsb wideDisk).size.toNat).filter fun b => inUse wideDisk b = false := by
    intro b hb
    obtain ⟨hlow, hhigh⟩ := Finset.mem_Ico.1 hb
    rw [Finset.mem_filter, Finset.mem_range, readsb_wide, inUse_wide hhigh]
    exact ⟨hhigh, decide_eq_false (not_lt.2 hlow)⟩
  have hcard := Finset.card_le_card hsub
  rwa [Nat.card_Ico] at hcard

/-- a file has no more than 141 places for blocks -/
theorem card_slots (S : Finset Slot) : S.card ≤ 141 := by
  have hsub : S ⊆ insert .indirect (Finset.univ.image Slot.direct ∪ Finset.univ.image Slot.entry) := by
    intro sl _
    cases sl with
    | direct j => simp
    | indirect => simp
    | entry j => simp
  have hdirect : (Finset.univ.image Slot.direct).card ≤ NDIRECT := by
    simpa using Finset.card_image_le (s := Finset.univ) (f := Slot.direct)
  have hentry : (Finset.univ.image Slot.entry).card ≤ NINDIRECT := by
    simpa using Finset.card_image_le (s := Finset.univ) (f := Slot.entry)
  calc S.card ≤ _ := Finset.card_le_card hsub
    _ ≤ (Finset.univ.image Slot.direct ∪ Finset.univ.image Slot.entry).card + 1 := Finset.card_insert_le ..
    _ ≤ (Finset.univ.image Slot.direct).card + (Finset.univ.image Slot.entry).card + 1 := by
      gcongr
      exact Finset.card_union_le ..
    _ ≤ NDIRECT + NINDIRECT + 1 := by gcongr
    _ = 141 := by decide

/-- an empty file, open for writing, on a disk with room for all it can hold -/
def wideOpened : St := (smallOn wideDisk).setLocks 0 false

def wideFile : WFile := ⟨⟨true, 0, 0⟩, true⟩

theorem wide_ready : Ready wideOpened wideFile.ip :=
  ⟨((smallOn wideDisk).like_setLocks 0 false).sound wide_sound, by decide, rfl, rfl, rfl, rfl⟩

/-- more bytes than a file can hold -/
theorem wide_part (addr : ℕ → Byte) {n : ℤ} (hn : 71680 < n) :
    ∃ f' s', filewrite wideFile addr n wideOpened = .ok (-1, f', s') ∧ 70144 < f'.off.toNat ∧
      70144 < (fileOf s' wideFile.ip).1.length := by
  have hmax : MAXFILE * BSIZE = 71680 := by decide
  have hchunk : maxChunk = 1536 := by decide
  have hroom : (wideOpened.icache wideFile.ip).din.empties wideOpened.disk (touched wideFile.off.toNat n.toNat) ≤
      free wideOpened.disk :=
    le_trans (Finset.card_filter_le _ _) (le_trans (card_slots _) (le_trans (by decide) wide_free))
  have hends : Ends (filewrite wideFile addr n wideOpened) _ fun _ => False :=
    (filewrite_ends addr n wide_ready (Nat.zero_le _) rfl).mono (fun _ hr => hr) fun _ he => not_lt.2 hroom he
  obtain ⟨⟨r, f', s'⟩, hcall, i, hended, hr⟩ := hends.returns
  simp only at hended hr
  have hhigh : i ≤ n.toNat := hended.high
  have hfits : 0 + (i - 0) ≤ MAXFILE * BSIZE := hended.fits
  have hless : i < n.toNat := by omega
  have hrefused : MAXFILE * BSIZE < 0 + (i - 0) + min maxChunk (n.toNat - i) := hended.refused hless
  have hlen := Call.length_piece (c := ⟨addr, n, 0, none⟩) hhigh
  have hmoved : f'.off.toNat = 0 + (i - 0) := by
    rw [← hlen]
    exact hended.stored.off_eq (by rw [hlen]; exact hfits)
  have hlength : (fileOf s' wideFile.ip).1.length = max 0 (0 + (i - 0)) := by
    rw [← hlen]
    exact (length_contents _).trans hended.stored.size
  rw [if_neg (by omega)] at hr
  subst hr
  exact ⟨f', s', hcall, by omega, by omega⟩

/-- **A part is stored.** 71681 bytes, one more than a file can hold, to an empty file: the call returns -1, and the file has
more than 70144 bytes then, and the offset has moved over them. -/
theorem filewrite_stores_a_part :
    Ready wideOpened wideFile.ip ∧
      (∃ f' s', filewrite wideFile (fun k => BitVec.ofNat 8 k) 71681 wideOpened = .ok (-1, f', s') ∧
        70144 < f'.off.toNat ∧ 70144 < (fileOf s' wideFile.ip).1.length) ∧
      ¬ AllOrNothing wideOpened wideFile (fun k => BitVec.ofNat 8 k) 71681 := by
  obtain ⟨f', s', hcall, hmore, hlength⟩ := wide_part (fun k => BitVec.ofNat 8 k) (n := 71681) (by decide)
  refine ⟨wide_ready, ⟨f', s', hcall, hmore, hlength⟩, ?_⟩
  rintro ⟨r, f'', s'', hcall', hres⟩
  rw [hcall] at hcall'
  cases hcall'
  rcases hres with ⟨hn, _⟩ | ⟨_, _, hsame⟩
  · exact absurd hn (by decide)
  · have hzero : f'.off.toNat = 0 := congrArg BitVec.toNat hsame
    omega

end Xv6Threads.Fs
