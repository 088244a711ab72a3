/-
Files as arrays of bytes: what `readi` and `writei` do.

`Dinode.byte x d k` is byte k of the file of an inode, with zeroes where it has no block. `Dinode.NoHoles` says that it has
all the blocks that its size needs.
- `readi_exec`: `readi` of a file without holes returns its bytes, and changes nothing.
- `Wrote`: the bytes of one range of one file have changed, and nothing else; its new blocks are free ones.
- `writeLoop_ends`: so it is after the loop of `writei`. It panics only if there are not as many free blocks as places.
-/
import Xv6Threads.Fs.Inodes

namespace Xv6Threads.Fs

open Xv6Threads.Core Function

namespace Dinode

/-- byte `k` of the file -/
def byte (x : Dinode) (d : Disk) (k : ℕ) : Byte :=
  if x.block d (k / BSIZE) = 0 then 0 else rd (d (x.block d (k / BSIZE))) (k % BSIZE)

/-- the bytes from `off` on -/
def bytes (x : Dinode) (d : Disk) (off n : ℕ) : List Byte := (List.range n).map fun k => x.byte d (off + k)

/-- every block below the size of the file is there -/
def NoHoles (x : Dinode) (d : Disk) : Prop := ∀ bn, bn * BSIZE < x.size.toNat → x.block d bn ≠ 0

end Dinode

namespace St

/-- the state with other fields of one inode, and another disk -/
def hold (s : St) (ip : Fin NINODE) (x : Dinode) (d : Disk) : St :=
  { s with disk := d, icache := update s.icache ip { s.icache ip with din := x } }

variable {s : St} {ip : Fin NINODE} {x x' : Dinode} {d d' : Disk}

@[simp] theorem hold_disk : (s.hold ip x d).disk = d := rfl

@[simp] theorem hold_self : (s.hold ip x d).icache ip = { s.icache ip with din := x } := update_self ..

@[simp] theorem hold_hold : (s.hold ip x d).hold ip x' d' = s.hold ip x' d' := by
  simp [hold]

@[simp] theorem hold_eq : s.hold ip (s.icache ip).din s.disk = s := by
  simp [hold]

end St

/-! ## Programs that run alone -/

namespace FsProg

variable {α β : Type} {s : St} {ip : Fin NINODE}

@[simp] theorem exec_pure (a : α) : exec (pure a) s = .ok (a, s) := rfl

theorem exec_bind (p : FsProg α) (f : α → FsProg β) :
    exec (p >>= f) s = exec p s >>= fun r => exec (f r.1) r.2 := Prog.exec_bind p f

theorem exec_bind_ok {p : FsProg α} {a : α} {s' : St} (h : exec p s = .ok (a, s')) (f : α → FsProg β) :
    exec (p >>= f) s = exec (f a) s' := by
  rw [exec_bind, h]
  rfl

theorem ends_bind {p : FsProg α} {f : α → FsProg β} {Q : α × St → Prop} {R : β × St → Prop} {E : Stop → Prop}
    (hp : Ends (exec p s) Q E) (hf : ∀ a s, Q (a, s) → Ends (exec (f a) s) R E) : Ends (exec (p >>= f) s) R E :=
  hp.exec_bind hf

theorem exec_perform (o : Op) : exec (perform o) s = o.step s := Prog.exec_perform (σ := steps) o

theorem exec_inode : exec (inode ip) s = .ok (s.icache ip, s) := exec_perform _

theorem exec_bread (b : ℕ) : exec (bread b) s = .ok (s.disk b, s) := exec_perform _

theorem exec_bmap (bn : ℕ) : exec (bmap ip bn) s = s.bmap ip bn := exec_perform _

theorem exec_setDin (x : Dinode) : exec (setDin ip x) s = .ok ((), s.hold ip x s.disk) := exec_perform _

theorem exec_iupdate :
    exec (iupdate ip) s = .ok ((), s.setDisk (s.disk.setInode (s.icache ip).inum (s.icache ip).din)) := exec_perform _

theorem exec_lock : exec (lock ip) s = s.lock ip := exec_perform _

theorem exec_load : exec (load ip) s = s.load ip := exec_perform _

theorem exec_iunlock : exec (iunlock ip) s = s.iunlock ip := exec_perform _

theorem exec_ilock_ok (href : 1 ≤ (s.icache ip).ref) (hbusy : (s.icache ip).busy = false)
    (hvalid : (s.icache ip).valid = true) :
    exec (ilock ip) s = .ok ((), s.setEntry ip { s.icache ip with busy := true }) := by
  have hlock : exec (lock ip) s = .ok ((), s.setEntry ip { s.icache ip with busy := true }) := by
    rw [exec_lock, St.lock, if_neg (by omega), if_neg (by simp [hbusy])]
  have hload : exec (load ip) (s.setEntry ip { s.icache ip with busy := true }) =
      .ok ((), s.setEntry ip { s.icache ip with busy := true }) := by
    rw [exec_load]
    exact if_pos (by simp [St.setEntry, hvalid])
  rw [ilock, exec_bind_ok hlock, hload]

theorem exec_iunlock_ok (href : 1 ≤ (s.icache ip).ref) (hbusy : (s.icache ip).busy = true) :
    exec (iunlock ip) s = .ok ((), s.setEntry ip { s.icache ip with busy := false }) := by
  rw [exec_iunlock, St.iunlock, if_neg (by simp [hbusy]; omega)]

theorem exec_store (b off : ℕ) (src : List Byte) :
    exec (store b off src) s = .ok ((), s.setDisk (update s.disk b (splice (s.disk b) off src))) :=
  exec_perform _

end FsProg

/-! ## Blocks that are there -/

variable {x : Dinode} {d : Disk} {bn : ℕ}

theorem block_eq_direct (h : bn < NDIRECT) : x.block d bn = x.ref d (.direct ⟨bn, h⟩) := by
  rw [Dinode.block, slotOf, dif_pos h]

theorem block_eq_entry (h : ¬ bn < NDIRECT) (h' : bn - NDIRECT < NINDIRECT) :
    x.block d bn = x.ref d (.entry ⟨bn - NDIRECT, h'⟩) := by
  rw [Dinode.block, slotOf, dif_neg h, dif_pos h']

theorem slot_of_block (h : x.block d bn ≠ 0) : ∃ sl, slotOf bn = some sl := by
  rw [Dinode.block] at h
  cases hsl : slotOf bn with
  | none =>
    rw [hsl] at h
    exact absurd rfl h
  | some sl => exact ⟨sl, rfl⟩

theorem block_lt_MAXFILE (h : x.block d bn ≠ 0) : bn < MAXFILE := by
  obtain ⟨sl, hsl⟩ := slot_of_block h
  exact slotOf_lt hsl

theorem toNat_ne_zero {w : ℕ} {a : BitVec w} (h : a.toNat ≠ 0) : a ≠ 0 := fun e => h (by rw [e]; simp)

/-- `bmap` of a block that is there changes nothing -/
theorem bmap_of_block (h : x.block d bn ≠ 0) : bmap d x bn = .ok (x.block d bn, x, d) := by
  have hlt := block_lt_MAXFILE h
  unfold bmap
  by_cases hdir : bn < NDIRECT
  · rw [block_eq_direct hdir] at h ⊢
    rw [dif_pos hdir, bmapDirect, if_neg (toNat_ne_zero h)]
    rfl
  · have hind : bn - NDIRECT < NINDIRECT := by
      unfold MAXFILE at hlt
      omega
    rw [block_eq_entry hdir hind] at h ⊢
    have hi : x.indirect ≠ 0 := by
      intro he
      simp [Dinode.ref, he] at h
    have href : x.ref d (.entry ⟨bn - NDIRECT, hind⟩) = (word.get (d x.indirect) (bn - NDIRECT)).toNat := if_neg hi
    rw [href] at h ⊢
    rw [dif_neg hdir, dif_pos hind, indirectBlock, if_neg hi]
    have hentry : bmapEntry d x ⟨bn - NDIRECT, hind⟩ = .ok ((word.get (d x.indirect) (bn - NDIRECT)).toNat, d) := by
      simp only [bmapEntry]
      rw [if_neg (toNat_ne_zero h)]
    change (bmapEntry d x ⟨bn - NDIRECT, hind⟩ >>= fun r => pure (r.1, x, r.2)) = _
    rw [hentry]
    rfl

/-! ## Reading -/

theorem bytes_add (off m n : ℕ) : x.bytes d off (m + n) = x.bytes d off m ++ x.bytes d (off + m) n := by
  simp only [Dinode.bytes, List.range_add, List.map_append, List.map_map]
  congr 1
  apply List.map_congr_left
  intro k _
  simp only [comp_apply, Nat.add_assoc]

@[simp] theorem length_bytes (off n : ℕ) : (x.bytes d off n).length = n := by
  simp [Dinode.bytes]

theorem BSIZE_pos : 0 < BSIZE := by decide

/-- the bytes of one block -/
theorem slice_block {off m : ℕ} (h : x.block d (off / BSIZE) ≠ 0) (hm : m ≤ BSIZE - off % BSIZE) :
    slice (d (x.block d (off / BSIZE))) (off % BSIZE) m = x.bytes d off m := by
  apply List.map_congr_left
  intro k hk
  have hk' : k < m := List.mem_range.1 hk
  have hlt : off % BSIZE + k < BSIZE := by omega
  have hdiv : (off + k) / BSIZE = off / BSIZE := by
    conv_lhs => rw [← Nat.div_add_mod off BSIZE, Nat.add_assoc]
    rw [Nat.mul_add_div BSIZE_pos, Nat.div_eq_of_lt hlt, Nat.add_zero]
  have hmod : (off + k) % BSIZE = off % BSIZE + k := by
    conv_lhs => rw [← Nat.div_add_mod off BSIZE, Nat.add_assoc]
    rw [Nat.mul_add_mod, Nat.mod_eq_of_lt hlt]
  rw [Dinode.byte, hdiv, hmod, if_neg h]

namespace FsProg

variable {s : St} {ip : Fin NINODE}

theorem exec_bmap_of_block {bn : ℕ} (h : (s.icache ip).din.block s.disk bn ≠ 0) :
    exec (bmap ip bn) s = .ok ((s.icache ip).din.block s.disk bn, s) := by
  rw [exec_bmap, St.bmap, bmap_of_block h]
  exact congrArg (fun s => Except.ok (_, s)) St.hold_eq

/-- the loop of `readi` reads a range without holes -/
theorem readLoop_exec (turns off n : ℕ) (hturns : n ≤ turns)
    (hblocks : ∀ k, off ≤ k → k < off + n → (s.icache ip).din.block s.disk (k / BSIZE) ≠ 0) :
    exec (readLoop ip turns off n) s = .ok ((s.icache ip).din.bytes s.disk off n, s) := by
  induction turns generalizing off n with
  | zero =>
    obtain rfl : n = 0 := by omega
    rfl
  | succ turns ih =>
    by_cases hn : n = 0
    · subst hn
      rfl
    · have hmod : off % BSIZE < BSIZE := Nat.mod_lt _ BSIZE_pos
      have hblock := hblocks off le_rfl (by omega)
      have hm : min n (BSIZE - off % BSIZE) ≤ n := min_le_left _ _
      have hpos : 0 < min n (BSIZE - off % BSIZE) := by omega
      have hrest := ih (off + min n (BSIZE - off % BSIZE)) (n - min n (BSIZE - off % BSIZE)) (by omega)
        (fun k hk hk' => hblocks k (by omega) (by omega))
      simp only [readLoop, if_neg hn]
      rw [exec_bind_ok (exec_bmap_of_block hblock), exec_bind_ok (exec_bread _), exec_bind_ok hrest, exec_pure,
        slice_block hblock (min_le_right _ _), ← bytes_add, Nat.add_sub_cancel' hm]

/-- a range that does not start in the file, or does not end below 2^32 -/
theorem readi_refuses (hdev : (s.icache ip).din.type ≠ T_DEV) {off n : ℕ}
    (hout : (s.icache ip).din.size.toNat < off ∨ 2 ^ 32 ≤ off + n) : exec (readi ip off n) s = .ok (none, s) := by
  rw [readi, exec_bind_ok exec_inode, if_neg hdev, if_pos hout, exec_pure]

/-- a range inside of the file, of which all blocks are there -/
theorem readi_of_blocks (hdev : (s.icache ip).din.type ≠ T_DEV) {off n : ℕ} (hin : off + n ≤ (s.icache ip).din.size.toNat)
    (hblocks : ∀ k, off ≤ k → k < off + n → (s.icache ip).din.block s.disk (k / BSIZE) ≠ 0) :
    exec (readi ip off n) s = .ok (some ((s.icache ip).din.bytes s.disk off n), s) := by
  have hsize := (s.icache ip).din.size.isLt
  rw [readi, exec_bind_ok exec_inode, if_neg hdev, if_neg (by omega), if_neg (by omega),
    exec_bind_ok (readLoop_exec n off n le_rfl hblocks), exec_pure]

/-- what `readi` returns for a file of this size and these bytes -/
def readResult (size : ℕ) (bytes : ℕ → ℕ → List Byte) (off n : ℕ) : Option (List Byte) :=
  if size < off ∨ 2 ^ 32 ≤ off + n then none else some (bytes off (min n (size - off)))

/-- **`readi` reads.** Of a file without holes, it returns the bytes of the range up to the size, and changes nothing. -/
theorem readi_exec (hdev : (s.icache ip).din.type ≠ T_DEV) (hholes : (s.icache ip).din.NoHoles s.disk) (off n : ℕ) :
    exec (readi ip off n) s =
      .ok (readResult (s.icache ip).din.size.toNat ((s.icache ip).din.bytes s.disk) off n, s) := by
  by_cases hout : (s.icache ip).din.size.toNat < off ∨ 2 ^ 32 ≤ off + n
  · rw [readi_refuses hdev hout, readResult, if_pos hout]
  · rw [readi, exec_bind_ok exec_inode, if_neg hdev, if_neg hout, readResult, if_neg hout]
    have hclip : (if (s.icache ip).din.size.toNat < off + n then (s.icache ip).din.size.toNat - off else n) =
        min n ((s.icache ip).din.size.toNat - off) := by
      split <;> omega
    rw [hclip, exec_bind_ok (readLoop_exec _ _ _ le_rfl ?_), exec_pure]
    intro k hk hk'
    apply hholes
    have := Nat.div_mul_le_self k BSIZE
    omega

end FsProg

/-! ## Writing -/

variable {t : ℕ → Dinode} {d' : Disk} {i : ℕ} {x' : Dinode} {S : Finset Slot}

theorem byte_of_block_zero {k : ℕ} (h : x.block d (k / BSIZE) = 0) : x.byte d k = 0 := if_pos h

theorem block_of_slot {bn : ℕ} {sl : Slot} (h : slotOf bn = some sl) : x.block d bn = x.ref d sl := by
  rw [Dinode.block, h]

theorem byte_of_slot {k : ℕ} {sl : Slot} (h : slotOf (k / BSIZE) = some sl) :
    x.byte d k = if x.ref d sl = 0 then 0 else rd (d (x.ref d sl)) (k % BSIZE) := by
  rw [Dinode.byte, block_of_slot h]

theorem byte_of_no_slot {k : ℕ} (h : slotOf (k / BSIZE) = none) : x.byte d k = 0 := by
  apply byte_of_block_zero
  rw [Dinode.block, h]

theorem rd_zeroes (k : ℕ) : rd zeroes k = 0 := by
  unfold rd
  split <;> rfl

/-- new blocks hold what a hole reads as -/
theorem Grows.byte (h : Grows t d i S x' d') (j k : ℕ) : (update t i x' j).byte d' k = (t j).byte d k := by
  cases hsl : slotOf (k / BSIZE) with
  | none => rw [byte_of_no_slot hsl, byte_of_no_slot hsl]
  | some sl =>
    have hne := slotOf_ne_indirect hsl
    rw [byte_of_slot hsl, byte_of_slot hsl]
    by_cases hj : j = i
    · subst hj
      rw [update_self]
      by_cases h0 : (t j).ref d sl = 0
      · rw [if_pos h0]
        by_cases h0' : x'.ref d' sl = 0
        · rw [if_pos h0']
        · rw [if_neg h0', h.fresh sl hne h0 h0', rd_zeroes]
      · rw [h.kept sl h0, if_neg h0, if_neg h0, h.data j sl hne h0]
    · rw [update_of_ne hj, h.others j hj]
      by_cases h0 : (t j).ref d sl = 0
      · rw [if_pos h0, if_pos h0]
      · rw [if_neg h0, if_neg h0, h.data j sl hne h0]

theorem rd_splice {n : ℕ} (b : Fin n → Byte) {off : ℕ} {src : List Byte} (hfit : off + src.length ≤ n) (k : ℕ) :
    rd (splice b off src) k = if off ≤ k ∧ k < off + src.length then src.getD (k - off) 0 else rd b k := by
  by_cases hk : k < n
  · rw [rd_of_lt _ hk, rd_of_lt _ hk]
    rfl
  · rw [if_neg (by omega), rd, rd, dif_neg hk, dif_neg hk]

/-- **A store in a block of a file** changes the bytes of that file there, and of no other file. -/
theorem byte_store {used : ℕ → Prop} (ho : Allots (refs t d) used) {bn o : ℕ} {src : List Byte} (hb : (t i).block d bn ≠ 0)
    (hfit : o + src.length ≤ BSIZE) (j k : ℕ) :
    (t j).byte (update d ((t i).block d bn) (splice (d ((t i).block d bn)) o src)) k =
      if j = i ∧ bn * BSIZE + o ≤ k ∧ k < bn * BSIZE + o + src.length then src.getD (k - (bn * BSIZE + o)) 0
      else (t j).byte d k := by
  have hmod : k % BSIZE < BSIZE := Nat.mod_lt _ BSIZE_pos
  have hk : k / BSIZE * BSIZE + k % BSIZE = k := Nat.div_add_mod' k BSIZE
  -- a byte in the range is one of block bn
  have hrange : bn * BSIZE + o ≤ k → k < bn * BSIZE + o + src.length → k / BSIZE = bn := by
    intro hlow hhigh
    apply Nat.div_eq_of_lt_le
    · omega
    · rw [Nat.succ_mul]
      omega
  obtain ⟨sl, hsl⟩ := slot_of_block hb
  rw [block_of_slot hsl] at hb ⊢
  have hrefs := fun j sl' => ref_of_data ho (slotOf_ne_indirect hsl) hb (splice (d ((t i).ref d sl)) o src) j sl'
  cases hsl' : slotOf (k / BSIZE) with
  | none =>
    have hne : ¬ (j = i ∧ bn * BSIZE + o ≤ k ∧ k < bn * BSIZE + o + src.length) := by
      intro hc
      rw [hrange hc.2.1 hc.2.2, hsl] at hsl'
      cases hsl'
    rw [if_neg hne, byte_of_no_slot hsl', byte_of_no_slot hsl']
  | some sl' =>
    rw [byte_of_slot hsl', byte_of_slot hsl', hrefs]
    by_cases hself : j = i ∧ sl' = sl
    · obtain ⟨rfl, rfl⟩ := hself
      have hbn : k / BSIZE = bn := slotOf_injective hsl' hsl
      rw [hbn] at hk
      rw [if_neg hb, if_neg hb, update_self, rd_splice _ hfit]
      have hiff : (o ≤ k % BSIZE ∧ k % BSIZE < o + src.length) =
          (j = j ∧ bn * BSIZE + o ≤ k ∧ k < bn * BSIZE + o + src.length) := by
        apply propext
        constructor
        · intro hc
          exact ⟨rfl, by omega, by omega⟩
        · intro hc
          exact ⟨by omega, by omega⟩
      have hsub : k % BSIZE - o = k - (bn * BSIZE + o) := by omega
      rw [hsub]
      simp only [hiff]
    · have hne : ¬ (j = i ∧ bn * BSIZE + o ≤ k ∧ k < bn * BSIZE + o + src.length) := by
        intro hc
        rw [hrange hc.2.1 hc.2.2, hsl, Option.some.injEq] at hsl'
        exact hself ⟨hc.1, hsl'.symm⟩
      rw [if_neg hne]
      by_cases h0 : (t j).ref d sl' = 0
      · rw [if_pos h0, if_pos h0]
      · have hother : (t j).ref d sl' ≠ (t i).ref d sl := by
          intro he
          have hp := ho.once (j, sl') (i, sl) h0 he
          exact hself ⟨congrArg Prod.fst hp, congrArg Prod.snd hp⟩
        rw [if_neg h0, if_neg h0, update_of_ne hother]

/-- the bytes `src` from `off` on have been stored in the file of inode `i`, whose new blocks went to places of `S` -/
structure Wrote (t : ℕ → Dinode) (d : Disk) (i : ℕ) (S : Finset Slot) (off : ℕ) (src : List Byte) (x' : Dinode)
    (d' : Disk) : Prop where
  sb : readsb d' = readsb d
  fields : { x' with addrs := (t i).addrs } = t i
  kept : ∀ j sl, (t j).ref d sl ≠ 0 → (update t i x' j).ref d' sl = (t j).ref d sl
  byte : ∀ j k, (update t i x' j).byte d' k =
    if j = i ∧ off ≤ k ∧ k < off + src.length then src.getD (k - off) 0 else (t j).byte d k
  covers : ∀ k, off ≤ k → k < off + src.length → x'.block d' (k / BSIZE) ≠ 0
  inode : ∀ k, k < (readsb d).ninodes.toNat → d'.inode k = d.inode k
  count : free d + x'.empties d' S = free d' + (t i).empties d S
  owned : Owned (update t i x') d'

/-- a store in a block of a file keeps the owners and the free blocks -/
theorem Owned.store (ho : Owned t d) {bn : ℕ} (hb : (t i).block d bn ≠ 0) (v : Block) :
    readsb (update d ((t i).block d bn) v) = readsb d ∧ Owned t (update d ((t i).block d bn) v) ∧
      free (update d ((t i).block d bn) v) = free d ∧
      (∀ j sl, (t j).ref (update d ((t i).block d bn) v) sl = (t j).ref d sl) ∧
      ∀ k, k < (readsb d).ninodes.toNat → Disk.inode (update d ((t i).block d bn) v) k = d.inode k := by
  obtain ⟨sl, hsl⟩ := slot_of_block hb
  rw [block_of_slot hsl] at hb ⊢
  have htaken : Taken d ((t i).ref d sl) := ho.allots.used (i, sl) hb
  have hsb : readsb (update d ((t i).ref d sl) v) = readsb d :=
    readsb_update (one_lt_firstData.trans_le htaken.1).ne' v
  have hbits : ∀ c, c < (readsb d).size.toNat → inUse (update d ((t i).ref d sl) v) c = inUse d c :=
    fun c hc => inUse_update htaken.1 hc v
  have hrefs := fun j sl' => ref_of_data ho.allots (slotOf_ne_indirect hsl) hb v j sl'
  refine ⟨hsb, ⟨?_, ?_⟩, ?_, hrefs, ?_⟩
  · intro c hc
    rw [firstData_congr hsb] at hc
    rw [hbits c ((hc.trans_le htaken.1).trans htaken.2.1)]
    exact ho.marked c hc
  · refine ho.allots.congr (fun p => hrefs p.1 p.2) ?_
    intro c hc
    refine ⟨?_, ?_, ?_⟩
    · rw [firstData_congr hsb]
      exact hc.1
    · rw [hsb]
      exact hc.2.1
    · rw [hbits c hc.2.1]
      exact hc.2.2
  · rw [free, free, hsb]
    congr 1
    apply Finset.filter_congr
    intro c hc
    rw [hbits c (Finset.mem_range.1 hc)]
  · intro k hk
    have hlt := IBLOCK_lt_firstData hk
    have hlow := htaken.1
    exact Disk.inode_update (by omega) v

namespace Wrote

variable {off : ℕ} {src : List Byte}

theorem nil (ho : Owned t d) : Wrote t d i S off [] (t i) d where
  sb := rfl
  fields := rfl
  kept j sl _ := by rw [update_eq_self]
  byte j k := by
    have hne : ¬ (j = i ∧ off ≤ k ∧ k < off + ([] : List Byte).length) := by
      simp only [List.length_nil]
      omega
    rw [if_neg hne, update_eq_self]
  covers k hk hk' := by
    simp only [List.length_nil] at hk'
    omega
  inode _ _ := rfl
  count := rfl
  owned := by rwa [update_eq_self]

/-- one turn of the loop: the block was there or is new, and then the bytes are stored in it -/
theorem turn (h : Grows t d i S x' d') {bn o : ℕ} (hb : x'.block d' bn ≠ 0) (hfit : o + src.length ≤ BSIZE) :
    Wrote t d i S (bn * BSIZE + o) src x' (update d' (x'.block d' bn) (splice (d' (x'.block d' bn)) o src)) := by
  have hself : update t i x' i = x' := update_self ..
  have hb' : (update t i x' i).block d' bn ≠ 0 := by rwa [hself]
  obtain ⟨hsb, howned, hfree, hrefs, hinode⟩ := h.owned.store hb' (splice (d' (x'.block d' bn)) o src)
  have hbyte := byte_store h.owned.allots hb' hfit
  simp only [hself] at hsb howned hfree hrefs hinode hbyte
  have hx : ∀ sl, x'.ref (update d' (x'.block d' bn) (splice (d' (x'.block d' bn)) o src)) sl = x'.ref d' sl := by
    intro sl
    have := hrefs i sl
    rwa [hself] at this
  constructor
  case sb => exact hsb.trans h.sb
  case fields => exact h.fields
  case kept =>
    intro j sl h0
    rw [hrefs]
    by_cases hj : j = i
    · subst hj
      rw [hself, h.kept sl h0]
    · rw [update_of_ne hj, h.others j hj]
  case byte =>
    intro j k
    rw [hbyte, h.byte]
  case covers =>
    intro k hk hk'
    have hdiv : k / BSIZE = bn := by
      apply Nat.div_eq_of_lt_le
      · omega
      · rw [Nat.succ_mul]
        omega
    have hblock : ∀ d₂ : Disk, (∀ sl, x'.ref d₂ sl = x'.ref d' sl) → x'.block d₂ bn = x'.block d' bn := by
      intro d₂ hd
      rw [Dinode.block, Dinode.block]
      cases slotOf bn with
      | none => rfl
      | some sl => exact hd sl
    rw [hdiv, hblock _ hx]
    exact hb
  case inode =>
    intro k hk
    rw [hinode k (by rwa [h.sb]), h.inode k hk]
  case count =>
    have hempties : x'.empties (update d' (x'.block d' bn) (splice (d' (x'.block d' bn)) o src)) S =
        x'.empties d' S := by
      rw [Dinode.empties, Dinode.empties]
      simp only [hx]
    rw [hempties, hfree]
    exact h.count
  case owned => exact howned

/-- one range after the other -/
theorem append (h : Wrote t d i S off src x' d') {src' : List Byte} {x'' : Dinode} {d'' : Disk}
    (h' : Wrote (update t i x') d' i S (off + src.length) src' x'' d'') :
    Wrote t d i S off (src ++ src') x'' d'' := by
  have hself : update t i x' i = x' := update_self ..
  have hidem : update (update t i x') i x'' = update t i x'' := update_idem ..
  constructor
  case sb => exact h'.sb.trans h.sb
  case fields =>
    have hf := h.fields
    have hf' := h'.fields
    rw [hself] at hf'
    rw [← hf, ← hf']
  case kept =>
    intro j sl h0
    have hk := h.kept j sl h0
    have hk' := h'.kept j sl (by rw [hk]; exact h0)
    rw [hidem] at hk'
    rw [hk', hk]
  case byte =>
    intro j k
    have hb' := h'.byte j k
    rw [hidem] at hb'
    rw [hb', h.byte, List.length_append]
    by_cases hsecond : j = i ∧ off + src.length ≤ k ∧ k < off + src.length + src'.length
    · have hall : j = i ∧ off ≤ k ∧ k < off + (src.length + src'.length) := ⟨hsecond.1, by omega, by omega⟩
      have hsub : k - (off + src.length) = k - off - src.length := by omega
      rw [if_pos hsecond, if_pos hall, List.getD_append_right _ _ _ _ (by omega), hsub]
    · rw [if_neg hsecond]
      by_cases hfirst : j = i ∧ off ≤ k ∧ k < off + src.length
      · have hall : j = i ∧ off ≤ k ∧ k < off + (src.length + src'.length) := ⟨hfirst.1, by omega, by omega⟩
        rw [if_pos hfirst, if_pos hall, List.getD_append _ _ _ _ (by omega)]
      · have hnone : ¬ (j = i ∧ off ≤ k ∧ k < off + (src.length + src'.length)) := by
          intro hc
          have hlow : ¬ k < off + src.length := fun hlt => hfirst ⟨hc.1, hc.2.1, hlt⟩
          exact hsecond ⟨hc.1, by omega, by omega⟩
        rw [if_neg hfirst, if_neg hnone]
  case covers =>
    intro k hk hk'
    rw [List.length_append] at hk'
    by_cases hlt : k < off + src.length
    · have hc := h.covers k hk hlt
      obtain ⟨sl, hsl⟩ := slot_of_block hc
      rw [block_of_slot hsl] at hc ⊢
      have hk' := h'.kept i sl (by rwa [hself])
      rw [hidem, update_self, hself] at hk'
      rwa [hk']
    · exact h'.covers k (by omega) (by omega)
  case inode =>
    intro k hk
    rw [h'.inode k (by rwa [h.sb]), h.inode k hk]
  case count =>
    have hc := h.count
    have hc' := h'.count
    rw [hself] at hc'
    omega
  case owned =>
    have := h'.owned
    rwa [hidem] at this

end Wrote

namespace FsProg

variable {s : St} {ip : Fin NINODE}

/-- **The loop of `writei`** writes the bytes, or there are not as many free blocks as places to fill. -/
theorem writeLoop_ends (turns : ℕ) {off : ℕ} {src : List Byte} (hx : (s.icache ip).din = t i) (ho : Owned t s.disk)
    (hturns : src.length ≤ turns) (hfit : off + src.length ≤ MAXFILE * BSIZE)
    (hS : ∀ k, off ≤ k → k < off + src.length → slotsFor (k / BSIZE) ⊆ S) :
    Ends (exec (writeLoop ip turns off src) s)
      (fun r => ∃ x' d', r.2 = s.hold ip x' d' ∧ Wrote t s.disk i S off src x' d')
      (fun _ => free s.disk < (t i).empties s.disk S) := by
  induction turns generalizing off src s t with
  | zero =>
    obtain rfl : src = [] := List.eq_nil_of_length_eq_zero (by omega)
    exact Ends.ok ⟨t i, s.disk, by rw [← hx, St.hold_eq], Wrote.nil ho⟩
  | succ turns ih =>
    by_cases hsrc : src = []
    · subst hsrc
      exact Ends.ok ⟨t i, s.disk, by rw [← hx, St.hold_eq], Wrote.nil ho⟩
    · have hlen : 0 < src.length := List.length_pos_iff.2 hsrc
      have hmod : off % BSIZE < BSIZE := Nat.mod_lt _ BSIZE_pos
      have hoff : off / BSIZE * BSIZE + off % BSIZE = off := Nat.div_add_mod' off BSIZE
      have hbn : off / BSIZE < MAXFILE := by
        rw [Nat.div_lt_iff_lt_mul BSIZE_pos]
        omega
      simp only [writeLoop, if_neg hsrc]
      -- the block
      have hends := bmap_ends (i := i) ho hbn (hS off le_rfl (by omega))
      have hbmap : exec (bmap ip (off / BSIZE)) s = _ := exec_bmap _
      rw [St.bmap, hx] at hbmap
      cases hr : Fs.bmap s.disk (t i) (off / BSIZE) with
      | error e =>
        rw [hr] at hbmap
        rw [exec_bind, hbmap]
        exact (hends.of_error hr).2
      | ok r =>
        obtain ⟨hgrows, hblock, hne⟩ := hends.of_ok hr
        obtain ⟨b, x₁, d₁⟩ := r
        rw [hr] at hbmap
        simp only at hgrows hblock hne
        -- the bytes that go to it
        have hm : min src.length (BSIZE - off % BSIZE) ≤ src.length := min_le_left _ _
        have hpos : 0 < min src.length (BSIZE - off % BSIZE) := by omega
        have htake : (src.take (min src.length (BSIZE - off % BSIZE))).length = min src.length (BSIZE - off % BSIZE) :=
          List.length_take_of_le hm
        have hdrop : (src.drop (min src.length (BSIZE - off % BSIZE))).length =
            src.length - min src.length (BSIZE - off % BSIZE) := List.length_drop
        have hb0 : x₁.block d₁ (off / BSIZE) ≠ 0 := by
          rw [hblock]
          exact hne
        have hfits : off % BSIZE + (src.take (min src.length (BSIZE - off % BSIZE))).length ≤ BSIZE := by
          rw [htake]
          omega
        have hturn := Wrote.turn hgrows hb0 hfits
        rw [hoff, hblock] at hturn
        rw [exec_bind_ok hbmap, exec_bind_ok (exec_store ..)]
        -- the rest
        have hcount := hturn.count
        refine (ih (s := s.hold ip x₁ (update d₁ b
            (splice (d₁ b) (off % BSIZE) (src.take (min src.length (BSIZE - off % BSIZE))))))
          (t := update t i x₁) (by rw [St.hold_self, update_self]) hturn.owned (by omega) (by omega)
          (fun k hk hk' => hS k (by omega) (by omega))).mono ?_ ?_
        · rintro ⟨_, s'⟩ ⟨x', d', hs', hrest⟩
          refine ⟨x', d', hs'.trans (St.hold_hold ..), ?_⟩
          rw [St.hold_disk] at hrest
          have hrest' : Wrote (update t i x₁)
              (update d₁ b (splice (d₁ b) (off % BSIZE) (src.take (min src.length (BSIZE - off % BSIZE))))) i S
              (off + (src.take (min src.length (BSIZE - off % BSIZE))).length)
              (src.drop (min src.length (BSIZE - off % BSIZE))) x' d' := by
            rw [htake]
            exact hrest
          have hall := hturn.append hrest'
          rwa [List.take_append_drop] at hall
        · intro e he
          rw [update_self, St.hold_disk] at he
          omega

end FsProg

end Xv6Threads.Fs
