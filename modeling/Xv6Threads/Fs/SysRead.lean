/-
`read` of a file: the checks of syscall.c and sysfile.c, `fileread`, and where the bytes go.

`argptr` takes the size as an int and adds it to the pointer as an unsigned number, so that a negative size passes for
every pointer that is not smaller. `readi` takes the same number as an unsigned one and clips it to the size of the file.
- `sys_read_inside_iff`: the bytes stay inside of the memory of the process exactly if the size is not negative, or
  nothing is read, or the rest of the file fits.
- `sys_read_beyond`: a read of -1 bytes at the last byte of the memory stores 511 bytes after it.
-/
import Xv6Threads.Fs.Files
import Xv6Threads.Memory.Vm

namespace Xv6Threads.Fs

open Xv6Threads.Core Xv6Threads.Memory

def NOFILE : ℕ := 16

/-- an open file of type FD_INODE -/
structure File where
  readable : Bool
  ip : Fin NINODE
  off : BitVec 32

/-- what the calls use of a process: its size, its files, and the words on its stack where the arguments are -/
structure Caller where
  sz : BitVec 32
  ofile : Fin NOFILE → Option File
  argint : ℕ → Option (BitVec 32)
  -- growproc and exec allow no more
  sz_lt : sz.toNat < KERNBASE

namespace Caller

variable (c : Caller)

/-- argument `n` as a file descriptor -/
def argfd (n : ℕ) : Option File :=
  (c.argint n).bind fun fd => if h : 0 ≤ fd.toInt ∧ fd.toInt < NOFILE then c.ofile ⟨fd.toInt.toNat, by omega⟩ else none

/-- argument `n` as a pointer to a block of memory of `size` bytes -/
def argptr (n : ℕ) (size : BitVec 32) : Option (BitVec 32) :=
  (c.argint n).bind fun i => if c.sz ≤ i ∨ c.sz < i + size then none else some i

/-- the arguments of `read`, if the checks accept them: the file, the pointer and the number of bytes -/
def readArgs : Option (File × BitVec 32 × BitVec 32) :=
  (c.argfd 0).bind fun f => (c.argint 2).bind fun n => (c.argptr 1 n).map fun p => (f, p, n)

end Caller

namespace FsProg

/-- read from file `f`: the bytes that are stored from the pointer on, or none for -1, and the file -/
def fileread (f : File) (n : BitVec 32) : FsProg (Option (List Byte) × File) :=
  if f.readable = false then return (none, f)
  else do
    ilock f.ip
    let r ← readi f.ip f.off.toNat n.toNat
    iunlock f.ip
    match r with
    | none => return (none, f)
    | some bytes =>
      let r := BitVec.ofNat 32 bytes.length
      return (some bytes, if 0 < r.toInt then { f with off := f.off + r } else f)

end FsProg

/-- `sys_read` -/
def sysRead (c : Caller) : FsProg (Option (List Byte) × Option File) :=
  match c.readArgs with
  | none => return (none, none)
  | some (f, _, n) => do
    let (r, f) ← FsProg.fileread f n
    return (r, some f)

/-- the fields that an inode has when it is locked -/
def St.loaded (s : St) (ip : Fin NINODE) : Dinode :=
  if (s.icache ip).valid then (s.icache ip).din else s.disk.inode (s.icache ip).inum

/-! ## How many bytes are stored -/

namespace FsProg

variable {s : St} {ip : Fin NINODE}

theorem exec_ilock_loaded : Ends (exec (ilock ip) s) (fun r => (r.2.icache ip).din = s.loaded ip) fun _ => True := by
  have hlock : Ends (exec (lock ip) s) (fun r => (r.2.icache ip).din = (s.icache ip).din ∧
      (r.2.icache ip).valid = (s.icache ip).valid ∧ (r.2.icache ip).inum = (s.icache ip).inum ∧ r.2.disk = s.disk)
      fun _ => True := by
    rw [exec_lock, St.lock]
    split
    · trivial
    · split
      · trivial
      · refine Ends.ok ⟨?_, ?_, ?_, rfl⟩ <;> simp [St.setEntry]
  refine ends_bind hlock fun _ s₁ h₁ => ?_
  obtain ⟨hdin, hvalid, hinum, hdisk⟩ := h₁
  simp only at hdin hvalid hinum hdisk
  rw [exec_load]
  by_cases hv : (s.icache ip).valid = true
  · have hload : s₁.load ip = .ok ((), s₁) := if_pos (hvalid.trans hv)
    rw [hload, St.loaded, if_pos hv]
    exact hdin
  · have hv' : ¬ (s₁.icache ip).valid = true := by rwa [hvalid]
    simp only [St.load, if_neg hv', St.loaded, if_neg hv, hdisk, hinum]
    split
    · trivial
    · apply Ends.ok
      simp [St.setEntry]

/-- the loop of `readi` reads as many bytes as it was asked for -/
theorem readLoop_length (turns off n : ℕ) (hturns : n ≤ turns) :
    Ends (exec (readLoop ip turns off n) s) (fun r => r.1.length = n) fun _ => True := by
  induction turns generalizing off n s with
  | zero =>
    obtain rfl : n = 0 := by omega
    exact Ends.ok rfl
  | succ turns ih =>
    by_cases hn : n = 0
    · subst hn
      exact Ends.ok rfl
    · have hmod : off % BSIZE < BSIZE := Nat.mod_lt _ BSIZE_pos
      simp only [readLoop, if_neg hn]
      refine ends_bind Ends.any fun b s₁ _ => ends_bind Ends.any fun data s₂ _ => ?_
      refine ends_bind (ih (off + min n (BSIZE - off % BSIZE)) (n - min n (BSIZE - off % BSIZE)) (by omega))
        fun rest s₃ hrest => Ends.ok ?_
      have hrest' : rest.length = n - min n (BSIZE - off % BSIZE) := hrest
      have hslice : (slice data (off % BSIZE) (min n (BSIZE - off % BSIZE))).length = min n (BSIZE - off % BSIZE) := by
        simp [slice]
      change (slice data (off % BSIZE) (min n (BSIZE - off % BSIZE)) ++ rest).length = n
      rw [List.length_append, hslice, hrest']
      omega

theorem readi_length (hdev : (s.icache ip).din.type ≠ T_DEV) (off n : ℕ) :
    Ends (exec (readi ip off n) s)
      (fun r => (r.1.getD []).length = if (s.icache ip).din.size.toNat < off ∨ 2 ^ 32 ≤ off + n then 0
        else min n ((s.icache ip).din.size.toNat - off))
      fun _ => True := by
  by_cases hout : (s.icache ip).din.size.toNat < off ∨ 2 ^ 32 ≤ off + n
  · rw [readi_refuses hdev hout, if_pos hout]
    exact Ends.ok rfl
  · rw [readi, exec_bind_ok exec_inode, if_neg hdev, if_neg hout, if_neg hout]
    have hclip : (if (s.icache ip).din.size.toNat < off + n then (s.icache ip).din.size.toNat - off else n) =
        min n ((s.icache ip).din.size.toNat - off) := by
      split <;> omega
    rw [hclip]
    exact ends_bind (readLoop_length _ off _ le_rfl) fun bytes s' h => Ends.ok h

/-- the number of bytes that `fileread` stores -/
def stored (f : File) (n : BitVec 32) (size : ℕ) : ℕ :=
  if f.readable = false ∨ size < f.off.toNat ∨ 2 ^ 32 ≤ f.off.toNat + n.toNat then 0
  else min n.toNat (size - f.off.toNat)

theorem fileread_length {f : File} (hfile : (s.loaded f.ip).type = T_FILE) (n : BitVec 32) :
    Ends (exec (fileread f n) s) (fun r => (r.1.1.getD []).length = stored f n (s.loaded f.ip).size.toNat) fun _ => True := by
  unfold fileread stored
  by_cases hr : f.readable = false
  · rw [if_pos hr, if_pos (.inl hr)]
    exact Ends.ok rfl
  · rw [if_neg hr]
    refine ends_bind exec_ilock_loaded fun _ s₁ h₁ => ?_
    have hdin : (s₁.icache f.ip).din = s.loaded f.ip := h₁
    have hdev : (s₁.icache f.ip).din.type ≠ T_DEV := by
      rw [hdin, hfile]
      decide
    refine ends_bind (readi_length hdev f.off.toNat n.toNat) fun r s₂ h₂ => ?_
    rw [hdin] at h₂
    refine ends_bind Ends.any fun _ s₃ _ => ?_
    have hiff : (f.readable = false ∨ (s.loaded f.ip).size.toNat < f.off.toNat ∨ 2 ^ 32 ≤ f.off.toNat + n.toNat) =
        ((s.loaded f.ip).size.toNat < f.off.toNat ∨ 2 ^ 32 ≤ f.off.toNat + n.toNat) := propext (or_iff_right hr)
    simp only [hiff]
    cases r with
    | none => exact Ends.ok h₂
    | some bytes => exact Ends.ok h₂

end FsProg

/-! ## Where they go -/

/-- the last byte is inside if all are -/
theorem inside_iff {sz p : BitVec 32} {m : ℕ} (hsz : sz.toNat < KERNBASE) (hp : p.toNat < sz.toNat) (hm : m < 2 ^ 32) :
    (∀ k, k < m → p.toNat ≤ (p + BitVec.ofNat 32 k).toNat ∧ (p + BitVec.ofNat 32 k).toNat < sz.toNat) ↔
      p.toNat + m ≤ sz.toNat := by
  unfold KERNBASE at hsz
  constructor
  · intro h
    by_contra hlt
    -- the byte at sz is one of them
    have hk := (h (sz.toNat - p.toNat) (by omega)).2
    rw [BitVec.toNat_add, BitVec.toNat_ofNat] at hk
    omega
  · intro h k hk
    rw [BitVec.toNat_add, BitVec.toNat_ofNat]
    omega

theorem Caller.readArgs_some {c : Caller} {f : File} {p n : BitVec 32} (h : c.readArgs = some (f, p, n)) :
    p.toNat < c.sz.toNat ∧ (p.toNat + n.toNat) % 2 ^ 32 ≤ c.sz.toNat := by
  simp only [readArgs, argptr, Option.bind_eq_some_iff, Option.map_eq_some_iff, Prod.mk.injEq] at h
  obtain ⟨_, _, n', _, p', ⟨i, _, hi⟩, rfl, rfl, rfl⟩ := h
  split at hi
  · cases hi
  · rename_i hacc
    cases hi
    rw [not_or, BitVec.not_le, BitVec.not_lt, BitVec.lt_def, BitVec.le_def, BitVec.toNat_add] at hacc
    exact hacc

/-- **When a read stays inside.** Every byte that `read` of a regular file stores is in the memory of the caller, from the
pointer on, exactly if the number of bytes is not negative, or nothing is read, or the rest of the file fits. -/
theorem sys_read_inside_iff (c : Caller) (s s' : St) (f : File) (p n : BitVec 32) (r : Option (List Byte) × Option File)
    (hargs : c.readArgs = some (f, p, n)) (hfile : (s.loaded f.ip).type = T_FILE)
    (hexec : FsProg.exec (sysRead c) s = .ok (r, s')) :
    (∀ k, k < (r.1.getD []).length →
      p.toNat ≤ (p + BitVec.ofNat 32 k).toNat ∧ (p + BitVec.ofNat 32 k).toNat < c.sz.toNat) ↔
    (0 ≤ n.toInt ∨ f.readable = false ∨ (s.loaded f.ip).size.toNat < f.off.toNat ∨ 2 ^ 32 ≤ f.off.toNat + n.toNat ∨
      p.toNat + ((s.loaded f.ip).size.toNat - f.off.toNat) ≤ c.sz.toNat) := by
  have hlen : (r.1.getD []).length = FsProg.stored f n (s.loaded f.ip).size.toNat := by
    have hends : Ends (FsProg.exec (sysRead c) s)
        (fun r => (r.1.1.getD []).length = FsProg.stored f n (s.loaded f.ip).size.toNat) fun _ => True := by
      rw [sysRead, hargs]
      exact FsProg.ends_bind (FsProg.fileread_length hfile n) fun r' s'' h => Ends.ok h
    exact hends.of_ok hexec
  obtain ⟨hp, hsum⟩ := Caller.readArgs_some hargs
  have hsz := c.sz_lt
  have hn := n.isLt
  have hoff := f.off.isLt
  have hsize := (s.loaded f.ip).size.isLt
  have hint : 0 ≤ n.toInt ↔ n.toNat < 2 ^ 31 := by
    rw [BitVec.toInt_eq_toNat_cond]
    split <;> omega
  rw [hlen, inside_iff hsz hp (by unfold FsProg.stored; split <;> omega), hint]
  unfold KERNBASE at hsz
  unfold FsProg.stored
  split
  · rename_i hzero
    constructor
    · intro _
      obtain h | h | h := hzero
      · exact .inr (.inl h)
      · exact .inr (.inr (.inl h))
      · exact .inr (.inr (.inr (.inl h)))
    · intro _
      omega
  · rename_i hpos
    rw [not_or, not_or] at hpos
    constructor
    · intro h
      by_cases hneg : n.toNat < 2 ^ 31
      · exact .inl hneg
      · refine .inr (.inr (.inr (.inr ?_)))
        omega
    · rintro (h | h | h | h | h)
      · omega
      · exact absurd h hpos.1
      · exact absurd h hpos.2.1
      · exact absurd h hpos.2.2
      · omega

/-! ## A read of -1 bytes -/

/-- a read of a file without holes returns, if the inode is cached and not locked -/
theorem FsProg.fileread_returns {s : St} {f : File} (href : 1 ≤ (s.icache f.ip).ref)
    (hbusy : (s.icache f.ip).busy = false) (hvalid : (s.icache f.ip).valid = true)
    (hdev : (s.icache f.ip).din.type ≠ T_DEV) (hholes : (s.icache f.ip).din.NoHoles s.disk) (n : BitVec 32) :
    ∃ r s', exec (fileread f n) s = .ok (r, s') := by
  unfold fileread
  by_cases hr : f.readable = false
  · rw [if_pos hr]
    exact ⟨_, _, rfl⟩
  · have hself : (s.setEntry f.ip { s.icache f.ip with busy := true }).icache f.ip = { s.icache f.ip with busy := true } :=
      Function.update_self ..
    have hread := readi_exec (s := s.setEntry f.ip { s.icache f.ip with busy := true })
      (by rw [hself]; exact hdev) (by rw [hself]; exact hholes) f.off.toNat n.toNat
    rw [if_neg hr, exec_bind_ok (exec_ilock_ok href hbusy hvalid), exec_bind_ok hread,
      exec_bind_ok (exec_iunlock_ok (by rw [hself]; exact href) (by rw [hself]))]
    split
    · exact ⟨_, _, rfl⟩
    · exact ⟨_, _, rfl⟩

/-- a file of one block, in the first entry of the cache -/
def oneFile : St := small.setEntry 0 ⟨ROOTDEV, 1, 1, false, true,
  { Dinode.empty with type := T_FILE, nlink := 1, size := 512, addrs := Function.update (fun _ => 0) 0 5 }⟩

/-- a process of one page that reads `n` bytes of it to the last byte of the page -/
def reader (n : BitVec 32) : Caller where
  sz := 4096
  ofile _ := some ⟨true, 0, 0⟩
  argint k := if k = 0 then some 0 else if k = 1 then some 4095 else some n
  sz_lt := by decide

theorem reader_returns {n : BitVec 32} (hargs : (reader n).readArgs = some (⟨true, 0, 0⟩, 4095, n)) :
    ∃ r s', FsProg.exec (sysRead (reader n)) oneFile = .ok (r, s') := by
  have hholes : (oneFile.icache 0).din.NoHoles oneFile.disk := by
    intro bn hbn
    have hsize : (oneFile.icache 0).din.size.toNat = 512 := rfl
    obtain rfl : bn = 0 := by
      rw [hsize] at hbn
      unfold BSIZE at hbn
      omega
    decide
  obtain ⟨r, s', hexec⟩ := FsProg.fileread_returns (s := oneFile) (f := ⟨true, 0, 0⟩) (by decide) rfl rfl (by decide) hholes n
  refine ⟨(r.1, some r.2), s', ?_⟩
  rw [sysRead, hargs]
  exact FsProg.exec_bind_ok hexec _

/-- one byte goes to the last byte of the page -/
theorem sys_read_inside_one :
    ∃ r s', FsProg.exec (sysRead (reader 1)) oneFile = .ok (r, s') ∧ ∀ k, k < (r.1.getD []).length →
      4095 ≤ ((4095 : BitVec 32) + BitVec.ofNat 32 k).toNat ∧ ((4095 : BitVec 32) + BitVec.ofNat 32 k).toNat < 4096 := by
  obtain ⟨r, s', hexec⟩ := reader_returns (n := 1) rfl
  exact ⟨r, s', hexec, (sys_read_inside_iff (reader 1) oneFile s' ⟨true, 0, 0⟩ 4095 1 r rfl (by decide) hexec).2
    (.inl (by decide))⟩

/-- **A read of -1 bytes is accepted**, and stores the whole file, of which 511 bytes are beyond the end of the memory. -/
theorem sys_read_beyond :
    ∃ r s', (reader (-1)).readArgs = some (⟨true, 0, 0⟩, 4095, -1) ∧ (oneFile.loaded 0).type = T_FILE ∧
      FsProg.exec (sysRead (reader (-1))) oneFile = .ok (r, s') ∧
      ∃ k, k < (r.1.getD []).length ∧ ¬ ((4095 : BitVec 32) + BitVec.ofNat 32 k).toNat < (reader (-1)).sz.toNat := by
  obtain ⟨r, s', hexec⟩ := reader_returns (n := -1) rfl
  have hlen : (r.1.getD []).length = 512 := by
    have hends : Ends (FsProg.exec (sysRead (reader (-1))) oneFile) (fun r => (r.1.1.getD []).length = 512) fun _ => True := by
      rw [sysRead, show (reader (-1)).readArgs = some (⟨true, 0, 0⟩, 4095, -1) from rfl]
      exact FsProg.ends_bind (FsProg.fileread_length (s := oneFile) (f := ⟨true, 0, 0⟩) (by decide) (-1))
        fun r' s'' h => Ends.ok h
    exact hends.of_ok hexec
  exact ⟨r, s', rfl, by decide, hexec, 1, by rw [hlen]; decide, by decide⟩

end Xv6Threads.Fs
