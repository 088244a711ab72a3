/-
`filewrite` of file.c on a regular file, by any number of callers that share one open file.

`filewrite` stores its bytes in chunks of at most 1536. Each chunk is one transaction: the offset of the file is read and
advanced while the inode is locked. Calls of different processes go on in any order between their transactions. The
machine keeps, for each chunk, the call it is of and the offset it was stored at.
- `chunk_exec`: one transaction stores its chunk at the offset of the file, and advances it.
- `shared_writes_lose_nothing`: the chunks lie one after another from the first offset to the last, the file has their
  bytes, and those of one call are its bytes in order.
-/
import Xv6Threads.Disk.Log
import Xv6Threads.Fs.SysRead

namespace Xv6Threads.Fs

open Xv6Threads.Core Function

/-! ## What the locks do not change -/

namespace St

/-- two states with the same inodes: they may differ in who has locked what -/
structure Like (s s' : St) : Prop where
  disk : s'.disk = s.disk
  ref : ∀ ip, (s'.icache ip).ref = (s.icache ip).ref
  valid : ∀ ip, (s'.icache ip).valid = (s.icache ip).valid
  inum : ∀ ip, (s'.icache ip).inum = (s.icache ip).inum
  din : ∀ ip, (s'.icache ip).din = (s.icache ip).din

namespace Like

variable {s s' : St} (h : s.Like s')

include h

theorem cached (i : ℕ) : s'.cached i = s.cached i := by
  simp only [St.cached, h.ref, h.valid, h.inum]

theorem table : s'.table = s.table := by
  funext i
  rw [St.table, St.table, h.cached, h.disk]
  cases s.cached i with
  | none => rfl
  | some ip => exact h.din ip

theorem sound (hs : s.Sound) : s'.Sound := by
  constructor
  case owned =>
    rw [h.table, h.disk]
    exact hs.owned
  case noHoles =>
    rw [h.table, h.disk]
    exact hs.noHoles
  case unique =>
    intro p q hp hq hpq
    rw [h.ref] at hp hq
    rw [h.inum, h.inum] at hpq
    exact hs.unique p q hp hq hpq
  case bound =>
    intro p hp
    rw [h.ref] at hp
    rw [h.inum, h.disk]
    exact hs.bound p hp

theorem written {ip : Fin NINODE} {off : ℕ} {src : List Byte} {x' : Dinode} {d' : Disk}
    (hw : Written s' ip off src x' d') : Written s ip off src x' d' := by
  obtain ⟨hsb, hfields, hsize, howned, hholes, hbyte, hinodes⟩ := hw
  rw [h.disk] at hsb
  rw [h.din] at hfields hsize
  simp only [h.table, h.inum, h.disk] at howned hholes hbyte hinodes
  exact ⟨hsb, hfields, hsize, howned, hholes, hbyte, hinodes⟩

end Like

/-- the state with the inode locked in a transaction, or with neither -/
def setLocks (s : St) (ip : Fin NINODE) (held : Bool) : St :=
  { s with trans := held, icache := update s.icache ip { s.icache ip with busy := held } }

theorem setLocks_self (s : St) (ip : Fin NINODE) (held : Bool) :
    (s.setLocks ip held).icache ip = { s.icache ip with busy := held } := update_self ..

theorem like_setLocks (s : St) (ip : Fin NINODE) (held : Bool) : s.Like (s.setLocks ip held) := by
  have hsame : ∀ q, (s.setLocks ip held).icache q = s.icache q ∨
      (s.setLocks ip held).icache q = { s.icache q with busy := held } := by
    intro q
    by_cases hq : q = ip
    · subst hq
      exact .inr (s.setLocks_self q held)
    · exact .inl (update_of_ne hq ..)
  constructor
  case disk => rfl
  all_goals
    intro q
    rcases hsame q with h | h <;> rw [h]

end St

/-! ## One chunk -/

/-- an open file of type FD_INODE with the mode it was opened in -/
structure WFile extends File where
  writable : Bool

/-- the bytes of a chunk at most -/
def maxChunk : ℕ := (Xv6Threads.Disk.LOGSIZE - 1 - 1 - 2) / 2 * 512

namespace FsProg

/-- the transaction in the loop of `filewrite`: what `writei` returns, and the file -/
def writeChunk (f : WFile) (src : List Byte) : FsProg (Option ℕ × WFile) := do
  beginTrans
  ilock f.ip
  let r ← writei f.ip f.off.toNat src
  let f := match r with
    | some n => if 0 < n then { f with off := f.off + BitVec.ofNat 32 n } else f
    | none => f
  iunlock f.ip
  commitTrans
  return (r, f)

end FsProg

/-- a regular file that nobody has locked, with no transaction open -/
structure Ready (s : St) (ip : Fin NINODE) : Prop where
  sound : s.Sound
  ref : 0 < (s.icache ip).ref
  valid : (s.icache ip).valid = true
  regular : (s.icache ip).din.type = T_FILE
  unlocked : (s.icache ip).busy = false
  closed : s.trans = false

/-- the file stays below its largest size, and there are free blocks for the bytes -/
def HasRoom (s : St) (f : WFile) (n : ℕ) : Prop :=
  f.off.toNat + n ≤ MAXFILE * BSIZE ∧ (s.icache f.ip).din.empties s.disk (touched f.off.toNat n) ≤ free s.disk

variable {s : St} {ip : Fin NINODE}

namespace Ready

variable {off : ℕ} {src : List Byte} {x' : Dinode} {d' : Disk}

theorem hold (h : Ready s ip) (hw : Written s ip off src x' d') : Ready (s.hold ip x' d') ip := by
  have htype : x'.type = (s.icache ip).din.type := by
    rw [← hw.fields]
  constructor
  case sound => exact hw.sound h.sound h.ref h.valid
  case closed => exact h.closed
  all_goals rw [St.hold_self]
  case ref => exact h.ref
  case valid => exact h.valid
  case regular => exact htype.trans h.regular
  case unlocked => exact h.unlocked

end Ready

section Chunk

variable {f : WFile} {src : List Byte}

/-- the file after `writei` returned `r` -/
def WFile.moved (f : WFile) : Option ℕ → WFile
  | some n => if 0 < n then { f with off := f.off + BitVec.ofNat 32 n } else f
  | none => f

theorem chunk_begins (h : Ready s f.ip) :
    FsProg.exec (FsProg.writeChunk f src) s = FsProg.exec (do
      let r ← FsProg.writei f.ip f.off.toNat src
      FsProg.iunlock (f.moved r).ip
      FsProg.commitTrans
      return (r, f.moved r)) (s.setLocks f.ip true) := by
  have hbegin : FsProg.exec FsProg.beginTrans s = .ok ((), { s with trans := true }) := by
    refine (FsProg.exec_perform _).trans (if_neg ?_)
    rw [h.closed]
    decide
  have hlock : FsProg.exec (FsProg.ilock f.ip) { s with trans := true } = .ok ((), s.setLocks f.ip true) :=
    FsProg.exec_ilock_ok h.ref h.unlocked h.valid
  rw [FsProg.writeChunk, FsProg.exec_bind_ok hbegin, FsProg.exec_bind_ok hlock]
  congr 1

theorem moved_ip (f : WFile) (r : Option ℕ) : (f.moved r).ip = f.ip := by
  cases r with
  | none => rfl
  | some n =>
    rw [WFile.moved]
    split <;> rfl

/-- the end of the transaction, after `writei` has returned -/
theorem chunk_returns (h : Ready s f.ip) {r : Option ℕ} {x' : Dinode} {d' : Disk}
    (hexec : FsProg.exec (FsProg.writei f.ip f.off.toNat src) (s.setLocks f.ip true) =
      .ok (r, (s.setLocks f.ip true).hold f.ip x' d')) :
    FsProg.exec (FsProg.writeChunk f src) s = .ok ((r, f.moved r), s.hold f.ip x' d') := by
  have hheld : ((s.setLocks f.ip true).hold f.ip x' d').icache f.ip = { s.icache f.ip with busy := true, din := x' } := by
    rw [St.hold_self, s.setLocks_self f.ip true]
  have hunlock : FsProg.exec (FsProg.iunlock f.ip) ((s.setLocks f.ip true).hold f.ip x' d') = _ :=
    FsProg.exec_iunlock_ok (by rw [hheld]; exact h.ref) (by rw [hheld])
  have hcommit : ∀ t, FsProg.exec FsProg.commitTrans t = .ok ((), { t with trans := false }) := fun t => FsProg.exec_perform _
  have hend : { ((s.setLocks f.ip true).hold f.ip x' d').setEntry f.ip
      { ((s.setLocks f.ip true).hold f.ip x' d').icache f.ip with busy := false } with trans := false } = s.hold f.ip x' d' := by
    rw [hheld]
    have he : ({ s.icache f.ip with busy := false, din := x' } : Inode) = { s.icache f.ip with din := x' } := by
      rw [← h.unlocked]
    simp only [St.setEntry, St.hold, St.setLocks, update_idem, he]
    rw [← h.closed]
  rw [chunk_begins h, FsProg.exec_bind_ok hexec, moved_ip, FsProg.exec_bind_ok hunlock, FsProg.exec_bind_ok (hcommit _), hend]
  rfl

/-- **One chunk.** The transaction stores all the bytes at the offset of the file and advances it; it panics only if there
are not as many free blocks as places to fill. -/
theorem chunk_ends (h : Ready s f.ip) (hoff : f.off.toNat ≤ (s.icache f.ip).din.size.toNat)
    (hfit : f.off.toNat + src.length ≤ MAXFILE * BSIZE) (hpos : 0 < src.length) {S : Finset Slot}
    (hS : touched f.off.toNat src.length ⊆ S) :
    Ends (FsProg.exec (FsProg.writeChunk f src) s)
      (fun r => ∃ x' d', r = ((some src.length, { f with off := f.off + BitVec.ofNat 32 src.length }), s.hold f.ip x' d') ∧
        Written s f.ip f.off.toNat src x' d' ∧
        free s.disk + x'.empties d' S = free d' + (s.icache f.ip).din.empties s.disk S)
      (fun _ => free s.disk < (s.icache f.ip).din.empties s.disk S) := by
  have hlike := s.like_setLocks f.ip true
  have hself := s.setLocks_self f.ip true
  have hends := FsProg.writei_ends (hlike.sound h.sound) (by rw [hself]; exact h.ref) (by rw [hself]; exact h.valid)
    (by rw [hself, h.regular]; decide) (by rw [hself]; exact hoff) hfit hS
  rw [hself] at hends
  cases hexec : FsProg.exec (FsProg.writei f.ip f.off.toNat src) (s.setLocks f.ip true) with
  | error e =>
    rw [chunk_begins h, FsProg.exec_bind, hexec]
    exact hends.of_error hexec
  | ok r =>
    obtain ⟨x', d', rfl, hw, hcount⟩ := hends.of_ok hexec
    rw [chunk_returns h hexec]
    refine Ends.ok ⟨x', d', ?_, hlike.written hw, hcount⟩
    rw [WFile.moved, if_pos hpos]

theorem chunk_exec (h : Ready s f.ip) (hoff : f.off.toNat ≤ (s.icache f.ip).din.size.toNat)
    (hroom : HasRoom s f src.length) (hpos : 0 < src.length) :
    ∃ x' d', FsProg.exec (FsProg.writeChunk f src) s =
        .ok ((some src.length, { f with off := f.off + BitVec.ofNat 32 src.length }), s.hold f.ip x' d') ∧
      Written s f.ip f.off.toNat src x' d' := by
  have hends : Ends (FsProg.exec (FsProg.writeChunk f src) s) _ fun _ => False :=
    (chunk_ends h hoff hroom.1 hpos subset_rfl).mono (fun _ hr => hr) fun _ he => not_lt.2 hroom.2 he
  obtain ⟨r, hexec, x', d', rfl, hw, _⟩ := hends.returns
  exact ⟨x', d', hexec, hw⟩

/-- a chunk past the largest size is refused -/
theorem chunk_refused (h : Ready s f.ip) (hfit : MAXFILE * BSIZE < f.off.toNat + src.length) :
    FsProg.exec (FsProg.writeChunk f src) s = .ok ((none, f), s) := by
  have hdev : ((s.setLocks f.ip true).icache f.ip).din.type ≠ T_DEV := by
    rw [s.setLocks_self f.ip true, h.regular]
    decide
  have hsame : (s.setLocks f.ip true).hold f.ip (s.icache f.ip).din s.disk = s.setLocks f.ip true := by
    have heq : (s.setLocks f.ip true).hold f.ip ((s.setLocks f.ip true).icache f.ip).din s.disk = s.setLocks f.ip true :=
      St.hold_eq
    rwa [s.setLocks_self f.ip true] at heq
  have hexec := FsProg.writei_refuses hdev hfit
  have hret := chunk_returns h (by rw [hexec, hsame])
  rwa [St.hold_eq] at hret

end Chunk

/-! ## Calls that share a file -/

/-- a call of `filewrite` -/
structure Call where
  addr : ℕ → Byte
  n : ℤ
  /-- the bytes stored so far -/
  i : ℕ
  /-- the value it has returned -/
  result : Option ℤ

namespace Call

/-- the bytes the call is to store -/
def data (c : Call) : List Byte := (List.range c.n.toNat).map c.addr

/-- the bytes of the next chunk -/
def next (c : Call) : List Byte :=
  let n1 := min (c.n - c.i) maxChunk
  (List.range n1.toNat).map fun k => c.addr (c.i + k)

/-- the end of `filewrite` -/
def finish (c : Call) : Call := { c with result := some (if (c.i : ℤ) = c.n then c.n else -1) }

/-- the call is in its loop -/
def Looping (c : Call) : Prop := c.result = none ∧ (c.i : ℤ) < c.n

instance (c : Call) : Decidable c.Looping := inferInstanceAs (Decidable (_ ∧ _))

end Call

/-- a chunk that was stored: by which call, where, and its bytes -/
structure Chunk where
  call : ℕ
  off : ℕ
  bytes : List Byte

/-- why the machine stopped -/
inductive Halt where
  | panic (p : Panic)
  | shortFilewrite

structure World where
  fs : St
  file : WFile
  calls : List Call
  chunks : List Chunk
  halted : Option Halt

namespace World

variable (w : World)

inductive Op where
  /-- a process calls `filewrite` on the file -/
  | filewrite (addr : ℕ → Byte) (n : ℤ)
  /-- a call goes on to the end of its next transaction -/
  | turn (k : ℕ)

/-- a turn of the loop of call `k` -/
def turn (k : ℕ) (c : Call) : World :=
  match FsProg.exec (FsProg.writeChunk w.file c.next) w.fs with
  | .error .sleeps => w
  | .error (.panic p) => { w with halted := some (.panic p) }
  | .ok ((none, f), fs) => { w with fs := fs, file := f, calls := w.calls.set k c.finish }
  | .ok ((some r, f), fs) =>
    if r ≠ c.next.length then { w with fs := fs, file := f, halted := some .shortFilewrite }
    else
      { w with
        fs := fs
        file := f
        calls := w.calls.set k { c with i := c.i + r }
        chunks := w.chunks ++ [⟨k, w.file.off.toNat, c.next⟩] }

def step : World → Op → World
  | w, .filewrite addr n =>
    if w.file.writable = false then { w with calls := w.calls ++ [⟨addr, n, 0, some (-1)⟩] }
    else { w with calls := w.calls ++ [⟨addr, n, 0, none⟩] }
  | w, .turn k =>
    match w.calls[k]? with
    | none => w
    | some c =>
      if w.halted.isSome ∨ c.result.isSome then w
      else if (c.i : ℤ) < c.n then w.turn k c
      else { w with calls := w.calls.set k c.finish }

/-- a chunk that a call stores has room in the file and on the disk -/
def Roomy : World → Op → Prop
  | w, .turn k => ∀ c, w.calls[k]? = some c → c.Looping → HasRoom w.fs w.file c.next.length
  | _, .filewrite .. => True

/-- the bytes of the file -/
def contents : List Byte := (w.fs.icache w.file.ip).din.contents w.fs.disk

/-- the chunks of a call, in the order they were stored -/
def chunksOf (k : ℕ) : List Chunk := w.chunks.filter (·.call = k)

end World

/-! ## Stores one after another -/

theorem spliced_nil (old : List Byte) (off : ℕ) : spliced old off [] = old := by
  simp [spliced]

/-- a store at the end of another one -/
theorem spliced_spliced {old : List Byte} {off : ℕ} (hoff : off ≤ old.length) (a b : List Byte) :
    spliced (spliced old off a) (off + a.length) b = spliced old off (a ++ b) := by
  have hlen : (old.take off ++ a).length = off + a.length := by
    rw [List.length_append, List.length_take_of_le hoff]
  have htake : (spliced old off a).take (off + a.length) = old.take off ++ a := by
    rw [spliced, List.take_left' hlen]
  have hdrop : (spliced old off a).drop (off + a.length + b.length) = old.drop (off + a.length + b.length) := by
    rw [spliced, ← hlen, List.drop_length_add_append, List.drop_drop]
  rw [spliced, htake, hdrop, spliced, List.length_append, List.append_assoc (old.take off) a b, Nat.add_assoc]

/-- part of the bytes that were stored -/
theorem slice_spliced {old src : List Byte} {off j l : ℕ} (hoff : off ≤ old.length) (h : j + l ≤ src.length) :
    ((spliced old off src).drop (off + j)).take l = (src.drop j).take l := by
  have hlen : (old.take off).length = off := List.length_take_of_le hoff
  have hdrop : (spliced old off src).drop (off + j) = src.drop j ++ old.drop (off + src.length) := by
    have hskip : (old.take off ++ (src ++ old.drop (off + src.length))).drop ((old.take off).length + j) = _ :=
      List.drop_length_add_append j
    rw [hlen] at hskip
    rw [spliced, List.append_assoc, hskip, List.drop_append_of_le_length (by omega)]
  rw [hdrop, List.take_append_of_le_length (by rw [List.length_drop]; omega)]

/-- the bytes around a store -/
theorem getElem?_spliced_outside {old src : List Byte} {off p : ℕ} (hoff : off ≤ old.length)
    (hp : p < off ∨ off + src.length ≤ p) : (spliced old off src)[p]? = old[p]? := by
  have hlen : (old.take off).length = off := List.length_take_of_le hoff
  rw [spliced]
  rcases hp with hp | hp
  · rw [List.append_assoc, List.getElem?_append_left (by rw [hlen]; exact hp), List.getElem?_take_of_lt hp]
  · rw [List.getElem?_append_right (by rw [List.length_append, hlen]; exact hp), List.length_append, hlen,
      List.getElem?_drop, Nat.add_sub_cancel' hp]

/-- chunks that lie one after another, from one offset to another -/
def Placed : ℕ → List Chunk → ℕ → Prop
  | o, [], e => o = e
  | o, c :: cs, e => c.off = o ∧ Placed (o + c.bytes.length) cs e

namespace Placed

variable {o e : ℕ} {cs : List Chunk}

theorem snoc (h : Placed o cs e) (k : ℕ) (bytes : List Byte) : Placed o (cs ++ [⟨k, e, bytes⟩]) (e + bytes.length) := by
  induction cs generalizing o with
  | nil =>
    obtain rfl : o = e := h
    exact ⟨rfl, rfl⟩
  | cons c cs ih => exact ⟨h.1, ih h.2⟩

theorem length (h : Placed o cs e) : e = o + (cs.flatMap Chunk.bytes).length := by
  induction cs generalizing o with
  | nil => exact h.symm
  | cons c cs ih =>
    rw [ih h.2, List.flatMap_cons, List.length_append, Nat.add_assoc]

theorem le_off (h : Placed o cs e) {c : Chunk} (hc : c ∈ cs) : o ≤ c.off := by
  induction cs generalizing o with
  | nil => exact absurd hc List.not_mem_nil
  | cons c' cs ih =>
    rcases List.mem_cons.1 hc with rfl | hc
    · exact h.1.ge
    · exact le_trans (Nat.le_add_right ..) (ih h.2 hc)

theorem apart (h : Placed o cs e) : cs.Pairwise fun a b => a.off + a.bytes.length ≤ b.off := by
  induction cs generalizing o with
  | nil => exact .nil
  | cons c cs ih =>
    refine .cons ?_ (ih h.2)
    intro b hb
    rw [h.1]
    exact h.2.le_off hb

theorem covers (h : Placed o cs e) (p : ℕ) : (∃ c ∈ cs, c.off ≤ p ∧ p < c.off + c.bytes.length) ↔ o ≤ p ∧ p < e := by
  induction cs generalizing o with
  | nil =>
    obtain rfl : o = e := h
    simp only [List.not_mem_nil, false_and, exists_false, false_iff]
    omega
  | cons c cs ih =>
    have hle : o + c.bytes.length ≤ e := by
      have := h.2.length
      omega
    rw [List.exists_mem_cons_iff, ih h.2, h.1]
    omega

/-- where a chunk is in the bytes of them all -/
theorem bytes_of_mem (h : Placed o cs e) {c : Chunk} (hc : c ∈ cs) :
    ∃ j, c.off = o + j ∧ j + c.bytes.length ≤ (cs.flatMap Chunk.bytes).length ∧
      ((cs.flatMap Chunk.bytes).drop j).take c.bytes.length = c.bytes := by
  induction cs generalizing o with
  | nil => exact absurd hc List.not_mem_nil
  | cons c' cs ih =>
    rw [List.flatMap_cons]
    rcases List.mem_cons.1 hc with rfl | hc
    · exact ⟨0, h.1, by rw [List.length_append]; omega, List.take_left⟩
    · obtain ⟨j, hoff, hlen, htake⟩ := ih h.2 hc
      refine ⟨c'.bytes.length + j, by omega, by rw [List.length_append]; omega, ?_⟩
      rw [List.drop_length_add_append]
      exact htake

end Placed

/-! ## What a call has stored -/

namespace Call

theorem next_eq (c : Call) : c.next = (c.data.drop c.i).take maxChunk := by
  have hcount : (min (c.n - c.i) (maxChunk : ℤ)).toNat = min maxChunk (c.n.toNat - c.i) := by omega
  apply List.ext_getElem
  · simp [next, data, hcount]
  · intro k hk hk'
    simp [next, data]

theorem length_data (c : Call) : c.data.length = c.n.toNat := by
  simp [data]

/-- the chunks of a call are the pieces of its bytes, and when it has returned, all of them -/
structure Progress (c : Call) (cs : List Chunk) : Prop where
  pieces : ∃ m, cs.map Chunk.bytes = (List.range m).map (fun j => (c.data.drop (maxChunk * j)).take maxChunk) ∧
    c.i = min (maxChunk * m) c.n.toNat
  returned : ∀ r, c.result = some r → (0 ≤ c.n → r = c.n ∧ c.i = c.n.toNat) ∧ (c.n < 0 → r = -1)

namespace Progress

theorem start (addr : ℕ → Byte) (n : ℤ) : Progress ⟨addr, n, 0, none⟩ [] where
  pieces := ⟨0, rfl, by simp⟩
  returned := nofun

variable {c : Call} {cs : List Chunk}

theorem next (h : Progress c cs) (hloop : c.Looping) {chunk : Chunk} (hb : chunk.bytes = c.next) :
    Progress { c with i := c.i + c.next.length } (cs ++ [chunk]) := by
  obtain ⟨hresult, hlt⟩ := hloop
  obtain ⟨m, hpieces, hi⟩ := h.pieces
  have hfull : c.i = maxChunk * m := by omega
  constructor
  · refine ⟨m + 1, ?_, ?_⟩
    · rw [List.map_append, hpieces, List.range_succ, List.map_append, List.map_singleton, List.map_singleton, hb, c.next_eq,
        hfull]
      rfl
    · change c.i + c.next.length = min (maxChunk * (m + 1)) c.n.toNat
      rw [c.next_eq, List.length_take, List.length_drop, c.length_data, Nat.mul_add]
      omega
  · intro r hr
    exact absurd (hresult.symm.trans hr) nofun

theorem finish (h : Progress c cs) (hdone : ¬ (c.i : ℤ) < c.n) : Progress c.finish cs := by
  obtain ⟨m, hpieces, hi⟩ := h.pieces
  refine ⟨⟨m, hpieces, hi⟩, ?_⟩
  intro r hr
  have hr' : (if (c.i : ℤ) = c.n then c.n else -1) = r := Option.some.inj hr
  change (0 ≤ c.n → r = c.n ∧ c.i = c.n.toNat) ∧ (c.n < 0 → r = -1)
  rw [← hr']
  constructor
  · intro hn
    have : (c.i : ℤ) = c.n := by omega
    rw [if_pos this]
    omega
  · intro hn
    exact if_neg (by omega)

theorem length_next_pos (hloop : c.Looping) : 0 < c.next.length := by
  have := hloop.2
  rw [c.next_eq, List.length_take, List.length_drop, c.length_data]
  have : 0 < maxChunk := by decide
  omega

end Progress

end Call

/-! ## Runs -/

namespace World

/-- an open file that nobody is writing -/
structure Opened (w : World) : Prop where
  ready : Ready w.fs w.file.ip
  writable : w.file.writable = true
  inside : w.file.off.toNat ≤ (w.fs.icache w.file.ip).din.size.toNat
  calls : w.calls = []
  chunks : w.chunks = []
  running : w.halted = none

/-- where the chunks are after a run from `w₀`, and what the calls have stored -/
structure Shared (w₀ w : World) : Prop where
  running : w.halted = none
  writable : w.file.writable = true
  ready : Ready w.fs w.file.ip
  inside : w.file.off.toNat ≤ (w.fs.icache w.file.ip).din.size.toNat
  placed : Placed w₀.file.off.toNat w.chunks w.file.off.toNat
  contents : w.contents = spliced w₀.contents w₀.file.off.toNat (w.chunks.flatMap Chunk.bytes)
  known : ∀ c ∈ w.chunks, c.call < w.calls.length
  progress : ∀ (k : ℕ) (c : Call), w.calls[k]? = some c → c.Progress (w.chunksOf k)

theorem Opened.shared {w : World} (h : w.Opened) : Shared w w where
  running := h.running
  writable := h.writable
  ready := h.ready
  inside := h.inside
  placed := by
    rw [h.chunks]
    rfl
  contents := by
    rw [h.chunks]
    exact (spliced_nil _ _).symm
  known := by
    rw [h.chunks]
    exact fun _ hc => absurd hc List.not_mem_nil
  progress := by
    intro k c hc
    rw [h.calls] at hc
    exact absurd hc nofun

variable {w₀ w : World} {k : ℕ} {c : Call}

theorem chunksOf_append (w : World) (k : ℕ) (chunk : Chunk) :
    (w.chunks ++ [chunk]).filter (·.call = k) = w.chunksOf k ++ if chunk.call = k then [chunk] else [] := by
  rw [List.filter_append, chunksOf]
  by_cases h : chunk.call = k <;> simp [h]

namespace Shared

/-- the calls after one of them has gone on -/
theorem progress_set (h : Shared w₀ w) {c' : Call} {cs : List Chunk} (hc : w.calls[k]? = some c)
    (hself : c'.Progress (cs.filter (·.call = k)))
    (hrest : ∀ j, j ≠ k → cs.filter (·.call = j) = w.chunksOf j) (j : ℕ) (q : Call)
    (hq : (w.calls.set k c')[j]? = some q) : q.Progress (cs.filter (·.call = j)) := by
  obtain ⟨hlt, _⟩ := List.getElem?_eq_some_iff.1 hc
  by_cases hj : j = k
  · subst hj
    rw [List.getElem?_set_self hlt] at hq
    obtain rfl := Option.some.inj hq
    exact hself
  · rw [List.getElem?_set_ne (Ne.symm hj)] at hq
    rw [hrest j hj]
    exact h.progress j q hq

theorem filewrite (h : Shared w₀ w) (addr : ℕ → Byte) (n : ℤ) : Shared w₀ (step w (.filewrite addr n)) := by
  have hstep : step w (.filewrite addr n) = { w with calls := w.calls ++ [⟨addr, n, 0, none⟩] } := by
    refine if_neg ?_
    rw [h.writable]
    decide
  rw [hstep]
  refine { h with known := ?_, progress := ?_ }
  · intro c hc
    have := h.known c hc
    simp only [List.length_append]
    omega
  · intro k c hc
    change (w.calls ++ _)[k]? = some c at hc
    change c.Progress (w.chunksOf k)
    by_cases hk : k < w.calls.length
    · rw [List.getElem?_append_left hk] at hc
      exact h.progress k c hc
    · -- the new call has no chunk yet
      have hnone : w.chunksOf k = [] := by
        rw [chunksOf, List.filter_eq_nil_iff]
        intro q hq
        have := h.known q hq
        simp only [decide_eq_true_eq]
        omega
      rw [List.getElem?_append_right (by omega)] at hc
      obtain rfl := List.mem_singleton.1 (List.mem_of_getElem? hc)
      rw [hnone]
      exact .start addr n

theorem finish (h : Shared w₀ w) (hc : w.calls[k]? = some c) (hdone : ¬ (c.i : ℤ) < c.n) :
    Shared w₀ { w with calls := w.calls.set k c.finish } := by
  refine { h with known := ?_, progress := ?_ }
  · intro q hq
    rw [List.length_set]
    exact h.known q hq
  · exact h.progress_set hc ((h.progress k c hc).finish hdone) fun _ _ => rfl

theorem turn (h : Shared w₀ w) (hoff : w₀.file.off.toNat ≤ w₀.contents.length) (hc : w.calls[k]? = some c)
    (hloop : c.Looping) (hroom : HasRoom w.fs w.file c.next.length) : Shared w₀ (w.turn k c) := by
  have hpos := Call.Progress.length_next_pos hloop
  obtain ⟨x', d', hexec, hw⟩ := chunk_exec h.ready h.inside hroom hpos
  have hturn : w.turn k c =
      { w with
        fs := w.fs.hold w.file.ip x' d'
        file := { w.file with off := w.file.off + BitVec.ofNat 32 c.next.length }
        calls := w.calls.set k { c with i := c.i + c.next.length }
        chunks := w.chunks ++ [⟨k, w.file.off.toNat, c.next⟩] } := by
    rw [World.turn, hexec]
    exact if_neg fun hne => hne rfl
  have hadd : (w.file.off + BitVec.ofNat 32 c.next.length).toNat = w.file.off.toNat + c.next.length := by
    have hmax : MAXFILE * BSIZE < 2 ^ 32 := by decide
    have := hroom.1
    rw [BitVec.toNat_add, BitVec.toNat_ofNat, Nat.add_mod_mod, Nat.mod_eq_of_lt (by omega)]
  have hlen := h.placed.length
  rw [hturn]
  constructor
  case running => exact h.running
  case writable => exact h.writable
  case ready => exact h.ready.hold hw
  case inside =>
    rw [hadd]
    change _ ≤ ((w.fs.hold w.file.ip x' d').icache w.file.ip).din.size.toNat
    rw [St.hold_self]
    exact (le_max_right _ _).trans hw.size.ge
  case placed =>
    rw [hadd]
    exact h.placed.snoc k c.next
  case contents =>
    change ((w.fs.hold w.file.ip x' d').icache w.file.ip).din.contents d' = spliced _ _ ((w.chunks ++ [_]).flatMap _)
    have htable := St.table_of_cached (h.ready.sound.cached_self h.ready.ref h.ready.valid)
    have hbefore : (w.fs.icache w.file.ip).din.contents w.fs.disk = _ := h.contents
    rw [St.hold_self, hw.contents_eq htable h.inside, hbefore, hlen, spliced_spliced hoff, List.flatMap_append]
    simp
  case known =>
    intro q hq
    change q.call < (w.calls.set k _).length
    rw [List.length_set]
    rcases List.mem_append.1 hq with hq | hq
    · exact h.known q hq
    · obtain rfl := List.mem_singleton.1 hq
      exact (List.getElem?_eq_some_iff.1 hc).1
  case progress =>
    refine h.progress_set hc ?_ ?_
    · rw [chunksOf_append, if_pos rfl]
      exact (h.progress k c hc).next hloop rfl
    · intro j hj
      rw [chunksOf_append, if_neg (Ne.symm hj), List.append_nil]

theorem step (hoff : w₀.file.off.toNat ≤ w₀.contents.length) (w : World) (o : Op) (hok : Roomy w o) (h : Shared w₀ w) :
    Shared w₀ (World.step w o) := by
  cases o with
  | filewrite addr n => exact h.filewrite addr n
  | turn k =>
    rw [World.step]
    cases hc : w.calls[k]? with
    | none => exact h
    | some c =>
      change Shared w₀ (if _ then _ else _)
      by_cases hidle : w.halted.isSome ∨ c.result.isSome
      · rwa [if_pos hidle]
      · rw [if_neg hidle]
        have hresult : c.result = none := by
          simpa using fun hs => hidle (.inr hs)
        by_cases hlt : (c.i : ℤ) < c.n
        · rw [if_pos hlt]
          exact h.turn hoff hc ⟨hresult, hlt⟩ (hok c hc ⟨hresult, hlt⟩)
        · rw [if_neg hlt]
          exact h.finish hc hlt

end Shared

/-- **Writers that share an open file lose nothing.** In every interleaving of calls of `filewrite`, as long as the file
and the disk have room for each chunk: no call panics; each chunk has its bytes in one range of the file, the ranges do
not overlap, and together they are the range from the first offset to the last; nothing outside of it has changed. The
chunks of a call, in the order of their ranges, are its bytes in pieces of 1536, and a call that has returned has stored
them all. -/
theorem shared_writes_lose_nothing (w₀ : World) (ops : List Op) (hopen : w₀.Opened)
    (hroom : Along World.step Roomy w₀ ops) :
    let w := run World.step w₀ ops
    w.halted = none ∧
    (∀ c ∈ w.chunks, (w.contents.drop c.off).take c.bytes.length = c.bytes) ∧
    (w.chunks.Pairwise fun a b => a.off + a.bytes.length ≤ b.off) ∧
    (∀ p, (∃ c ∈ w.chunks, c.off ≤ p ∧ p < c.off + c.bytes.length) ↔ w₀.file.off.toNat ≤ p ∧ p < w.file.off.toNat) ∧
    (∀ p, p < w₀.file.off.toNat ∨ w.file.off.toNat ≤ p → w.contents[p]? = w₀.contents[p]?) ∧
    ∀ (k : ℕ) (c : Call), w.calls[k]? = some c →
      (∃ m, (w.chunksOf k).map Chunk.bytes = (List.range m).map (fun j => (c.data.drop (1536 * j)).take 1536) ∧
        c.i = min (1536 * m) c.n.toNat) ∧
      ∀ r, c.result = some r → (0 ≤ c.n → r = c.n ∧ c.i = c.n.toNat) ∧ (c.n < 0 → r = -1) := by
  intro w
  have hoff : w₀.file.off.toNat ≤ w₀.contents.length := by
    rw [contents, length_contents]
    exact hopen.inside
  have h : Shared w₀ w := Along.inv (Shared.step hoff) hopen.shared hroom
  refine ⟨h.running, ?_, h.placed.apart, h.placed.covers, ?_, ?_⟩
  · intro c hc
    obtain ⟨j, hj, hlen, htake⟩ := h.placed.bytes_of_mem hc
    rw [h.contents, hj, slice_spliced hoff hlen, htake]
  · intro p hp
    rw [h.contents]
    rw [h.placed.length] at hp
    exact getElem?_spliced_outside hoff hp
  · intro k c hc
    exact ⟨(h.progress k c hc).pieces, (h.progress k c hc).returned⟩

/-! ## A file of the small file system -/

/-- its file, unlocked and opened for writing -/
def smallOpened : World := ⟨small.setLocks 0 false, ⟨⟨true, 0, 0⟩, true⟩, [], [], none⟩

theorem smallOpened_opened : smallOpened.Opened where
  ready := ⟨(small.like_setLocks 0 false).sound small_sound, by decide, rfl, rfl, rfl, rfl⟩
  writable := rfl
  inside := Nat.zero_le _
  calls := rfl
  chunks := rfl
  running := rfl

/-- a call that stores two bytes, up to the end of its transaction -/
def writesTwo : List Op := [.filewrite (fun k => BitVec.ofNat 8 (k + 7)) 2, .turn 0]

theorem writesTwo_lost_nothing :
    (run step smallOpened writesTwo).halted = none ∧
      ∀ c ∈ (run step smallOpened writesTwo).chunks,
        ((run step smallOpened writesTwo).contents.drop c.off).take c.bytes.length = c.bytes := by
  have hroom : Along World.step Roomy smallOpened writesTwo := by
    refine ⟨trivial, ?_, trivial⟩
    intro c hc _
    obtain rfl := Option.some.inj hc
    exact ⟨by decide, small_room⟩
  have h := shared_writes_lose_nothing smallOpened writesTwo smallOpened_opened hroom
  exact ⟨h.1, h.2.1⟩

end World

end Xv6Threads.Fs
