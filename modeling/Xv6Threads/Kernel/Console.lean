/-
The console of console.c: what is typed, edited and read.

The input buffer is a ring with three unsigned indices: `r` where readers are, `w` where the committed characters end,
and `e` where the line that is being edited ends. `key` is one character of the loop of `consoleintr`. Any number of
processes (any type `ι`) are in `consoleread`; a reader that finds `r = w` sleeps, and otherwise takes one character (`go`).
The lock is held for longer, so that there are fewer interleavings than these.

`Lines` is what the console is for: a line that is edited, the characters that are committed and not yet read, and the
reads. A read ends at its size, after a newline, or at a ^D, which is kept for the next read if there were bytes before it.
- `Holds`: the ring holds the committed characters and the line, with indices modulo 2^32.
- `key_simulates`, `go_simulates`: every step of the code is one of `Lines`.
- `Lines.Inv`: what `Lines` delivers, and how each read ends.
- `console_delivers_lines`: so it is in every run of the code.
-/
import Xv6Threads.Core.Records
import Xv6Threads.Core.Ring
import Xv6Threads.Core.Runs

namespace Xv6Threads.Console

open Xv6Threads.Core Function

def INPUT_BUF : ℕ := 128

def newline : Byte := 10
def carriageReturn : Byte := 13
def backspace : Byte := 8
def delete : Byte := 0x7f
/-- `C('D')` -/
def ctrlD : Byte := 4
/-- `C('P')` -/
def ctrlP : Byte := 16
/-- `C('U')` -/
def ctrlU : Byte := 21

/-! ## The code -/

/-- `input`; the cells are those below INPUT_BUF -/
structure Input where
  buf : ℕ → Byte
  r : BitVec 32
  w : BitVec 32
  e : BitVec 32

/-- `input.buf[i % INPUT_BUF]` -/
def Input.cell (i : Input) (k : BitVec 32) : Byte := i.buf (k.toNat % INPUT_BUF)

/-- the loop that kills a line; it ends at `w` -/
def killLine : ℕ → Input → Input
  | 0, i => i
  | turns + 1, i =>
    if i.e ≠ i.w ∧ i.cell (i.e - 1) ≠ newline then killLine turns { i with e := i.e - 1 } else i

/-- one character of `consoleintr` -/
def consoleintr (i : Input) (c : Byte) : Input :=
  -- process listing
  if c = ctrlP then i
  else if c = ctrlU then killLine (i.e - i.w).toNat i
  else if c = backspace ∨ c = delete then if i.e ≠ i.w then { i with e := i.e - 1 } else i
  else if c ≠ 0 ∧ (i.e - i.r).toNat < INPUT_BUF then
    let c := if c = carriageReturn then newline else c
    let i := { i with buf := update i.buf (i.e.toNat % INPUT_BUF) c, e := i.e + 1 }
    if c = newline ∨ c = ctrlD ∨ i.e = i.r + BitVec.ofNat 32 INPUT_BUF then { i with w := i.e } else i
  else i

/-- the variables of `consoleread`: what it was asked for, what is left of that, and the bytes stored so far -/
structure Reader where
  target : ℕ
  n : ℕ
  dst : List Byte

structure St (ι : Type) where
  input : Input
  reader : ι → Option Reader
  /-- the calls that have returned: the process, the size it asked for, and its bytes -/
  returned : List (ι × ℕ × List Byte)

inductive Op (ι : Type) where
  | key (c : Byte)
  | read (p : ι) (n : ℕ)
  | go (p : ι)

variable {ι : Type} [DecidableEq ι]

/-- `consoleread` returns -/
def St.ret (s : St ι) (p : ι) (x : Reader) (i : Input) : St ι :=
  { input := i, reader := update s.reader p none, returned := s.returned ++ [(p, x.target, x.dst)] }

/-- one turn of the loop of `consoleread`, for which there is a character -/
def readTurn (s : St ι) (p : ι) (x : Reader) : St ι :=
  let c := s.input.cell s.input.r
  let i := { s.input with r := s.input.r + 1 }
  if c = ctrlD then
    -- save ^D for next time, to make sure caller gets a 0-byte result
    s.ret p x (if x.n < x.target then { i with r := i.r - 1 } else i)
  else
    let x := { x with dst := x.dst ++ [c], n := x.n - 1 }
    if c = newline ∨ x.n = 0 then s.ret p x i
    else { s with input := i, reader := update s.reader p (some x) }

def step (s : St ι) : Op ι → St ι
  | .key c => { s with input := consoleintr s.input c }
  | .read p n =>
    if s.reader p = none ∧ 0 < n then { s with reader := update s.reader p (some ⟨n, n, []⟩) } else s
  | .go p =>
    match s.reader p with
    | none => s
    | some x => if s.input.r = s.input.w then s else readTurn s p x

instance decidableReaderNone (x : Option Reader) : Decidable (x = none) := decidable_of_iff (x.isNone = true) (by simp)

def init : St ι where
  input := ⟨fun _ => 0, 0, 0, 0⟩
  reader := fun _ => none
  returned := []

/-! ## What the console is for -/

/-- a call that has returned; `pos` is the number of characters taken by then -/
structure Read (ι : Type) where
  p : ι
  n : ℕ
  bytes : List Byte
  pos : ℕ

structure Lines (ι : Type) where
  /-- all that was ever committed -/
  committed : List Byte
  /-- the characters that were taken, and who took them -/
  taken : List (ι × Byte)
  /-- committed, and not taken yet -/
  avail : List Byte
  /-- the line that is being edited -/
  line : List Byte
  /-- the size of a call, and its bytes so far -/
  reader : ι → Option (ℕ × List Byte)
  returned : List (Read ι)

namespace Lines

def key (a : Lines ι) (c : Byte) : Lines ι :=
  if c = ctrlP then a
  else if c = ctrlU then { a with line := [] }
  else if c = backspace ∨ c = delete then { a with line := a.line.dropLast }
  else if c ≠ 0 ∧ a.avail.length + a.line.length < INPUT_BUF then
    let c := if c = carriageReturn then newline else c
    let line := a.line ++ [c]
    if c = newline ∨ c = ctrlD ∨ a.avail.length + line.length = INPUT_BUF then
      { a with committed := a.committed ++ line, avail := a.avail ++ line, line := [] }
    else { a with line := line }
  else a

/-- the call of `p` returns `bytes`, having left `avail` -/
def ret (a : Lines ι) (p : ι) (n : ℕ) (bytes : List Byte) : Lines ι :=
  { a with reader := update a.reader p none, returned := a.returned ++ [⟨p, n, bytes, a.taken.length⟩] }

/-- `p` takes the next character -/
def take (a : Lines ι) (p : ι) (c : Byte) (avail : List Byte) : Lines ι :=
  { a with taken := a.taken ++ [(p, c)], avail := avail }

def go (a : Lines ι) (p : ι) (n : ℕ) (bytes : List Byte) : Lines ι :=
  match a.avail with
  | [] => a
  | c :: avail =>
    if c = ctrlD then
      if bytes = [] then (a.take p c avail).ret p n [] else a.ret p n bytes
    else if c = newline ∨ bytes.length + 1 = n then (a.take p c avail).ret p n (bytes ++ [c])
    else { a.take p c avail with reader := update a.reader p (some (n, bytes ++ [c])) }

def step (a : Lines ι) : Op ι → Lines ι
  | .key c => a.key c
  | .read p n =>
    if a.reader p = none ∧ 0 < n then { a with reader := update a.reader p (some (n, [])) } else a
  | .go p =>
    match a.reader p with
    | none => a
    | some (n, bytes) => a.go p n bytes

def init : Lines ι := ⟨[], [], [], [], fun _ => none, []⟩

end Lines

/-! ## The ring -/

/-- the ring holds the committed characters and then the line; `k` characters were read before -/
structure Holds (i : Input) (k : ℕ) (avail line : List Byte) : Prop where
  r : i.r = BitVec.ofNat 32 k
  w : i.w = BitVec.ofNat 32 (k + avail.length)
  e : i.e = BitVec.ofNat 32 (k + (avail.length + line.length))
  room : avail.length + line.length ≤ INPUT_BUF
  ring : RingHolds INPUT_BUF i.buf k (avail ++ line)

variable {i : Input} {k m : ℕ} {avail line : List Byte} {c : Byte}

theorem index_ofNat (k : ℕ) : (BitVec.ofNat 32 k).toNat % INPUT_BUF = k % INPUT_BUF := by
  rw [BitVec.toNat_ofNat]
  exact Nat.mod_mod_of_dvd k (by decide)

theorem ofNat_succ (k : ℕ) : BitVec.ofNat 32 (k + 1) = BitVec.ofNat 32 k + 1 := BitVec.ofNat_add k 1

theorem toNat_sub_ofNat (k : ℕ) (hm : m ≤ INPUT_BUF) : (BitVec.ofNat 32 (k + m) - BitVec.ofNat 32 k).toNat = m := by
  have hlt : m < 2 ^ 32 := Nat.lt_of_le_of_lt hm (by decide)
  rw [BitVec.ofNat_add, BitVec.add_comm, BitVec.add_sub_cancel]
  exact Nat.mod_eq_of_lt hlt

/-- indices at most a ring apart are equal if the counters are -/
theorem ofNat_add_inj (k : ℕ) {m' : ℕ} (hm : m ≤ INPUT_BUF) (hm' : m' ≤ INPUT_BUF) :
    BitVec.ofNat 32 (k + m) = BitVec.ofNat 32 (k + m') ↔ m = m' := by
  constructor
  · intro h
    have hsub := congrArg (fun x => (x - BitVec.ofNat 32 k).toNat) h
    simp only [toNat_sub_ofNat k hm, toNat_sub_ofNat k hm'] at hsub
    exact hsub
  · rintro rfl
    rfl

namespace Holds

theorem distances (h : Holds i k avail line) :
    (i.w - i.r).toNat = avail.length ∧ (i.e - i.r).toNat = avail.length + line.length := by
  have hroom := h.room
  rw [h.r, h.w, h.e]
  exact ⟨toNat_sub_ofNat k (by omega), toNat_sub_ofNat k hroom⟩

theorem edit_distance (h : Holds i k avail line) : (i.e - i.w).toNat = line.length := by
  have hroom := h.room
  rw [h.w, h.e, ← Nat.add_assoc]
  exact toNat_sub_ofNat _ (by omega)

theorem read_eq_iff (h : Holds i k avail line) : i.r = i.w ↔ avail = [] := by
  have hroom := h.room
  have hinj : BitVec.ofNat 32 (k + 0) = BitVec.ofNat 32 (k + avail.length) ↔ 0 = avail.length :=
    ofNat_add_inj k (Nat.zero_le _) (by omega)
  rw [Nat.add_zero] at hinj
  rw [h.r, h.w, hinj, eq_comm, List.length_eq_zero_iff]

theorem edit_eq_iff (h : Holds i k avail line) : i.e = i.w ↔ line = [] := by
  have hroom := h.room
  rw [h.e, h.w, ofNat_add_inj k hroom (by omega), ← List.length_eq_zero_iff]
  omega

/-- the last character of the line is erased -/
theorem erase (h : Holds i k avail (line ++ [c])) :
    i.cell (i.e - 1) = c ∧ Holds { i with e := i.e - 1 } k avail line := by
  have hlen : (line ++ [c]).length = line.length + 1 := List.length_append
  have hroom := h.room
  have hprev : i.e - 1 = BitVec.ofNat 32 (k + (avail.length + line.length)) := by
    rw [h.e, hlen, ← Nat.add_assoc, ← Nat.add_assoc, ofNat_succ, Nat.add_assoc, BitVec.add_sub_cancel]
  refine ⟨?_, h.r, h.w, hprev, by omega, ?_⟩
  · rw [Input.cell, hprev, index_ofNat]
    refine h.ring (avail.length + line.length) c ?_
    rw [← List.append_assoc, List.getElem?_append_right (by simp)]
    simp
  · have hring := h.ring
    rw [← List.append_assoc] at hring
    exact hring.left

/-- a character is added to the line -/
theorem push (h : Holds i k avail line) (hroom : avail.length + line.length < INPUT_BUF) (c : Byte) :
    Holds { i with buf := update i.buf (i.e.toNat % INPUT_BUF) c, e := i.e + 1 } k avail (line ++ [c]) := by
  have hlen : (line ++ [c]).length = line.length + 1 := List.length_append
  refine ⟨h.r, h.w, ?_, by omega, ?_⟩
  · change i.e + 1 = _
    rw [h.e, hlen, ← ofNat_succ]
    congr 1
  · change RingHolds INPUT_BUF (update i.buf (i.e.toNat % INPUT_BUF) c) k _
    rw [h.e, index_ofNat, ← List.append_assoc, ← List.length_append]
    exact h.ring.push (by rwa [List.length_append]) c

theorem commit (h : Holds i k avail line) : Holds { i with w := i.e } k (avail ++ line) [] := by
  have hroom := h.room
  refine ⟨h.r, ?_, ?_, ?_, ?_⟩
  · rw [List.length_append]
    exact h.e
  · rw [List.length_append, List.length_nil, Nat.add_zero]
    exact h.e
  · rwa [List.length_append, List.length_nil, Nat.add_zero]
  · rw [List.append_nil]
    exact h.ring

/-- the next character is read -/
theorem pop (h : Holds i k (c :: avail) line) :
    i.cell i.r = c ∧ Holds { i with r := i.r + 1 } (k + 1) avail line := by
  have hlen : (c :: avail).length = avail.length + 1 := List.length_cons
  have hroom := h.room
  obtain ⟨hcell, hrest⟩ := h.ring.pop
  refine ⟨?_, ?_, ?_, ?_, by omega, hrest⟩
  · rw [Input.cell, h.r, index_ofNat]
    exact hcell
  · change i.r + 1 = _
    rw [h.r, ofNat_succ]
  · change i.w = _
    rw [h.w, hlen]
    congr 1
    omega
  · change i.e = _
    rw [h.e, hlen]
    congr 1
    omega

theorem killLine (hline : newline ∉ line) (h : Holds i k avail line) :
    Holds (Console.killLine line.length i) k avail [] := by
  induction line using List.reverseRecOn generalizing i with
  | nil => exact h
  | append_singleton line c ih =>
    have hne : i.e ≠ i.w := by
      rw [ne_eq, h.edit_eq_iff]
      simp
    obtain ⟨hcell, herase⟩ := h.erase
    rw [List.length_append, List.length_singleton, Console.killLine]
    rw [List.mem_append, List.mem_singleton, not_or] at hline
    rw [if_pos ⟨hne, by rw [hcell]; exact fun e => hline.2 e.symm⟩]
    exact ih hline.1 herase

end Holds

/-! ## The code does what Lines does -/

/-- a reader of the code and one of `Lines` -/
def Reader.of (x : ℕ × List Byte) : Reader := ⟨x.1, x.1 - x.2.length, x.2⟩

structure Matches (s : St ι) (a : Lines ι) : Prop where
  input : ∃ k, Holds s.input k a.avail a.line
  /-- a newline commits the line -/
  line : newline ∉ a.line
  reader : ∀ p, s.reader p = (a.reader p).map Reader.of
  /-- a call that has all of its bytes returns -/
  active : ∀ p n bytes, a.reader p = some (n, bytes) → bytes.length < n
  returned : s.returned = a.returned.map fun x => (x.p, x.n, x.bytes)

variable {s : St ι} {a : Lines ι}

/-- **A key.** -/
theorem key_simulates (h : Holds i k a.avail a.line) (hline : newline ∉ a.line) (c : Byte) :
    Holds (consoleintr i c) k (a.key c).avail (a.key c).line ∧ newline ∉ (a.key c).line := by
  unfold consoleintr Lines.key
  by_cases hP : c = ctrlP
  · rw [if_pos hP, if_pos hP]
    exact ⟨h, hline⟩
  rw [if_neg hP, if_neg hP]
  by_cases hU : c = ctrlU
  · rw [if_pos hU, if_pos hU, h.edit_distance]
    exact ⟨h.killLine hline, List.not_mem_nil⟩
  rw [if_neg hU, if_neg hU]
  by_cases hH : c = backspace ∨ c = delete
  · rw [if_pos hH, if_pos hH]
    rcases List.eq_nil_or_concat' a.line with hnil | ⟨line, x, hx⟩
    · rw [if_neg (not_not.2 (h.edit_eq_iff.2 hnil)), hnil, List.dropLast_nil]
      rw [hnil] at h
      exact ⟨h, List.not_mem_nil⟩
    · have hne : i.e ≠ i.w := by
        rw [ne_eq, h.edit_eq_iff, hx]
        simp
      rw [if_pos hne, hx, List.dropLast_concat]
      rw [hx] at h hline
      exact ⟨h.erase.2, fun hmem => hline (List.mem_append_left _ hmem)⟩
  rw [if_neg hH, if_neg hH, h.distances.2]
  by_cases hroom : c ≠ 0 ∧ a.avail.length + a.line.length < INPUT_BUF
  · rw [if_pos hroom, if_pos hroom]
    simp only
    generalize (if c = carriageReturn then newline else c) = c'
    have hpush := h.push hroom.2 c'
    -- the ring is full for the code iff it is for Lines
    have hfull : i.e + 1 = i.r + BitVec.ofNat 32 INPUT_BUF ↔ a.avail.length + (a.line ++ [c']).length = INPUT_BUF := by
      have he : i.e + 1 = BitVec.ofNat 32 (k + (a.avail.length + (a.line ++ [c']).length)) := hpush.e
      rw [he, h.r, ← BitVec.ofNat_add, ofNat_add_inj k hpush.room le_rfl]
    have hiff := or_congr_right (a := c' = newline) (or_congr_right (a := c' = ctrlD) hfull)
    by_cases hcommit : c' = newline ∨ c' = ctrlD ∨ a.avail.length + (a.line ++ [c']).length = INPUT_BUF
    · rw [if_pos (hiff.2 hcommit), if_pos hcommit]
      exact ⟨hpush.commit, List.not_mem_nil⟩
    · rw [if_neg (fun hc => hcommit (hiff.1 hc)), if_neg hcommit]
      refine ⟨hpush, ?_⟩
      rw [List.mem_append, List.mem_singleton, not_or]
      exact ⟨hline, fun e => hcommit (.inl e.symm)⟩
  · rw [if_neg hroom, if_neg hroom]
    exact ⟨h, hline⟩

omit [DecidableEq ι] in
theorem key_reader (a : Lines ι) (c : Byte) : (a.key c).reader = a.reader ∧ (a.key c).returned = a.returned ∧
    (a.key c).taken = a.taken := by
  unfold Lines.key
  simp only
  split_ifs <;> exact ⟨rfl, rfl, rfl⟩

/-- a call returns in both -/
theorem Matches.ret (h : Matches s a) {p : ι} {n : ℕ} {bytes : List Byte} {x : Reader} {b : Lines ι} (hin : Holds i k b.avail b.line)
    (hline : b.line = a.line) (hreader : b.reader = a.reader) (hreturned : b.returned = a.returned)
    (hx : x.target = n ∧ x.dst = bytes) : Matches (s.ret p x i) (b.ret p n bytes) where
  input := ⟨k, hin⟩
  line := by
    change newline ∉ b.line
    rw [hline]
    exact h.line
  reader q := by
    change update s.reader p none q = (update b.reader p none q).map Reader.of
    by_cases hq : q = p
    · rw [hq, update_self, update_self]
      rfl
    · rw [update_of_ne hq, update_of_ne hq, hreader]
      exact h.reader q
  active q m bs hq := by
    change update b.reader p none q = some (m, bs) at hq
    by_cases hqp : q = p
    · rw [hqp, update_self] at hq
      cases hq
    · rw [update_of_ne hqp, hreader] at hq
      exact h.active q m bs hq
  returned := by
    change s.returned ++ [(p, x.target, x.dst)] = (b.returned ++ [_]).map _
    rw [List.map_append, hreturned, ← h.returned, hx.1, hx.2]
    rfl

/-- **A character is read.** -/
theorem go_simulates (h : Matches s a) {p : ι} {n : ℕ} {bytes : List Byte} (hp : a.reader p = some (n, bytes))
    (havail : a.avail ≠ []) : Matches (readTurn s p (Reader.of (n, bytes))) (a.go p n bytes) := by
  obtain ⟨k, hin⟩ := h.input
  obtain ⟨c, avail, hc⟩ := List.exists_cons_of_ne_nil havail
  have hlt := h.active p n bytes hp
  rw [hc] at hin
  obtain ⟨hcell, hpop⟩ := hin.pop
  simp only [readTurn, Lines.go, hc, hcell]
  by_cases hD : c = ctrlD
  · rw [if_pos hD, if_pos hD]
    by_cases hnil : bytes = []
    · -- nothing was read before: the ^D is taken
      have hno : ¬ (Reader.of (n, bytes)).n < (Reader.of (n, bytes)).target := by
        simp [Reader.of, hnil]
      rw [if_pos hnil, if_neg hno]
      refine h.ret (b := a.take p c avail) hpop rfl rfl rfl ⟨rfl, ?_⟩
      exact hnil
    · have hyes : (Reader.of (n, bytes)).n < (Reader.of (n, bytes)).target := by
        have hpos : 0 < bytes.length := List.length_pos_iff.2 hnil
        simp only [Reader.of]
        omega
      have hback : s.input.r + 1 - 1 = s.input.r := BitVec.add_sub_cancel _ _
      rw [if_neg hnil, if_pos hyes]
      simp only [hback]
      refine h.ret (k := k) (b := a) ?_ rfl rfl rfl ⟨rfl, rfl⟩
      rw [hc]
      exact hin
  · rw [if_neg hD, if_neg hD]
    have hend : (c = newline ∨ (Reader.of (n, bytes)).n - 1 = 0) ↔ (c = newline ∨ bytes.length + 1 = n) := by
      simp only [Reader.of]
      have hiff : n - bytes.length - 1 = 0 ↔ bytes.length + 1 = n := by omega
      rw [hiff]
    by_cases hstop : c = newline ∨ bytes.length + 1 = n
    · rw [if_pos (hend.2 hstop), if_pos hstop]
      exact h.ret (b := a.take p c avail) hpop rfl rfl rfl ⟨rfl, rfl⟩
    · rw [if_neg (fun hs => hstop (hend.1 hs)), if_neg hstop]
      have hsame : ({ Reader.of (n, bytes) with dst := (Reader.of (n, bytes)).dst ++ [c], n := (Reader.of (n, bytes)).n - 1 } :
          Reader) = Reader.of (n, bytes ++ [c]) := by
        simp only [Reader.of, List.length_append, List.length_singleton, Nat.sub_sub]
      rw [hsame]
      constructor
      case input => exact ⟨k + 1, hpop⟩
      case line => exact h.line
      case reader =>
        intro q
        change update s.reader p _ q = (update a.reader p _ q).map Reader.of
        by_cases hq : q = p
        · rw [hq, update_self, update_self]
          rfl
        · rw [update_of_ne hq, update_of_ne hq]
          exact h.reader q
      case active =>
        intro q m bs hq
        change update a.reader p (some (n, bytes ++ [c])) q = some (m, bs) at hq
        by_cases hqp : q = p
        · rw [hqp, update_self] at hq
          cases hq
          rw [List.length_append, List.length_singleton]
          have hne : bytes.length + 1 ≠ n := fun e => hstop (.inr e)
          omega
        · rw [update_of_ne hqp] at hq
          exact h.active q m bs hq
      case returned => exact h.returned

theorem step_simulates (h : Matches s a) (o : Op ι) : Matches (step s o) (a.step o) := by
  cases o with
  | key c =>
    obtain ⟨k, hin⟩ := h.input
    obtain ⟨hin', hline'⟩ := key_simulates hin h.line c
    obtain ⟨hreader, hreturned, _⟩ := key_reader a c
    refine ⟨⟨k, hin'⟩, hline', ?_, ?_, ?_⟩
    · intro p
      change s.reader p = ((a.key c).reader p).map Reader.of
      rw [hreader]
      exact h.reader p
    · intro p n bytes hp
      change (a.key c).reader p = _ at hp
      rw [hreader] at hp
      exact h.active p n bytes hp
    · change s.returned = (a.key c).returned.map _
      rw [hreturned]
      exact h.returned
  | read p n =>
    have hnone : s.reader p = none ↔ a.reader p = none := by rw [h.reader p, Option.map_eq_none_iff]
    simp only [step, Lines.step]
    by_cases hstart : a.reader p = none ∧ 0 < n
    · rw [if_pos ⟨hnone.2 hstart.1, hstart.2⟩, if_pos hstart]
      refine ⟨h.input, h.line, ?_, ?_, h.returned⟩
      · intro q
        change update s.reader p _ q = (update a.reader p _ q).map Reader.of
        by_cases hq : q = p
        · rw [hq, update_self, update_self]
          rfl
        · rw [update_of_ne hq, update_of_ne hq]
          exact h.reader q
      · intro q m bs hq
        change update a.reader p (some (n, [])) q = some (m, bs) at hq
        by_cases hqp : q = p
        · rw [hqp, update_self] at hq
          cases hq
          exact hstart.2
        · rw [update_of_ne hqp] at hq
          exact h.active q m bs hq
    · rw [if_neg (fun hc => hstart ⟨hnone.1 hc.1, hc.2⟩), if_neg hstart]
      exact h
  | go p =>
    simp only [step, Lines.step, h.reader p]
    cases hp : a.reader p with
    | none => exact h
    | some x =>
      obtain ⟨n, bytes⟩ := x
      obtain ⟨k, hin⟩ := h.input
      simp only [Option.map_some]
      by_cases havail : a.avail = []
      · rw [if_pos (hin.read_eq_iff.2 havail), Lines.go, havail]
        exact h
      · rw [if_neg (fun hr => havail (hin.read_eq_iff.1 hr))]
        exact go_simulates h hp havail

omit [DecidableEq ι] in
theorem init_matches : Matches (init : St ι) Lines.init where
  input := ⟨0, rfl, rfl, rfl, Nat.zero_le _, RingHolds.nil⟩
  line := List.not_mem_nil
  reader _ := rfl
  active _ _ _ hp := nomatch hp
  returned := rfl

/-! ## What is delivered -/

/-- how a call ends, and with what; `committed` is all that was ever committed -/
structure Read.Good (x : Read ι) (committed : List Byte) : Prop where
  size : x.bytes.length ≤ x.n
  noEof : ctrlD ∉ x.bytes
  oneLine : newline ∉ x.bytes.dropLast
  /-- at its size, after a newline, before a ^D that stays, or with a ^D and no bytes -/
  ends : x.bytes.length = x.n ∨ x.bytes.getLast? = some newline ∨ (x.bytes ≠ [] ∧ committed[x.pos]? = some ctrlD) ∨
    (x.bytes = [] ∧ ∃ k, x.pos = k + 1 ∧ committed[k]? = some ctrlD)

namespace Lines

/-- the bytes that the calls of `p` have got, in order -/
def bytesOf (a : Lines ι) (p : ι) : List Byte :=
  (a.returned.filter fun x => x.p = p).flatMap Read.bytes ++ ((a.reader p).map Prod.snd).getD []

/-- the characters that `p` has taken, other than ^D -/
def takenBy (a : Lines ι) (p : ι) : List Byte := (a.taken.filter fun x => x.1 = p ∧ x.2 ≠ ctrlD).map Prod.snd

structure Accounts (a : Lines ι) : Prop where
  /-- nothing is lost, repeated or out of order -/
  stream : a.taken.map Prod.snd ++ a.avail = a.committed
  bytes : ∀ p, a.bytesOf p = a.takenBy p
  reads : ∀ x ∈ a.returned, x.Good a.committed
  /-- the call that takes a ^D returns 0 -/
  eofs : ∀ i p, a.taken[i]? = some (p, ctrlD) → ∃ x ∈ a.returned, x.p = p ∧ x.bytes = [] ∧ x.pos = i + 1

/-- a call that has not returned -/
structure Inv (a : Lines ι) : Prop extends Accounts a where
  active : ∀ p n bytes, a.reader p = some (n, bytes) → bytes.length < n ∧ ctrlD ∉ bytes ∧ newline ∉ bytes

end Lines

omit [DecidableEq ι] in
theorem Read.Good.mono {x : Read ι} {l l' : List Byte} (h : x.Good l) (hl : l <+: l') : x.Good l' where
  size := h.size
  noEof := h.noEof
  oneLine := h.oneLine
  ends := by
    obtain ⟨rest, rfl⟩ := hl
    have hget : ∀ k : ℕ, l[k]? = some ctrlD → (l ++ rest)[k]? = some ctrlD := by
      intro k hk
      obtain ⟨hlt, _⟩ := List.getElem?_eq_some_iff.1 hk
      rw [List.getElem?_append_left hlt, hk]
    rcases h.ends with hsize | hnew | ⟨hne, hkept⟩ | ⟨hnil, k, hk, htaken⟩
    · exact .inl hsize
    · exact .inr (.inl hnew)
    · exact .inr (.inr (.inl ⟨hne, hget _ hkept⟩))
    · exact .inr (.inr (.inr ⟨hnil, k, hk, hget _ htaken⟩))

omit [DecidableEq ι] in
/-- a key commits characters, or none, and takes none back -/
theorem key_commits (a : Lines ι) (c : Byte) :
    ∃ new, (a.key c).committed = a.committed ++ new ∧ (a.key c).avail = a.avail ++ new := by
  unfold Lines.key
  simp only
  split_ifs
  all_goals first
    | exact ⟨[], (List.append_nil _).symm, (List.append_nil _).symm⟩
    | exact ⟨_, rfl, rfl⟩

omit [DecidableEq ι] in
/-- what was committed stays -/
theorem key_extends (a : Lines ι) (c : Byte) : a.committed <+: (a.key c).committed := by
  obtain ⟨new, hnew, _⟩ := key_commits a c
  rw [hnew]
  exact List.prefix_append _ _

namespace Lines

theorem Accounts.key (h : a.Accounts) (c : Byte) : (a.key c).Accounts := by
  obtain ⟨hreader, hreturned, htaken⟩ := key_reader a c
  obtain ⟨new, hcommitted, havail⟩ := key_commits a c
  constructor
  case stream => rw [htaken, havail, hcommitted, ← List.append_assoc, h.stream]
  case bytes =>
    intro p
    have hp := h.bytes p
    unfold bytesOf takenBy at hp ⊢
    rw [hreturned, hreader, htaken, hp]
  case reads =>
    intro x hx
    rw [hreturned] at hx
    exact (h.reads x hx).mono (key_extends a c)
  case eofs =>
    intro i p hi
    rw [htaken] at hi
    rw [hreturned]
    exact h.eofs i p hi

theorem Accounts.read (h : a.Accounts) {p : ι} (n : ℕ) (hp : a.reader p = none) :
    ({ a with reader := update a.reader p (some (n, [])) } : Lines ι).Accounts := by
  refine ⟨h.stream, ?_, h.reads, h.eofs⟩
  intro q
  have hq := h.bytes q
  unfold bytesOf takenBy at hq ⊢
  by_cases hqp : q = p
  · subst hqp
    rw [hp] at hq
    simpa using hq
  · simp only [update_of_ne hqp]
    exact hq

/-- a call returns, and nothing is taken -/
theorem Accounts.ret (h : a.Accounts) {p : ι} {n : ℕ} {bytes : List Byte} (hp : a.reader p = some (n, bytes))
    (hgood : Read.Good ⟨p, n, bytes, a.taken.length⟩ a.committed) : (a.ret p n bytes).Accounts := by
  refine ⟨h.stream, ?_, ?_, ?_⟩
  · intro q
    have hq := h.bytes q
    unfold bytesOf takenBy at hq ⊢
    simp only [Lines.ret, List.filter_append, List.flatMap_append]
    by_cases hqp : q = p
    · subst hqp
      rw [hp] at hq
      simpa using hq
    · have hpq : ¬ p = q := fun e => hqp e.symm
      simpa [update_of_ne hqp, hpq] using hq
  · intro x hx
    rcases List.mem_append.1 hx with hx | hx
    · exact h.reads x hx
    · rw [List.mem_singleton.1 hx]
      exact hgood
  · intro i q hi
    obtain ⟨x, hx, hrest⟩ := h.eofs i q hi
    exact ⟨x, List.mem_append_left _ hx, hrest⟩

/-- a byte is taken -/
theorem Accounts.take (h : a.Accounts) {p : ι} {n : ℕ} {bytes : List Byte} (hp : a.reader p = some (n, bytes))
    (hc : a.avail = c :: avail) (hD : c ≠ ctrlD) :
    ({ a.take p c avail with reader := update a.reader p (some (n, bytes ++ [c])) } : Lines ι).Accounts := by
  constructor
  case stream =>
    have hs := h.stream
    rw [hc] at hs
    simpa [Lines.take] using hs
  case bytes =>
    intro q
    have hq := h.bytes q
    unfold bytesOf takenBy at hq ⊢
    simp only [Lines.take, List.filter_append, List.map_append]
    by_cases hqp : q = p
    · subst hqp
      rw [hp] at hq
      rw [← hq]
      simp [hD]
    · have hpq : ¬ p = q := fun e => hqp e.symm
      rw [← hq]
      simp [update_of_ne hqp, hpq]
  case reads => exact h.reads
  case eofs =>
    intro i q hi
    change (a.taken ++ [(p, c)])[i]? = _ at hi
    rcases Nat.lt_or_ge i a.taken.length with hlt | hge
    · rw [List.getElem?_append_left hlt] at hi
      exact h.eofs i q hi
    · rw [List.getElem?_append_right hge] at hi
      have hmem := List.mem_of_getElem? hi
      rw [List.mem_singleton] at hmem
      cases hmem
      exact absurd rfl hD

/-- a ^D is taken by a call without bytes, which returns -/
theorem Accounts.eof (h : a.Accounts) {p : ι} {n : ℕ} (hp : a.reader p = some (n, [])) (hc : a.avail = ctrlD :: avail) :
    ((a.take p ctrlD avail).ret p n []).Accounts := by
  have hs := h.stream
  rw [hc] at hs
  constructor
  case stream => simpa [Lines.take, Lines.ret] using hs
  case bytes =>
    intro q
    have hq := h.bytes q
    unfold bytesOf takenBy at hq ⊢
    simp only [Lines.take, Lines.ret, List.filter_append, List.map_append, List.flatMap_append]
    by_cases hqp : q = p
    · subst hqp
      rw [hp] at hq
      rw [← hq]
      simp
    · have hpq : ¬ p = q := fun e => hqp e.symm
      rw [← hq]
      simp [update_of_ne hqp, hpq]
  case reads =>
    intro x hx
    rcases List.mem_append.1 hx with hx | hx
    · exact h.reads x hx
    · rw [List.mem_singleton.1 hx]
      refine ⟨Nat.zero_le _, List.not_mem_nil, List.not_mem_nil, .inr (.inr (.inr ⟨rfl, a.taken.length, ?_, ?_⟩))⟩
      · simp [Lines.take]
      · change a.committed[a.taken.length]? = some ctrlD
        rw [← hs, List.getElem?_append_right (by simp)]
        simp
  case eofs =>
    intro i q hi
    change (a.taken ++ [(p, ctrlD)])[i]? = _ at hi
    rcases Nat.lt_or_ge i a.taken.length with hlt | hge
    · rw [List.getElem?_append_left hlt] at hi
      obtain ⟨x, hx, hrest⟩ := h.eofs i q hi
      exact ⟨x, List.mem_append_left _ hx, hrest⟩
    · have hlt : i < (a.taken ++ [(p, ctrlD)]).length := (List.getElem?_eq_some_iff.1 hi).1
      rw [List.length_append, List.length_singleton] at hlt
      obtain rfl : i = a.taken.length := by omega
      rw [List.getElem?_append_right le_rfl, Nat.sub_self] at hi
      cases hi
      refine ⟨⟨p, n, [], a.taken.length + 1⟩, List.mem_append_right _ ?_, rfl, rfl, rfl⟩
      simp [Lines.take]

/-- **What `Lines` delivers.** -/
theorem Inv.step (h : a.Inv) (o : Op ι) : (a.step o).Inv := by
  cases o with
  | key c =>
    refine ⟨h.toAccounts.key c, ?_⟩
    intro p n bytes hp
    change (a.key c).reader p = _ at hp
    rw [(key_reader a c).1] at hp
    exact h.active p n bytes hp
  | read p n =>
    simp only [Lines.step]
    split
    · rename_i hstart
      refine ⟨h.toAccounts.read n hstart.1, ?_⟩
      intro q m bs hq
      simp only [update_apply] at hq
      split at hq
      · cases hq
        exact ⟨hstart.2, List.not_mem_nil, List.not_mem_nil⟩
      · exact h.active q m bs hq
    · exact h
  | go p =>
    simp only [Lines.step]
    cases hp : a.reader p with
    | none => exact h
    | some x =>
      obtain ⟨n, bytes⟩ := x
      obtain ⟨hlt, hnoD, hnoN⟩ := h.active p n bytes hp
      -- a call that returns leaves the others alone
      have hothers : ∀ q m bs, update a.reader p none q = some (m, bs) →
          bs.length < m ∧ ctrlD ∉ bs ∧ newline ∉ bs := by
        intro q m bs hq
        rw [update_apply] at hq
        split at hq
        · cases hq
        · exact h.active q m bs hq
      simp only [Lines.go]
      cases hc : a.avail with
      | nil => exact h
      | cons c avail =>
        simp only
        by_cases hD : c = ctrlD
        · subst hD
          rw [if_pos rfl]
          by_cases hnil : bytes = []
          · subst hnil
            rw [if_pos rfl]
            exact ⟨h.toAccounts.eof hp hc, hothers⟩
          · rw [if_neg hnil]
            refine ⟨h.toAccounts.ret hp ⟨hlt.le, hnoD, ?_, .inr (.inr (.inl ⟨hnil, ?_⟩))⟩, hothers⟩
            · exact fun hmem => hnoN (List.mem_of_mem_dropLast hmem)
            · have hs := h.stream
              rw [hc] at hs
              rw [← hs, List.getElem?_append_right (by simp)]
              simp
        · rw [if_neg hD]
          have htake := h.toAccounts.take hp hc hD
          have hnoD' : ctrlD ∉ bytes ++ [c] := by
            rw [List.mem_append, List.mem_singleton, not_or]
            exact ⟨hnoD, fun e => hD e.symm⟩
          by_cases hstop : c = newline ∨ bytes.length + 1 = n
          · rw [if_pos hstop]
            have hret := htake.ret (update_self ..) (n := n) ?_
            · simp only [Lines.ret, update_idem] at hret
              exact ⟨hret, hothers⟩
            · refine ⟨?_, hnoD', ?_, ?_⟩
              · rw [List.length_append, List.length_singleton]
                exact hlt
              · rw [List.dropLast_concat]
                exact hnoN
              · rcases hstop with hnew | hfull
                · exact .inr (.inl (by rw [List.getLast?_concat, hnew]))
                · exact .inl (by rw [List.length_append, List.length_singleton, hfull])
          · rw [if_neg hstop]
            refine ⟨htake, ?_⟩
            intro q m bs hq
            simp only [update_apply] at hq
            split at hq
            · cases hq
              refine ⟨?_, hnoD', ?_⟩
              · have hne : bytes.length + 1 ≠ n := fun e => hstop (.inr e)
                rw [List.length_append, List.length_singleton]
                omega
              · rw [List.mem_append, List.mem_singleton, not_or]
                exact ⟨hnoN, fun e => hstop (.inl e.symm)⟩
            · exact h.active q m bs hq

theorem init_inv : (Lines.init : Lines ι).Inv := by
  refine ⟨⟨rfl, fun _ => rfl, nofun, nofun⟩, nofun⟩

/-- no step takes back what was committed -/
theorem step_extends (a : Lines ι) (o : Op ι) : a.committed <+: (a.step o).committed := by
  cases o with
  | key c => exact key_extends a c
  | read p n =>
    simp only [Lines.step]
    split <;> exact List.prefix_rfl
  | go p =>
    simp only [Lines.step]
    split
    · exact List.prefix_rfl
    · simp only [Lines.go]
      split
      · exact List.prefix_rfl
      · split_ifs <;> exact List.prefix_rfl

theorem run_extends (a : Lines ι) (ops : List (Op ι)) : a.committed <+: (run Lines.step a ops).committed := by
  induction ops generalizing a with
  | nil => exact List.prefix_rfl
  | cons o ops ih => exact (step_extends a o).trans (ih (a.step o))

end Lines

theorem run_matches (ops : List (Op ι)) : Matches (run step (init : St ι) ops) (run Lines.step Lines.init ops) := by
  suffices hrun : ∀ (s : St ι) (a : Lines ι), Matches s a → Matches (run step s ops) (run Lines.step a ops) from
    hrun _ _ init_matches
  induction ops with
  | nil => exact fun _ _ h => h
  | cons o ops ih => exact fun s a h => ih _ _ (step_simulates h o)

/-- **The console delivers the edited lines.** In every run of keys and reads: the indices are in order and at most a
ring apart, the ring holds what was committed and not read, the calls return what `Lines` says, and that is what was
committed, in order, each read ending as it should. What was committed stays, whatever is typed or read then. -/
theorem console_delivers_lines (ops : List (Op ι)) :
    let s := run step (init : St ι) ops
    let a := run Lines.step (Lines.init : Lines ι) ops
    ((s.input.w - s.input.r).toNat ≤ (s.input.e - s.input.r).toNat ∧ (s.input.e - s.input.r).toNat ≤ INPUT_BUF) ∧
    (∀ k c, a.avail[k]? = some c → s.input.cell (s.input.r + BitVec.ofNat 32 k) = c) ∧
    s.returned = a.returned.map (fun x => (x.p, x.n, x.bytes)) ∧
    a.taken.map Prod.snd ++ a.avail = a.committed ∧ (∀ p, a.bytesOf p = a.takenBy p) ∧
    (∀ x ∈ a.returned, x.Good a.committed) ∧
    (∀ i p, a.taken[i]? = some (p, ctrlD) → ∃ x ∈ a.returned, x.p = p ∧ x.bytes = [] ∧ x.pos = i + 1) ∧
    ∀ more, a.committed <+: (run Lines.step a more).committed := by
  intro s a
  have hm : Matches s a := run_matches ops
  have hi : a.Inv := run_inv (I := Lines.Inv) (fun _ o h => Lines.Inv.step h o) Lines.init_inv ops
  obtain ⟨k, hin⟩ := hm.input
  obtain ⟨hw, he⟩ := hin.distances
  refine ⟨⟨by omega, ?_⟩, ?_, hm.returned, hi.stream, hi.bytes, hi.reads, hi.eofs, Lines.run_extends a⟩
  · rw [he]
    exact hin.room
  · intro j c hj
    rw [hin.r, ← BitVec.ofNat_add, Input.cell, index_ofNat]
    exact hin.ring.left j c hj

end Xv6Threads.Console
