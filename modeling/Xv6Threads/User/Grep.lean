/-
The loop of grep.c over its input.

The buffer has 1024 characters, all NUL at the start of the program; what a `read` returns is the next chunk of the input,
cut to the room that is left. Every access is checked: `strchr` may run off the end of the buffer, and a `read` may be
asked to store before its start (`Fault.outside`).

The defect. Nothing puts a NUL behind what was read, so `strchr` goes on into what earlier reads left there. A chunk that
ends before the last newline of the scan before finds that newline again; a chunk that fills the buffer has no NUL at all.
And a chunk without newline sets `m` to 0, which drops the start of its line.
- `grepLoop_lines`, `grepLoop_lost`, `grepLoop_full`: what one read does, by what it brings.
- `grepLoop_of_fits`: chunks that fit are read right, for every pattern.
- `fits_of_exact`: with a pattern that matches every line no others are.
- `grep_ends`: the loops end on every input.
- `grep_exact_iff`: what is written is right for every pattern iff the chunks fit.
-/
import Xv6Threads.Core.Outcome
import Xv6Threads.Core.Lines
import Xv6Threads.User.GrepMatch

namespace Xv6Threads.Grep

open Xv6Threads.Core

/-- `sizeof(buf)` -/
def SIZE : ℕ := 1024

inductive Fault where
  /-- an access that is not in `buf` -/
  | outside
  | spins
deriving DecidableEq

/-! ## The code -/

/-- `strchr` of ulib.c at the place `i` of the buffer, with the characters from there on -/
def strchr (c : Char) : List Char → ℕ → Except Fault (Option ℕ)
  | [], _ => .error .outside
  | b :: bs, i => if b = '\x00' then .ok none else if b = c then .ok (some i) else strchr c bs (i + 1)

/-- `memmove` of ulib.c inside the buffer -/
def memmove : ℕ → List Char → ℕ → ℕ → Except Fault (List Char)
  | 0, buf, _, _ => .ok buf
  | n + 1, buf, dst, src =>
    match buf[src]? with
    | none => .error .outside
    | some b => memmove n (buf.set dst b) (dst + 1) (src + 1)

/-- the C string at a place of the buffer -/
def cstring (s : List Char) : Text := s.takeWhile (· ≠ '\x00')

/-- the inner loop, at the place `p`: the buffer, `p` and what was written when there is no newline left -/
def scan (re : Text) : ℕ → List Char → ℕ → Text → Except Fault (List Char × ℕ × Text)
  | 0, _, _, _ => .error .spins
  | turns + 1, buf, p, out => do
    match ← strchr '\n' (buf.drop p) p with
    | none => return (buf, p, out)
    | some q =>
      let buf := buf.set q '\x00'
      if matchText re (cstring (buf.drop p)) then
        let buf := buf.set q '\n'
        scan re turns buf (q + 1) (out ++ (buf.drop p).take (q + 1 - p))
      else scan re turns buf (q + 1) out

/-- `read`: at most `room` characters of the next chunk; what is left of it comes with the next call -/
def read (room : ℕ) : List Text → Text × List Text
  | [] => ([], [])
  | c :: cs => (c.take room, if c.length ≤ room then cs else c.drop room :: cs)

/-- the characters that were read are stored from the place `m` on -/
def fill (buf : List Char) (m : ℕ) (data : Text) : List Char := buf.take m ++ (data ++ buf.drop (m + data.length))

/-- the outer loop -/
def grepLoop (re : Text) : ℕ → List Char → ℤ → List Text → Text → Except Fault (List Char × Text)
  | 0, _, _, _, _ => .error .spins
  | turns + 1, buf, m, fd, out => do
    let (data, fd) := read (SIZE - m).toNat fd
    if data = [] then return (buf, out)
    else if m < 0 then .error .outside
    else
      let (buf, p, out) ← scan re (SIZE + 1) (fill buf m.toNat data) 0 out
      let m : ℤ := if p = 0 then 0 else m + data.length
      if 0 < m then
        let buf ← memmove (m - p).toNat buf 0 p
        grepLoop re turns buf (m - p) fd out
      else grepLoop re turns buf m fd out

/-- the buffer at the start of the program -/
def boot : List Char := List.replicate SIZE '\x00'

/-- `grep`: the buffer it leaves and what it writes -/
def grep (re : Text) (buf : List Char) (fd : List Text) : Except Fault (List Char × Text) :=
  grepLoop re (fd.flatten.length + 1) buf 0 fd []

/-! ## The scan -/

/-- a text without newline and NUL -/
def Plain (l : Text) : Prop := ∀ c ∈ l, c ≠ '\n' ∧ c ≠ '\x00'

section Scan

variable {line rest : Text}

theorem strchr_line (h : Plain line) (i : ℕ) :
    strchr '\n' (line ++ '\n' :: rest) i = .ok (some (i + line.length)) := by
  induction line generalizing i with
  | nil => rfl
  | cons c line ih =>
    obtain ⟨hc, hline⟩ := List.forall_mem_cons.1 h
    rw [List.cons_append, strchr, if_neg hc.2, if_neg hc.1, ih hline, List.length_cons]
    congr 2
    omega

theorem strchr_nul (h : Plain line) (i : ℕ) : strchr '\n' (line ++ '\x00' :: rest) i = .ok none := by
  induction line generalizing i with
  | nil => rfl
  | cons c line ih =>
    obtain ⟨hc, hline⟩ := List.forall_mem_cons.1 h
    rw [List.cons_append, strchr, if_neg hc.2, if_neg hc.1, ih hline]

theorem strchr_off (h : Plain line) (i : ℕ) : strchr '\n' line i = .error .outside := by
  induction line generalizing i with
  | nil => rfl
  | cons c line ih =>
    obtain ⟨hc, hline⟩ := List.forall_mem_cons.1 h
    rw [strchr, if_neg hc.2, if_neg hc.1, ih hline]

theorem cstring_line (h : Plain line) : cstring (line ++ '\x00' :: rest) = line := by
  unfold cstring
  rw [List.takeWhile_append_of_pos fun c hc => decide_eq_true (h c hc).2, List.takeWhile_cons_of_neg (by simp),
    List.append_nil]

/-- a line as the scan leaves it: its newline is put back if it matched -/
def marked (re l : Text) : Text := l ++ [if matchText re l then '\n' else '\x00']

theorem length_marked (re : Text) (ls : List Text) : (ls.flatMap (marked re)).length = (unlines '\n' ls).length := by
  unfold unlines
  rw [List.length_flatMap, List.length_flatMap]
  congr 1
  apply List.map_congr_left
  intro l _
  unfold marked
  rw [List.length_append, List.length_append]
  rfl

/-- the lines of the input that match -/
def matching (re : Text) (ls : List Text) : Text := unlines '\n' (ls.filter (matchText re))

/-- one turn of the scan: a line is written or not, and stays or loses its newline -/
theorem scan_line (re : Text) (hline : Plain line) (turns : ℕ) (done out : Text) :
    scan re (turns + 1) (done ++ (line ++ '\n' :: rest)) done.length out =
      scan re turns (done ++ (marked re line ++ rest)) (done.length + (line.length + 1)) (out ++ matching re [line]) := by
  have hset : ∀ x y : Char, (done ++ (line ++ x :: rest)).set (done.length + line.length) y = done ++ (line ++ y :: rest) := by
    intro x y
    rw [← List.append_assoc, ← List.length_append, List.set_append_right _ _ (Nat.le_refl _), Nat.sub_self, List.set_cons_zero,
      List.append_assoc]
  have htake : (line ++ '\n' :: rest).take (done.length + line.length + 1 - done.length) = line ++ ['\n'] := by
    have hlen : done.length + line.length + 1 - done.length = (line ++ ['\n']).length := by
      rw [List.length_append, List.length_singleton]
      omega
    rw [hlen, show line ++ '\n' :: rest = (line ++ ['\n']) ++ rest by simp, List.take_left]
  rw [scan, List.drop_left, strchr_line hline]
  change (if matchText re (cstring (((done ++ (line ++ '\n' :: rest)).set _ '\x00').drop done.length)) = true then _ else _) = _
  rw [hset, hset, List.drop_left, List.drop_left, cstring_line hline, htake]
  unfold marked matching
  split
  case isTrue hm =>
    rw [List.filter_cons_of_pos hm, List.filter_nil, unlines_cons, unlines_nil, List.append_assoc]
    rfl
  case isFalse hm =>
    rw [List.filter_cons_of_neg hm, List.append_assoc, List.filter_nil, unlines_nil, List.append_nil]
    rfl

theorem scan_lines (re : Text) {ls : List Text} (hls : ∀ l ∈ ls, Plain l) (turns : ℕ) (done rest out : Text) :
    scan re (ls.length + turns) (done ++ (unlines '\n' ls ++ rest)) done.length out =
      scan re turns (done ++ (ls.flatMap (marked re) ++ rest)) (done.length + (unlines '\n' ls).length)
        (out ++ matching re ls) := by
  induction ls generalizing done out with
  | nil => simp [matching, unlines]
  | cons l ls ih =>
    obtain ⟨hl, hls⟩ := List.forall_mem_cons.1 hls
    have hturns : (l :: ls).length + turns = ls.length + turns + 1 := by
      rw [List.length_cons]
      omega
    have hdone : done.length + (l.length + 1) = (done ++ marked re l).length := by
      unfold marked
      simp
    have hout : matching re [l] ++ matching re ls = matching re (l :: ls) := by
      unfold matching
      rw [← unlines_append, ← List.filter_append, List.singleton_append]
    rw [hturns, unlines_cons, List.append_assoc, List.cons_append, scan_line re hl, hdone, ← List.append_assoc, ih hls,
      ← hdone, List.flatMap_cons, List.append_assoc, List.append_assoc, hout]
    simp only [List.length_append, List.length_cons, List.append_assoc]
    congr 1
    omega

/-- the scan of a buffer in which lines are followed by a NUL: the lines that match are written -/
theorem scan_stops (re : Text) {ls : List Text} (hls : ∀ l ∈ ls, Plain l) (hline : Plain line)
    (hsize : (unlines '\n' ls).length ≤ SIZE) (rest out : Text) :
    scan re (SIZE + 1) (unlines '\n' ls ++ (line ++ '\x00' :: rest)) 0 out =
      .ok (ls.flatMap (marked re) ++ (line ++ '\x00' :: rest), (unlines '\n' ls).length, out ++ matching re ls) := by
  obtain ⟨turns, hturns⟩ : ∃ turns, SIZE + 1 = ls.length + (turns + 1) := by
    have hlen := length_le_unlines '\n' ls
    exact ⟨SIZE - ls.length, by omega⟩
  have hlines := scan_lines re hls (turns + 1) [] (line ++ '\x00' :: rest) out
  simp only [List.nil_append, List.length_nil, Nat.zero_add] at hlines
  rw [hturns, hlines, scan, ← length_marked re, List.drop_left, strchr_nul hline]
  rfl

/-- the scan of a buffer without NUL leaves it -/
theorem scan_leaves (re : Text) {ls : List Text} (hls : ∀ l ∈ ls, Plain l) (hline : Plain line)
    (hsize : (unlines '\n' ls).length ≤ SIZE) (out : Text) :
    scan re (SIZE + 1) (unlines '\n' ls ++ line) 0 out = .error .outside := by
  obtain ⟨turns, hturns⟩ : ∃ turns, SIZE + 1 = ls.length + (turns + 1) := by
    have hlen := length_le_unlines '\n' ls
    exact ⟨SIZE - ls.length, by omega⟩
  have hlines := scan_lines re hls (turns + 1) [] line out
  simp only [List.nil_append, List.length_nil, Nat.zero_add] at hlines
  rw [hturns, hlines, scan, ← length_marked re, List.drop_left, strchr_off hline]
  rfl

end Scan

/-! ## One chunk -/

/-- `memmove` towards the start of the buffer: each character is read before it is overwritten -/
theorem memmove_down {n dst src : ℕ} {buf : List Char} (hle : dst ≤ src) (hsrc : src + n ≤ buf.length) :
    memmove n buf dst src = .ok (buf.take dst ++ ((buf.drop src).take n ++ buf.drop (dst + n))) := by
  induction n generalizing buf dst src with
  | zero => simp [memmove]
  | succ n ih =>
    have hlt : src < buf.length := by omega
    have hget : buf[src]? = some buf[src] := List.getElem?_eq_getElem hlt
    have htake : (buf.set dst buf[src]).take (dst + 1) = buf.take dst ++ [buf[src]] := by
      rw [List.take_add_one, List.take_set_of_le (Nat.le_refl dst), List.getElem?_set_self (by omega)]
      rfl
    rw [memmove, hget]
    change memmove n (buf.set dst buf[src]) (dst + 1) (src + 1) = _
    rw [ih (by omega) (by rw [List.length_set]; omega), htake, List.drop_set_of_lt (by omega), List.drop_set_of_lt (by omega),
      List.drop_eq_getElem_cons hlt, List.take_succ_cons, List.append_assoc, Nat.add_assoc, Nat.add_comm 1 n]
    rfl

/-- the part after the lines moves to the front -/
theorem memmove_front (head tail rest : Text) :
    memmove tail.length (head ++ (tail ++ rest)) 0 head.length = .ok (overwrite tail (head ++ (tail ++ rest))) := by
  rw [memmove_down (Nat.zero_le _) (by simp), List.drop_left, List.take_left, List.take_zero, List.nil_append,
    Nat.zero_add]
  rfl

/-- what is known of the buffer between two reads: it begins with the part of a line that was not written yet, has no
newline from the place `p` on, where the last scan ended, and its last character was never stored to -/
structure Ready (p : ℕ) (carry : Text) (buf : List Char) : Prop where
  size : buf.length = SIZE
  start : carry <+: buf
  short : carry.length < SIZE
  plain : Plain carry
  scanned : '\n' ∉ buf.drop p
  ended : '\x00' ∈ buf.drop (SIZE - 1)

theorem ready_boot : Ready 0 [] boot := by
  refine ⟨List.length_replicate, List.nil_prefix, by decide, fun c hc => absurd hc List.not_mem_nil, ?_, ?_⟩
  · intro h
    exact absurd (List.eq_of_mem_replicate h) (by decide)
  · unfold boot
    rw [List.drop_replicate]
    exact List.mem_replicate.2 ⟨by decide, rfl⟩

section Round

variable {p : ℕ} {carry : Text} {buf : List Char} {c : Text} {cs : List Text}

theorem Ready.fill (h : Ready p carry buf) (data : Text) : fill buf carry.length data = overwrite (carry ++ data) buf := by
  obtain ⟨rest, rfl⟩ := h.start
  unfold Grep.fill overwrite
  rw [List.take_left, List.length_append, List.append_assoc]

/-- the characters behind the chunk are a text without newline and then a NUL -/
theorem Ready.behind (h : Ready p carry buf) {e : ℕ} (hp : p ≤ e) (he : e < SIZE) :
    ∃ line rest, buf.drop e = line ++ '\x00' :: rest ∧ Plain line := by
  have hnul : '\x00' ∈ buf.drop e := List.drop_subset_drop_left buf (by omega) h.ended
  have hplain : '\n' ∉ buf.drop e := fun hmem => h.scanned (List.drop_subset_drop_left buf hp hmem)
  obtain ⟨line, rest, heq, hline⟩ := List.eq_append_cons_of_mem hnul
  refine ⟨line, rest, heq, fun b hb => ⟨?_, ?_⟩⟩
  · intro hb'
    exact hplain (by rw [heq, ← hb']; exact List.mem_append_left _ hb)
  · intro hb'
    exact hline (hb' ▸ hb)

theorem read_all (h : carry.length + c.length ≤ SIZE) :
    read ((SIZE : ℤ) - (carry.length : ℤ)).toNat (c :: cs) = (c, cs) := by
  have hroom : c.length ≤ ((SIZE : ℤ) - (carry.length : ℤ)).toNat := by omega
  rw [read, List.take_of_length_le hroom, if_pos hroom]

/-- one turn of the outer loop, from the result of the scan -/
theorem grepLoop_turn {re : Text} {m : ℕ} {fd fd' : List Text} {data out o : Text} {b : List Char} {q turns : ℕ}
    (hread : read ((SIZE : ℤ) - (m : ℤ)).toNat fd = (data, fd')) (hdata : data ≠ [])
    (hscan : scan re (SIZE + 1) (fill buf m data) 0 out = .ok (b, q, o)) :
    grepLoop re (turns + 1) buf m fd out = if q = 0 then grepLoop re turns b 0 fd' o
      else memmove ((m : ℤ) + data.length - q).toNat b 0 q >>= fun b =>
        grepLoop re turns b ((m : ℤ) + data.length - q) fd' o := by
  have hpos := List.length_pos_of_ne_nil hdata
  rw [grepLoop, hread]
  simp only [if_neg hdata]
  rw [if_neg (by omega), Int.toNat_natCast, hscan]
  change (if (0 : ℤ) < (if q = 0 then 0 else (m : ℤ) + data.length) then _ else _) = _
  by_cases hq : q = 0
  · rw [if_pos hq, if_pos hq, if_neg (Int.lt_irrefl 0)]
  · rw [if_neg hq, if_neg hq, if_pos (by omega)]

theorem Plain.append {l l' : Text} (h : Plain l) (h' : Plain l') : Plain (l ++ l') :=
  fun b hb => (List.mem_append.1 hb).elim (h b) (h' b)

/-- **One read with a newline.** The lines that are complete are handled, the rest is moved to the front. -/
theorem grepLoop_lines (re : Text) (h : Ready p carry buf) {ls : List Text} {tail : Text} (hc : c ≠ [])
    (hsplit : carry ++ c = unlines '\n' ls ++ tail) (hls : ∀ l ∈ ls, Plain l) (htail : Plain tail) (hne : ls ≠ [])
    (hp : p ≤ carry.length + c.length) (hroom : carry.length + c.length < SIZE) (cs : List Text) (turns : ℕ) (out : Text) :
    grepLoop re (turns + 1) buf carry.length (c :: cs) out =
      grepLoop re turns (overwrite tail (ls.flatMap (marked re) ++ (tail ++ buf.drop (carry.length + c.length)))) tail.length cs
        (out ++ matching re ls) := by
  obtain ⟨line, rest, hbehind, hline⟩ := h.behind hp hroom
  have hlen : carry.length + c.length = (unlines '\n' ls).length + tail.length := by
    rw [← List.length_append, hsplit, List.length_append]
  have hbuf : overwrite (carry ++ c) buf = unlines '\n' ls ++ ((tail ++ line) ++ '\x00' :: rest) := by
    unfold overwrite
    rw [List.length_append, hbehind, hsplit, List.append_assoc, List.append_assoc]
  have hpos : 0 < (unlines '\n' ls).length := by
    have := length_le_unlines '\n' ls
    have := List.length_pos_of_ne_nil hne
    omega
  have hscan := scan_stops re hls (htail.append hline) (by omega) rest out
  rw [← hbuf, List.append_assoc, ← hbehind, ← h.fill] at hscan
  rw [grepLoop_turn (read_all (Nat.le_of_lt hroom)) hc hscan, if_neg (Nat.ne_of_gt hpos)]
  have hm : (carry.length : ℤ) + (c.length : ℤ) - ((unlines '\n' ls).length : ℤ) = (tail.length : ℤ) := by omega
  rw [hm, Int.toNat_natCast, ← length_marked re, memmove_front]
  rfl

/-- the buffer is again ready after the rest was moved -/
theorem Ready.next (re : Text) (h : Ready p carry buf) {ls : List Text} {tail : Text}
    (hsplit : carry ++ c = unlines '\n' ls ++ tail) (htail : Plain tail) (hp : p ≤ carry.length + c.length)
    (hroom : carry.length + c.length < SIZE) :
    Ready (unlines '\n' ls).length tail
      (overwrite tail (ls.flatMap (marked re) ++ (tail ++ buf.drop (carry.length + c.length)))) := by
  have hlen : carry.length + c.length = (unlines '\n' ls).length + tail.length := by
    rw [← List.length_append, hsplit, List.length_append]
  have hsize : (ls.flatMap (marked re) ++ (tail ++ buf.drop (carry.length + c.length))).length = SIZE := by
    have := h.size
    rw [List.length_append, List.length_append, length_marked, List.length_drop]
    omega
  refine ⟨?_, List.prefix_append _ _, by omega, htail, ?_, ?_⟩
  · rw [length_overwrite (by omega), hsize]
  · intro hmem
    rcases mem_drop_overwrite hmem with hmem | hmem
    · exact (htail _ hmem).1 rfl
    · rw [← length_marked re, List.drop_left] at hmem
      rcases List.mem_append.1 hmem with hmem | hmem
      · exact (htail _ hmem).1 rfl
      · exact h.scanned (List.drop_subset_drop_left buf hp hmem)
  · have hended := h.ended
    have hstored : (ls.flatMap (marked re) ++ tail).length = carry.length + c.length := by
      rw [List.length_append, length_marked, hlen]
    have hbuf : ls.flatMap (marked re) ++ (tail ++ buf.drop (carry.length + c.length)) =
        overwrite (ls.flatMap (marked re) ++ tail) buf := by
      unfold overwrite
      rw [hstored, List.append_assoc]
    rw [drop_overwrite _ (by omega), hbuf, drop_overwrite _ (by omega)]
    exact hended

/-- **One read without newline.** What was read so far of the line is dropped. -/
theorem grepLoop_lost (re : Text) (h : Ready p carry buf) (hc : c ≠ []) (hplain : Plain c)
    (hp : p ≤ carry.length + c.length) (hroom : carry.length + c.length < SIZE) (cs : List Text) (turns : ℕ) (out : Text) :
    grepLoop re (turns + 1) buf carry.length (c :: cs) out = grepLoop re turns (overwrite (carry ++ c) buf) 0 cs out := by
  obtain ⟨line, rest, hbehind, hline⟩ := h.behind hp hroom
  have hbuf : overwrite (carry ++ c) buf = ((carry ++ c) ++ line) ++ '\x00' :: rest := by
    unfold overwrite
    rw [List.length_append, hbehind, List.append_assoc, List.append_assoc, List.append_assoc]
  have hscan := scan_stops re (List.forall_mem_nil _) ((h.plain.append hplain).append hline) (Nat.zero_le _) rest out
  rw [unlines_nil, List.nil_append, ← hbuf, ← h.fill] at hscan
  have hout : out ++ matching re [] = out := List.append_nil out
  rw [grepLoop_turn (read_all (Nat.le_of_lt hroom)) hc hscan, if_pos List.length_nil, List.flatMap_nil, List.nil_append,
    h.fill, hout]

theorem Ready.lost (h : Ready p carry buf) (hplain : Plain c) (hp : p ≤ carry.length + c.length)
    (hroom : carry.length + c.length < SIZE) : Ready 0 [] (overwrite (carry ++ c) buf) := by
  have hlen : (carry ++ c).length = carry.length + c.length := List.length_append
  have hsize := h.size
  refine ⟨?_, List.nil_prefix, by decide, fun b hb => absurd hb List.not_mem_nil, ?_, ?_⟩
  · rw [length_overwrite (by omega), hsize]
  · intro hmem
    rw [List.drop_zero] at hmem
    rcases List.mem_append.1 hmem with hmem | hmem
    · exact ((h.plain.append hplain) _ hmem).1 rfl
    · exact h.scanned (List.drop_subset_drop_left buf (by omega) hmem)
  · rw [drop_overwrite _ (by omega)]
    exact h.ended

/-- **A read that fills the buffer.** There is no NUL in it, and `strchr` leaves it. -/
theorem grepLoop_full (re : Text) (h : Ready p carry buf) (hnul : '\x00' ∉ c)
    (hroom : SIZE ≤ carry.length + c.length) (cs : List Text) (turns : ℕ) (out : Text) :
    grepLoop re (turns + 1) buf carry.length (c :: cs) out = .error .outside := by
  have hshort := h.short
  have hread : ((SIZE : ℤ) - (carry.length : ℤ)).toNat = SIZE - carry.length := by omega
  have hlen : (carry ++ c.take (SIZE - carry.length)).length = SIZE := by
    rw [List.length_append, List.length_take]
    omega
  have hdata : c.take (SIZE - carry.length) ≠ [] := by
    intro hnil
    rw [hnil, List.append_nil] at hlen
    omega
  obtain ⟨ls, line, hsplit, hls, hline⟩ := exists_unlines '\n' (carry ++ c.take (SIZE - carry.length))
  have hall : ∀ b ∈ unlines '\n' ls ++ line, b ≠ '\x00' := by
    intro b hb hb0
    rw [← hsplit] at hb
    rcases List.mem_append.1 hb with hb | hb
    · exact (h.plain b hb).2 hb0
    · exact hnul (hb0 ▸ List.mem_of_mem_take hb)
  have hbuf : fill buf carry.length (c.take (SIZE - carry.length)) = unlines '\n' ls ++ line := by
    have hsize := h.size
    rw [h.fill, ← hsplit]
    unfold overwrite
    rw [hlen, List.drop_of_length_le (by omega), List.append_nil]
  have hlines : ∀ l ∈ ls, Plain l := fun l hl b hb =>
    ⟨fun heq => hls l hl (heq ▸ hb),
      hall b (List.mem_append_left _ (List.mem_flatMap.2 ⟨l, hl, List.mem_append_left _ hb⟩))⟩
  have hlast : Plain line := fun b hb => ⟨fun heq => hline (heq ▸ hb), hall b (List.mem_append_right _ hb)⟩
  have hfull : (unlines '\n' ls).length ≤ SIZE := by
    rw [← hlen, hsplit, List.length_append]
    omega
  rw [grepLoop, read, hread]
  simp only [if_neg hdata]
  rw [if_neg (by omega), Int.toNat_natCast, hbuf, scan_leaves re hlines hlast hfull]
  rfl

end Round

/-! ## The chunks that grep can take -/

/-- the chunks, with `t` characters of a line carried over and the place `p` where the last scan ended: each has a newline,
leaves room for the NUL, and covers what the last scan saw -/
def Fits : ℕ → ℕ → List Text → Prop
  | _, _, [] => True
  | p, t, c :: cs =>
    '\n' ∈ c ∧ p ≤ t + c.length ∧ t + c.length < SIZE ∧
      Fits (t + c.length - (leftover '\n' c).length) (leftover '\n' c).length cs

section Whole

variable {p : ℕ} {carry : Text} {buf : List Char} {c : Text} {cs : List Text}

/-- the cut of a chunk: complete lines and what `Fits` goes on with -/
theorem leftover_of_split {ls : List Text} {tail : Text} (htail : '\n' ∉ tail) (hc : '\n' ∈ c)
    (hsplit : carry ++ c = unlines '\n' ls ++ tail) :
    leftover '\n' c = tail ∧ ls ≠ [] ∧ carry.length + c.length - tail.length = (unlines '\n' ls).length := by
  obtain ⟨ls', tail', hc', hls', htail'⟩ := exists_unlines '\n' c
  have hne' : ls' ≠ [] := by
    rintro rfl
    rw [hc', unlines_nil, List.nil_append] at hc
    exact htail' hc
  obtain ⟨s, hs⟩ := unlines_ends '\n' hne'
  have heq : tail' = tail := by
    rw [← leftover_unlines ls htail, ← hsplit, hc', hs, List.append_assoc, List.singleton_append,
      ← List.append_assoc, leftover_append_cons _ htail']
  refine ⟨?_, ?_, ?_⟩
  · rw [hc', leftover_unlines _ htail', heq]
  · rintro rfl
    rw [unlines_nil, List.nil_append] at hsplit
    exact htail (hsplit ▸ List.mem_append_right _ hc)
  · have hlen := congrArg List.length hsplit
    rw [List.length_append, List.length_append] at hlen
    omega

theorem plain_of_mem_unlines {ls : List Text} (hls : ∀ l ∈ ls, Plain l) : '\x00' ∉ unlines '\n' ls := by
  intro h
  obtain ⟨l, hl, hmem⟩ := List.mem_flatMap.1 h
  rcases List.mem_append.1 hmem with hmem | hmem
  · exact (hls l hl _ hmem).2 rfl
  · exact absurd (List.mem_singleton.1 hmem) (by decide)

theorem matching_append (re : Text) (ls ls' : List Text) : matching re (ls ++ ls') = matching re ls ++ matching re ls' := by
  unfold matching
  rw [List.filter_append, unlines_append]

/-- **Chunks that fit are read right**, whatever the pattern. -/
theorem grepLoop_of_fits (re : Text) {chunks : List Text} (h : Ready p carry buf) (hfits : Fits p carry.length chunks)
    (hne : ∀ c ∈ chunks, c ≠ []) {ls : List Text} (hls : ∀ l ∈ ls, Plain l)
    (hinput : carry ++ chunks.flatten = unlines '\n' ls) {turns : ℕ} (hturns : chunks.length < turns) (out : Text) :
    ∃ buf', grepLoop re turns buf carry.length chunks out = .ok (buf', out ++ matching re ls) := by
  induction chunks generalizing p carry buf ls turns out with
  | nil =>
    obtain ⟨turns, rfl⟩ := Nat.exists_eq_add_of_lt hturns
    have hnil : ls = [] := by
      by_contra hls'
      obtain ⟨s, hs⟩ := unlines_ends '\n' hls'
      rw [List.flatten_nil, List.append_nil, hs] at hinput
      have hmem : '\n' ∈ carry := by
        rw [hinput]
        exact List.mem_append_right _ List.mem_cons_self
      exact (h.plain _ hmem).1 rfl
    refine ⟨buf, ?_⟩
    subst hnil
    rw [List.length_nil, Nat.zero_add, grepLoop]
    simp [read, matching]
    rfl
  | cons c cs ih =>
    obtain ⟨turns, rfl⟩ : ∃ n, turns = n + 1 := ⟨turns - 1, by omega⟩
    obtain ⟨hnl, hp, hroom, hfits⟩ := hfits
    obtain ⟨hc, hcs⟩ := List.forall_mem_cons.1 hne
    rw [List.flatten_cons, ← List.append_assoc] at hinput
    obtain ⟨ls₁, ls₂, tail, rfl, hsplit, hrest, htail⟩ := split_unlines (fun l hl hmem => (hls l hl _ hmem).1 rfl) hinput
    obtain ⟨hls₁, hls₂⟩ := List.forall_mem_append.1 hls
    obtain ⟨hleft, hne₁, hlen⟩ := leftover_of_split htail hnl hsplit
    have hplain : Plain tail := by
      intro b hb
      refine ⟨fun heq => htail (heq ▸ hb), fun heq => plain_of_mem_unlines hls₂ ?_⟩
      rw [← hrest, ← heq]
      exact List.mem_append_left _ hb
    rw [hleft, hlen] at hfits
    rw [grepLoop_lines re h hc hsplit hls₁ hplain hne₁ hp hroom]
    obtain ⟨buf', hok⟩ := ih (h.next re hsplit hplain hp hroom) hfits hcs hls₂ hrest
      (show cs.length < turns by rw [List.length_cons] at hturns; omega) (out ++ matching re ls₁)
    refine ⟨buf', ?_⟩
    rw [hok, matching_append, List.append_assoc]

/-! ## The chunks that it cannot take -/

/-- the empty pattern matches every line -/
theorem matchText_nil (l : Text) : matchText [] l = true := by
  cases l with
  | nil => rfl
  | cons c l => rfl

theorem matching_nil (ls : List Text) : matching [] ls = unlines '\n' ls := by
  unfold matching
  rw [List.filter_eq_self.2 fun l _ => matchText_nil l]

theorem flatMap_marked_nil (ls : List Text) : ls.flatMap (marked []) = unlines '\n' ls := by
  have hmarked : marked [] = (· ++ ['\n']) := by
    funext l
    unfold marked
    rw [if_pos (matchText_nil l)]
  rw [hmarked]
  rfl

/-- what is behind the carried part when every line matches: the newlines are put back, the last of them before `p` -/
structure Stale (p : ℕ) (carry : Text) (buf : List Char) : Prop where
  noNul : '\x00' ∉ buf.take p
  newline : carry.length < p → ∃ s, buf.take p = s ++ ['\n']

theorem stale_boot : Stale 0 [] boot := ⟨by simp, fun h => absurd h (Nat.lt_irrefl 0)⟩

theorem stale_next {ls : List Text} {tail : Text} (hls : ∀ l ∈ ls, Plain l) (htail : Plain tail) (hne : ls ≠ []) (rest : Text) :
    Stale (unlines '\n' ls).length tail (overwrite tail (unlines '\n' ls ++ (tail ++ rest))) := by
  by_cases hlt : tail.length < (unlines '\n' ls).length
  · have htake := take_overwrite (tail ++ rest) (Nat.le_of_lt hlt)
    constructor
    · intro hmem
      rw [htake] at hmem
      rcases List.mem_append.1 hmem with hmem | hmem
      · exact (htail _ hmem).2 rfl
      · exact plain_of_mem_unlines hls (List.mem_of_mem_drop hmem)
    · intro _
      obtain ⟨s, hs⟩ := unlines_ends '\n' hne
      have hlen : tail.length ≤ s.length := by
        rw [hs, List.length_append, List.length_singleton] at hlt
        omega
      refine ⟨overwrite tail s, ?_⟩
      rw [htake, hs]
      unfold overwrite
      rw [List.drop_append_of_le_length hlen, List.append_assoc]
  · -- the carried part is longer and hides the last newline
    refine ⟨?_, fun h => absurd h hlt⟩
    intro hmem
    unfold overwrite at hmem
    rw [List.take_append_of_le_length (by omega)] at hmem
    exact (htail _ (List.mem_of_mem_take hmem)).2 rfl

/-- before its start the buffer takes nothing: the loop ends only if there is no more input -/
theorem grepLoop_negative {m : ℤ} (hm : m < 0) (hcs : ∀ c ∈ cs, c ≠ []) (turns : ℕ) {out : Text} {r : List Char × Text}
    (hok : grepLoop [] turns buf m cs out = .ok r) : cs = [] ∧ r.2 = out := by
  cases turns with
  | zero => cases hok
  | succ turns =>
    rw [grepLoop] at hok
    cases cs with
    | nil =>
      cases hok
      exact ⟨rfl, rfl⟩
    | cons c cs =>
      have hdata : c.take ((SIZE : ℤ) - m).toNat ≠ [] := by
        have hroom : 0 < ((SIZE : ℤ) - m).toNat := by
          unfold SIZE
          omega
        have hpos := List.length_pos_of_ne_nil (hcs c List.mem_cons_self)
        intro hnil
        have hlen := congrArg List.length hnil
        rw [List.length_take, List.length_nil] at hlen
        omega
      simp only [read, if_neg hdata, if_pos hm] at hok
      cases hok

/-- **A chunk that ends before the last newline of the scan before.** That newline is found again, and more is written than
was read. -/
theorem not_exact_of_stale (h : Ready p carry buf) (hs : Stale p carry buf) (hc : c ≠ []) (hcs : ∀ c ∈ cs, c ≠ [])
    (hnul : '\x00' ∉ c) (hp : carry.length + c.length < p) {turns : ℕ} {out : Text} {buf' : List Char} :
    grepLoop [] turns buf carry.length (c :: cs) out ≠ .ok (buf', out ++ (carry ++ (c :: cs).flatten)) := by
  intro hok
  obtain ⟨s, hs'⟩ := hs.newline (by omega)
  have hpsize : p < SIZE := by
    by_contra hlarge
    have hsize := h.size
    have hmem := List.mem_of_mem_drop h.ended
    rw [← List.take_of_length_le (show buf.length ≤ p by omega)] at hmem
    exact hs.noNul hmem
  have hslen : s.length + 1 = p := by
    have hlen := congrArg List.length hs'
    rw [List.length_take, h.size, List.length_append, List.length_singleton] at hlen
    omega
  obtain ⟨line, rest, hbehind, hline⟩ := h.behind (Nat.le_refl p) hpsize
  obtain ⟨ls, hlines, hls⟩ := exists_unlines_of_ends '\n' (carry ++ (c ++ s.drop (carry.length + c.length)))
  have hdrop : buf.drop (carry.length + c.length) = s.drop (carry.length + c.length) ++ ('\n' :: (line ++ '\x00' :: rest)) := by
    rw [← List.take_append_drop p buf, hs', hbehind, List.append_assoc, List.drop_append_of_le_length (by omega)]
    rfl
  have hbuf : fill buf carry.length c = unlines '\n' ls ++ (line ++ '\x00' :: rest) := by
    rw [h.fill, ← hlines]
    unfold overwrite
    rw [List.length_append, hdrop]
    simp only [List.append_assoc, List.cons_append, List.nil_append]
  have hlen : (unlines '\n' ls).length = p := by
    rw [← hlines]
    simp only [List.length_append, List.length_drop, List.length_singleton]
    omega
  have hplain : ∀ l ∈ ls, Plain l := by
    intro l hl b hb
    refine ⟨fun heq => hls l hl (heq ▸ hb), fun heq => ?_⟩
    have hmem : '\x00' ∈ unlines '\n' ls := List.mem_flatMap.2 ⟨l, hl, List.mem_append_left _ (heq ▸ hb)⟩
    rw [← hlines] at hmem
    simp only [List.mem_append, List.mem_singleton] at hmem
    rcases hmem with (hmem | hmem | hmem) | hmem
    · exact (h.plain _ hmem).2 rfl
    · exact hnul hmem
    · exact hs.noNul (by rw [hs']; exact List.mem_append_left _ (List.mem_of_mem_drop hmem))
    · exact absurd hmem (by decide)
  have hscan := scan_stops [] hplain hline (by omega) rest out
  rw [← hbuf, hlen, matching_nil] at hscan
  cases turns with
  | zero => cases hok
  | succ turns =>
    have hback : ((carry.length : ℤ) + c.length - p).toNat = 0 := by omega
    rw [grepLoop_turn (read_all (by omega)) hc hscan, if_neg (by omega), hback] at hok
    obtain ⟨rfl, hout⟩ := grepLoop_negative (by omega) hcs turns hok
    have hlen' := congrArg List.length hout
    simp only [List.length_append, List.flatten_cons, List.flatten_nil, List.length_nil] at hlen'
    omega

theorem scan_extends (re : Text) (turns : ℕ) (buf : List Char) (p : ℕ) (out : Text) :
    Ends (scan re turns buf p out) (fun r => out <+: r.2.2) fun _ => True := by
  induction turns generalizing buf p out with
  | zero => exact Ends.error trivial
  | succ turns ih =>
    rw [scan]
    refine Ends.bind Ends.any fun q _ => ?_
    cases q with
    | none => exact Ends.ok (List.prefix_refl out)
    | some q =>
      simp only
      split
      case isTrue => exact (ih _ _ _).mono (fun _ hr => (List.prefix_append _ _).trans hr) fun _ he => he
      case isFalse => exact ih _ _ _

/-- what was written stays written -/
theorem grepLoop_extends (re : Text) (turns : ℕ) (buf : List Char) (m : ℤ) (fd : List Text) (out : Text) :
    Ends (grepLoop re turns buf m fd out) (fun r => out <+: r.2) fun _ => True := by
  induction turns generalizing buf m fd out with
  | zero => exact Ends.error trivial
  | succ turns ih =>
    rw [grepLoop]
    generalize read ((SIZE : ℤ) - m).toNat fd = r
    obtain ⟨data, fd⟩ := r
    simp only
    split
    case isTrue => exact Ends.ok (List.prefix_refl out)
    case isFalse =>
      split
      case isTrue => exact Ends.error trivial
      case isFalse =>
        refine Ends.bind (scan_extends re _ _ _ out) fun r hr => ?_
        generalize (if r.2.1 = 0 then 0 else m + (data.length : ℤ)) = n
        split
        case isTrue => exact Ends.bind Ends.any fun _ _ => (ih _ _ _ _).mono (fun _ hr' => hr.trans hr') fun _ he => he
        case isFalse => exact (ih _ _ _ _).mono (fun _ hr' => hr.trans hr') fun _ he => he

/-- **A part of a line that was dropped is missing**: the first line that is written later is not the whole line. -/
theorem not_exact_of_lost {chunks : List Text} (h : Ready 0 [] buf) (hne : ∀ c ∈ chunks, c ≠ [])
    (hnul : '\x00' ∉ chunks.flatten) (hnl : '\n' ∈ chunks.flatten) {q : Text} (hq : q ≠ []) (hq' : '\n' ∉ q) {turns : ℕ}
    {out : Text} {buf' : List Char} : grepLoop [] turns buf 0 chunks out ≠ .ok (buf', out ++ (q ++ chunks.flatten)) := by
  intro hok
  induction chunks generalizing buf q turns with
  | nil => exact absurd hnl List.not_mem_nil
  | cons c cs ih =>
    obtain ⟨hc, hcs⟩ := List.forall_mem_cons.1 hne
    rw [List.flatten_cons] at hnul hnl
    have hcnul : '\x00' ∉ c := fun hmem => hnul (List.mem_append_left _ hmem)
    have hcsnul : '\x00' ∉ cs.flatten := fun hmem => hnul (List.mem_append_right _ hmem)
    cases turns with
    | zero => cases hok
    | succ turns =>
      by_cases hroom : c.length < SIZE
      case neg =>
        have herr := grepLoop_full [] h hcnul (by rw [List.length_nil]; omega) cs turns out
        exact absurd (hok.symm.trans herr) nofun
      by_cases hcnl : '\n' ∈ c
      · obtain ⟨ls, tail, hsplit, hls, htail⟩ := exists_unlines '\n' c
        have hplain : ∀ l ∈ ls, Plain l := by
          intro l hl b hb
          refine ⟨fun heq => hls l hl (heq ▸ hb), fun heq => hcnul ?_⟩
          rw [hsplit, ← heq]
          exact List.mem_append_left _ (List.mem_flatMap.2 ⟨l, hl, List.mem_append_left _ hb⟩)
        have hplain' : Plain tail := fun b hb =>
          ⟨fun heq => htail (heq ▸ hb), fun heq => hcnul (by rw [hsplit, ← heq]; exact List.mem_append_right _ hb)⟩
        have hne₁ : ls ≠ [] := by
          rintro rfl
          rw [hsplit] at hcnl
          exact htail hcnl
        have hstep := grepLoop_lines [] h hc hsplit hplain hplain' hne₁ (Nat.zero_le _)
          (by rw [List.length_nil]; omega) cs turns out
        have hprefix := (grepLoop_extends _ _ _ _ _ _).of_ok (hstep.symm.trans hok)
        rw [matching_nil, List.prefix_append_right_inj, List.flatten_cons, hsplit] at hprefix
        -- the first newline of what is written and of what was read are at different places
        obtain ⟨l, ls, rfl⟩ := List.exists_cons_of_ne_nil hne₁
        obtain ⟨z, hz⟩ := hprefix
        have hl := hls l List.mem_cons_self
        simp only [unlines_cons, List.append_assoc, List.cons_append] at hz
        rw [← List.append_assoc q] at hz
        have hfirst := first_line_inj hl (fun hmem => (List.mem_append.1 hmem).elim hq' hl) hz
        exact hq (List.self_eq_append_left.1 hfirst)
      · have hplain : Plain c := fun b hb => ⟨fun heq => hcnl (heq ▸ hb), fun heq => hcnul (heq ▸ hb)⟩
        have hstep := grepLoop_lost [] h hc hplain (Nat.zero_le _) (by rw [List.length_nil]; omega) cs turns out
        have hready := h.lost hplain (Nat.zero_le _) (by rw [List.length_nil]; omega)
        have hnext := hstep.symm.trans hok
        rw [List.flatten_cons, ← List.append_assoc q] at hnext
        refine ih hready hcs hcsnul ((List.mem_append.1 hnl).resolve_left hcnl) (q := q ++ c) ?_ ?_ hnext
        · exact List.append_ne_nil_of_left_ne_nil hq c
        · exact fun hmem => (List.mem_append.1 hmem).elim hq' hcnl

/-- **Only chunks that fit are read right**, when every line matches. -/
theorem fits_of_exact {chunks : List Text} (h : Ready p carry buf) (hs : Stale p carry buf) (hne : ∀ c ∈ chunks, c ≠ [])
    {ls : List Text} (hls : ∀ l ∈ ls, Plain l) (hinput : carry ++ chunks.flatten = unlines '\n' ls) {turns : ℕ} {out : Text}
    {buf' : List Char} (hok : grepLoop [] turns buf carry.length chunks out = .ok (buf', out ++ (carry ++ chunks.flatten))) :
    Fits p carry.length chunks := by
  induction chunks generalizing p carry buf ls turns out with
  | nil => exact trivial
  | cons c cs ih =>
    obtain ⟨hc, hcs⟩ := List.forall_mem_cons.1 hne
    have hnul : '\x00' ∉ c ++ cs.flatten := by
      intro hmem
      exact plain_of_mem_unlines hls (by rw [← hinput]; exact List.mem_append_right _ hmem)
    have hcnul : '\x00' ∉ c := fun hmem => hnul (List.mem_append_left _ hmem)
    by_cases hp : carry.length + c.length < p
    case pos => exact absurd hok (not_exact_of_stale h hs hc hcs hcnul hp)
    cases turns with
    | zero => cases hok
    | succ turns =>
      by_cases hroom : carry.length + c.length < SIZE
      case neg => exact absurd (hok.symm.trans (grepLoop_full [] h hcnul (by omega) cs turns out)) nofun
      rw [List.flatten_cons, ← List.append_assoc carry] at hinput hok
      obtain ⟨ls₁, ls₂, tail, rfl, hsplit, hrest, htail⟩ := split_unlines (fun l hl hmem => (hls l hl _ hmem).1 rfl) hinput
      obtain ⟨hls₁, hls₂⟩ := List.forall_mem_append.1 hls
      by_cases hnl : '\n' ∈ c
      case neg =>
        -- the input has a newline after this part of a line
        have hplain : Plain c := fun b hb => ⟨fun heq => hnl (heq ▸ hb), fun heq => hcnul (heq ▸ hb)⟩
        have hq : '\n' ∉ carry ++ c := fun hmem => ((h.plain.append hplain) _ hmem).1 rfl
        have hne' : carry ++ c ≠ [] := List.append_ne_nil_of_right_ne_nil _ hc
        have hlater : '\n' ∈ cs.flatten := by
          have hls' : ls₁ ++ ls₂ ≠ [] := by
            intro hnil
            rw [hnil, unlines_nil] at hinput
            exact hne' (List.append_eq_nil_iff.1 hinput).1
          obtain ⟨s, hs⟩ := unlines_ends '\n' hls'
          have hmem : '\n' ∈ (carry ++ c) ++ cs.flatten := by
            rw [hinput, hs]
            exact List.mem_append_right _ List.mem_cons_self
          exact (List.mem_append.1 hmem).resolve_left hq
        rw [grepLoop_lost [] h hc hplain (by omega) hroom] at hok
        exact absurd hok (not_exact_of_lost (h.lost hplain (by omega) hroom) hcs
          (fun hmem => hnul (List.mem_append_right _ hmem)) hlater hne' hq)
      obtain ⟨hleft, hne₁, hlen⟩ := leftover_of_split htail hnl hsplit
      have hplain : Plain tail := by
        intro b hb
        refine ⟨fun heq => htail (heq ▸ hb), fun heq => plain_of_mem_unlines hls₂ ?_⟩
        rw [← hrest, ← heq]
        exact List.mem_append_left _ hb
      have hready := h.next [] hsplit hplain (by omega) hroom
      rw [grepLoop_lines [] h hc hsplit hls₁ hplain hne₁ (by omega) hroom, matching_nil, hsplit, List.append_assoc,
        ← List.append_assoc out] at hok
      rw [flatMap_marked_nil] at hok hready
      refine ⟨hnl, by omega, hroom, ?_⟩
      rw [hleft, hlen]
      exact ih hready (stale_next hls₁ hplain hne₁ _) hcs hls₂ hrest hok

end Whole

/-! ## The loops end -/

theorem strchr_ends (s : List Char) (i : ℕ) :
    Ends (strchr '\n' s i) (fun r => ∀ q, r = some q → i ≤ q ∧ q < i + s.length) (· = .outside) := by
  induction s generalizing i with
  | nil => exact Ends.error rfl
  | cons b s ih =>
    rw [strchr]
    split
    case isTrue => exact Ends.ok fun q hq => by cases hq
    case isFalse =>
      split
      case isTrue =>
        refine Ends.ok fun q hq => ?_
        cases hq
        rw [List.length_cons]
        omega
      case isFalse =>
        refine (ih (i + 1)).mono (fun r hr q hq => ?_) fun _ he => he
        have := hr q hq
        rw [List.length_cons]
        omega

theorem scan_ends (re : Text) {turns : ℕ} {buf : List Char} {p : ℕ} (hp : p ≤ buf.length) (hturns : buf.length - p < turns)
    (out : Text) : Ends (scan re turns buf p out) (fun r => r.1.length = buf.length) (· = .outside) := by
  induction turns generalizing buf p out with
  | zero => exact absurd hturns (Nat.not_lt_zero _)
  | succ turns ih =>
    rw [scan]
    refine Ends.bind (strchr_ends _ _) fun r hr => ?_
    cases r with
    | none => exact Ends.ok rfl
    | some q =>
      obtain ⟨hle, hlt⟩ := hr q rfl
      rw [List.length_drop] at hlt
      simp only
      split
      case isTrue =>
        refine (ih (by simp only [List.length_set]; omega) (by simp only [List.length_set]; omega) _).mono ?_ fun _ he => he
        intro r hr
        rw [hr, List.length_set, List.length_set]
      case isFalse =>
        refine (ih (by simp only [List.length_set]; omega) (by simp only [List.length_set]; omega) _).mono ?_ fun _ he => he
        intro r hr
        rw [hr, List.length_set]

theorem memmove_ends (n : ℕ) (buf : List Char) (dst src : ℕ) :
    Ends (memmove n buf dst src) (fun b => b.length = buf.length) (· = .outside) := by
  induction n generalizing buf dst src with
  | zero => exact Ends.ok rfl
  | succ n ih =>
    rw [memmove]
    split
    case h_1 => exact Ends.error rfl
    case h_2 => exact (ih _ _ _).mono (fun b hb => by rw [hb, List.length_set]) fun _ he => he

theorem length_read (room : ℕ) (fd : List Text) :
    (read room fd).1.length ≤ room ∧ (read room fd).1.length + (read room fd).2.flatten.length = fd.flatten.length := by
  cases fd with
  | nil => exact ⟨Nat.zero_le _, rfl⟩
  | cons c cs =>
    rw [read, List.length_take, List.flatten_cons, List.length_append]
    refine ⟨by omega, ?_⟩
    simp only
    split
    case isTrue h => omega
    case isFalse h =>
      rw [List.flatten_cons, List.length_append, List.length_drop]
      omega

theorem grepLoop_ends (re : Text) {turns : ℕ} {buf : List Char} {m : ℤ} {fd : List Text} (hbuf : buf.length = SIZE)
    (hm : m ≤ SIZE) (hturns : fd.flatten.length < turns) (out : Text) :
    Ends (grepLoop re turns buf m fd out) (fun r => r.1.length = SIZE) (· = .outside) := by
  induction turns generalizing buf m fd out with
  | zero => exact absurd hturns (Nat.not_lt_zero _)
  | succ turns ih =>
    rw [grepLoop]
    obtain ⟨hdata, hrest⟩ := length_read ((SIZE : ℤ) - m).toNat fd
    generalize read ((SIZE : ℤ) - m).toNat fd = r at hdata hrest
    obtain ⟨data, fd'⟩ := r
    simp only at hdata hrest ⊢
    split
    case isTrue => exact Ends.ok hbuf
    case isFalse hne =>
      have hpos := List.length_pos_of_ne_nil hne
      split
      case isTrue => exact Ends.error rfl
      case isFalse hneg =>
        have hfill : (fill buf m.toNat data).length = SIZE := by
          unfold fill
          rw [List.length_append, List.length_append, List.length_take, List.length_drop]
          omega
        refine Ends.bind (scan_ends re (Nat.zero_le _) (by omega) out) fun r hr => ?_
        rw [hfill] at hr
        have hn : (if r.2.1 = 0 then 0 else m + (data.length : ℤ)) ≤ SIZE := by
          split
          · omega
          · omega
        generalize (if r.2.1 = 0 then 0 else m + (data.length : ℤ)) = n at hn
        split
        case isTrue => exact Ends.bind (memmove_ends _ _ _ _) fun b hb => ih (hb.trans hr) (by omega) (by omega) _
        case isFalse => exact ih hr hn (by omega) _

/-- **grep ends** on every input, unless an access is outside the buffer -/
theorem grep_ends (re : Text) {buf : List Char} (hbuf : buf.length = SIZE) (fd : List Text) :
    Ends (grep re buf fd) (fun r => r.1.length = SIZE) (· = .outside) :=
  grepLoop_ends re hbuf (by decide) (Nat.lt_succ_self _) []

/-- the theorem at a line in two chunks -/
theorem grep_ends_line : Ends (grep ['a'] boot [['b'], ['a', '\n']]) (fun r => r.1.length = SIZE) (· = .outside) :=
  grep_ends _ (List.length_replicate ..) _

/-! ## The result -/

/-- an input without NUL whose lines all end with a newline, and the chunks in which it is read -/
structure Input where
  lines : List Text
  chunks : List Text
  plain : ∀ l ∈ lines, Plain l
  nonempty : ∀ c ∈ chunks, c ≠ []
  split : chunks.flatten = unlines '\n' lines

/-- **What grep writes does not depend on the chunks if they fit, and only then.** For every pattern the lines that match
are written, each once and in order, and no access leaves the buffer, iff each chunk has a newline, covers what the scan of
the chunk before it saw, and does not fill the buffer. -/
theorem grep_exact_iff (i : Input) :
    (∀ re, ∃ buf, grep re boot i.chunks = .ok (buf, matching re i.lines)) ↔ Fits 0 0 i.chunks := by
  constructor
  · intro h
    obtain ⟨buf, hok⟩ := h []
    rw [matching_nil, ← i.split] at hok
    exact fits_of_exact ready_boot stale_boot i.nonempty i.plain i.split hok
  · intro h re
    have hlen : i.chunks.length ≤ i.chunks.flatten.length := by
      have hne := i.nonempty
      generalize i.chunks = chunks at hne
      induction chunks with
      | nil => exact Nat.le_refl 0
      | cons c cs ih =>
        obtain ⟨hc, hcs⟩ := List.forall_mem_cons.1 hne
        have := List.length_pos_of_ne_nil hc
        have := ih hcs
        rw [List.flatten_cons, List.length_cons, List.length_append]
        omega
    exact grepLoop_of_fits re ready_boot h i.nonempty i.plain i.split (Nat.lt_succ_of_le hlen) []

/-- three ways to fail. The line `ab` in two chunks loses its start. After the chunk `ab`, newline, the chunk `c`, newline
leaves the old newline behind it, and an empty line is written that the input does not have. A line of 1023 characters
and its newline in one chunk leave no place for a NUL. -/
theorem grep_inexact :
    ((∃ buf, grep ['b'] boot [['a'], ['b', '\n']] = .ok (buf, ['b', '\n'])) ∧
        matching ['b'] [['a', 'b']] = ['a', 'b', '\n']) ∧
      ((∃ buf, grep [] boot [['a', 'b', '\n'], ['c', '\n']] = .ok (buf, ['a', 'b', '\n', 'c', '\n', '\n'])) ∧
        matching [] [['a', 'b'], ['c']] = ['a', 'b', '\n', 'c', '\n']) ∧
      ∀ re, grep re boot [List.replicate 1023 'a' ++ ['\n']] = .error .outside := by
  refine ⟨⟨⟨_, rfl⟩, rfl⟩, ⟨⟨_, rfl⟩, rfl⟩, fun re => grepLoop_full re ready_boot ?_ ?_ [] _ []⟩
  · intro h
    rcases List.mem_append.1 h with h | h
    · exact absurd (List.eq_of_mem_replicate h) (by decide)
    · exact absurd (List.mem_singleton.1 h) (by decide)
  · rw [List.length_append, List.length_replicate]
    decide

end Xv6Threads.Grep
