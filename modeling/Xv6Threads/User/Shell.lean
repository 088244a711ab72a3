/-
The parser of the shell, sh.c, and its grammar.

A pointer into the line is modelled by the text from it on, up to `es`; a loop that moves a pointer is then a `dropWhile`.
A word of the tree is a pair of such pointers, as in the code (`argv[i]` and `eargv[i]`, or `file` and `efile`), and
`nulterminate` writes a NUL at each second one. The four functions call each other; they are given a number of calls that
they may nest (`fuel`), and a result `spins` if that is not enough. That allocations succeed is taken for granted.

The grammar is apart from the code: `Spelled Fits s ts` says that the line is spelled by the tokens, with any
whitespace between them and words that are maximal; `Derives` says which tree a token sequence has.
- `Spelled.exists_lexed`: every line is spelled by tokens, a `>>` never by two `>`.
- `gettoken_of_cons`, `peek_reads`: what the code sees of the line is the first of these tokens.
-/
import Xv6Threads.Core.Outcome

namespace Xv6Threads.Shell

open Xv6Threads.Core

/-- the line from a pointer on -/
abbrev Text := List Char

def MAXARGS : ℕ := 10
def O_RDONLY : ℕ := 0x000
def O_WRONLY : ℕ := 0x001
def O_CREATE : ℕ := 0x200

def whitespace : List Char := [' ', '\t', '\r', '\n', '\x0b']
def symbols : List Char := ['<', '|', '>', '&', ';', '(', ')']

/-- a character of a word -/
def ordinary (c : Char) : Bool := c ∉ whitespace && c ∉ symbols

/-- the commands, with what they have for a word -/
inductive Cmd (ω : Type) where
  | exec (argv : List ω)
  | redir (cmd : Cmd ω) (file : ω) (mode fd : ℕ)
  | pipe (left right : Cmd ω)
  | list (left right : Cmd ω)
  | back (cmd : Cmd ω)
deriving DecidableEq

/-- the first character of a word, and the one after its last -/
abbrev Word := Text × Text

/-- a panic, with what was printed before it; or more nested calls than allowed -/
inductive Fail where
  | panic (message : String)
  | leftovers (text : Text) (message : String)
  | spins
deriving DecidableEq

/-! ## The code -/

/-- `while(s < es && strchr(whitespace, *s)) s++` -/
def skip (s : Text) : Text := s.dropWhile (· ∈ whitespace)

/-- what `gettoken` returns and stores: its result, `*q`, `*eq` and `*ps` -/
structure Token where
  ret : Char
  q : Text
  eq : Text
  ps : Text

/-- the switch of `gettoken`: its result and `*eq` -/
def classify : Text → Char × Text
  | [] => ('\x00', [])
  | c :: s =>
    if c ∈ ['|', '(', ')', ';', '&', '<'] then (c, s)
    else if c = '>' then
      match s with
      | '>' :: s => ('+', s)
      | s => ('>', s)
    else ('a', (c :: s).dropWhile ordinary)

def gettoken (ps : Text) : Token :=
  let q := skip ps
  let (ret, eq) := classify q
  ⟨ret, q, eq, skip eq⟩

/-- `peek`: whether the next character is one of `toks`, and `*ps` -/
def peek (ps : Text) (toks : List Char) : Bool × Text :=
  let s := skip ps
  (s.head?.any (· ∈ toks), s)

/-- `cmd->argv[argc] = q`, where `cmd` is the command at the bottom of the redirections -/
def Cmd.addArg {ω : Type} (w : ω) : Cmd ω → Cmd ω
  | .exec argv => .exec (argv ++ [w])
  | .redir cmd file mode fd => .redir (cmd.addArg w) file mode fd
  | cmd => cmd

/-- the mode and the descriptor of a redirection -/
def target (tok : Char) : ℕ × ℕ := if tok = '<' then (O_RDONLY, 0) else (O_WRONLY ||| O_CREATE, 1)

def parseredirs : ℕ → Cmd Word → Text → Except Fail (Cmd Word × Text)
  | 0, _, _ => .error .spins
  | turns + 1, cmd, ps =>
    let (found, ps) := peek ps ['<', '>']
    if found then
      let t := gettoken ps
      let f := gettoken t.ps
      if f.ret ≠ 'a' then .error (.panic "missing file for redirection")
      else parseredirs turns (.redir cmd (f.q, f.eq) (target t.ret).1 (target t.ret).2) f.ps
    else .ok (cmd, ps)

/-- the loop of `parseexec` -/
def parseargs : ℕ → ℕ → Cmd Word → Text → Except Fail (Cmd Word × Text)
  | 0, _, _, _ => .error .spins
  | turns + 1, argc, ret, ps =>
    let (found, ps) := peek ps ['|', ')', '&', ';']
    if found then .ok (ret, ps)
    else
      let t := gettoken ps
      if t.ret = '\x00' then .ok (ret, t.ps)
      else if t.ret ≠ 'a' then .error (.panic "syntax")
      else if MAXARGS ≤ argc + 1 then .error (.panic "too many args")
      else do
        let (ret, ps) ← parseredirs (t.ps.length + 1) (ret.addArg (t.q, t.eq)) t.ps
        parseargs turns (argc + 1) ret ps

/-- the loop of `parseline` -/
def parsebacks : ℕ → Cmd Word → Text → Except Fail (Cmd Word × Text)
  | 0, _, _ => .error .spins
  | turns + 1, cmd, ps =>
    let (found, ps) := peek ps ['&']
    if found then parsebacks turns (.back cmd) (gettoken ps).ps else .ok (cmd, ps)

mutual

def parseline : ℕ → Text → Except Fail (Cmd Word × Text)
  | 0, _ => .error .spins
  | fuel + 1, ps => do
    let (cmd, ps) ← parsepipe fuel ps
    let (cmd, ps) ← parsebacks (ps.length + 1) cmd ps
    let (found, ps) := peek ps [';']
    if found then
      let (right, ps) ← parseline fuel (gettoken ps).ps
      return (.list cmd right, ps)
    else return (cmd, ps)

def parsepipe : ℕ → Text → Except Fail (Cmd Word × Text)
  | 0, _ => .error .spins
  | fuel + 1, ps => do
    let (cmd, ps) ← parseexec fuel ps
    let (found, ps) := peek ps ['|']
    if found then
      let (right, ps) ← parsepipe fuel (gettoken ps).ps
      return (.pipe cmd right, ps)
    else return (cmd, ps)

def parseexec : ℕ → Text → Except Fail (Cmd Word × Text)
  | 0, _ => .error .spins
  | fuel + 1, ps => do
    let (found, ps) := peek ps ['(']
    if found then parseblock fuel ps
    else
      let (ret, ps) ← parseredirs (ps.length + 1) (.exec []) ps
      parseargs (ps.length + 1) 0 ret ps

def parseblock : ℕ → Text → Except Fail (Cmd Word × Text)
  | 0, _ => .error .spins
  | fuel + 1, ps => do
    let (found, ps) := peek ps ['(']
    if ¬ found then .error (.panic "parseblock")
    else
      let (cmd, ps) ← parseline fuel (gettoken ps).ps
      let (found, ps) := peek ps [')']
      if ¬ found then .error (.panic "syntax - missing )")
      else
        let ps := (gettoken ps).ps
        parseredirs (ps.length + 1) cmd ps

end

/-- the line in memory, with its NUL; a pointer is at the end less the text from it on -/
abbrev Buffer := List Char

def Buffer.at (buf : Buffer) (s : Text) : ℕ := buf.length - 1 - s.length

/-- `*eq = 0` -/
def zero (buf : Buffer) (w : Word) : Buffer := buf.set (Buffer.at buf w.2) '\x00'

def nulterminate : Cmd Word → Buffer → Buffer
  | .exec argv, buf => argv.foldl zero buf
  | .redir cmd file _ _, buf => zero (nulterminate cmd buf) file
  | .pipe left right, buf => nulterminate right (nulterminate left buf)
  | .list left right, buf => nulterminate right (nulterminate left buf)
  | .back cmd, buf => nulterminate cmd buf

/-- the tree, and the line as `nulterminate` leaves it -/
def parsecmd (s : Text) : Except Fail (Cmd Word × Buffer) := do
  let (cmd, rest) ← parseline (4 * s.length + 4) s
  let (_, rest) := peek rest []
  if rest ≠ [] then .error (.leftovers rest "syntax")
  else return (cmd, nulterminate cmd (s ++ ['\x00']))

/-- the C string at a pointer -/
def Buffer.string (buf : Buffer) (s : Text) : Text := (buf.drop (Buffer.at buf s)).takeWhile (· ≠ '\x00')

def Cmd.map {ω ω' : Type} (f : ω → ω') : Cmd ω → Cmd ω'
  | .exec argv => .exec (argv.map f)
  | .redir cmd file mode fd => .redir (cmd.map f) (f file) mode fd
  | .pipe left right => .pipe (left.map f) (right.map f)
  | .list left right => .list (left.map f) (right.map f)
  | .back cmd => .back (cmd.map f)

/-- the tree with its strings, as it is read from memory -/
def Cmd.strings (cmd : Cmd Word) (buf : Buffer) : Cmd Text := cmd.map fun w => buf.string w.1

/-! ## The grammar -/

inductive Tok where
  | sym (c : Char)
  /-- `>>` -/
  | append
  | word (w : Text)
deriving DecidableEq

/-- a token, its spelling, and the text after it -/
def Fits : Tok → Text → Text → Prop
  | .sym c, x, _ => c ∈ symbols ∧ x = [c]
  | .append, x, _ => x = ['>', '>']
  | .word w, x, rest => x = w ∧ w ≠ [] ∧ (∀ c ∈ w, ordinary c = true) ∧ ∀ c ∈ rest.head?, ordinary c = false

/-- the text is spelled by the tokens -/
inductive Spelled (P : Tok → Text → Text → Prop) : Text → List Tok → Prop where
  | nil {w : Text} : (∀ c ∈ w, c ∈ whitespace) → Spelled P w []
  | cons {w x rest : Text} {t : Tok} {ts : List Tok} :
    (∀ c ∈ w, c ∈ whitespace) → P t x rest → Spelled P rest ts → Spelled P (w ++ (x ++ rest)) (t :: ts)

/-- a redirection, with its file: `<`, `>` or `>>` -/
structure Redir where
  tok : Tok
  file : Text

/-- the character that `gettoken` returns -/
def Tok.code : Tok → Char
  | .sym c => c
  | .append => '+'
  | .word _ => 'a'

/-- a command under a redirection -/
def Redir.wrap (cmd : Cmd Text) (r : Redir) : Cmd Text := .redir cmd r.file (target r.tok.code).1 (target r.tok.code).2

def isRedir (t : Tok) : Prop := t = .sym '<' ∨ t = .sym '>' ∨ t = .append

/-- `redir*` -/
inductive Redirs : List Tok → List Redir → Prop where
  | nil : Redirs [] []
  | cons {t : Tok} {w : Text} {ts : List Tok} {rs : List Redir} :
    isRedir t → Redirs ts rs → Redirs (t :: .word w :: ts) (⟨t, w⟩ :: rs)

/-- `(word redir*)*`: the words and the redirections -/
inductive Args : List Tok → List Text → List Redir → Prop where
  | nil : Args [] [] []
  | cons {w : Text} {ts us : List Tok} {rs rs' : List Redir} {ws : List Text} :
    Redirs ts rs → Args us ws rs' → Args (.word w :: (ts ++ us)) (w :: ws) (rs ++ rs')

inductive Kind where
  | line
  | pipe
  | exec

/-- **The grammar**, with the tree of each derivation: redirections are nested in the order in which they stand. -/
inductive Derives : Kind → List Tok → Cmd Text → Prop where
  | exec {ts us : List Tok} {rs rs' : List Redir} {ws : List Text} :
    Redirs ts rs → Args us ws rs' → ws.length ≤ MAXARGS - 1 →
    Derives .exec (ts ++ us) ((rs ++ rs').foldl Redir.wrap (.exec ws))
  | block {ts us : List Tok} {rs : List Redir} {t : Cmd Text} :
    Derives .line ts t → Redirs us rs → Derives .exec (.sym '(' :: (ts ++ .sym ')' :: us)) (rs.foldl Redir.wrap t)
  | single {ts : List Tok} {t : Cmd Text} : Derives .exec ts t → Derives .pipe ts t
  | pipe {ts us : List Tok} {t u : Cmd Text} :
    Derives .exec ts t → Derives .pipe us u → Derives .pipe (ts ++ .sym '|' :: us) (.pipe t u)
  | line {ts : List Tok} {t : Cmd Text} (n : ℕ) :
    Derives .pipe ts t → Derives .line (ts ++ List.replicate n (.sym '&')) (Cmd.back^[n] t)
  | list {ts us : List Tok} {t u : Cmd Text} (n : ℕ) :
    Derives .pipe ts t → Derives .line us u →
    Derives .line (ts ++ (List.replicate n (.sym '&') ++ .sym ';' :: us)) (.list (Cmd.back^[n] t) u)

/-- the line is derived with the tree -/
def Derivable (s : Text) (t : Cmd Text) : Prop := ∃ ts, Spelled Fits s ts ∧ Derives .line ts t

/-! ## What the code sees of the line -/

theorem not_space_of_symbol : ∀ c ∈ symbols, c ∉ whitespace := by simp [symbols, whitespace]

theorem not_space_of_ordinary {c : Char} (h : ordinary c = true) : c ∉ whitespace := by
  simp only [ordinary, Bool.and_eq_true, decide_eq_true_eq] at h
  exact h.1

theorem not_symbol_of_ordinary {c : Char} (h : ordinary c = true) : c ∉ symbols := by
  simp only [ordinary, Bool.and_eq_true, decide_eq_true_eq] at h
  exact h.2

theorem skip_spaces {w : Text} (h : ∀ c ∈ w, c ∈ whitespace) (s : Text) : skip (w ++ s) = skip s := by
  unfold skip
  rw [List.dropWhile_append_of_pos]
  intro c hc
  exact decide_eq_true (h c hc)

theorem skip_cons {c : Char} (h : c ∉ whitespace) (s : Text) : skip (c :: s) = c :: s := by
  unfold skip
  rw [List.dropWhile_cons_of_neg]
  rw [decide_eq_true_eq]
  exact h

/-- the tokens are read from left to right: a `>` is not the first half of a `>>` -/
def Lexes (t : Tok) (x rest : Text) : Prop := Fits t x rest ∧ (t = .sym '>' → rest.head? ≠ some '>')

/-- a token starts with a character that is not skipped -/
theorem Fits.first {t : Tok} {x rest : Text} (h : Fits t x rest) : ∃ c y, x = c :: y ∧ c ∉ whitespace := by
  cases t with
  | sym c => exact ⟨c, [], h.2, not_space_of_symbol c h.1⟩
  | append => exact ⟨'>', ['>'], h, by decide⟩
  | word w =>
    obtain ⟨rfl, hne, hw, -⟩ := h
    obtain ⟨c, y, rfl⟩ := List.exists_cons_of_ne_nil hne
    exact ⟨c, y, rfl, not_space_of_ordinary (hw c List.mem_cons_self)⟩

theorem classify_cons (c : Char) (s : Text) :
    classify (c :: s) = if c ∈ ['|', '(', ')', ';', '&', '<'] then (c, s)
      else if c = '>' then
        match s with
        | '>' :: s => ('+', s)
        | s => ('>', s)
      else ('a', (c :: s).dropWhile ordinary) := rfl

theorem Lexes.classify {t : Tok} {x rest : Text} (h : Lexes t x rest) : classify (x ++ rest) = (t.code, rest) := by
  obtain ⟨hfits, hmunch⟩ := h
  cases t with
  | sym c =>
    obtain ⟨hc, rfl⟩ := hfits
    rw [List.singleton_append, classify_cons]
    by_cases hgt : c = '>'
    · subst hgt
      rw [if_neg (by decide), if_pos rfl]
      cases rest with
      | nil => rfl
      | cons d rest =>
        have hd : d ≠ '>' := fun e => hmunch rfl (e ▸ rfl)
        split
        case h_1 he => exact absurd (List.cons.inj he).1 hd
        case h_2 => rfl
    · have hmem : c ∈ ['|', '(', ')', ';', '&', '<'] := by
        simp only [symbols, List.mem_cons, List.not_mem_nil, or_false] at hc ⊢
        tauto
      rw [if_pos hmem]
      rfl
  | append =>
    obtain rfl : x = ['>', '>'] := hfits
    rfl
  | word w =>
    obtain ⟨rfl, hne, hw, hrest⟩ := hfits
    have hdrop : (x ++ rest).dropWhile ordinary = rest := by
      rw [List.dropWhile_append_of_pos hw]
      cases rest with
      | nil => rfl
      | cons d rest =>
        rw [List.dropWhile_cons_of_neg]
        rw [hrest d rfl]
        exact Bool.false_ne_true
    obtain ⟨c, y, rfl⟩ := List.exists_cons_of_ne_nil hne
    have hc := not_symbol_of_ordinary (hw c List.mem_cons_self)
    simp only [symbols, List.mem_cons, List.not_mem_nil, or_false, not_or] at hc
    rw [List.cons_append, classify_cons, if_neg (by simp only [List.mem_cons, List.not_mem_nil, or_false]; tauto), if_neg hc.2.2.1]
    change ('a', ((c :: y) ++ rest).dropWhile ordinary) = _
    rw [hdrop]
    rfl

theorem Spelled.mono {P Q : Tok → Text → Text → Prop} (h : ∀ t x rest, P t x rest → Q t x rest) {s : Text} {ts : List Tok}
    (hs : Spelled P s ts) : Spelled Q s ts := by
  induction hs with
  | nil hw => exact .nil hw
  | cons hw ht _ ih => exact .cons hw (h _ _ _ ht) ih

/-- the text after a token is shorter -/
theorem Spelled.length_le {s : Text} {ts : List Tok} (hs : Spelled Lexes s ts) : ts.length ≤ s.length := by
  induction hs with
  | nil => exact Nat.zero_le _
  | cons _ ht _ ih =>
    obtain ⟨c, y, rfl, -⟩ := ht.1.first
    simp only [List.length_cons, List.length_append]
    omega

/-- **Every line is spelled by tokens.** -/
theorem Spelled.exists_lexed (s : Text) : ∃ ts, Spelled Lexes s ts := by
  -- induction on the length; the first token ends where `classify` says
  induction hn : s.length using Nat.strong_induction_on generalizing s with
  | _ n ih =>
    have hsplit : s = s.takeWhile (· ∈ whitespace) ++ skip s := (List.takeWhile_append_dropWhile ..).symm
    have hspaces : ∀ c ∈ s.takeWhile (· ∈ whitespace), c ∈ whitespace := fun c hc =>
      of_decide_eq_true (p := c ∈ whitespace) (List.mem_takeWhile_imp (p := (· ∈ whitespace)) hc)
    cases hq : skip s with
    | nil =>
      refine ⟨[], .nil ?_⟩
      rw [hq, List.append_nil] at hsplit
      rw [hsplit]
      exact hspaces
    | cons c r =>
      have hc : c ∉ whitespace := by
        have := List.head?_dropWhile_not (fun c => decide (c ∈ whitespace)) s
        have hq' : s.dropWhile (fun c => decide (c ∈ whitespace)) = c :: r := hq
        rw [hq'] at this
        simpa using this
      suffices htok : ∃ t x rest, c :: r = x ++ rest ∧ Lexes t x rest by
        obtain ⟨t, x, rest, hx, ht⟩ := htok
        obtain ⟨d, y, rfl, -⟩ := ht.1.first
        have hlt : rest.length < n := by
          rw [← hn, hsplit, hq, hx]
          simp only [List.length_append, List.length_cons]
          omega
        obtain ⟨ts, hts⟩ := ih rest.length hlt rest rfl
        refine ⟨t :: ts, ?_⟩
        rw [hsplit, hq, hx]
        exact .cons hspaces ht hts
      by_cases hsym : c ∈ symbols
      · by_cases hgt : c = '>' ∧ r.head? = some '>'
        · obtain ⟨rfl, hr⟩ := hgt
          obtain ⟨r', rfl⟩ : ∃ r', r = '>' :: r' := ⟨_, (List.cons_head?_tail hr).symm⟩
          exact ⟨.append, ['>', '>'], r', rfl, rfl, nofun⟩
        · refine ⟨.sym c, [c], r, rfl, ⟨hsym, rfl⟩, ?_⟩
          intro e he
          exact hgt ⟨Tok.sym.inj e, he⟩
      · have hord : ordinary c = true := by
          simp only [ordinary, Bool.and_eq_true, decide_eq_true_eq]
          exact ⟨hc, hsym⟩
        refine ⟨.word ((c :: r).takeWhile ordinary), (c :: r).takeWhile ordinary, (c :: r).dropWhile ordinary,
          (List.takeWhile_append_dropWhile ..).symm, ⟨rfl, ?_, fun d hd => List.mem_takeWhile_imp hd, ?_⟩, nofun⟩
        · rw [List.takeWhile_cons_of_pos hord]
          exact List.cons_ne_nil _ _
        · intro d hd
          have := List.head?_dropWhile_not ordinary (c :: r)
          rw [hd] at this
          simpa using this

/-- a pointer into the line `s₀`, and the tokens from it on -/
structure Reads (s₀ s : Text) (ts : List Tok) : Prop where
  suffix : s <:+ s₀
  lexed : Spelled Lexes s ts

/-- a word of the tree is one of the line: the character after it ends it -/
structure Valid (s₀ : Text) (w : Word) (x : Text) : Prop where
  suffix : w.1 <:+ s₀
  split : w.1 = x ++ w.2
  ordinary : ∀ c ∈ x, ordinary c = true
  ends : ∀ c ∈ w.2.head?, Shell.ordinary c = false

namespace Reads

variable {s₀ s : Text} {t : Tok} {ts : List Tok}

theorem skip (h : Reads s₀ s ts) : Reads s₀ (skip s) ts := by
  refine ⟨(List.dropWhile_suffix _).trans h.suffix, ?_⟩
  cases h.lexed with
  | nil hw =>
    have hnil := skip_spaces hw []
    rw [List.append_nil] at hnil
    rw [hnil]
    exact .nil nofun
  | cons hw ht hrest =>
    obtain ⟨c, y, rfl, hc⟩ := ht.1.first
    rw [skip_spaces hw, List.cons_append, skip_cons hc]
    exact .cons (w := []) nofun ht hrest

/-- at the end there is nothing but whitespace -/
theorem skip_nil (h : Reads s₀ s []) : Shell.skip s = [] := by
  cases h.lexed with
  | nil hw =>
    have hnil := skip_spaces hw []
    rw [List.append_nil] at hnil
    exact hnil

/-- the first token, its spelling, and the text after it -/
theorem skip_of_cons (h : Reads s₀ s (t :: ts)) :
    ∃ x rest, Shell.skip s = x ++ rest ∧ Lexes t x rest ∧ Reads s₀ rest ts := by
  have hsuffix := h.suffix
  cases h.lexed with
  | @cons w x rest _ _ hw ht hrest =>
    obtain ⟨c, y, rfl, hc⟩ := ht.1.first
    refine ⟨c :: y, rest, ?_, ht, ?_, hrest⟩
    · rw [skip_spaces hw, List.cons_append, skip_cons hc]
    · refine List.IsSuffix.trans ?_ hsuffix
      exact (List.suffix_append _ _).trans (List.suffix_append _ _)

end Reads

section Seen

variable {s₀ s : Text} {t : Tok} {ts : List Tok}

theorem gettoken_of_nil (h : Reads s₀ s []) : (gettoken s).ret = '\x00' ∧ Reads s₀ (gettoken s).ps [] := by
  simp only [gettoken, h.skip_nil, classify]
  exact ⟨trivial, List.nil_suffix, .nil nofun⟩

/-- **`gettoken` is the next token**, and moves to the one after it. -/
theorem gettoken_of_cons (h : Reads s₀ s (t :: ts)) :
    (gettoken s).ret = t.code ∧ Reads s₀ (gettoken s).ps ts ∧
      ∀ w, t = .word w → Valid s₀ ((gettoken s).q, (gettoken s).eq) w := by
  obtain ⟨x, rest, hskip, ht, hrest⟩ := h.skip_of_cons
  simp only [gettoken, hskip, ht.classify]
  refine ⟨trivial, hrest.skip, ?_⟩
  rintro w rfl
  obtain ⟨⟨rfl, -, hw, hend⟩, -⟩ := ht
  refine ⟨?_, rfl, hw, hend⟩
  rw [← hskip]
  exact h.skip.suffix

/-- the first character of a token -/
def Tok.first : Tok → Option Char
  | .sym c => some c
  | .append => some '>'
  | .word _ => none

/-- **`peek` is about the next token**: a symbol that starts with one of the characters. -/
theorem peek_reads (h : Reads s₀ s ts) {toks : List Char} (htoks : ∀ c ∈ toks, c ∈ symbols) :
    Reads s₀ (peek s toks).2 ts ∧ ((peek s toks).1 = true ↔ ∃ t ∈ ts.head?, ∃ c ∈ t.first, c ∈ toks) := by
  refine ⟨h.skip, ?_⟩
  cases ts with
  | nil =>
    simp [peek, h.skip_nil]
  | cons t ts =>
    obtain ⟨x, rest, hskip, ht, -⟩ := h.skip_of_cons
    simp only [peek, hskip]
    cases t with
    | sym c =>
      obtain ⟨⟨-, rfl⟩, -⟩ := ht
      simp [Tok.first]
    | append =>
      obtain ⟨hx, -⟩ := ht
      obtain rfl : x = ['>', '>'] := hx
      simp [Tok.first]
    | word w =>
      obtain ⟨⟨rfl, hne, hw, -⟩, -⟩ := ht
      obtain ⟨c, y, rfl⟩ := List.exists_cons_of_ne_nil hne
      have hc : c ∉ toks := fun hmem => not_symbol_of_ordinary (hw c List.mem_cons_self) (htoks c hmem)
      simp [Tok.first, hc]

end Seen

end Xv6Threads.Shell
