/-
The parser of the shell accepts its grammar and builds its trees.

`Reps s₀ cmd t` says that a tree of the parser, whose words are pairs of pointers into the line `s₀`, stands for a tree of
the grammar. Every function of the parser is taken twice: what it read when it returns (`Ends`, an induction on the calls),
and that it returns when what is there is derivable and what follows cannot belong to it (an induction on the
derivation).
- `parse_ends`: a tree that is returned is derived from the tokens that were read; no call runs out of fuel.
- `parse_of_derives`: what is derivable is parsed.
- `Reps.strings`: after `nulterminate` the words in memory are those of the grammar.
- `parsecmd_iff_derivable`: so a line is parsed iff it is derivable, and to the tree of its derivation.
- `parsecmd_keeps_tokens`: the words in memory are the tokens as they were read from the line.
-/
import Xv6Threads.User.Shell

namespace Xv6Threads.Shell

open Xv6Threads.Core

/-! ## Trees -/

inductive Reps (s₀ : Text) : Cmd Word → Cmd Text → Prop where
  | exec {argv : List Word} {ws : List Text} : List.Forall₂ (Valid s₀) argv ws → Reps s₀ (.exec argv) (.exec ws)
  | redir {cmd : Cmd Word} {t : Cmd Text} {w : Word} {x : Text} {mode fd : ℕ} :
    Reps s₀ cmd t → Valid s₀ w x → Reps s₀ (.redir cmd w mode fd) (.redir t x mode fd)
  | pipe {left right : Cmd Word} {t u : Cmd Text} : Reps s₀ left t → Reps s₀ right u → Reps s₀ (.pipe left right) (.pipe t u)
  | list {left right : Cmd Word} {t u : Cmd Text} : Reps s₀ left t → Reps s₀ right u → Reps s₀ (.list left right) (.list t u)
  | back {cmd : Cmd Word} {t : Cmd Text} : Reps s₀ cmd t → Reps s₀ (.back cmd) (.back t)

theorem Reps.addArg {s₀ : Text} {cmd : Cmd Word} {t : Cmd Text} {w : Word} {x : Text} (h : Reps s₀ cmd t)
    (hw : Valid s₀ w x) : Reps s₀ (cmd.addArg w) (t.addArg x) := by
  induction h with
  | exec hargv => exact .exec (List.rel_append hargv (.cons hw .nil))
  | redir _ hf ih => exact .redir ih hf
  | pipe hl hr => exact .pipe hl hr
  | list hl hr => exact .list hl hr
  | back hc => exact .back hc

/-- words are added below the redirections -/
theorem addArg_wrap (rs : List Redir) (t : Cmd Text) (x : Text) :
    (rs.foldl Redir.wrap t).addArg x = rs.foldl Redir.wrap (t.addArg x) := by
  induction rs generalizing t with
  | nil => rfl
  | cons r rs ih => exact ih (r.wrap t)

section Tokens

variable {s₀ s : Text} {t : Tok} {ts us vs : List Tok}

/-- the first of the tokens is a symbol of the line -/
theorem Reads.symbol {c : Char} (h : Reads s₀ s (.sym c :: ts)) : c ∈ symbols := by
  obtain ⟨x, rest, -, ht, -⟩ := h.skip_of_cons
  exact ht.1.1

theorem Reads.word_of_code (h : Reads s₀ s (t :: ts)) (ha : t.code = 'a') : ∃ w, t = .word w := by
  cases t with
  | sym c =>
    have hc := h.symbol
    obtain rfl : c = 'a' := ha
    simp [symbols] at hc
  | append => exact absurd ha (by decide)
  | word w => exact ⟨w, rfl⟩

theorem Reads.code_ne_zero (h : Reads s₀ s (t :: ts)) : t.code ≠ '\x00' := by
  intro h0
  cases t with
  | sym c =>
    have hc := h.symbol
    obtain rfl : c = '\x00' := h0
    simp [symbols] at hc
  | append => exact absurd h0 (by decide)
  | word w => exact absurd h0 (by decide : 'a' ≠ '\x00')

/-- `peek` for one symbol that no `>>` starts with -/
theorem peek_sym (h : Reads s₀ s ts) {c : Char} (hc : c ∈ symbols) (hgt : c ≠ '>') :
    (peek s [c]).1 = true ↔ ∃ us, ts = .sym c :: us := by
  rw [(peek_reads h (by simpa using hc)).2]
  constructor
  · rintro ⟨t, ht, d, hd, hmem⟩
    obtain rfl : d = c := List.mem_singleton.1 hmem
    obtain ⟨us, rfl⟩ : ∃ us, ts = t :: us := ⟨_, (List.cons_head?_tail ht).symm⟩
    cases t with
    | sym e =>
      obtain rfl : e = d := Option.some.inj hd
      exact ⟨us, rfl⟩
    | append => exact absurd (Option.some.inj hd).symm hgt
    | word w => cases hd
  · rintro ⟨us, rfl⟩
    exact ⟨.sym c, rfl, c, rfl, List.mem_singleton.2 rfl⟩

theorem peek_redir (h : Reads s₀ s ts) : (peek s ['<', '>']).1 = true ↔ ∃ t us, ts = t :: us ∧ isRedir t := by
  rw [(peek_reads h (by simp [symbols])).2]
  constructor
  · rintro ⟨t, ht, d, hd, hmem⟩
    obtain ⟨us, rfl⟩ : ∃ us, ts = t :: us := ⟨_, (List.cons_head?_tail ht).symm⟩
    refine ⟨t, us, rfl, ?_⟩
    cases t with
    | sym e =>
      obtain rfl : e = d := Option.some.inj hd
      rcases List.mem_cons.1 hmem with rfl | hmem
      · exact .inl rfl
      · rw [List.mem_singleton.1 hmem]
        exact .inr (.inl rfl)
    | append => exact .inr (.inr rfl)
    | word w => cases hd
  · rintro ⟨t, us, rfl, rfl | rfl | rfl⟩
    · exact ⟨_, rfl, '<', rfl, by simp⟩
    · exact ⟨_, rfl, '>', rfl, by simp⟩
    · exact ⟨_, rfl, '>', rfl, by simp⟩

/-- what ends the arguments of a command -/
def endsArgs (t : Tok) : Prop := t = .sym '|' ∨ t = .sym ')' ∨ t = .sym '&' ∨ t = .sym ';'

theorem peek_end (h : Reads s₀ s ts) : (peek s ['|', ')', '&', ';']).1 = true ↔ ∃ t us, ts = t :: us ∧ endsArgs t := by
  rw [(peek_reads h (by simp [symbols])).2]
  constructor
  · rintro ⟨t, ht, d, hd, hmem⟩
    obtain ⟨us, rfl⟩ : ∃ us, ts = t :: us := ⟨_, (List.cons_head?_tail ht).symm⟩
    refine ⟨t, us, rfl, ?_⟩
    cases t with
    | sym e =>
      obtain rfl : e = d := Option.some.inj hd
      simpa [endsArgs] using hmem
    | append =>
      obtain rfl : '>' = d := Option.some.inj hd
      simp at hmem
    | word w => cases hd
  · rintro ⟨t, us, rfl, rfl | rfl | rfl | rfl⟩
    · exact ⟨_, rfl, '|', rfl, by simp⟩
    · exact ⟨_, rfl, ')', rfl, by simp⟩
    · exact ⟨_, rfl, '&', rfl, by simp⟩
    · exact ⟨_, rfl, ';', rfl, by simp⟩

theorem Reads.peek (h : Reads s₀ s ts) (toks : List Char) : Reads s₀ (peek s toks).2 ts := h.skip

theorem Reads.next (h : Reads s₀ s (t :: ts)) : Reads s₀ (gettoken s).ps ts := (gettoken_of_cons h).2.1

/-- the turns that a loop is given are enough for the tokens -/
theorem Reads.turns (h : Reads s₀ s ts) : ts.length < s.length + 1 := Nat.lt_succ_of_le h.lexed.length_le

end Tokens

/-! ## What a call that returns has read -/

section Sound

variable {s₀ s : Text} {cmd : Cmd Word} {t : Cmd Text} {ts : List Tok}

theorem parseredirs_ends {turns : ℕ} (h : Reads s₀ s ts) (hcmd : Reps s₀ cmd t) (hturns : ts.length < turns) :
    Ends (parseredirs turns cmd s)
      (fun r => ∃ us vs rs, ts = us ++ vs ∧ Redirs us rs ∧ Reps s₀ r.1 (rs.foldl Redir.wrap t) ∧ Reads s₀ r.2 vs)
      (· ≠ .spins) := by
  induction turns generalizing s cmd t ts with
  | zero => exact absurd hturns (Nat.not_lt_zero _)
  | succ turns ih =>
    unfold parseredirs
    simp only
    split
    case isTrue hfound =>
      obtain ⟨u, us, rfl, hu⟩ := (peek_redir h).1 hfound
      have hpeek := h.peek ['<', '>']
      obtain ⟨hcode, hnext, -⟩ := gettoken_of_cons hpeek
      split
      case isTrue => exact Ends.error nofun
      case isFalse hfile =>
        cases us with
        | nil => exact absurd ((gettoken_of_nil hnext).1 ▸ (by decide : '\x00' ≠ 'a')) hfile
        | cons f us =>
          obtain ⟨hf, hrest, hvalid⟩ := gettoken_of_cons hnext
          rw [hf, not_ne_iff] at hfile
          obtain ⟨w, rfl⟩ := hnext.word_of_code hfile
          simp only [List.length_cons] at hturns
          refine Ends.mono (ih hrest (.redir hcmd (hvalid w rfl)) (by omega)) ?_ fun _ he => he
          rintro r ⟨xs, vs, rs, rfl, hredirs, hreps, hreads⟩
          refine ⟨u :: .word w :: xs, vs, ⟨u, w⟩ :: rs, rfl, .cons hu hredirs, ?_, hreads⟩
          rw [hcode] at hreps
          exact hreps
    case isFalse => exact Ends.ok ⟨[], ts, [], rfl, .nil, hcmd, h.peek ['<', '>']⟩

theorem parseargs_ends {turns : ℕ} (ws : List Text) {rs : List Redir} (h : Reads s₀ s ts)
    (hcmd : Reps s₀ cmd (rs.foldl Redir.wrap (.exec ws))) (hargs : ws.length ≤ MAXARGS - 1) (hturns : ts.length < turns) :
    Ends (parseargs turns ws.length cmd s)
      (fun r => ∃ us vs ws' rs', ts = us ++ vs ∧ Args us ws' rs' ∧ (ws ++ ws').length ≤ MAXARGS - 1 ∧
        Reps s₀ r.1 ((rs ++ rs').foldl Redir.wrap (.exec (ws ++ ws'))) ∧ Reads s₀ r.2 vs)
      (· ≠ .spins) := by
  induction turns generalizing s cmd ts ws rs with
  | zero => exact absurd hturns (Nat.not_lt_zero _)
  | succ turns ih =>
    -- what is there when the loop ends here
    have hstop : ∀ {s' : Text}, Reads s₀ s' ts → ∃ us vs ws' rs', ts = us ++ vs ∧ Args us ws' rs' ∧
        (ws ++ ws').length ≤ MAXARGS - 1 ∧ Reps s₀ cmd ((rs ++ rs').foldl Redir.wrap (.exec (ws ++ ws'))) ∧
        Reads s₀ s' vs := by
      intro s' hs'
      refine ⟨[], ts, [], [], rfl, .nil, ?_, ?_, hs'⟩
      · rw [List.append_nil]
        exact hargs
      · rw [List.append_nil, List.append_nil]
        exact hcmd
    have hpeek := h.peek ['|', ')', '&', ';']
    unfold parseargs
    simp only
    split
    case isTrue => exact Ends.ok (hstop hpeek)
    case isFalse =>
      cases ts with
      | nil =>
        obtain ⟨hzero, hrest⟩ := gettoken_of_nil hpeek
        rw [if_pos hzero]
        exact Ends.ok (hstop hrest)
      | cons u us =>
        obtain ⟨hcode, hnext, hvalid⟩ := gettoken_of_cons hpeek
        rw [if_neg (by rw [hcode]; exact hpeek.code_ne_zero)]
        split
        case isTrue => exact Ends.error nofun
        case isFalse hword =>
          rw [hcode, not_ne_iff] at hword
          obtain ⟨w, rfl⟩ := hpeek.word_of_code hword
          split
          case isTrue => exact Ends.error nofun
          case isFalse hroom =>
            have hadd := hcmd.addArg (hvalid w rfl)
            rw [addArg_wrap] at hadd
            refine Ends.bind (parseredirs_ends hnext hadd hnext.turns) ?_
            rintro ⟨cmd', s'⟩ ⟨xs, vs, rs₁, rfl, hredirs, hreps, hreads⟩
            rw [← List.foldl_append] at hreps
            simp only [List.length_cons, List.length_append] at hturns
            have hlen : (ws ++ [w]).length = ws.length + 1 := List.length_append
            have hloop := ih (ws ++ [w]) hreads hreps (by omega) (by omega)
            rw [hlen] at hloop
            refine Ends.mono hloop ?_ fun _ he => he
            rintro r ⟨ys, zs, ws', rs₂, rfl, hargs', hlen', hreps', hreads'⟩
            refine ⟨.word w :: (xs ++ ys), zs, w :: ws', rs₁ ++ rs₂, ?_, .cons hredirs hargs', ?_, ?_, hreads'⟩
            · rw [List.cons_append, List.append_assoc]
            · rw [List.append_cons]
              exact hlen'
            · rw [List.append_cons, ← List.append_assoc]
              exact hreps'

theorem parsebacks_ends {turns : ℕ} (h : Reads s₀ s ts) (hcmd : Reps s₀ cmd t) (hturns : ts.length < turns) :
    Ends (parsebacks turns cmd s)
      (fun r => ∃ n vs, ts = List.replicate n (.sym '&') ++ vs ∧ Reps s₀ r.1 (Cmd.back^[n] t) ∧ Reads s₀ r.2 vs)
      (· ≠ .spins) := by
  induction turns generalizing s cmd t ts with
  | zero => exact absurd hturns (Nat.not_lt_zero _)
  | succ turns ih =>
    unfold parsebacks
    simp only
    split
    case isTrue hfound =>
      obtain ⟨us, rfl⟩ := (peek_sym h (by simp [symbols]) (by decide)).1 hfound
      refine Ends.mono (ih (h.peek ['&']).next (.back hcmd) (Nat.lt_of_succ_lt_succ hturns)) ?_ fun _ he => he
      rintro r ⟨n, vs, rfl, hreps, hreads⟩
      exact ⟨n + 1, vs, rfl, hreps, hreads⟩
    case isFalse => exact Ends.ok ⟨0, ts, rfl, hcmd, h.peek ['&']⟩

/-- what a function of the parser has read -/
def Read (s₀ : Text) (kind : Kind) (ts : List Tok) (r : Cmd Word × Text) : Prop :=
  ∃ us vs t, ts = us ++ vs ∧ Derives kind us t ∧ Reps s₀ r.1 t ∧ Reads s₀ r.2 vs

/-- **What is returned is derived.** The calls that nest are four for each token, and one for each function. -/
theorem parse_ends (fuel : ℕ) :
    (∀ s ts, Reads s₀ s ts → 4 * ts.length + 4 ≤ fuel → Ends (parseline fuel s) (Read s₀ .line ts) (· ≠ .spins)) ∧
    (∀ s ts, Reads s₀ s ts → 4 * ts.length + 3 ≤ fuel → Ends (parsepipe fuel s) (Read s₀ .pipe ts) (· ≠ .spins)) ∧
    (∀ s ts, Reads s₀ s ts → 4 * ts.length + 2 ≤ fuel → Ends (parseexec fuel s) (Read s₀ .exec ts) (· ≠ .spins)) ∧
    (∀ s ts, Reads s₀ s ts → 4 * ts.length + 1 ≤ fuel → Ends (parseblock fuel s) (Read s₀ .exec ts) (· ≠ .spins)) := by
  induction fuel with
  | zero =>
    refine ⟨?_, ?_, ?_, ?_⟩ <;>
    · intro s ts _ hfuel
      omega
  | succ fuel ih =>
    obtain ⟨ihline, ihpipe, ihexec, ihblock⟩ := ih
    refine ⟨?_, ?_, ?_, ?_⟩
    · intro s ts h hfuel
      rw [parseline]
      refine Ends.bind (ihpipe s ts h (by omega)) ?_
      rintro ⟨cmd, s₁⟩ ⟨us, vs, t, rfl, hpipe, hreps, hreads⟩
      refine Ends.bind (parsebacks_ends hreads hreps hreads.turns) ?_
      rintro ⟨cmd', s₂⟩ ⟨n, xs, rfl, hreps', hreads'⟩
      simp only
      split
      case isTrue hfound =>
        obtain ⟨ys, rfl⟩ := (peek_sym hreads' (by simp [symbols]) (by decide)).1 hfound
        simp only [List.length_append, List.length_cons] at hfuel
        refine Ends.bind (ihline _ ys (hreads'.peek [';']).next (by omega)) ?_
        rintro ⟨right, s₃⟩ ⟨zs, vs', u, rfl, hline, hreps'', hreads''⟩
        refine Ends.ok ⟨_, vs', _, ?_, .list n hpipe hline, .list hreps' hreps'', hreads''⟩
        simp only [List.append_assoc, List.cons_append]
      case isFalse =>
        refine Ends.ok ⟨_, xs, _, ?_, .line n hpipe, hreps', hreads'.peek [';']⟩
        rw [List.append_assoc]
    · intro s ts h hfuel
      rw [parsepipe]
      refine Ends.bind (ihexec s ts h (by omega)) ?_
      rintro ⟨cmd, s₁⟩ ⟨us, vs, t, rfl, hexec, hreps, hreads⟩
      simp only
      split
      case isTrue hfound =>
        obtain ⟨ys, rfl⟩ := (peek_sym hreads (by simp [symbols]) (by decide)).1 hfound
        simp only [List.length_append, List.length_cons] at hfuel
        refine Ends.bind (ihpipe _ ys (hreads.peek ['|']).next (by omega)) ?_
        rintro ⟨right, s₂⟩ ⟨zs, vs', u, rfl, hpipe, hreps', hreads'⟩
        refine Ends.ok ⟨_, vs', _, ?_, .pipe hexec hpipe, .pipe hreps hreps', hreads'⟩
        simp only [List.append_assoc, List.cons_append]
      case isFalse => exact Ends.ok ⟨us, vs, t, rfl, .single hexec, hreps, hreads.peek ['|']⟩
    · intro s ts h hfuel
      rw [parseexec]
      have hpeek := h.peek ['(']
      simp only
      split
      case isTrue => exact ihblock _ ts hpeek (by omega)
      case isFalse =>
        refine Ends.bind (parseredirs_ends hpeek (.exec .nil) hpeek.turns) ?_
        rintro ⟨cmd, s₁⟩ ⟨us, vs, rs, rfl, hredirs, hreps, hreads⟩
        refine Ends.mono (parseargs_ends [] hreads hreps (Nat.zero_le _) hreads.turns) ?_ fun _ he => he
        rintro r ⟨xs, ys, ws, rs', rfl, hargs, hlen, hreps', hreads'⟩
        refine ⟨us ++ xs, ys, _, ?_, .exec hredirs hargs hlen, hreps', hreads'⟩
        rw [List.append_assoc]
    · intro s ts h hfuel
      rw [parseblock]
      simp only
      split
      case isTrue => exact Ends.error (by intro h; cases h)
      case isFalse hopen =>
        obtain ⟨us, rfl⟩ := (peek_sym h (by simp [symbols]) (by decide)).1 (not_not.1 hopen)
        simp only [List.length_cons] at hfuel
        refine Ends.bind (ihline _ us (h.peek ['(']).next (by omega)) ?_
        rintro ⟨cmd, s₁⟩ ⟨xs, vs, t, rfl, hline, hreps, hreads⟩
        simp only
        split
        case isTrue => exact Ends.error (by intro h; cases h)
        case isFalse hclose =>
          obtain ⟨ys, rfl⟩ := (peek_sym hreads (by simp [symbols]) (by decide)).1 (not_not.1 hclose)
          have hnext := (hreads.peek [')']).next
          refine Ends.mono (parseredirs_ends hnext hreps hnext.turns) ?_ fun _ he => he
          rintro r ⟨zs, vs', rs, rfl, hredirs, hreps', hreads'⟩
          refine ⟨_, vs', _, ?_, .block hline hredirs, hreps', hreads'⟩
          simp only [List.append_assoc, List.cons_append]

end Sound

/-! ## What is derivable is read -/

section Complete

variable {s₀ s : Text} {cmd : Cmd Word} {t : Cmd Text} {ts us vs : List Tok}

theorem forall_head_append {P : Tok → Prop} (hu : ∀ u ∈ us.head?, P u) (hv : ∀ u ∈ vs.head?, P u) :
    ∀ u ∈ (us ++ vs).head?, P u := by
  cases us with
  | nil => exact hv
  | cons x us => exact hu

theorem Redirs.head {rs : List Redir} (h : Redirs ts rs) : ∀ u ∈ ts.head?, isRedir u := by
  cases h with
  | nil => exact nofun
  | cons hu _ =>
    intro u hmem
    cases hmem
    exact hu

theorem Args.head {ws : List Text} {rs : List Redir} (h : Args ts ws rs) : ∀ u ∈ ts.head?, ∃ w, u = .word w := by
  cases h with
  | nil => exact nofun
  | cons _ _ =>
    intro u hmem
    cases hmem
    exact ⟨_, rfl⟩

theorem endsArgs.not_redir {u : Tok} (h : endsArgs u) : ¬ isRedir u := by
  rcases h with rfl | rfl | rfl | rfl <;> simp [isRedir]

theorem parseredirs_of {rs : List Redir} (hredirs : Redirs ts rs) (turns : ℕ) (h : Reads s₀ s (ts ++ vs))
    (hvs : ∀ u ∈ vs.head?, ¬ isRedir u) (hcmd : Reps s₀ cmd t) (hturns : (ts ++ vs).length < turns) :
    ∃ cmd' s', parseredirs turns cmd s = .ok (cmd', s') ∧ Reps s₀ cmd' (rs.foldl Redir.wrap t) ∧ Reads s₀ s' vs := by
  induction hredirs generalizing s cmd t turns with
  | nil =>
    obtain ⟨turns, rfl⟩ := Nat.exists_eq_succ_of_ne_zero (Nat.ne_zero_of_lt hturns)
    have hno : ¬ (peek s ['<', '>']).1 = true := by
      intro hfound
      obtain ⟨u, us, hu, hredir⟩ := (peek_redir h).1 hfound
      rw [List.nil_append] at hu
      exact hvs u (hu ▸ rfl) hredir
    refine ⟨cmd, _, ?_, hcmd, h.peek ['<', '>']⟩
    rw [parseredirs]
    exact if_neg hno
  | @cons u w ts rs hu _ ih =>
    obtain ⟨turns, rfl⟩ := Nat.exists_eq_succ_of_ne_zero (Nat.ne_zero_of_lt hturns)
    have hyes := (peek_redir h).2 ⟨u, _, rfl, hu⟩
    obtain ⟨hcode, hnext, -⟩ := gettoken_of_cons (h.peek ['<', '>'])
    obtain ⟨hfile, hrest, hvalid⟩ := gettoken_of_cons hnext
    simp only [List.cons_append, List.length_cons] at hturns
    obtain ⟨cmd', s', hok, hreps, hreads⟩ := ih turns hrest (.redir hcmd (hvalid w rfl)) (by omega)
    refine ⟨cmd', s', ?_, hreps, hreads⟩
    rw [parseredirs]
    simp only [hyes, if_true, hfile, hcode]
    exact hok

theorem parseargs_of {ws : List Text} {rs : List Redir} (hargs : Args ts ws rs) (turns : ℕ) (ws₀ : List Text)
    {rs₀ : List Redir} (h : Reads s₀ s (ts ++ vs)) (hvs : ∀ u ∈ vs.head?, endsArgs u)
    (hcmd : Reps s₀ cmd (rs₀.foldl Redir.wrap (.exec ws₀))) (hlen : ws₀.length + ws.length ≤ MAXARGS - 1)
    (hturns : (ts ++ vs).length < turns) :
    ∃ cmd' s', parseargs turns ws₀.length cmd s = .ok (cmd', s') ∧
      Reps s₀ cmd' ((rs₀ ++ rs).foldl Redir.wrap (.exec (ws₀ ++ ws))) ∧ Reads s₀ s' vs := by
  induction hargs generalizing s cmd turns ws₀ rs₀ with
  | nil =>
    obtain ⟨turns, rfl⟩ := Nat.exists_eq_succ_of_ne_zero (Nat.ne_zero_of_lt hturns)
    rw [List.nil_append] at h
    have hpeek := h.peek ['|', ')', '&', ';']
    rw [parseargs]
    simp only [List.append_nil]
    cases vs with
    | nil =>
      obtain ⟨hzero, hrest⟩ := gettoken_of_nil hpeek
      have hno : ¬ (peek s ['|', ')', '&', ';']).1 = true := by
        intro hfound
        obtain ⟨u, us, hu, -⟩ := (peek_end h).1 hfound
        cases hu
      rw [if_neg hno, if_pos hzero]
      exact ⟨cmd, _, rfl, hcmd, hrest⟩
    | cons v vs =>
      rw [if_pos ((peek_end h).2 ⟨v, vs, rfl, hvs v rfl⟩)]
      exact ⟨cmd, _, rfl, hcmd, hpeek⟩
  | @cons w ts us rs rs' ws hredirs hargs ih =>
    obtain ⟨turns, rfl⟩ := Nat.exists_eq_succ_of_ne_zero (Nat.ne_zero_of_lt hturns)
    have hno : ¬ (peek s ['|', ')', '&', ';']).1 = true := by
      intro hfound
      obtain ⟨u, _, hu, hend⟩ := (peek_end h).1 hfound
      rw [List.cons_append] at hu
      obtain rfl := (List.cons.inj hu).1
      rcases hend with he | he | he | he <;> cases he
    obtain ⟨hcode, hnext, hvalid⟩ := gettoken_of_cons (h.peek ['|', ')', '&', ';'])
    have hadd := hcmd.addArg (hvalid w rfl)
    rw [addArg_wrap] at hadd
    have hnext : Reads s₀ (gettoken (peek s ['|', ')', '&', ';']).2).ps (ts ++ (us ++ vs)) := by
      rw [← List.append_assoc]
      exact hnext
    simp only [List.length_cons] at hlen
    have hafter : ∀ u ∈ (us ++ vs).head?, ¬ isRedir u := by
      refine forall_head_append ?_ fun u hu => (hvs u hu).not_redir
      intro u hu
      obtain ⟨w, rfl⟩ := hargs.head u hu
      simp [isRedir]
    obtain ⟨cmd₁, s₁, hok, hreps, hreads⟩ := parseredirs_of hredirs _ hnext hafter hadd hnext.turns
    rw [← List.foldl_append] at hreps
    have hone : (ws₀ ++ [w]).length = ws₀.length + 1 := List.length_append
    simp only [List.cons_append, List.length_cons, List.length_append] at hturns
    obtain ⟨cmd₂, s₂, hok₂, hreps₂, hreads₂⟩ :=
      ih turns (ws₀ ++ [w]) hreads hreps (by omega) (by rw [List.length_append]; omega)
    refine ⟨cmd₂, s₂, ?_, ?_, hreads₂⟩
    · have hroom : ¬ MAXARGS ≤ ws₀.length + 1 := by
        unfold MAXARGS at hlen ⊢
        omega
      rw [parseargs]
      simp only
      rw [if_neg hno, hcode, if_neg (h.peek []).code_ne_zero, if_neg (not_ne_iff.2 rfl : ¬ (Tok.word w).code ≠ 'a'),
        if_neg hroom, hok]
      rw [hone] at hok₂
      exact hok₂
    · rw [List.append_cons, ← List.append_assoc]
      exact hreps₂

theorem parsebacks_of (n turns : ℕ) (h : Reads s₀ s (List.replicate n (.sym '&') ++ vs))
    (hvs : ∀ u ∈ vs.head?, u ≠ .sym '&') (hcmd : Reps s₀ cmd t) (hturns : n < turns) :
    ∃ cmd' s', parsebacks turns cmd s = .ok (cmd', s') ∧ Reps s₀ cmd' (Cmd.back^[n] t) ∧ Reads s₀ s' vs := by
  induction n generalizing s cmd t turns with
  | zero =>
    obtain ⟨turns, rfl⟩ := Nat.exists_eq_succ_of_ne_zero (Nat.ne_zero_of_lt hturns)
    have hno : ¬ (peek s ['&']).1 = true := by
      intro hfound
      obtain ⟨us, hu⟩ := (peek_sym h (by simp [symbols]) (by decide)).1 hfound
      rw [List.replicate_zero, List.nil_append] at hu
      exact hvs _ (hu ▸ rfl) rfl
    refine ⟨cmd, _, ?_, hcmd, h.peek ['&']⟩
    rw [parsebacks]
    exact if_neg hno
  | succ n ih =>
    obtain ⟨turns, rfl⟩ := Nat.exists_eq_succ_of_ne_zero (Nat.ne_zero_of_lt hturns)
    have hyes := (peek_sym h (by simp [symbols]) (by decide)).2 ⟨_, rfl⟩
    obtain ⟨cmd', s', hok, hreps, hreads⟩ := ih turns (h.peek ['&']).next (.back hcmd) (Nat.lt_of_succ_lt_succ hturns)
    refine ⟨cmd', s', ?_, hreps, hreads⟩
    rw [parsebacks]
    exact (if_pos hyes).trans hok

/-- what can stand after a part of the line -/
def closes : Kind → Tok → Prop
  | .line, u => u = .sym ')'
  | .pipe, u => u = .sym ')' ∨ u = .sym '&' ∨ u = .sym ';'
  | .exec, u => endsArgs u

/-- the function for a part of the line -/
def parse : Kind → ℕ → Text → Except Fail (Cmd Word × Text)
  | .line => parseline
  | .pipe => parsepipe
  | .exec => parseexec

/-- the calls that it nests beyond those for the tokens -/
def Kind.calls : Kind → ℕ
  | .line => 4
  | .pipe => 3
  | .exec => 2

/-- no symbol of the list is next -/
theorem peek_sym_false {c : Char} (h : Reads s₀ s ts) (hc : c ∈ symbols) (hgt : c ≠ '>') (hts : ∀ u ∈ ts.head?, u ≠ .sym c) :
    ¬ (peek s [c]).1 = true := by
  intro hfound
  obtain ⟨us, rfl⟩ := (peek_sym h hc hgt).1 hfound
  exact hts _ rfl rfl

/-- **What is derivable is parsed**, when what follows cannot belong to it. -/
theorem parse_of_derives {kind : Kind} (hderives : Derives kind ts t) :
    ∀ {s vs} (fuel : ℕ), Reads s₀ s (ts ++ vs) → (∀ u ∈ vs.head?, closes kind u) → 4 * (ts ++ vs).length + kind.calls ≤ fuel →
      ∃ cmd s', parse kind fuel s = .ok (cmd, s') ∧ Reps s₀ cmd t ∧ Reads s₀ s' vs := by
  induction hderives with
  | @exec ts us rs rs' ws hredirs hargs hlen =>
    intro s vs fuel h hvs hfuel
    obtain ⟨fuel, rfl⟩ := Nat.exists_eq_add_of_le' (Nat.le_trans (Nat.le_add_left _ _) hfuel)
    have hhead : ∀ u ∈ us.head?, ∀ c, u ≠ .sym c := by
      intro u hu c
      obtain ⟨w, rfl⟩ := hargs.head u hu
      exact nofun
    have hno : ¬ (peek s ['(']).1 = true := by
      refine peek_sym_false h (by simp [symbols]) (by decide) (forall_head_append (forall_head_append ?_ ?_) ?_)
      · intro u hu
        rcases hredirs.head u hu with rfl | rfl | rfl <;> simp
      · exact fun u hu => hhead u hu '('
      · intro u hu
        rcases hvs u hu with rfl | rfl | rfl | rfl <;> simp
    have hpeek := h.peek ['(']
    rw [List.append_assoc] at hpeek
    have hafter : ∀ u ∈ (us ++ vs).head?, ¬ isRedir u := by
      refine forall_head_append ?_ fun u hu => endsArgs.not_redir (hvs u hu)
      intro u hu
      obtain ⟨w, rfl⟩ := hargs.head u hu
      simp [isRedir]
    obtain ⟨cmd₁, s₁, hok, hreps, hreads⟩ := parseredirs_of hredirs _ hpeek hafter (.exec .nil) hpeek.turns
    obtain ⟨cmd₂, s₂, hok₂, hreps₂, hreads₂⟩ :=
      parseargs_of hargs _ [] hreads hvs hreps (by rw [List.length_nil, Nat.zero_add]; exact hlen) hreads.turns
    refine ⟨cmd₂, s₂, ?_, hreps₂, hreads₂⟩
    change parseexec (fuel + 1 + 1) s = _
    rw [parseexec]
    simp only
    rw [if_neg hno, hok]
    exact hok₂
  | @block ts us rs t hline hredirs ih =>
    intro s vs fuel h hvs hfuel
    simp only [List.cons_append, List.append_assoc, List.length_cons, List.length_append, Kind.calls] at hfuel
    obtain ⟨fuel, rfl⟩ := Nat.exists_eq_add_of_le' (Nat.le_trans (Nat.le_add_left 2 _) hfuel)
    simp only [List.cons_append, List.append_assoc] at h
    have hopen := (peek_sym h (by simp [symbols]) (by decide)).2 ⟨_, rfl⟩
    have hpeek := h.peek ['(']
    have hopen' := (peek_sym hpeek (by simp [symbols]) (by decide)).2 ⟨_, rfl⟩
    obtain ⟨cmd₁, s₁, hok, hreps, hreads⟩ := ih fuel (hpeek.peek ['(']).next (by
      intro u hu
      cases hu
      rfl) (by
      simp only [List.length_append, List.length_cons, Kind.calls]
      omega)
    have hclose := (peek_sym hreads (by simp [symbols]) (by decide)).2 ⟨_, rfl⟩
    have hnext := (hreads.peek [')']).next
    obtain ⟨cmd₂, s₂, hok₂, hreps₂, hreads₂⟩ :=
      parseredirs_of hredirs _ hnext (fun u hu => endsArgs.not_redir (hvs u hu)) hreps hnext.turns
    refine ⟨cmd₂, s₂, ?_, hreps₂, hreads₂⟩
    change parseexec (fuel + 1 + 1) s = _
    rw [parseexec]
    simp only
    rw [if_pos hopen, parseblock]
    simp only
    rw [if_neg (not_not.2 hopen')]
    rw [show parseline fuel _ = _ from hok]
    change (if ¬ (peek s₁ [')']).1 = true then _ else _) = _
    rw [if_neg (not_not.2 hclose)]
    exact hok₂
  | @single ts t hexec ih =>
    intro s vs fuel h hvs hfuel
    obtain ⟨fuel, rfl⟩ := Nat.exists_eq_add_of_le' (Nat.le_trans (Nat.le_add_left _ _) hfuel)
    obtain ⟨cmd₁, s₁, hok, hreps, hreads⟩ := ih (fuel + 2) h (by
      intro u hu
      rcases hvs u hu with rfl | rfl | rfl
      · exact .inr (.inl rfl)
      · exact .inr (.inr (.inl rfl))
      · exact .inr (.inr (.inr rfl))) (by
      simp only [Kind.calls] at hfuel ⊢
      omega)
    have hno : ¬ (peek s₁ ['|']).1 = true := by
      refine peek_sym_false hreads (by simp [symbols]) (by decide) ?_
      intro u hu
      rcases hvs u hu with rfl | rfl | rfl <;> simp
    refine ⟨cmd₁, _, ?_, hreps, hreads.peek ['|']⟩
    change parsepipe (fuel + 2 + 1) s = _
    rw [parsepipe]
    rw [show parseexec (fuel + 2) s = _ from hok]
    exact if_neg hno
  | @pipe ts us t u hexec hpipe ih₁ ih₂ =>
    intro s vs fuel h hvs hfuel
    simp only [List.append_assoc, List.cons_append] at h
    simp only [List.cons_append, List.append_assoc, List.length_cons, List.length_append, Kind.calls] at hfuel
    obtain ⟨fuel, rfl⟩ := Nat.exists_eq_add_of_le' (Nat.le_trans (Nat.le_add_left 3 _) hfuel)
    obtain ⟨cmd₁, s₁, hok, hreps, hreads⟩ := ih₁ (fuel + 2) h (by
      intro u hu
      cases hu
      exact .inl rfl) (by
      simp only [List.length_append, List.length_cons, Kind.calls]
      omega)
    have hbar := (peek_sym hreads (by simp [symbols]) (by decide)).2 ⟨_, rfl⟩
    obtain ⟨cmd₂, s₂, hok₂, hreps₂, hreads₂⟩ := ih₂ (fuel + 2) (hreads.peek ['|']).next hvs (by
      simp only [List.length_append, Kind.calls]
      omega)
    refine ⟨.pipe cmd₁ cmd₂, s₂, ?_, .pipe hreps hreps₂, hreads₂⟩
    change parsepipe (fuel + 2 + 1) s = _
    rw [parsepipe]
    rw [show parseexec (fuel + 2) s = _ from hok]
    change (if (peek s₁ ['|']).1 = true then _ else _) = _
    rw [if_pos hbar]
    rw [show parsepipe (fuel + 2) (gettoken (skip s₁)).ps = _ from hok₂]
    rfl
  | @line ts t n hpipe ih =>
    intro s vs fuel h hvs hfuel
    rw [List.append_assoc] at h hfuel
    obtain ⟨fuel, rfl⟩ := Nat.exists_eq_add_of_le' (Nat.le_trans (Nat.le_add_left _ _) hfuel)
    obtain ⟨cmd₁, s₁, hok, hreps, hreads⟩ := ih (fuel + 3) h (by
      refine forall_head_append ?_ fun u hu => .inl (hvs u hu)
      intro u hu
      exact .inr (.inl (List.eq_of_mem_replicate (List.mem_of_mem_head? hu)))) (by
      simp only [Kind.calls] at hfuel ⊢
      omega)
    have hturns := hreads.turns
    rw [List.length_append, List.length_replicate] at hturns
    obtain ⟨cmd₂, s₂, hok₂, hreps₂, hreads₂⟩ := parsebacks_of n (s₁.length + 1) hreads (by
      intro u hu
      rw [show u = .sym ')' from hvs u hu]
      simp) hreps (by omega)
    have hno : ¬ (peek s₂ [';']).1 = true := by
      refine peek_sym_false hreads₂ (by simp [symbols]) (by decide) ?_
      intro u hu
      rw [show u = .sym ')' from hvs u hu]
      simp
    refine ⟨cmd₂, _, ?_, hreps₂, hreads₂.peek [';']⟩
    change parseline (fuel + 3 + 1) s = _
    rw [parseline]
    rw [show parsepipe (fuel + 3) s = _ from hok]
    change (parsebacks (s₁.length + 1) cmd₁ s₁ >>= _) = _
    rw [hok₂]
    exact if_neg hno
  | @list ts us t u n hpipe hline ih₁ ih₂ =>
    intro s vs fuel h hvs hfuel
    simp only [List.append_assoc, List.cons_append] at h
    simp only [List.cons_append, List.append_assoc, List.length_cons, List.length_append, Kind.calls] at hfuel
    obtain ⟨fuel, rfl⟩ := Nat.exists_eq_add_of_le' (Nat.le_trans (Nat.le_add_left 4 _) hfuel)
    obtain ⟨cmd₁, s₁, hok, hreps, hreads⟩ := ih₁ (fuel + 3) h (by
      refine forall_head_append ?_ ?_
      · intro u hu
        exact .inr (.inl (List.eq_of_mem_replicate (List.mem_of_mem_head? hu)))
      · intro u hu
        cases hu
        exact .inr (.inr rfl)) (by
      simp only [List.length_append, List.length_cons, Kind.calls]
      omega)
    have hturns := hreads.turns
    rw [List.length_append, List.length_replicate] at hturns
    obtain ⟨cmd₂, s₂, hok₂, hreps₂, hreads₂⟩ := parsebacks_of n (s₁.length + 1) hreads (by
      intro u hu
      cases hu
      simp) hreps (by omega)
    have hsemi := (peek_sym hreads₂ (by simp [symbols]) (by decide)).2 ⟨_, rfl⟩
    obtain ⟨cmd₃, s₃, hok₃, hreps₃, hreads₃⟩ := ih₂ (fuel + 3) (hreads₂.peek [';']).next hvs (by
      simp only [List.length_append, Kind.calls]
      omega)
    refine ⟨.list cmd₂ cmd₃, s₃, ?_, .list hreps₂ hreps₃, hreads₃⟩
    change parseline (fuel + 3 + 1) s = _
    rw [parseline]
    rw [show parsepipe (fuel + 3) s = _ from hok]
    change (parsebacks (s₁.length + 1) cmd₁ s₁ >>= _) = _
    rw [hok₂]
    change (if (peek s₂ [';']).1 = true then _ else _) = _
    rw [if_pos hsemi]
    rw [show parseline (fuel + 3) (gettoken (skip s₂)).ps = _ from hok₃]
    rfl

end Complete

/-! ## One spelling -/

/-- a `>` is followed by its file -/
def GtWord (ts : List Tok) : Prop := ∀ us vs, ts = us ++ .sym '>' :: vs → ∃ w ws, vs = .word w :: ws

theorem GtWord.append {ts ts' : List Tok} (h : GtWord ts) (h' : GtWord ts') : GtWord (ts ++ ts') := by
  intro us vs he
  rcases List.append_eq_append_iff.1 he with ⟨xs, rfl, hxs⟩ | ⟨xs, rfl, hxs⟩
  · exact h' xs vs hxs
  · cases xs with
    | nil => exact h' [] vs hxs.symm
    | cons x xs =>
      obtain ⟨rfl, rfl⟩ := List.cons.inj hxs
      obtain ⟨w, ws, rfl⟩ := h us xs rfl
      exact ⟨w, ws ++ ts', rfl⟩

theorem GtWord.cons {t : Tok} {ts : List Tok} (ht : t ≠ .sym '>') (h : GtWord ts) : GtWord (t :: ts) := by
  intro us vs he
  cases us with
  | nil => exact absurd (List.cons.inj he).1 ht
  | cons u us => exact h us vs (List.cons.inj he).2

theorem GtWord.nil : GtWord [] := by
  intro us vs he
  simp at he

theorem Redirs.gtWord {ts : List Tok} {rs : List Redir} (h : Redirs ts rs) : GtWord ts := by
  induction h with
  | nil => exact .nil
  | @cons t w ts rs _ _ ih =>
    intro us vs he
    cases us with
    | nil =>
      obtain rfl := (List.cons.inj he).2
      exact ⟨w, ts, rfl⟩
    | cons u us =>
      have hword : GtWord (.word w :: ts) := .cons nofun ih
      exact hword us vs (List.cons.inj he).2

theorem Args.gtWord {ts : List Tok} {ws : List Text} {rs : List Redir} (h : Args ts ws rs) : GtWord ts := by
  induction h with
  | nil => exact .nil
  | cons hredirs _ ih => exact .cons nofun (hredirs.gtWord.append ih)

theorem Derives.gtWord {kind : Kind} {ts : List Tok} {t : Cmd Text} (h : Derives kind ts t) : GtWord ts := by
  have hbacks : ∀ n, GtWord (List.replicate n (.sym '&')) := by
    intro n
    induction n with
    | zero => exact .nil
    | succ n ih => exact .cons (by simp) ih
  induction h with
  | exec hredirs hargs _ => exact hredirs.gtWord.append hargs.gtWord
  | block _ hredirs ih => exact .cons (by simp) (ih.append (.cons (by simp) hredirs.gtWord))
  | single _ ih => exact ih
  | pipe _ _ ih₁ ih₂ => exact ih₁.append (.cons (by simp) ih₂)
  | line n _ ih => exact ih.append (hbacks n)
  | list n _ _ ih₁ ih₂ => exact ih₁.append ((hbacks n).append (.cons (by simp) ih₂))

/-- before a word there is no `>` -/
theorem Spelled.head_of_word {s : Text} {w : Text} {ts : List Tok} (h : Spelled Fits s (.word w :: ts)) :
    s.head? ≠ some '>' := by
  cases h with
  | @cons v x rest _ _ hv ht _ =>
    obtain ⟨rfl, hne, hx, -⟩ := ht
    obtain ⟨c, y, rfl⟩ := List.exists_cons_of_ne_nil hne
    cases v with
    | nil =>
      intro he
      obtain rfl : c = '>' := Option.some.inj he
      exact not_symbol_of_ordinary (hx '>' List.mem_cons_self) (by simp [symbols])
    | cons d v =>
      intro he
      obtain rfl : d = '>' := Option.some.inj he
      exact not_space_of_symbol '>' (by simp [symbols]) (hv '>' List.mem_cons_self)

/-- a line whose tokens are derivable is spelled as the code reads it -/
theorem Spelled.lexed {s : Text} {ts : List Tok} (h : Spelled Fits s ts) (hts : GtWord ts) : Spelled Lexes s ts := by
  induction h with
  | nil hw => exact .nil hw
  | @cons w x rest t ts hw ht hrest ih =>
    have hrec : GtWord ts := fun us vs he => hts (t :: us) vs (by rw [he, List.cons_append])
    refine .cons hw ⟨ht, ?_⟩ (ih hrec)
    rintro rfl
    obtain ⟨v, ws, rfl⟩ := hts [] ts rfl
    exact hrest.head_of_word

/-! ## The words in memory -/

/-- the words of a tree, in the order of `nulterminate` -/
def Cmd.words {ω : Type} : Cmd ω → List ω
  | .exec argv => argv
  | .redir cmd file _ _ => cmd.words ++ [file]
  | .pipe left right => left.words ++ right.words
  | .list left right => left.words ++ right.words
  | .back cmd => cmd.words

theorem nulterminate_eq (cmd : Cmd Word) (buf : Buffer) : nulterminate cmd buf = cmd.words.foldl zero buf := by
  induction cmd generalizing buf with
  | exec argv => rfl
  | redir cmd file mode fd ih => rw [nulterminate, Cmd.words, List.foldl_append, ih]; rfl
  | pipe left right ihl ihr => rw [nulterminate, Cmd.words, List.foldl_append, ihl, ihr]
  | list left right ihl ihr => rw [nulterminate, Cmd.words, List.foldl_append, ihl, ihr]
  | back cmd ih => rw [nulterminate, Cmd.words, ih]

theorem length_foldl_zero (ws : List Word) (buf : Buffer) : (ws.foldl zero buf).length = buf.length := by
  induction ws generalizing buf with
  | nil => rfl
  | cons w ws ih => rw [List.foldl_cons, ih, zero, List.length_set]

/-- what is in memory then: NULs after the words, and the line elsewhere -/
theorem get_foldl_zero (ws : List Word) (buf : Buffer) (i : ℕ) (hi : i < buf.length) :
    (ws.foldl zero buf)[i]? = if ∃ w ∈ ws, Buffer.at buf w.2 = i then some '\x00' else buf[i]? := by
  induction ws generalizing buf with
  | nil => simp
  | cons w ws ih =>
    have hlen : (zero buf w).length = buf.length := List.length_set
    have hat : ∀ s, Buffer.at (zero buf w) s = Buffer.at buf s := by
      intro s
      unfold Buffer.at
      rw [hlen]
    rw [List.foldl_cons, ih (zero buf w) (by rw [hlen]; exact hi)]
    simp only [hat, List.exists_mem_cons_iff]
    by_cases hws : ∃ w ∈ ws, Buffer.at buf w.2 = i
    · rw [if_pos hws, if_pos (.inr hws)]
    · rw [if_neg hws, zero, List.getElem?_set]
      by_cases hw : Buffer.at buf w.2 = i
      · rw [if_pos hw, if_pos (hw ▸ hi), if_pos (.inl hw)]
      · rw [if_neg hw, if_neg (not_or.2 ⟨hw, hws⟩)]

section Strings

variable {s₀ : Text}

/-- a word of the line, in memory, when all that was overwritten is what comes after words -/
theorem Valid.string {w : Word} {x : Text} (h : Valid s₀ w x) (hnul : '\x00' ∉ s₀) {ws : List Word}
    (hws : ∀ v ∈ ws, ∃ y, Valid s₀ v y) (hmem : w ∈ ws) :
    Buffer.string (ws.foldl zero (s₀ ++ ['\x00'])) w.1 = x := by
  obtain ⟨pre, hpre⟩ := h.suffix
  have hsplit : s₀ = pre ++ (x ++ w.2) := by rw [← hpre, h.split]
  have hlen : (ws.foldl zero (s₀ ++ ['\x00'])).length = s₀.length + 1 := by
    rw [length_foldl_zero, List.length_append]
    rfl
  have hn : s₀.length = pre.length + (x.length + w.2.length) := by rw [hsplit, List.length_append, List.length_append]
  have hat : Buffer.at (ws.foldl zero (s₀ ++ ['\x00'])) w.1 = pre.length := by
    unfold Buffer.at
    rw [hlen, h.split, List.length_append]
    omega
  -- the characters of the word stay: what is overwritten is not one of a word
  have hchars : ∀ i (hi : i < x.length), (ws.foldl zero (s₀ ++ ['\x00']))[pre.length + i]? = some (x.get ⟨i, hi⟩) := by
    intro i hi
    have hget : s₀[pre.length + i]? = some (x.get ⟨i, hi⟩) := by
      rw [hsplit, List.getElem?_append_right (Nat.le_add_right _ _), Nat.add_sub_cancel_left,
        List.getElem?_append_left hi, List.getElem?_eq_getElem hi]
      rfl
    have hlt : pre.length + i < s₀.length := by omega
    rw [get_foldl_zero _ _ _ (by rw [List.length_append]; omega), if_neg, List.getElem?_append_left hlt, hget]
    rintro ⟨v, hv, hvi⟩
    obtain ⟨y, hy⟩ := hws v hv
    obtain ⟨pre', hpre'⟩ := hy.suffix
    have hsplit' : s₀ = (pre' ++ y) ++ v.2 := by rw [← hpre', hy.split, List.append_assoc]
    have hn' : s₀.length = (pre' ++ y).length + v.2.length := by rw [hsplit', List.length_append]
    unfold Buffer.at at hvi
    rw [List.length_append, List.length_singleton, Nat.add_sub_cancel] at hvi
    have hidx : pre.length + i = (pre' ++ y).length := by omega
    have hhead : v.2.head? = some (x.get ⟨i, hi⟩) := by
      rw [hidx, hsplit', List.getElem?_append_right le_rfl, Nat.sub_self] at hget
      rw [List.head?_eq_getElem?]
      exact hget
    have hno := hy.ends _ hhead
    rw [h.ordinary _ (List.get_mem x ⟨i, hi⟩)] at hno
    cases hno
  have hend : (ws.foldl zero (s₀ ++ ['\x00']))[pre.length + x.length]? = some '\x00' := by
    rw [get_foldl_zero _ _ _ (by rw [List.length_append, List.length_singleton]; omega), if_pos]
    refine ⟨w, hmem, ?_⟩
    unfold Buffer.at
    rw [List.length_append, List.length_singleton, Nat.add_sub_cancel]
    omega
  have htake : ((ws.foldl zero (s₀ ++ ['\x00'])).drop pre.length).take x.length = x := by
    apply List.ext_getElem?
    intro i
    rw [List.getElem?_take]
    split
    case isTrue hi => rw [List.getElem?_drop, hchars i hi, List.getElem?_eq_getElem hi]; rfl
    case isFalse hi => rw [List.getElem?_eq_none (Nat.le_of_not_lt hi)]
  have hnotnul : ∀ c ∈ x, decide (c ≠ '\x00') = true := by
    intro c hc
    rw [decide_eq_true_eq]
    rintro rfl
    exact hnul (by rw [hsplit]; simp [hc])
  unfold Buffer.string
  rw [hat, ← List.take_append_drop x.length ((ws.foldl zero (s₀ ++ ['\x00'])).drop pre.length), htake,
    List.takeWhile_append_of_pos hnotnul, List.drop_drop]
  have hdrop : ∃ rest, (ws.foldl zero (s₀ ++ ['\x00'])).drop (pre.length + x.length) = '\x00' :: rest := by
    obtain ⟨hlt, hget⟩ := List.getElem?_eq_some_iff.1 hend
    exact ⟨_, by rw [List.drop_eq_getElem_cons hlt, hget]⟩
  obtain ⟨rest, hrest⟩ := hdrop
  rw [hrest, List.takeWhile_cons_of_neg (by simp), List.append_nil]

theorem Reps.words {cmd : Cmd Word} {t : Cmd Text} (h : Reps s₀ cmd t) : ∀ v ∈ cmd.words, ∃ y, Valid s₀ v y := by
  induction h with
  | exec hargv =>
    intro v hv
    obtain ⟨i, hi, rfl⟩ := List.getElem_of_mem hv
    exact ⟨_, List.Forall₂.get hargv hi (by rw [← hargv.length_eq]; exact hi)⟩
  | redir _ hf ih =>
    intro v hv
    rcases List.mem_append.1 hv with hv | hv
    · exact ih v hv
    · rw [List.mem_singleton.1 hv]
      exact ⟨_, hf⟩
  | pipe _ _ ihl ihr =>
    intro v hv
    rcases List.mem_append.1 hv with hv | hv
    · exact ihl v hv
    · exact ihr v hv
  | list _ _ ihl ihr =>
    intro v hv
    rcases List.mem_append.1 hv with hv | hv
    · exact ihl v hv
    · exact ihr v hv
  | back _ ih => exact ih

/-- a map that takes each word to its text takes the tree to its tree -/
theorem Reps.map {cmd : Cmd Word} {t : Cmd Text} (h : Reps s₀ cmd t) {f : Word → Text}
    (hf : ∀ w ∈ cmd.words, ∀ x, Valid s₀ w x → f w = x) : cmd.map f = t := by
  induction h with
  | @exec argv ws hargv =>
    have hmap : argv.map f = ws := by
      induction hargv with
      | nil => rfl
      | cons hw _ ih =>
        rw [List.map_cons, hf _ List.mem_cons_self _ hw, ih fun w hmem => hf w (List.mem_cons_of_mem _ hmem)]
    rw [Cmd.map, hmap]
  | redir _ hv ih =>
    rw [Cmd.map, ih fun w hw => hf w (List.mem_append_left _ hw),
      hf _ (List.mem_append_right _ List.mem_cons_self) _ hv]
  | pipe _ _ ihl ihr =>
    rw [Cmd.map, ihl fun w hw => hf w (List.mem_append_left _ hw), ihr fun w hw => hf w (List.mem_append_right _ hw)]
  | list _ _ ihl ihr =>
    rw [Cmd.map, ihl fun w hw => hf w (List.mem_append_left _ hw), ihr fun w hw => hf w (List.mem_append_right _ hw)]
  | back _ ih => rw [Cmd.map, ih hf]

theorem Reps.strings {cmd : Cmd Word} {t : Cmd Text} (h : Reps s₀ cmd t) (hnul : '\x00' ∉ s₀) :
    cmd.strings (nulterminate cmd (s₀ ++ ['\x00'])) = t := by
  rw [nulterminate_eq]
  exact h.map fun w hw x hv => hv.string hnul h.words hw

end Strings

/-! ## The parser -/

/-- a NUL-terminated string -/
structure CString where
  chars : Text
  noNul : '\x00' ∉ chars

/-- what `parsecmd` returns stands for a tree of the grammar, and the line is as `nulterminate` leaves it -/
theorem parsecmd_reps (s : CString) :
    Ends (parsecmd s.chars) (fun r => r.2 = nulterminate r.1 (s.chars ++ ['\x00']) ∧
      ∃ t, Derivable s.chars t ∧ Reps s.chars r.1 t) (· ≠ .spins) := by
  obtain ⟨ts, hts⟩ := Spelled.exists_lexed s.chars
  have hreads : Reads s.chars s.chars ts := ⟨List.suffix_rfl, hts⟩
  have hfuel : 4 * ts.length + 4 ≤ 4 * s.chars.length + 4 := by
    have := hts.length_le
    omega
  unfold parsecmd
  refine Ends.bind ((parse_ends _).1 s.chars ts hreads hfuel) ?_
  rintro ⟨cmd, rest⟩ ⟨us, vs, t, rfl, hline, hreps, hrest⟩
  simp only
  split
  case isTrue => exact Ends.error nofun
  case isFalse hend =>
    have hnil : vs = [] := by
      cases vs with
      | nil => rfl
      | cons v vs =>
        obtain ⟨x, rest', hskip, hx, -⟩ := hrest.skip_of_cons
        obtain ⟨c, y, rfl, -⟩ := hx.1.first
        exact absurd (show skip rest ≠ [] by rw [hskip]; exact nofun) hend
    subst hnil
    rw [List.append_nil] at hts
    exact Ends.ok ⟨rfl, t, ⟨us, hts.mono fun _ _ _ h => h.1, hline⟩, hreps⟩

/-- what `parsecmd` returns is derivable, with the tree in memory -/
theorem parsecmd_ends (s : CString) :
    Ends (parsecmd s.chars) (fun r => Derivable s.chars (r.1.strings r.2)) (· ≠ .spins) := by
  apply (parsecmd_reps s).mono _ fun _ he => he
  intro r ⟨hbuf, t, ht, hreps⟩
  have hstrings : r.1.strings r.2 = t := by
    rw [hbuf]
    exact hreps.strings s.noNul
  rw [hstrings]
  exact ht

/-- a derivable line is parsed to its tree -/
theorem parsecmd_of_derivable (s : CString) {t : Cmd Text} (h : Derivable s.chars t) :
    ∃ cmd buf, parsecmd s.chars = .ok (cmd, buf) ∧ cmd.strings buf = t := by
  obtain ⟨ts, hts, hline⟩ := h
  have hlexed := hts.lexed hline.gtWord
  have hreads : Reads s.chars s.chars (ts ++ []) := by
    rw [List.append_nil]
    exact ⟨List.suffix_rfl, hlexed⟩
  obtain ⟨cmd, rest, hok, hreps, hrest⟩ := parse_of_derives hline (4 * s.chars.length + 4) hreads nofun (by
    have := hlexed.length_le
    rw [List.append_nil]
    simp only [Kind.calls]
    omega)
  refine ⟨cmd, _, ?_, hreps.strings s.noNul⟩
  unfold parsecmd
  rw [show parseline (4 * s.chars.length + 4) s.chars = _ from hok]
  exact if_neg (not_ne_iff.2 hrest.skip_nil)

/-- **The parser accepts its grammar and builds its trees.** `parsecmd` returns iff the line is derivable, the tree it
returns is, in memory, the tree of the derivation, and there is no other; it never fails to end. -/
theorem parsecmd_iff_derivable (s : CString) :
    (∀ t, (∃ cmd buf, parsecmd s.chars = .ok (cmd, buf) ∧ cmd.strings buf = t) ↔ Derivable s.chars t) ∧
      parsecmd s.chars ≠ .error .spins := by
  refine ⟨fun t => ⟨?_, parsecmd_of_derivable s⟩, ?_⟩
  · rintro ⟨cmd, buf, hok, rfl⟩
    exact (parsecmd_ends s).of_ok hok
  · intro hspins
    exact (parsecmd_ends s).of_error hspins rfl

/-! ## The tokens of the tree -/

/-- the text `[q, eq)` of a token, as it was when the token was read -/
def Word.text (w : Word) : Text := w.1.take (w.1.length - w.2.length)

theorem Valid.text {s₀ : Text} {w : Word} {x : Text} (h : Valid s₀ w x) : w.text = x := by
  have hlen : w.1.length = x.length + w.2.length := by rw [h.split, List.length_append]
  unfold Word.text
  rw [hlen, Nat.add_sub_cancel, h.split, List.take_left]

/-- **A NUL written after one token damages no other.** When `parsecmd` returns, each word of the tree is a range of the
line that was read, and the C string at its first character is the text of that range. -/
theorem parsecmd_keeps_tokens (s : CString) {cmd : Cmd Word} {buf : Buffer} (h : parsecmd s.chars = .ok (cmd, buf)) :
    ∀ w ∈ cmd.words, w.1 <:+ s.chars ∧ w.2 <:+ w.1 ∧ buf.string w.1 = w.text := by
  obtain ⟨hbuf, t, -, hreps⟩ := (parsecmd_reps s).of_ok h
  change buf = nulterminate cmd (s.chars ++ ['\x00']) at hbuf
  intro w hw
  obtain ⟨x, hx⟩ := hreps.words w hw
  refine ⟨hx.suffix, ⟨x, hx.split.symm⟩, ?_⟩
  have hstring : (nulterminate cmd (s.chars ++ ['\x00'])).string w.1 = x := by
    rw [nulterminate_eq]
    exact hx.string s.noNul hreps.words hw
  rw [hx.text, hbuf]
  exact hstring

/-- `a>b;(c|d)&` has no whitespace: each NUL overwrites the symbol after a token -/
theorem parsecmd_keeps_tokens_packed :
    ∃ cmd buf, parsecmd ['a', '>', 'b', ';', '(', 'c', '|', 'd', ')', '&'] = .ok (cmd, buf) ∧
      cmd.words.map Word.text = [['a'], ['b'], ['c'], ['d']] ∧ ∀ w ∈ cmd.words, buf.string w.1 = w.text := by
  have hok : ∃ r, parsecmd ['a', '>', 'b', ';', '(', 'c', '|', 'd', ')', '&'] = .ok r ∧
      r.1.words.map Word.text = [['a'], ['b'], ['c'], ['d']] := by
    refine ⟨_, rfl, ?_⟩
    decide
  obtain ⟨⟨cmd, buf⟩, hok, hwords⟩ := hok
  refine ⟨cmd, buf, hok, hwords, fun w hw => ?_⟩
  exact (parsecmd_keeps_tokens ⟨_, by decide⟩ hok w hw).2.2

end Xv6Threads.Shell
