/-
The bar of bienstein.c: students, bartenders and the cup boy, who pass cups and requests through four bounded buffers.

The buffers are taken as what boundedbuffer.c is for, a bounded queue with an atomic put and pop (`bbPut`, `bbPop`), the
bouncer as a counting semaphore and `cupsem` as a 0/1 cell. The threads run statement by statement in any interleaving;
a statement that blocks returns `none`. `main` creates the cup boy first, the bartenders next and the students last, and
`thread_create` numbers the threads of a process from 1, so student `j` has thread id `B + 2 + j` and takes
`(B + 2 + j) % 5` drinks.

Cups move between places, one at a time:
- `stock`: the number of cups of a kind, over every place a cup can be in. Every statement of every thread keeps it
  (`student_stock`, `bartender_stock`, `cupboy_stock`), so it stays what it was when `main` had filled `CBB`.
- `bar_conserves`: each cup is in exactly one place, at most `M` students are in the bar, and a put on `CBB` or `DBB`
  finds room.
Whether the bar can get stuck is in `User.BarDeadlock`.
-/
import Xv6Threads.Core.Runs
import Xv6Threads.Core.Tally

namespace Xv6Threads.Bar

open Xv6Threads.Core

/-! ## Model -/

/-- a put on a bounded queue; `none` if it is full -/
def bbPut {α : Type} (size : ℕ) (bb : List α) (element : α) : Option (List α) :=
  if bb.length < size then some (bb ++ [element]) else none

/-- a pop; `none` if the queue is empty -/
def bbPop {α : Type} : List α → Option (α × List α)
  | [] => none
  | item :: bb => some (item, bb)

/-- `struct Action` -/
inductive Action (C : ℕ) where
  | getDrink (tid : ℕ)
  | putDrink (cup : Fin C) (tid : ℕ)
deriving DecidableEq, Repr

/-- the statements of `student_func`, with the locals `i` and `cup` -/
inductive StudentPc (C : ℕ) where
  | enterBar
  | test (i : ℕ)
  | placeGet (i : ℕ)
  | getDrink (i : ℕ)
  | drink (i : ℕ) (cup : Fin C)
  | placePut (i : ℕ) (cup : Fin C)
  | leaveBar (i : ℕ)
  | threadExit (i : ℕ)
  | gone (i : ℕ)
deriving DecidableEq, Repr

/-- the statements of `bartender_func`; `check` reads `DBB->full->value` and compares, `signal` is
`binary_semaphore_up(cupsem)` -/
inductive BartenderPc (C : ℕ) where
  | getAction
  | getCleanCup
  | serveDrink (cup : Fin C)
  | returnCup (cup : Fin C)
  | check
  | signal
deriving DecidableEq, Repr

/-- the statements of `cupboy_func`, with the locals `n`, `i` and `cup` -/
inductive CupboyPc (C : ℕ) where
  | readFull
  | test (n i : ℕ)
  | washDirty (n i : ℕ)
  | dry (n i : ℕ) (cup : Fin C)
  | addCleanCup (n i : ℕ) (cup : Fin C)
  | down
deriving DecidableEq, Repr

structure St (C S B : ℕ) where
  bouncer : ℕ
  cupsem : Bool
  abb : List (Action C)
  drinkBB : List (Fin C)
  cbb : List (Fin C)
  dbb : List (Fin C)
  student : Fin S → StudentPc C
  bartender : Fin B → BartenderPc C
  cupboy : CupboyPc C

/-- who runs next -/
inductive Thread (S B : ℕ) where
  | student (j : Fin S)
  | bartender (b : Fin B)
  | cupboy
deriving DecidableEq, Repr

/-- the thread id of a student -/
def tid (B : ℕ) {S : ℕ} (j : Fin S) : ℕ := B + 2 + j

/-- how often a student drinks -/
def drinks (B : ℕ) {S : ℕ} (j : Fin S) : ℕ := tid B j % 5

/-- `n/bufSize >= 0.6`: with operands of int size the quotient of doubles compares with 0.6 as the fractions do -/
def dirtyEnough (n bufSize : ℕ) : Prop := 3 * bufSize ≤ 5 * n

instance decidableDirtyEnough (n bufSize : ℕ) : Decidable (dirtyEnough n bufSize) := Nat.decLe _ _

variable {C S B : ℕ}

def St.moveStudent (s : St C S B) (j : Fin S) (c : StudentPc C) : St C S B :=
  { s with student := Function.update s.student j c }

def St.moveBartender (s : St C S B) (b : Fin B) (c : BartenderPc C) : St C S B :=
  { s with bartender := Function.update s.bartender b c }

/-- the next statement of a student -/
def studentFunc (A : ℕ) (s : St C S B) (j : Fin S) : Option (St C S B) :=
  match s.student j with
  | .enterBar => if 0 < s.bouncer then some ({ s with bouncer := s.bouncer - 1 }.moveStudent j (.test 0)) else none
  | .test i => some (s.moveStudent j (if i < drinks B j then .placeGet i else .leaveBar i))
  | .placeGet i =>
    (bbPut A s.abb (.getDrink (tid B j))).map fun abb => { s with abb := abb }.moveStudent j (.getDrink i)
  | .getDrink i => (bbPop s.drinkBB).map fun r => { s with drinkBB := r.2 }.moveStudent j (.drink i r.1)
  | .drink i cup => some (s.moveStudent j (.placePut i cup))
  | .placePut i cup =>
    (bbPut A s.abb (.putDrink cup (tid B j))).map fun abb => { s with abb := abb }.moveStudent j (.test (i + 1))
  | .leaveBar i => some ({ s with bouncer := s.bouncer + 1 }.moveStudent j (.threadExit i))
  | .threadExit i => some (s.moveStudent j (.gone i))
  | .gone _ => none

/-- the next statement of a bartender -/
def bartenderFunc (A : ℕ) (s : St C S B) (b : Fin B) : Option (St C S B) :=
  match s.bartender b with
  | .getAction =>
    (bbPop s.abb).map fun r =>
      match r.1 with
      | .getDrink _ => { s with abb := r.2 }.moveBartender b .getCleanCup
      | .putDrink cup _ => { s with abb := r.2 }.moveBartender b (.returnCup cup)
  | .getCleanCup => (bbPop s.cbb).map fun r => { s with cbb := r.2 }.moveBartender b (.serveDrink r.1)
  | .serveDrink cup =>
    (bbPut A s.drinkBB cup).map fun drinkBB => { s with drinkBB := drinkBB }.moveBartender b .getAction
  | .returnCup cup => (bbPut C s.dbb cup).map fun dbb => { s with dbb := dbb }.moveBartender b .check
  | .check => some (s.moveBartender b (if dirtyEnough s.dbb.length C then .signal else .getAction))
  | .signal => some ({ s with cupsem := true }.moveBartender b .getAction)

/-- the next statement of the cup boy -/
def cupboyFunc (s : St C S B) : Option (St C S B) :=
  match s.cupboy with
  | .readFull => some { s with cupboy := .test s.dbb.length 0 }
  | .test n i => some { s with cupboy := if i < n then .washDirty n i else .down }
  | .washDirty n i => (bbPop s.dbb).map fun r => { s with dbb := r.2, cupboy := .dry n i r.1 }
  | .dry n i cup => some { s with cupboy := .addCleanCup n i cup }
  | .addCleanCup n i cup => (bbPut C s.cbb cup).map fun cbb => { s with cbb := cbb, cupboy := .test n (i + 1) }
  | .down => if s.cupsem then some { s with cupsem := false, cupboy := .readFull } else none

/-- the next statement of a thread; `none` if it blocks or the thread has gone -/
def exec (A : ℕ) (s : St C S B) : Thread S B → Option (St C S B)
  | .student j => studentFunc A s j
  | .bartender b => bartenderFunc A s b
  | .cupboy => cupboyFunc s

def step (A : ℕ) (s : St C S B) (t : Thread S B) : St C S B := (exec A s t).getD s

/-- the bar when `main` has created the buffers and the threads, with every cup in `CBB` -/
def start (M C S B : ℕ) : St C S B :=
  { bouncer := M, cupsem := true, abb := [], drinkBB := [], cbb := List.finRange C, dbb := [],
    student := fun _ => .enterBar, bartender := fun _ => .getAction, cupboy := .readFull }

/-! ## Where the cups are -/

/-- the cup that travels with a request -/
def Action.cup : Action C → Option (Fin C)
  | .getDrink _ => none
  | .putDrink cup _ => some cup

/-- the cup in a student's hand -/
def StudentPc.cup : StudentPc C → Option (Fin C)
  | .drink _ cup | .placePut _ cup => some cup
  | _ => none

/-- the cup in a bartender's hand, as such or with the request that brings it back -/
def BartenderPc.cup : BartenderPc C → Option (Fin C)
  | .serveDrink cup | .returnCup cup => some cup
  | _ => none

/-- the cup in the cup boy's hand -/
def CupboyPc.cup : CupboyPc C → Option (Fin C)
  | .dry _ _ cup | .addCleanCup _ _ cup => some cup
  | _ => none

/-- 1 for a hand with a cup of the kind `p` -/
def inHand (p : Fin C → Bool) (h : Option (Fin C)) : ℤ := if h.any p then 1 else 0

/-- the cups of the kind `p`, over all places -/
def stock (p : Fin C → Bool) (s : St C S B) : ℤ :=
  s.cbb.countP p + s.drinkBB.countP p + s.dbb.countP p + s.abb.countP (fun a => a.cup.any p)
    + tally (fun c => inHand p c.cup) s.student + tally (fun c => inHand p c.cup) s.bartender
    + inHand p s.cupboy.cup

/-- 1 between `enter_bar` and `leave_bar` -/
def StudentPc.inside : StudentPc C → ℤ
  | .enterBar | .threadExit _ | .gone _ => 0
  | _ => 1

/-! ## One statement -/

theorem bbPut_eq_some {α : Type} {size : ℕ} {bb bb' : List α} {x : α} (h : bbPut size bb x = some bb') :
    bb.length < size ∧ bb' = bb ++ [x] := by
  unfold bbPut at h
  split_ifs at h with hlt
  · exact ⟨hlt, (Option.some.inj h).symm⟩

theorem bbPop_eq_some {α : Type} {bb : List α} {r : α × List α} (h : bbPop bb = some r) : bb = r.1 :: r.2 := by
  cases bb with
  | nil => exact absurd h (by simp [bbPop])
  | cons x bb =>
    cases h
    rfl

/-- what a statement of a student can do -/
inductive StudentMove (A : ℕ) (s : St C S B) (j : Fin S) : St C S B → Prop
  | enter (hpc : s.student j = .enterBar) (h : 0 < s.bouncer) :
    StudentMove A s j ({ s with bouncer := s.bouncer - 1 }.moveStudent j (.test 0))
  | again (i : ℕ) (hpc : s.student j = .test i) (h : i < drinks B j) : StudentMove A s j (s.moveStudent j (.placeGet i))
  | enough (i : ℕ) (hpc : s.student j = .test i) (h : ¬ i < drinks B j) : StudentMove A s j (s.moveStudent j (.leaveBar i))
  | placeGet (i : ℕ) (hpc : s.student j = .placeGet i) (h : s.abb.length < A) :
    StudentMove A s j ({ s with abb := s.abb ++ [Action.getDrink (tid B j)] }.moveStudent j (.getDrink i))
  | getDrink (i : ℕ) (cup : Fin C) (rest : List (Fin C)) (hpc : s.student j = .getDrink i) (h : s.drinkBB = cup :: rest) :
    StudentMove A s j ({ s with drinkBB := rest }.moveStudent j (.drink i cup))
  | drink (i : ℕ) (cup : Fin C) (hpc : s.student j = .drink i cup) : StudentMove A s j (s.moveStudent j (.placePut i cup))
  | placePut (i : ℕ) (cup : Fin C) (hpc : s.student j = .placePut i cup) (h : s.abb.length < A) :
    StudentMove A s j ({ s with abb := s.abb ++ [Action.putDrink cup (tid B j)] }.moveStudent j (.test (i + 1)))
  | leave (i : ℕ) (hpc : s.student j = .leaveBar i) :
    StudentMove A s j ({ s with bouncer := s.bouncer + 1 }.moveStudent j (.threadExit i))
  | exit (i : ℕ) (hpc : s.student j = .threadExit i) : StudentMove A s j (s.moveStudent j (.gone i))

/-- what a statement of a bartender can do -/
inductive BartenderMove (A : ℕ) (s : St C S B) (b : Fin B) : St C S B → Prop
  | takeGet (t : ℕ) (rest : List (Action C)) (hpc : s.bartender b = .getAction) (h : s.abb = .getDrink t :: rest) :
    BartenderMove A s b ({ s with abb := rest }.moveBartender b .getCleanCup)
  | takePut (cup : Fin C) (t : ℕ) (rest : List (Action C)) (hpc : s.bartender b = .getAction)
    (h : s.abb = .putDrink cup t :: rest) : BartenderMove A s b ({ s with abb := rest }.moveBartender b (.returnCup cup))
  | getCleanCup (cup : Fin C) (rest : List (Fin C)) (hpc : s.bartender b = .getCleanCup) (h : s.cbb = cup :: rest) :
    BartenderMove A s b ({ s with cbb := rest }.moveBartender b (.serveDrink cup))
  | serveDrink (cup : Fin C) (hpc : s.bartender b = .serveDrink cup) (h : s.drinkBB.length < A) :
    BartenderMove A s b ({ s with drinkBB := s.drinkBB ++ [cup] }.moveBartender b .getAction)
  | returnCup (cup : Fin C) (hpc : s.bartender b = .returnCup cup) (h : s.dbb.length < C) :
    BartenderMove A s b ({ s with dbb := s.dbb ++ [cup] }.moveBartender b .check)
  | dirty (hpc : s.bartender b = .check) (h : dirtyEnough s.dbb.length C) :
    BartenderMove A s b (s.moveBartender b .signal)
  | notYet (hpc : s.bartender b = .check) (h : ¬ dirtyEnough s.dbb.length C) :
    BartenderMove A s b (s.moveBartender b .getAction)
  | signal (hpc : s.bartender b = .signal) : BartenderMove A s b ({ s with cupsem := true }.moveBartender b .getAction)

/-- what a statement of the cup boy can do -/
inductive CupboyMove (s : St C S B) : St C S B → Prop
  | readFull (hpc : s.cupboy = .readFull) : CupboyMove s { s with cupboy := .test s.dbb.length 0 }
  | again (n i : ℕ) (hpc : s.cupboy = .test n i) (h : i < n) : CupboyMove s { s with cupboy := .washDirty n i }
  | done (n i : ℕ) (hpc : s.cupboy = .test n i) (h : ¬ i < n) : CupboyMove s { s with cupboy := .down }
  | washDirty (n i : ℕ) (cup : Fin C) (rest : List (Fin C)) (hpc : s.cupboy = .washDirty n i) (h : s.dbb = cup :: rest) :
    CupboyMove s { s with dbb := rest, cupboy := .dry n i cup }
  | dry (n i : ℕ) (cup : Fin C) (hpc : s.cupboy = .dry n i cup) : CupboyMove s { s with cupboy := .addCleanCup n i cup }
  | addCleanCup (n i : ℕ) (cup : Fin C) (hpc : s.cupboy = .addCleanCup n i cup) (h : s.cbb.length < C) :
    CupboyMove s { s with cbb := s.cbb ++ [cup], cupboy := .test n (i + 1) }
  | down (hpc : s.cupboy = .down) (h : s.cupsem = true) : CupboyMove s { s with cupsem := false, cupboy := .readFull }

section Steps

variable {A : ℕ} {s s' : St C S B}

theorem studentFunc_move {j : Fin S} (h : studentFunc A s j = some s') : StudentMove A s j s' := by
  unfold studentFunc at h
  split at h
  next hpc =>
    split_ifs at h with hb
    cases h
    exact .enter hpc hb
  next i hpc =>
    cases h
    split_ifs with hi
    · exact .again i hpc hi
    · exact .enough i hpc hi
  next i hpc =>
    obtain ⟨_, hput, rfl⟩ := Option.map_eq_some_iff.1 h
    obtain ⟨hlt, rfl⟩ := bbPut_eq_some hput
    exact .placeGet i hpc hlt
  next i hpc =>
    obtain ⟨r, hpop, rfl⟩ := Option.map_eq_some_iff.1 h
    exact .getDrink i r.1 r.2 hpc (bbPop_eq_some hpop)
  next i cup hpc =>
    cases h
    exact .drink i cup hpc
  next i cup hpc =>
    obtain ⟨_, hput, rfl⟩ := Option.map_eq_some_iff.1 h
    obtain ⟨hlt, rfl⟩ := bbPut_eq_some hput
    exact .placePut i cup hpc hlt
  next i hpc =>
    cases h
    exact .leave i hpc
  next i hpc =>
    cases h
    exact .exit i hpc
  next => cases h

theorem bartenderFunc_move {b : Fin B} (h : bartenderFunc A s b = some s') : BartenderMove A s b s' := by
  unfold bartenderFunc at h
  split at h
  next hpc =>
    obtain ⟨⟨a, rest⟩, hpop, rfl⟩ := Option.map_eq_some_iff.1 h
    cases a with
    | getDrink t => exact .takeGet t rest hpc (bbPop_eq_some hpop)
    | putDrink cup t => exact .takePut cup t rest hpc (bbPop_eq_some hpop)
  next hpc =>
    obtain ⟨r, hpop, rfl⟩ := Option.map_eq_some_iff.1 h
    exact .getCleanCup r.1 r.2 hpc (bbPop_eq_some hpop)
  next cup hpc =>
    obtain ⟨_, hput, rfl⟩ := Option.map_eq_some_iff.1 h
    obtain ⟨hlt, rfl⟩ := bbPut_eq_some hput
    exact .serveDrink cup hpc hlt
  next cup hpc =>
    obtain ⟨_, hput, rfl⟩ := Option.map_eq_some_iff.1 h
    obtain ⟨hlt, rfl⟩ := bbPut_eq_some hput
    exact .returnCup cup hpc hlt
  next hpc =>
    cases h
    split_ifs with hd
    · exact .dirty hpc hd
    · exact .notYet hpc hd
  next hpc =>
    cases h
    exact .signal hpc

theorem cupboyFunc_move (h : cupboyFunc s = some s') : CupboyMove s s' := by
  unfold cupboyFunc at h
  split at h
  next hpc =>
    cases h
    exact .readFull hpc
  next n i hpc =>
    cases h
    split_ifs with hi
    · exact .again n i hpc hi
    · exact .done n i hpc hi
  next n i hpc =>
    obtain ⟨r, hpop, rfl⟩ := Option.map_eq_some_iff.1 h
    exact .washDirty n i r.1 r.2 hpc (bbPop_eq_some hpop)
  next n i cup hpc =>
    cases h
    exact .dry n i cup hpc
  next n i cup hpc =>
    obtain ⟨_, hput, rfl⟩ := Option.map_eq_some_iff.1 h
    obtain ⟨hlt, rfl⟩ := bbPut_eq_some hput
    exact .addCleanCup n i cup hpc hlt
  next hpc =>
    split_ifs at h with hc
    cases h
    exact .down hpc hc

/-- **Induction over the statements of the bar.** What each statement of each thread keeps, every run keeps. -/
theorem step_keeps {I : St C S B → Prop} (hstudent : ∀ s s' j, StudentMove A s j s' → I s → I s')
    (hbartender : ∀ s s' b, BartenderMove A s b s' → I s → I s') (hcupboy : ∀ s s', CupboyMove s s' → I s → I s')
    (s : St C S B) (t : Thread S B) (h : I s) : I (step A s t) := by
  unfold step
  cases hex : exec A s t with
  | none => exact h
  | some s' =>
    cases t with
    | student j => exact hstudent s s' j (studentFunc_move hex) h
    | bartender b => exact hbartender s s' b (bartenderFunc_move hex) h
    | cupboy => exact hcupboy s s' (cupboyFunc_move hex) h

/-! ## Cups and students are conserved -/

@[simp] theorem inHand_none (p : Fin C → Bool) : inHand p none = 0 := rfl

@[simp] theorem inHand_some (p : Fin C → Bool) (cup : Fin C) : inHand p (some cup) = if p cup then 1 else 0 := by
  simp [inHand]

theorem student_stock (p : Fin C → Bool) {j : Fin S} (h : StudentMove A s j s') : stock p s' = stock p s := by
  cases h with
  | enter hpc | again i hpc | enough i hpc | placeGet i hpc | drink i cup hpc | leave i hpc | exit i hpc =>
    simp [stock, St.moveStudent, tally_move, hpc, StudentPc.cup, Action.cup]
  | getDrink i cup rest hpc h =>
    simp only [stock, St.moveStudent, tally_move, hpc, StudentPc.cup, h, List.countP_cons, inHand_some, inHand_none]
    split_ifs <;> omega
  | placePut i cup hpc h =>
    simp only [stock, St.moveStudent, tally_move, hpc, StudentPc.cup, Action.cup, List.countP_append,
      List.countP_singleton, inHand_some, inHand_none, Option.any_some]
    split_ifs <;> omega

theorem bartender_stock (p : Fin C → Bool) {b : Fin B} (h : BartenderMove A s b s') : stock p s' = stock p s := by
  cases h with
  | takeGet t rest hpc h | dirty hpc h | notYet hpc h | signal hpc =>
    simp [stock, St.moveBartender, tally_move, BartenderPc.cup, Action.cup, *]
  | takePut cup t rest hpc h | getCleanCup cup rest hpc h =>
    simp only [stock, St.moveBartender, tally_move, hpc, BartenderPc.cup, Action.cup, h, List.countP_cons, inHand_some,
      inHand_none, Option.any_some]
    split_ifs <;> omega
  | serveDrink cup hpc h | returnCup cup hpc h =>
    simp only [stock, St.moveBartender, tally_move, hpc, BartenderPc.cup, List.countP_append, List.countP_singleton,
      inHand_some, inHand_none]
    split_ifs <;> omega

theorem cupboy_stock (p : Fin C → Bool) (h : CupboyMove s s') : stock p s' = stock p s := by
  cases h with
  | readFull hpc | again n i hpc h | done n i hpc h | dry n i cup hpc | down hpc h =>
    simp [stock, hpc, CupboyPc.cup]
  | washDirty n i cup rest hpc h =>
    simp only [stock, hpc, CupboyPc.cup, h, List.countP_cons, inHand_some, inHand_none]
    split_ifs <;> omega
  | addCleanCup n i cup hpc h =>
    simp only [stock, hpc, CupboyPc.cup, List.countP_append, List.countP_singleton, inHand_some, inHand_none]
    split_ifs <;> omega

/-- the bouncer's count and the students inside add up to `M` -/
def Door (M : ℕ) (s : St C S B) : Prop := s.bouncer + tally StudentPc.inside s.student = M

theorem student_door {M : ℕ} {j : Fin S} (h : StudentMove A s j s') (hd : Door M s) : Door M s' := by
  unfold Door at hd ⊢
  cases h with
  | enter hpc hb | again i hpc | enough i hpc | placeGet i hpc | getDrink i cup rest hpc | drink i cup hpc
  | placePut i cup hpc | leave i hpc | exit i hpc =>
    simp only [St.moveStudent, tally_move, hpc, StudentPc.inside]
    omega

/-- what `main` set up is kept -/
structure Conserved (M : ℕ) (s : St C S B) : Prop where
  cups : ∀ p, stock p s = ((List.finRange C).countP p : ℕ)
  door : Door M s

theorem start_conserved (M C S B : ℕ) : Conserved M (start M C S B) where
  cups p := by
    have h1 : tally (fun c => inHand p c.cup) (start M C S B).student = 0 := tally_eq_zero fun _ => rfl
    have h2 : tally (fun c => inHand p c.cup) (start M C S B).bartender = 0 := tally_eq_zero fun _ => rfl
    simp only [stock, h1, h2]
    simp [start, CupboyPc.cup]
  door := by
    have h1 : tally StudentPc.inside (start M C S B).student = 0 := tally_eq_zero fun _ => rfl
    rw [Door, h1, add_zero]
    rfl

theorem step_conserved {M : ℕ} (s : St C S B) (t : Thread S B) (h : Conserved M s) : Conserved M (step A s t) := by
  apply step_keeps (I := Conserved M) ?_ ?_ ?_ s t h
  · intro s s' j hmove h
    exact ⟨fun p => (student_stock p hmove).trans (h.cups p), student_door hmove h.door⟩
  · intro s s' b hmove h
    refine ⟨fun p => (bartender_stock p hmove).trans (h.cups p), ?_⟩
    cases hmove <;> exact h.door
  · intro s s' hmove h
    refine ⟨fun p => (cupboy_stock p hmove).trans (h.cups p), ?_⟩
    cases hmove <;> exact h.door

/-- the invariant holds in every state the bar reaches -/
theorem reach_conserved (M A C S B : ℕ) (sched : List (Thread S B)) : Conserved M (run (step A) (start M C S B) sched) :=
  run_inv (I := Conserved M) step_conserved (start_conserved M C S B) sched

/-! ## Room for every cup -/

theorem inHand_nonneg (p : Fin C → Bool) (h : Option (Fin C)) : 0 ≤ inHand p h := by
  unfold inHand
  split_ifs <;> decide

/-- all cups, counted by place -/
theorem Conserved.total {M : ℕ} (h : Conserved M s) :
    (s.cbb.length + s.drinkBB.length + s.dbb.length : ℤ) + s.abb.countP (fun a => a.cup.isSome)
      + tally (fun c => inHand (fun _ => true) c.cup) s.student
      + tally (fun c => inHand (fun _ => true) c.cup) s.bartender + inHand (fun _ => true) s.cupboy.cup = C := by
  have htotal := h.cups fun _ => true
  simp only [stock, List.countP_true, List.length_finRange, Option.any_true] at htotal
  exact htotal

/-- **A clean cup finds room in `CBB`.** -/
theorem Conserved.cbb_room {M : ℕ} (h : Conserved M s) {n i : ℕ} {cup : Fin C} (hpc : s.cupboy = .addCleanCup n i cup) :
    s.cbb.length < C := by
  have htotal := h.total
  have h1 := tally_nonneg (fun c => inHand_nonneg (fun _ => true) (StudentPc.cup c)) s.student
  have h2 := tally_nonneg (fun c => inHand_nonneg (fun _ => true) (BartenderPc.cup c)) s.bartender
  have hand : inHand (fun _ => true) s.cupboy.cup = 1 := by rw [hpc]; rfl
  omega

/-- **A returned cup finds room in `DBB`.** -/
theorem Conserved.dbb_room {M : ℕ} (h : Conserved M s) {b : Fin B} {cup : Fin C}
    (hpc : s.bartender b = .returnCup cup) : s.dbb.length < C := by
  have htotal := h.total
  have h1 := tally_nonneg (fun c => inHand_nonneg (fun _ => true) (StudentPc.cup c)) s.student
  have h2 := le_tally (fun c => inHand_nonneg (fun _ => true) (BartenderPc.cup c)) s.bartender b
  have h3 := inHand_nonneg (fun _ => true) s.cupboy.cup
  have hand : inHand (fun _ => true) (s.bartender b).cup = 1 := by rw [hpc]; rfl
  omega

theorem isSome_bbPut {α : Type} {size : ℕ} {bb : List α} (x : α) (h : bb.length < size) :
    (bbPut size bb x).isSome = true := by
  rw [bbPut, if_pos h]
  rfl

end Steps

/-- **The bar keeps its cups and its door.** In every state the bar reaches, each cup is in exactly one place, at most
`M` students are between `enter_bar` and `leave_bar`, and neither the cup boy's put on `CBB` nor a bartender's put on
`DBB` blocks. -/
theorem bar_conserves (M A C S B : ℕ) (sched : List (Thread S B)) :
    let s := run (step A) (start M C S B) sched
    (∀ cup, stock (· == cup) s = 1) ∧ tally StudentPc.inside s.student ≤ M ∧
    (∀ n i cup, s.cupboy = .addCleanCup n i cup → (bbPut C s.cbb cup).isSome = true) ∧
    (∀ b cup, s.bartender b = .returnCup cup → (bbPut C s.dbb cup).isSome = true) := by
  intro s
  have h : Conserved M s := reach_conserved M A C S B sched
  refine ⟨?_, ?_, ?_, ?_⟩
  · intro cup
    have hone : (List.finRange C).countP (· == cup) = 1 :=
      List.count_eq_one_of_mem (List.nodup_finRange C) (List.mem_finRange cup)
    rw [h.cups, hone]
    rfl
  · have hdoor := h.door
    unfold Door at hdoor
    omega
  · intro n i cup hpc
    exact isSome_bbPut cup (h.cbb_room hpc)
  · intro b cup hpc
    exact isSome_bbPut cup (h.dbb_room hpc)

end Xv6Threads.Bar
