/-
When the bar of bienstein.c can get stuck, and when it cannot.

A bartender that has taken a request for a drink waits for a clean cup and does nothing else, also when the cups it waits
for are on their way back behind it in `ABB`; and the cup boy is woken only when 0.6 of all cups are dirty. If every
bartender waits like that and fewer cups are dirty, nobody moves again.

How far the bar is from that is a matter of counting:
- `Orders`: the students who wait for a drink are the requests in the queue, with the bartenders and on `DrinkBB`.
- `Front`: a request that was taken, a cup that is out and a return that is still queued belong to different students;
  this uses that `ABB` is a queue.
- `Taken`: every cup that is not in `CBB` was asked for, and so was every cup a bartender waits for.
- `Woken`: if enough cups are dirty, somebody is about to wake the cup boy, or it is awake.
- `bar_not_stuck`: a bar whose numbers rule the stuck state out always has a thread that can run.
- `bar_stuck`: a small bar that does get stuck.
-/
import Xv6Threads.User.Bar

namespace Xv6Threads.Bar

open Xv6Threads.Core Function

variable {C S B : ℕ}

/-! ## What is counted -/

def Action.isGet : Action C → Bool
  | .getDrink _ => true
  | .putDrink _ _ => false

/-- requests for a drink -/
def gets (q : List (Action C)) : ℕ := q.countP Action.isGet

/-- requests that bring a cup back -/
def puts (q : List (Action C)) : ℕ := q.countP fun a => a.cup.isSome

/-- 1 for a student that waits for a drink -/
def StudentPc.waits : StudentPc C → ℤ
  | .getDrink _ => 1
  | _ => 0

/-- 1 for a student with a cup -/
def StudentPc.holds (c : StudentPc C) : ℤ := inHand (fun _ => true) c.cup

/-- the requests for a drink that a student has placed -/
def StudentPc.placed : StudentPc C → ℤ
  | .enterBar => 0
  | .getDrink i | .drink i _ | .placePut i _ => i + 1
  | .test i | .placeGet i | .leaveBar i | .threadExit i | .gone i => i

/-- the least number of drinks with which a student comes to this statement -/
def StudentPc.least : StudentPc C → ℕ
  | .enterBar => 0
  | .placeGet i | .getDrink i | .drink i _ | .placePut i _ => i + 1
  | .test i | .leaveBar i | .threadExit i | .gone i => i

/-- 1 for a bartender that waits for a clean cup -/
def BartenderPc.hasGet : BartenderPc C → ℤ
  | .getCleanCup => 1
  | _ => 0

/-- 1 for a bartender with a drink -/
def BartenderPc.serves : BartenderPc C → ℤ
  | .serveDrink _ => 1
  | _ => 0

/-- the cups the cup boy has still to wash in this round -/
def CupboyPc.left : CupboyPc C → ℕ
  | .test n i | .washDirty n i => n - i
  | .dry n i _ | .addCleanCup n i _ => n - (i + 1)
  | .readFull | .down => 0

/-- requests taken and not finished, and cups that are out -/
def out (s : St C S B) : ℤ :=
  tally BartenderPc.hasGet s.bartender + tally BartenderPc.serves s.bartender + s.drinkBB.length
    + tally StudentPc.holds s.student

/-! ## The invariants -/

def Orders (s : St C S B) : Prop :=
  tally StudentPc.waits s.student =
    gets s.abb + tally BartenderPc.hasGet s.bartender + s.drinkBB.length + tally BartenderPc.serves s.bartender

def Bounds (s : St C S B) : Prop := ∀ j, (s.student j).least ≤ drinks B j

def Front (L : ℕ) (s : St C S B) : Prop :=
  ∀ q₁ a q₂, s.abb = q₁ ++ a :: q₂ → (gets q₁ + puts (a :: q₂) : ℤ) + out s ≤ L

def Taken (s : St C S B) : Prop :=
  (C + gets s.abb : ℤ) + tally BartenderPc.hasGet s.bartender ≤ s.cbb.length + tally StudentPc.placed s.student

/-- a bartender that is about to wake the cup boy, or to look whether to -/
def BartenderPc.mindful : BartenderPc C → Prop
  | .check | .signal => True
  | _ => False

def Woken (s : St C S B) : Prop :=
  dirtyEnough (s.dbb.length - s.cupboy.left) C →
    s.cupsem = true ∨ (∃ b, (s.bartender b).mindful) ∨ s.cupboy = .readFull

/-- the cup boy washes what was there when it looked -/
structure Washing (s : St C S B) : Prop where
  left_le : s.cupboy.left ≤ s.dbb.length
  wash : ∀ n i, s.cupboy = .washDirty n i → i < n

/-- the students that drink at all -/
def drinkers (B S : ℕ) : ℕ := (Finset.univ.filter fun j : Fin S => drinks B j ≠ 0).card

/-- all drinks of all students -/
def allDrinks (B S : ℕ) : ℕ := ∑ j : Fin S, drinks B j

/-- how many students can be between a request and the return of its cup -/
def atMost (M B S : ℕ) : ℕ := min M (drinkers B S)

structure Flow (M : ℕ) (s : St C S B) : Prop where
  conserved : Conserved M s
  orders : Orders s
  bounds : Bounds s
  front : Front (atMost M B S) s
  taken : Taken s
  woken : Woken s
  washing : Washing s

theorem waits_nonneg (c : StudentPc C) : 0 ≤ c.waits := by
  cases c <;> simp [StudentPc.waits]

theorem hasGet_nonneg (c : BartenderPc C) : 0 ≤ c.hasGet := by
  cases c <;> simp [BartenderPc.hasGet]

theorem serves_nonneg (c : BartenderPc C) : 0 ≤ c.serves := by
  cases c <;> simp [BartenderPc.serves]

/-! ## Bounds on the students between a request and a return -/

theorem waits_holds_le_inside (c : StudentPc C) : c.waits + c.holds ≤ c.inside := by
  cases c <;> simp [StudentPc.waits, StudentPc.holds, StudentPc.inside, StudentPc.cup]

theorem busy_le_door {M : ℕ} {s : St C S B} (h : Door M s) :
    tally StudentPc.waits s.student + tally StudentPc.holds s.student ≤ M := by
  have hle : tally (fun c => StudentPc.waits c + StudentPc.holds c) s.student ≤ tally StudentPc.inside s.student :=
    tally_le_tally waits_holds_le_inside s.student
  rw [tally_add]
  unfold Door at h
  omega

theorem busy_le_drinkers {s : St C S B} (h : Bounds s) :
    tally StudentPc.waits s.student + tally StudentPc.holds s.student ≤ drinkers B S := by
  rw [tally_add, drinkers, Finset.card_filter]
  push_cast
  apply Finset.sum_le_sum
  intro j _
  have hj := h j
  cases hpc : s.student j <;>
    simp only [hpc, StudentPc.least, StudentPc.waits, StudentPc.holds, StudentPc.cup, inHand_none, inHand_some] at hj ⊢ <;>
    split_ifs <;> omega

/-- the whole queue at once: the requests in it belong to students who wait -/
theorem gets_out_le {M : ℕ} {s : St C S B} (hd : Door M s) (ho : Orders s) (hb : Bounds s) :
    gets s.abb + out s ≤ atMost M B S := by
  have h1 := busy_le_door hd
  have h2 := busy_le_drinkers hb
  unfold Orders at ho
  unfold out atMost
  omega

/-! ## One statement -/

section Steps

variable {A : ℕ} {s s' : St C S B}

@[simp] theorem gets_nil : gets ([] : List (Action C)) = 0 := rfl

@[simp] theorem puts_nil : puts ([] : List (Action C)) = 0 := rfl

@[simp] theorem gets_append (q₁ q₂ : List (Action C)) : gets (q₁ ++ q₂) = gets q₁ + gets q₂ := List.countP_append

@[simp] theorem puts_append (q₁ q₂ : List (Action C)) : puts (q₁ ++ q₂) = puts q₁ + puts q₂ := List.countP_append

@[simp] theorem gets_cons_get (t : ℕ) (q : List (Action C)) : gets (.getDrink t :: q) = gets q + 1 :=
  List.countP_cons_of_pos rfl

@[simp] theorem gets_cons_put (cup : Fin C) (t : ℕ) (q : List (Action C)) : gets (.putDrink cup t :: q) = gets q := by
  simp [gets, Action.isGet]

@[simp] theorem puts_cons_get (t : ℕ) (q : List (Action C)) : puts (.getDrink t :: q) = puts q := by
  simp [puts, Action.cup]

@[simp] theorem puts_cons_put (cup : Fin C) (t : ℕ) (q : List (Action C)) :
    puts (.putDrink cup t :: q) = puts q + 1 := by
  simp [puts, Action.cup]

theorem student_orders {j : Fin S} (h : StudentMove A s j s') (ho : Orders s) : Orders s' := by
  unfold Orders at ho ⊢
  cases h with
  | enter hpc | again i hpc | enough i hpc | drink i cup hpc | placePut i cup hpc | leave i hpc | exit i hpc =>
    simpa [St.moveStudent, tally_move, hpc, StudentPc.waits] using ho
  | placeGet i hpc h =>
    simp only [St.moveStudent, tally_move, hpc, StudentPc.waits, gets_append, gets_cons_get, gets_nil]
    omega
  | getDrink i cup rest hpc h =>
    simp only [h, List.length_cons] at ho
    simp only [St.moveStudent, tally_move, hpc, StudentPc.waits]
    omega

theorem bartender_orders {b : Fin B} (h : BartenderMove A s b s') (ho : Orders s) : Orders s' := by
  unfold Orders at ho ⊢
  cases h with
  | takeGet t rest hpc h | takePut cup t rest hpc h =>
    simp only [h, gets_cons_get, gets_cons_put] at ho
    simp only [St.moveBartender, tally_move, hpc, BartenderPc.hasGet, BartenderPc.serves]
    omega
  | getCleanCup cup rest hpc h | returnCup cup hpc h | dirty hpc h | notYet hpc h | signal hpc =>
    simp only [St.moveBartender, tally_move, hpc, BartenderPc.hasGet, BartenderPc.serves]
    omega
  | serveDrink cup hpc h =>
    simp only [St.moveBartender, tally_move, hpc, BartenderPc.hasGet, BartenderPc.serves, List.length_append,
      List.length_singleton]
    omega

theorem cupboy_orders (h : CupboyMove s s') (ho : Orders s) : Orders s' := by
  cases h <;> exact ho

/-- a student stays within its drinks: it asks for another one only below `tid % 5` -/
theorem student_bounds {j : Fin S} (h : StudentMove A s j s') (hb : Bounds s) : Bounds s' := by
  have hj := hb j
  have hmove : ∀ c : StudentPc C, c.least ≤ drinks B j → ∀ k, (update s.student j c k).least ≤ drinks B k := by
    intro c hc k
    by_cases hk : k = j
    · subst hk
      rwa [update_self]
    · rw [update_of_ne hk]
      exact hb k
  cases h with
  | again i hpc h => exact hmove _ h
  | enter hpc => exact hmove _ (Nat.zero_le _)
  | enough i hpc | placeGet i hpc | getDrink i cup rest hpc | drink i cup hpc | placePut i cup hpc | leave i hpc
  | exit i hpc =>
    rw [hpc] at hj
    exact hmove _ hj

/-- where a queue can be cut after one more element -/
theorem concat_eq_cut {α : Type} {q q₁ q₂ : List α} {x a : α} (h : q ++ [x] = q₁ ++ a :: q₂) :
    (q₁ = q ∧ a = x ∧ q₂ = []) ∨ ∃ q₃, q₂ = q₃ ++ [x] ∧ q = q₁ ++ a :: q₃ := by
  rcases List.eq_nil_or_concat' q₂ with rfl | ⟨q₃, y, rfl⟩
  · obtain ⟨hq, hx⟩ := List.append_inj' h rfl
    exact .inl ⟨hq.symm, (List.singleton_inj.1 hx).symm, rfl⟩
  · rw [← List.cons_append, ← List.append_assoc] at h
    obtain ⟨hq, hx⟩ := List.append_inj' h rfl
    cases List.singleton_inj.1 hx
    exact .inr ⟨q₃, rfl, hq⟩

/-- a student gives a cup away only with a request behind all that is queued -/
theorem student_front {L : ℕ} {j : Fin S} (h : StudentMove A s j s') (hall : gets s.abb + out s ≤ L)
    (hf : Front L s) : Front L s' := by
  intro q₁ a q₂ hq
  cases h with
  | enter hpc | again i hpc | enough i hpc | drink i cup hpc | leave i hpc | exit i hpc =>
    have hold := hf q₁ a q₂ hq
    simpa [out, St.moveStudent, tally_move, hpc, StudentPc.holds, StudentPc.cup] using hold
  | getDrink i cup rest hpc h =>
    have hold := hf q₁ a q₂ hq
    simp only [out, h, List.length_cons] at hold
    simp only [out, St.moveStudent, tally_move, hpc, StudentPc.holds, StudentPc.cup, inHand_none, inHand_some, if_true]
    omega
  | placeGet i hpc h =>
    have hout : out ({ s with abb := s.abb ++ [Action.getDrink (tid B j)] }.moveStudent j (.getDrink i)) = out s := by
      simp [out, St.moveStudent, tally_move, hpc, StudentPc.holds, StudentPc.cup]
    rw [hout]
    rcases concat_eq_cut hq with ⟨rfl, rfl, rfl⟩ | ⟨q₃, rfl, hcut⟩
    · simpa using hall
    · have hold := hf q₁ a q₃ hcut
      simp only [← List.cons_append, puts_append, puts_cons_get, puts_nil]
      omega
  | placePut i cup hpc h =>
    have hout : out ({ s with abb := s.abb ++ [Action.putDrink cup (tid B j)] }.moveStudent j (.test (i + 1)))
        = out s - 1 := by
      simp only [out, St.moveStudent, tally_move, hpc, StudentPc.holds, StudentPc.cup, inHand_none, inHand_some, if_true]
      omega
    rw [hout]
    rcases concat_eq_cut hq with ⟨rfl, rfl, rfl⟩ | ⟨q₃, rfl, hcut⟩
    · simp only [puts_cons_put, puts_nil]
      omega
    · have hold := hf q₁ a q₃ hcut
      simp only [← List.cons_append, puts_append, puts_cons_put, puts_nil]
      omega

/-- a bartender takes from the front, so what it takes was ahead of every cut -/
theorem bartender_front {L : ℕ} {b : Fin B} (h : BartenderMove A s b s') (hf : Front L s) : Front L s' := by
  intro q₁ a q₂ hq
  cases h with
  | takeGet t rest hpc h =>
    have hold := hf (.getDrink t :: q₁) a q₂ (h.trans (congrArg _ hq))
    simp only [out, gets_cons_get] at hold
    simp only [out, St.moveBartender, tally_move, hpc, BartenderPc.hasGet, BartenderPc.serves]
    omega
  | takePut cup t rest hpc h =>
    have hold := hf (.putDrink cup t :: q₁) a q₂ (h.trans (congrArg _ hq))
    simp only [out, gets_cons_put] at hold
    simp only [out, St.moveBartender, tally_move, hpc, BartenderPc.hasGet, BartenderPc.serves]
    omega
  | getCleanCup cup rest hpc h | returnCup cup hpc h | dirty hpc h | notYet hpc h | signal hpc =>
    have hold := hf q₁ a q₂ hq
    simp only [out, St.moveBartender, tally_move, hpc, BartenderPc.hasGet, BartenderPc.serves] at hold ⊢
    omega
  | serveDrink cup hpc h =>
    have hold := hf q₁ a q₂ hq
    simp only [out, St.moveBartender, tally_move, hpc, BartenderPc.hasGet, BartenderPc.serves, List.length_append,
      List.length_singleton] at hold ⊢
    omega

theorem cupboy_front {L : ℕ} (h : CupboyMove s s') (hf : Front L s) : Front L s' := by
  cases h <;> exact hf

theorem student_taken {j : Fin S} (h : StudentMove A s j s') (ht : Taken s) : Taken s' := by
  unfold Taken at ht ⊢
  cases h with
  | placeGet i hpc h | placePut i cup hpc h =>
    simp only [St.moveStudent, tally_move, hpc, StudentPc.placed, gets_append, gets_cons_get, gets_cons_put, gets_nil]
    omega
  | enter hpc | again i hpc | enough i hpc | getDrink i cup rest hpc | drink i cup hpc | leave i hpc | exit i hpc =>
    simp only [St.moveStudent, tally_move, hpc, StudentPc.placed]
    omega

theorem bartender_taken {b : Fin B} (h : BartenderMove A s b s') (ht : Taken s) : Taken s' := by
  unfold Taken at ht ⊢
  cases h with
  | takeGet t rest hpc h | takePut cup t rest hpc h =>
    simp only [h, gets_cons_get, gets_cons_put] at ht
    simp only [St.moveBartender, tally_move, hpc, BartenderPc.hasGet]
    omega
  | getCleanCup cup rest hpc h =>
    simp only [h, List.length_cons] at ht
    simp only [St.moveBartender, tally_move, hpc, BartenderPc.hasGet]
    omega
  | serveDrink cup hpc h | returnCup cup hpc h | dirty hpc h | notYet hpc h | signal hpc =>
    simp only [St.moveBartender, tally_move, hpc, BartenderPc.hasGet]
    omega

theorem cupboy_taken (h : CupboyMove s s') (ht : Taken s) : Taken s' := by
  unfold Taken at ht ⊢
  cases h with
  | addCleanCup n i cup hpc h =>
    simp only [List.length_append, List.length_singleton]
    omega
  | readFull hpc | again n i hpc h | done n i hpc h | washDirty n i cup rest hpc h | dry n i cup hpc | down hpc h =>
    exact ht

theorem dirtyEnough_mono {n m k : ℕ} (hnm : n ≤ m) (h : dirtyEnough n k) : dirtyEnough m k :=
  h.trans (Nat.mul_le_mul_left 5 hnm)

/-- a bartender that was not mindful can move without being missed -/
theorem Woken.move {b : Fin B} {c : BartenderPc C} (hw : Woken s) (hb : ¬ (s.bartender b).mindful)
    (habb : s'.bartender = update s.bartender b c) (hdbb : s'.dbb = s.dbb) (hboy : s'.cupboy = s.cupboy)
    (hsem : s'.cupsem = s.cupsem) : Woken s' := by
  intro hd
  rw [hdbb, hboy] at hd
  rcases hw hd with hup | ⟨b', hb'⟩ | hread
  · exact .inl (hsem.trans hup)
  · have hne : b' ≠ b := fun e => hb (e ▸ hb')
    exact .inr (.inl ⟨b', by rwa [habb, update_of_ne hne]⟩)
  · exact .inr (.inr (hboy.trans hread))

/-- a bartender that brings a dirty cup looks at the count afterwards -/
theorem bartender_woken {b : Fin B} (h : BartenderMove A s b s') (hw : Woken s) : Woken s' := by
  cases h with
  | takeGet t rest hpc h | takePut cup t rest hpc h | getCleanCup cup rest hpc h | serveDrink cup hpc h =>
    exact hw.move (by simp [hpc, BartenderPc.mindful]) rfl rfl rfl rfl
  | returnCup cup hpc h =>
    intro _
    exact .inr (.inl ⟨b, by simp [St.moveBartender, BartenderPc.mindful]⟩)
  | dirty hpc h =>
    intro _
    exact .inr (.inl ⟨b, by simp [St.moveBartender, BartenderPc.mindful]⟩)
  | notYet hpc h =>
    intro hd
    exact absurd (dirtyEnough_mono (Nat.sub_le _ _) hd) h
  | signal hpc =>
    intro _
    exact .inl rfl

/-- within a round the cup boy washes what it set out to wash: the cups it leaves dirty stay the same -/
theorem Woken.round (hw : Woken s) (hpc : s.cupboy ≠ .readFull)
    (hd : s'.dbb.length - s'.cupboy.left = s.dbb.length - s.cupboy.left) (hbar : s'.bartender = s.bartender)
    (hsem : s'.cupsem = s.cupsem) : Woken s' := by
  intro hdirty
  rw [hd] at hdirty
  rcases hw hdirty with hup | ⟨b, hb⟩ | hread
  · exact .inl (hsem.trans hup)
  · exact .inr (.inl ⟨b, hbar ▸ hb⟩)
  · exact absurd hread hpc

/-- the cup boy counts every dirty cup that is there when it looks -/
theorem cupboy_woken (hC : 0 < C) (h : CupboyMove s s') (hwash : Washing s) (hw : Woken s) : Woken s' := by
  cases h with
  | readFull hpc =>
    intro hd
    simp only [CupboyPc.left, dirtyEnough] at hd
    omega
  | down hpc h => exact fun _ => .inr (.inr rfl)
  | again n i hpc h | dry n i cup hpc | addCleanCup n i cup hpc h =>
    refine hw.round (by simp [hpc]) ?_ rfl rfl
    simp only [hpc, CupboyPc.left]
  | done n i hpc h =>
    refine hw.round (by simp [hpc]) ?_ rfl rfl
    simp only [hpc, CupboyPc.left]
    omega
  | washDirty n i cup rest hpc h =>
    have hi := hwash.wash n i hpc
    refine hw.round (by simp [hpc]) ?_ rfl rfl
    simp only [hpc, CupboyPc.left, h, List.length_cons]
    omega

theorem bartender_washing {b : Fin B} (h : BartenderMove A s b s') (hw : Washing s) : Washing s' := by
  cases h with
  | returnCup cup hpc h =>
    refine ⟨hw.left_le.trans ?_, hw.wash⟩
    simp [St.moveBartender]
  | takeGet t rest hpc h | takePut cup t rest hpc h | getCleanCup cup rest hpc h | serveDrink cup hpc h
  | dirty hpc h | notYet hpc h | signal hpc => exact ⟨hw.left_le, hw.wash⟩

theorem cupboy_washing (h : CupboyMove s s') (hw : Washing s) : Washing s' := by
  have hle := hw.left_le
  cases h with
  | readFull hpc | done n i hpc h | dry n i cup hpc | down hpc h | addCleanCup n i cup hpc h =>
    simp only [hpc, CupboyPc.left] at hle
    refine ⟨?_, by simp⟩
    simp only [CupboyPc.left]
    omega
  | again n i hpc h =>
    simp only [hpc, CupboyPc.left] at hle
    refine ⟨hle, ?_⟩
    rintro _ _ ⟨⟩
    exact h
  | washDirty n i cup rest hpc h =>
    have hi := hw.wash n i hpc
    simp only [hpc, CupboyPc.left, h, List.length_cons] at hle
    refine ⟨?_, by simp⟩
    simp only [CupboyPc.left]
    omega

end Steps

/-! ## Every state the bar reaches -/

section Reach

variable {M A : ℕ} {s : St C S B}

theorem student_flow {s' : St C S B} {j : Fin S} (h : StudentMove A s j s') (hf : Flow M s) : Flow M s' where
  conserved := ⟨fun p => (student_stock p h).trans (hf.conserved.cups p), student_door h hf.conserved.door⟩
  orders := student_orders h hf.orders
  bounds := student_bounds h hf.bounds
  front := student_front h (gets_out_le hf.conserved.door hf.orders hf.bounds) hf.front
  taken := student_taken h hf.taken
  woken := by cases h <;> exact hf.woken
  washing := by cases h <;> exact ⟨hf.washing.left_le, hf.washing.wash⟩

theorem bartender_flow {s' : St C S B} {b : Fin B} (h : BartenderMove A s b s') (hf : Flow M s) : Flow M s' where
  conserved := by
    refine ⟨fun p => (bartender_stock p h).trans (hf.conserved.cups p), ?_⟩
    cases h <;> exact hf.conserved.door
  orders := bartender_orders h hf.orders
  bounds := by cases h <;> exact hf.bounds
  front := bartender_front h hf.front
  taken := bartender_taken h hf.taken
  woken := bartender_woken h hf.woken
  washing := bartender_washing h hf.washing

theorem cupboy_flow {s' : St C S B} (hC : 0 < C) (h : CupboyMove s s') (hf : Flow M s) : Flow M s' where
  conserved := by
    refine ⟨fun p => (cupboy_stock p h).trans (hf.conserved.cups p), ?_⟩
    cases h <;> exact hf.conserved.door
  orders := cupboy_orders h hf.orders
  bounds := by cases h <;> exact hf.bounds
  front := cupboy_front h hf.front
  taken := cupboy_taken h hf.taken
  woken := cupboy_woken hC h hf.washing hf.woken
  washing := cupboy_washing h hf.washing

theorem start_flow : Flow M (start M C S B) where
  conserved := start_conserved M C S B
  orders := by
    have h1 : tally StudentPc.waits (start M C S B).student = 0 := tally_eq_zero fun _ => rfl
    have h2 : tally BartenderPc.hasGet (start M C S B).bartender = 0 := tally_eq_zero fun _ => rfl
    have h3 : tally BartenderPc.serves (start M C S B).bartender = 0 := tally_eq_zero fun _ => rfl
    rw [Orders, h1, h2, h3]
    rfl
  bounds _ := Nat.zero_le _
  front q₁ a q₂ hq := by simp [start] at hq
  taken := by
    have h1 : tally BartenderPc.hasGet (start M C S B).bartender = 0 := tally_eq_zero fun _ => rfl
    have h2 : tally StudentPc.placed (start M C S B).student = 0 := tally_eq_zero fun _ => rfl
    rw [Taken, h1, h2]
    simp [start]
  woken _ := .inr (.inr rfl)
  washing := ⟨Nat.zero_le _, by simp [start]⟩

theorem step_flow (hC : 0 < C) (s : St C S B) (t : Thread S B) (hf : Flow M s) : Flow M (step A s t) :=
  step_keeps (I := Flow M) (fun _ _ _ => student_flow) (fun _ _ _ => bartender_flow) (fun _ _ => cupboy_flow hC) s t hf

theorem reach_flow (hC : 0 < C) (sched : List (Thread S B)) : Flow M (run (step A) (start M C S B) sched) :=
  run_inv (I := Flow M) (step_flow hC) start_flow sched

end Reach

/-! ## A stuck bar -/

/-- no thread can run -/
def Stuck (A : ℕ) (s : St C S B) : Prop := ∀ t, exec A s t = none

section StuckBar

variable {M A : ℕ} {s : St C S B}

theorem bbPut_eq_none {α : Type} {size : ℕ} {bb : List α} {x : α} (h : bbPut size bb x = none) : size ≤ bb.length := by
  unfold bbPut at h
  split_ifs at h with hlt
  exact Nat.le_of_not_lt hlt

theorem bbPop_eq_none {α : Type} {bb : List α} (h : bbPop bb = none) : bb = [] := by
  cases bb with
  | nil => rfl
  | cons x bb => cases h

/-- where a student can be held up -/
inductive StudentWaits (A : ℕ) (s : St C S B) : StudentPc C → Prop
  | outside (h : s.bouncer = 0) : StudentWaits A s .enterBar
  | placeGet (i : ℕ) (h : A ≤ s.abb.length) : StudentWaits A s (.placeGet i)
  | getDrink (i : ℕ) (h : s.drinkBB = []) : StudentWaits A s (.getDrink i)
  | placePut (i : ℕ) (cup : Fin C) (h : A ≤ s.abb.length) : StudentWaits A s (.placePut i cup)
  | gone (i : ℕ) : StudentWaits A s (.gone i)

/-- where a bartender can be held up -/
inductive BartenderWaits (A : ℕ) (s : St C S B) : BartenderPc C → Prop
  | getAction (h : s.abb = []) : BartenderWaits A s .getAction
  | getCleanCup (h : s.cbb = []) : BartenderWaits A s .getCleanCup
  | serveDrink (cup : Fin C) (h : A ≤ s.drinkBB.length) : BartenderWaits A s (.serveDrink cup)
  | returnCup (cup : Fin C) (h : C ≤ s.dbb.length) : BartenderWaits A s (.returnCup cup)

theorem Stuck.student (h : Stuck A s) (j : Fin S) : StudentWaits A s (s.student j) := by
  have hj : studentFunc A s j = none := h (.student j)
  unfold studentFunc at hj
  cases hpc : s.student j with
  | enterBar =>
    simp only [hpc] at hj
    split_ifs at hj with hb
    exact .outside (Nat.eq_zero_of_not_pos hb)
  | placeGet i =>
    simp only [hpc] at hj
    exact .placeGet i (bbPut_eq_none (Option.map_eq_none_iff.1 hj))
  | getDrink i =>
    simp only [hpc] at hj
    exact .getDrink i (bbPop_eq_none (Option.map_eq_none_iff.1 hj))
  | placePut i cup =>
    simp only [hpc] at hj
    exact .placePut i cup (bbPut_eq_none (Option.map_eq_none_iff.1 hj))
  | gone i => exact .gone i
  | test i | drink i cup | leaveBar i | threadExit i => simp [hpc] at hj

theorem Stuck.bartender (h : Stuck A s) (b : Fin B) : BartenderWaits A s (s.bartender b) := by
  have hb : bartenderFunc A s b = none := h (.bartender b)
  unfold bartenderFunc at hb
  split at hb
  next hpc =>
    rw [hpc]
    exact .getAction (bbPop_eq_none (Option.map_eq_none_iff.1 hb))
  next hpc =>
    rw [hpc]
    exact .getCleanCup (bbPop_eq_none (Option.map_eq_none_iff.1 hb))
  next cup hpc =>
    rw [hpc]
    exact .serveDrink cup (bbPut_eq_none (Option.map_eq_none_iff.1 hb))
  next cup hpc =>
    rw [hpc]
    exact .returnCup cup (bbPut_eq_none (Option.map_eq_none_iff.1 hb))
  next => cases hb
  next => cases hb

/-- the cup boy is held up by `cupsem` only: what it set out to wash is there, and there is room for it -/
theorem Stuck.cupboy (h : Stuck A s) (hf : Flow M s) : s.cupboy = .down ∧ s.cupsem = false := by
  have hboy : cupboyFunc s = none := h .cupboy
  unfold cupboyFunc at hboy
  split at hboy
  next => cases hboy
  next => cases hboy
  next n i hpc =>
    have hempty := bbPop_eq_none (Option.map_eq_none_iff.1 hboy)
    have hi := hf.washing.wash n i hpc
    have hle := hf.washing.left_le
    simp only [hpc, CupboyPc.left, hempty, List.length_nil] at hle
    omega
  next => cases hboy
  next n i cup hpc =>
    have hfull := bbPut_eq_none (Option.map_eq_none_iff.1 hboy)
    exact absurd (hf.conserved.cbb_room hpc) (Nat.not_lt.2 hfull)
  next hpc =>
    split_ifs at hboy with hsem
    exact ⟨hpc, by simpa using hsem⟩

/-- in a stuck bar nothing is on `DrinkBB`: what is there somebody waits for -/
theorem Stuck.drinkBB (h : Stuck A s) (hf : Flow M s) : s.drinkBB = [] := by
  by_contra hne
  have hpos : 0 < s.drinkBB.length := List.length_pos_iff.2 hne
  have hwait : 0 < tally StudentPc.waits s.student := by
    have horders := hf.orders
    have h1 : 0 ≤ tally BartenderPc.hasGet s.bartender := tally_nonneg hasGet_nonneg _
    have h2 : 0 ≤ tally BartenderPc.serves s.bartender := tally_nonneg serves_nonneg _
    unfold Orders at horders
    omega
  obtain ⟨j, hj⟩ := exists_of_tally_pos hwait
  have hblocked := h.student j
  generalize s.student j = c at hj hblocked
  cases hblocked with
  | getDrink i hempty => exact hne hempty
  | outside | placeGet | placePut | gone => exact hj rfl

/-- so a bartender of a stuck bar waits for a request or for a clean cup -/
theorem Stuck.bartenders (hA : 0 < A) (h : Stuck A s) (hf : Flow M s) (b : Fin B) :
    (s.bartender b = .getAction ∧ s.abb = []) ∨ (s.bartender b = .getCleanCup ∧ s.cbb = []) := by
  have hblocked := h.bartender b
  cases hpc : s.bartender b with
  | getAction =>
    rw [hpc] at hblocked
    cases hblocked with
    | getAction hempty => exact .inl ⟨rfl, hempty⟩
  | getCleanCup =>
    rw [hpc] at hblocked
    cases hblocked with
    | getCleanCup hempty => exact .inr ⟨rfl, hempty⟩
  | serveDrink cup =>
    rw [hpc] at hblocked
    cases hblocked with
    | serveDrink _ hfull =>
      rw [h.drinkBB hf] at hfull
      exact absurd hfull (Nat.not_le.2 hA)
  | returnCup cup =>
    rw [hpc] at hblocked
    cases hblocked with
    | returnCup _ hfull => exact absurd (hf.conserved.dbb_room hpc) (Nat.not_lt.2 hfull)
  | check | signal =>
    rw [hpc] at hblocked
    cases hblocked

/-- too few cups of a stuck bar are dirty -/
theorem Stuck.not_dirtyEnough (hA : 0 < A) (h : Stuck A s) (hf : Flow M s) : ¬ dirtyEnough s.dbb.length C := by
  intro hdirty
  obtain ⟨hboy, hsem⟩ := h.cupboy hf
  have hd : dirtyEnough (s.dbb.length - s.cupboy.left) C := by
    rw [hboy]
    exact hdirty
  rcases hf.woken hd with hup | ⟨b, hb⟩ | hread
  · rw [hsem] at hup
    cases hup
  · rcases h.bartenders hA hf b with ⟨hpc, _⟩ | ⟨hpc, _⟩
    all_goals
      rw [hpc] at hb
      exact hb
  · rw [hboy] at hread
    cases hread

/-- the cups of a stuck bar: clean, dirty, queued or with a student -/
theorem Stuck.cups (hA : 0 < A) (h : Stuck A s) (hf : Flow M s) :
    (s.cbb.length + s.dbb.length + puts s.abb : ℤ) + tally StudentPc.holds s.student = C := by
  have htotal := hf.conserved.total
  have hbar : tally (fun c => inHand (fun _ => true) c.cup) s.bartender = 0 := by
    apply tally_eq_zero
    intro b
    rcases h.bartenders hA hf b with ⟨hpc, _⟩ | ⟨hpc, _⟩ <;> rw [hpc] <;> rfl
  have hboy : inHand (fun _ => true) s.cupboy.cup = 0 := by
    rw [(h.cupboy hf).1]
    rfl
  rw [hbar, hboy, h.drinkBB hf] at htotal
  simp only [List.length_nil] at htotal
  unfold puts
  have hholds : tally StudentPc.holds s.student = tally (fun c => inHand (fun _ => true) c.cup) s.student := rfl
  omega

/-- a stuck bar with a student left has a student inside: the door would let one in otherwise -/
theorem Stuck.inside (hM : 0 < M) (h : Stuck A s) (hf : Flow M s) {j : Fin S} (hj : ∀ i, s.student j ≠ .gone i) :
    ∃ k, (s.student k).inside ≠ 0 := by
  have hblocked := h.student j
  cases hpc : s.student j with
  | enterBar =>
    rw [hpc] at hblocked
    cases hblocked with
    | outside hzero =>
      have hdoor := hf.conserved.door
      unfold Door at hdoor
      exact exists_of_tally_pos (by omega)
  | placeGet i | getDrink i | placePut i cup => exact ⟨j, by simp [hpc, StudentPc.inside]⟩
  | gone i => exact absurd hpc (hj i)
  | test i | drink i cup | leaveBar i | threadExit i =>
    rw [hpc] at hblocked
    cases hblocked

/-- **All bartenders of a stuck bar wait for clean cups.** If one waited for a request, `ABB` would be empty, every
student inside would wait for a drink and every cup would be dirty. -/
theorem Stuck.all_getCleanCup (hM : 0 < M) (hA : 0 < A) (hC : 0 < C) (h : Stuck A s) (hf : Flow M s) {j : Fin S}
    (hj : ∀ i, s.student j ≠ .gone i) (b : Fin B) : s.bartender b = .getCleanCup ∧ s.cbb = [] := by
  rcases h.bartenders hA hf b with ⟨_, habb⟩ | hclean
  · exfalso
    obtain ⟨k, hk⟩ := h.inside hM hf hj
    have hfull : ¬ A ≤ s.abb.length := by
      rw [habb]
      exact Nat.not_le.2 hA
    have hwaits : 0 < tally StudentPc.waits s.student := by
      have hkw : (s.student k).waits = 1 := by
        have hblocked := h.student k
        generalize s.student k = c at hk hblocked
        cases hblocked with
        | getDrink i _ => rfl
        | outside _ | gone _ => exact absurd rfl hk
        | placeGet _ hle | placePut _ _ hle => exact absurd hle hfull
      have hle := le_tally waits_nonneg s.student k
      omega
    have hasGet : 0 < tally BartenderPc.hasGet s.bartender := by
      have horders := hf.orders
      have hserves : tally BartenderPc.serves s.bartender = 0 := by
        apply tally_eq_zero
        intro b'
        rcases h.bartenders hA hf b' with ⟨hpc, _⟩ | ⟨hpc, _⟩ <;> rw [hpc] <;> rfl
      rw [Orders, habb, hserves, h.drinkBB hf] at horders
      simp only [gets_nil, List.length_nil] at horders
      omega
    obtain ⟨b', hb'⟩ := exists_of_tally_pos hasGet
    have hcbb : s.cbb = [] := by
      rcases h.bartenders hA hf b' with ⟨hpc, _⟩ | ⟨_, hcbb⟩
      · rw [hpc] at hb'
        exact absurd rfl hb'
      · exact hcbb
    have hholds : tally StudentPc.holds s.student = 0 := by
      apply tally_eq_zero
      intro k'
      have hblocked := h.student k'
      generalize s.student k' = c at hblocked
      cases hblocked with
      | placePut _ _ hle => exact absurd hle hfull
      | outside | placeGet | getDrink | gone => rfl
    have hcups := h.cups hA hf
    rw [hcbb, habb, hholds] at hcups
    simp only [List.length_nil, puts_nil] at hcups
    apply h.not_dirtyEnough hA hf
    unfold dirtyEnough
    omega
  · exact hclean

end StuckBar

/-! ## Bars that do not get stuck -/

/-- The numbers of a bar in which all bartenders cannot be left waiting: with `B` requests taken and all `C` cups out,
no more than `(3 * C - 1) / 5` of them dirty, more students would be needed than can be between a request and a return,
or more drinks than all students take. -/
def Enough (M C S B : ℕ) : Prop := (3 * C - 1) / 5 + atMost M B S < B + C ∨ allDrinks B S < B + C

instance decidableEnough (M C S B : ℕ) : Decidable (Enough M C S B) := instDecidableOr

theorem placed_le {s : St C S B} (h : Bounds s) : tally StudentPc.placed s.student ≤ allDrinks B S := by
  unfold tally allDrinks
  push_cast
  apply Finset.sum_le_sum
  intro j _
  have hj := h j
  cases hpc : s.student j <;> simp only [hpc, StudentPc.least, StudentPc.placed] at hj ⊢ <;> omega

/-- **A stuck bar needs many students.** -/
theorem Stuck.not_enough {M A : ℕ} {s : St C S B} (hM : 0 < M) (hA : 0 < A) (hC : 0 < C) (hB : 0 < B) (h : Stuck A s)
    (hf : Flow M s) {j : Fin S} (hj : ∀ i, s.student j ≠ .gone i) : ¬ Enough M C S B := by
  have hclean := h.all_getCleanCup hM hA hC hf hj
  have hcbb : s.cbb = [] := (hclean ⟨0, hB⟩).2
  have hget : tally BartenderPc.hasGet s.bartender = B := by
    have hone : ∀ b, (s.bartender b).hasGet = 1 := by
      intro b
      rw [(hclean b).1]
      rfl
    simp [tally, hone]
  have hcups := h.cups hA hf
  have hdirty := h.not_dirtyEnough hA hf
  have hfront : (puts s.abb : ℤ) + out s ≤ atMost M B S := by
    cases hq : s.abb with
    | nil =>
      have hall := gets_out_le hf.conserved.door hf.orders hf.bounds
      rw [hq] at hall
      exact hall
    | cons a q =>
      have hall := hf.front [] a q hq
      simpa using hall
  have hserves : 0 ≤ tally BartenderPc.serves s.bartender := tally_nonneg serves_nonneg _
  have htaken := hf.taken
  have hplaced := placed_le hf.bounds
  rw [hcbb] at hcups
  simp only [List.length_nil] at hcups
  simp only [Taken, hcbb, hget, List.length_nil] at htaken
  simp only [out, hget] at hfront
  unfold dirtyEnough at hdirty
  unfold Enough
  omega

/-- **The bar does not get stuck** when its numbers are `Enough`: in every state it reaches in which some student has
not called `thread_exit`, some thread can run. -/
theorem bar_not_stuck (M A C S B : ℕ) (hM : 0 < M) (hA : 0 < A) (hC : 0 < C) (hB : 0 < B) (hen : Enough M C S B)
    (sched : List (Thread S B)) (j : Fin S) (hj : ∀ i, (run (step A) (start M C S B) sched).student j ≠ .gone i) :
    ∃ t, (exec A (run (step A) (start M C S B) sched) t).isSome = true := by
  by_contra hnone
  push Not at hnone
  have hstuck : Stuck A (run (step A) (start M C S B) sched) := by
    intro t
    simpa using hnone t
  exact hstuck.not_enough hM hA hC hB (reach_flow hC sched) hj hen

/-- the bar of con.conf has the numbers: here its first student has come in -/
theorem bar_not_stuck_conf :
    Enough 4 15 30 2 ∧ ∃ t, (exec 9 (run (step 9) (start 4 15 30 2) [.cupboy, .student 0, .student 0]) t).isSome = true := by
  refine ⟨by decide +kernel, ?_⟩
  apply bar_not_stuck 4 9 15 30 2 (by decide) (by decide) (by decide) (by decide) (by decide +kernel) _ 0
  have hpc : (run (step 9) (start 4 15 30 2) [.cupboy, .student 0, .student 0]).student 0 = .placeGet 0 := by
    decide +kernel
  intro i
  rw [hpc]
  simp

/-- one cup and one bartender: the cup boy goes to sleep, the first student takes the cup, the bartender takes the
second student's request, and the return of the cup comes behind it -/
def stuckTrace : List (Thread 2 1) :=
  [.cupboy, .cupboy, .cupboy, .cupboy, .cupboy, .student 0, .student 0, .student 0, .bartender 0, .bartender 0,
    .bartender 0, .student 0, .student 0, .student 1, .student 1, .student 1, .bartender 0, .student 0, .student 0]

/-- **A bar that gets stuck.** With `M = 2`, `A = 1`, `C = 1`, `S = 2` and `B = 1` no thread can run, and neither
student has left. -/
theorem bar_stuck :
    (∀ j i, (run (step 1) (start 2 1 2 1) stuckTrace).student j ≠ .gone i) ∧
    ∀ t, exec 1 (run (step 1) (start 2 1 2 1) stuckTrace) t = none := by
  have h0 : (run (step 1) (start 2 1 2 1) stuckTrace).student 0 = .placeGet 1 := by decide +kernel
  have h1 : (run (step 1) (start 2 1 2 1) stuckTrace).student 1 = .getDrink 0 := by decide +kernel
  constructor
  · intro j
    fin_cases j
    · simp [h0]
    · simp [h1]
  · intro t
    rw [← Option.isNone_iff_eq_none]
    cases t with
    | student j =>
      revert j
      decide +kernel
    | bartender b =>
      revert b
      decide +kernel
    | cupboy => decide +kernel

end Xv6Threads.Bar
