/-
Counting threads by where they are. Each of finitely many threads `t` has a control point `pc t`; `tally w pc` adds up
the weights `w (pc t)`. When one thread moves, the tally changes by that thread's weight only:
- `tally_split`: the tally is the weight of one thread plus the rest (`others`);
- `tally_update`: after thread `t` moved to `c`, it is `w c` plus the same rest.
So a counting invariant is kept by a step as soon as an equation between two weights holds; `omega` does that.
The remaining lemmas bound the rest: by another weight (`others_mono`), by zero (`others_nonneg`), and when it is
zero, thread by thread (`others_eq_zero`).
-/
import Mathlib

namespace Xv6Threads.Core

open Function

variable {T C : Type*} [Fintype T]

/-- the total weight of the threads' control points -/
def tally (w : C → ℤ) (pc : T → C) : ℤ := ∑ t, w (pc t)

theorem tally_nonneg {w : C → ℤ} (h : ∀ c, 0 ≤ w c) (pc : T → C) : 0 ≤ tally w pc :=
  Finset.sum_nonneg fun i _ => h (pc i)

/-- a weight that is zero at every control point in use adds up to zero -/
theorem tally_eq_zero {w : C → ℤ} {pc : T → C} (h : ∀ t, w (pc t) = 0) : tally w pc = 0 :=
  Finset.sum_eq_zero fun t _ => h t

/-- a tally that is not zero has a thread in it -/
theorem exists_of_tally_pos {w : C → ℤ} {pc : T → C} (h : 0 < tally w pc) : ∃ t, w (pc t) ≠ 0 := by
  by_contra hnone
  push Not at hnone
  exact absurd (tally_eq_zero hnone) h.ne'

theorem tally_le_tally {w w' : C → ℤ} (h : ∀ c, w c ≤ w' c) (pc : T → C) : tally w pc ≤ tally w' pc :=
  Finset.sum_le_sum fun t _ => h (pc t)

theorem tally_add (w w' : C → ℤ) (pc : T → C) : tally w pc + tally w' pc = tally (fun c => w c + w' c) pc :=
  Finset.sum_add_distrib.symm

variable [DecidableEq T]

/-- the total weight of the threads other than `t` -/
def others (w : C → ℤ) (pc : T → C) (t : T) : ℤ := ∑ i ∈ Finset.univ.erase t, w (pc i)

theorem tally_split (w : C → ℤ) (pc : T → C) (t : T) : tally w pc = w (pc t) + others w pc t :=
  (Finset.add_sum_erase _ (fun i => w (pc i)) (Finset.mem_univ t)).symm

theorem others_congr {w w' : C → ℤ} {pc pc' : T → C} {t : T} (h : ∀ i, i ≠ t → w (pc i) = w' (pc' i)) :
    others w pc t = others w' pc' t :=
  Finset.sum_congr rfl fun i hi => h i (Finset.ne_of_mem_erase hi)

/-- moving thread `t` does not change the rest -/
theorem others_update (w : C → ℤ) (pc : T → C) (t : T) (c : C) :
    others w (update pc t c) t = others w pc t :=
  others_congr fun i hi => by rw [update_of_ne hi]

theorem tally_update (w : C → ℤ) (pc : T → C) (t : T) (c : C) :
    tally w (update pc t c) = w c + others w pc t := by
  rw [tally_split w _ t, others_update, update_self]

/-- a move replaces one weight by another -/
theorem tally_move (w : C → ℤ) (pc : T → C) (t : T) (c : C) :
    tally w (update pc t c) = tally w pc - w (pc t) + w c := by
  rw [tally_update, tally_split w pc t]
  omega

/-- a move between control points of the same weight does not change the tally -/
theorem tally_update_of_eq {w : C → ℤ} {pc : T → C} {t : T} {c : C} (h : w c = w (pc t)) :
    tally w (update pc t c) = tally w pc := by
  rw [tally_update, tally_split w pc t, h]

theorem others_mono {w w' : C → ℤ} (h : ∀ c, w c ≤ w' c) (pc : T → C) (t : T) : others w pc t ≤ others w' pc t :=
  Finset.sum_le_sum fun i _ => h (pc i)

theorem others_nonneg {w : C → ℤ} (h : ∀ c, 0 ≤ w c) (pc : T → C) (t : T) : 0 ≤ others w pc t :=
  Finset.sum_nonneg fun i _ => h (pc i)

/-- if the rest weighs nothing, no other thread weighs anything -/
theorem others_eq_zero {w : C → ℤ} (h : ∀ c, 0 ≤ w c) {pc : T → C} {t : T} (h0 : others w pc t = 0) :
    ∀ i, i ≠ t → w (pc i) = 0 := by
  intro i hi
  exact (Finset.sum_eq_zero_iff_of_nonneg fun j _ => h (pc j)).1 h0 i (Finset.mem_erase.2 ⟨hi, Finset.mem_univ i⟩)

/-- one thread weighs no more than all of them -/
theorem le_tally {w : C → ℤ} (h : ∀ c, 0 ≤ w c) (pc : T → C) (t : T) : w (pc t) ≤ tally w pc := by
  rw [tally_split w pc t]
  exact le_add_of_nonneg_right (others_nonneg h pc t)

/-- two threads weigh no more than all of them -/
theorem add_le_tally {w : C → ℤ} (h : ∀ c, 0 ≤ w c) (pc : T → C) {t u : T} (htu : t ≠ u) :
    w (pc t) + w (pc u) ≤ tally w pc := by
  rw [tally_split w pc t]
  have hu : w (pc u) ≤ others w pc t :=
    Finset.single_le_sum (f := fun i => w (pc i)) (fun i _ => h (pc i)) (Finset.mem_erase.2 ⟨htu.symm, Finset.mem_univ u⟩)
  omega

omit [Fintype T] in
/-- a table of counts in which one of them becomes `v` -/
theorem update_count (r : T → ℤ) (t u : T) (v : ℤ) : update r t v u = r u + if t = u then v - r t else 0 := by
  by_cases h : t = u
  · subst h
    rw [update_self, if_pos rfl]
    omega
  · rw [update_of_ne (Ne.symm h), if_neg h, add_zero]

end Xv6Threads.Core
