/-
A ring of `C` cells with two counters that only grow: `r` elements have been taken out, and the queue behind them is in the
cells from `r % C` on. Nothing here is about a particular buffer.

A program may keep the counters modulo `M`. That makes no difference as long as `C` divides `M` and the queue is shorter
than `M`: indices are the same (`mod_mod_of_dvd` of the library), and equal remainders mean equal counters (`mod_eq_iff`).
- `RingHolds.push`, `RingHolds.pop`: storing into the cell behind the queue, and reading the cell at its front.
-/
import Mathlib

namespace Xv6Threads.Core

variable {α : Type*} {C r : ℕ} {cells : ℕ → α} {q : List α}

/-- two numbers less than one turn apart are in different cells -/
theorem mod_ne_of_lt {i j N : ℕ} (h1 : i < j) (h2 : j < i + N) : i % N ≠ j % N := by
  intro h
  have hd : N ∣ j - i := (Nat.modEq_iff_dvd' h1.le).1 h
  have := Nat.le_of_dvd (by omega) hd
  omega

/-- counters less than one turn apart are equal if their remainders are -/
theorem mod_eq_iff {i j N : ℕ} (h1 : i ≤ j) (h2 : j < i + N) : i % N = j % N ↔ i = j := by
  constructor
  · intro h
    by_contra hne
    exact mod_ne_of_lt (lt_of_le_of_ne h1 hne) h2 h
  · rintro rfl
    rfl

/-- the cells from `r` on hold the queue -/
def RingHolds (C : ℕ) (cells : ℕ → α) (r : ℕ) (q : List α) : Prop :=
  ∀ i x, q[i]? = some x → cells ((r + i) % C) = x

theorem RingHolds.nil : RingHolds C cells r [] := by
  intro i x h
  simp at h

/-- one more element behind the queue -/
theorem RingHolds.push (h : RingHolds C cells r q) (hroom : q.length < C) (x : α) :
    RingHolds C (Function.update cells ((r + q.length) % C) x) r (q ++ [x]) := by
  intro i y hi
  rcases lt_trichotomy i q.length with hlt | rfl | hgt
  · rw [List.getElem?_append_left hlt] at hi
    rw [Function.update_of_ne (mod_ne_of_lt (by omega) (by omega))]
    exact h i y hi
  · rw [Function.update_self]
    simpa using hi
  · rw [List.getElem?_eq_none (by simp; omega)] at hi
    cases hi

/-- the first element of the queue is in the cell at `r`, and the rest from the next cell on -/
theorem RingHolds.pop {x : α} (h : RingHolds C cells r (x :: q)) : cells (r % C) = x ∧ RingHolds C cells (r + 1) q := by
  refine ⟨h 0 x rfl, fun i y hi => ?_⟩
  have hy := h (i + 1) y (by simpa using hi)
  rwa [show r + 1 + i = r + (i + 1) by omega]

/-- the front of the queue alone -/
theorem RingHolds.left {q' : List α} (h : RingHolds C cells r (q ++ q')) : RingHolds C cells r q := by
  intro i x hi
  refine h i x ?_
  rw [List.getElem?_append_left, hi]
  obtain ⟨hlt, _⟩ := List.getElem?_eq_some_iff.1 hi
  exact hlt

end Xv6Threads.Core
