/-
Units held in places, with nothing said about either.

A place holds the number of a unit, or 0. `Allots f used` says that every unit held is in use and held in one place. It is
kept when a unit that is not in use goes to one place (`Allots.add`).
-/
import Xv6Threads.Core.Runs

namespace Xv6Threads.Core

variable {ι : Type*}

structure Allots (f : ι → ℕ) (used : ℕ → Prop) : Prop where
  used : ∀ p, f p ≠ 0 → used (f p)
  once : ∀ p q, f p ≠ 0 → f p = f q → p = q

namespace Allots

variable {f g : ι → ℕ} {used used' : ℕ → Prop} {p : ι} {b : ℕ}

theorem congr (h : Allots f used) (hg : ∀ q, g q = f q) (hu : ∀ x, used x → used' x) : Allots g used' := by
  constructor
  · intro q hq
    rw [hg] at hq ⊢
    exact hu _ (h.used q hq)
  · intro q r hq he
    rw [hg, hg] at he
    rw [hg] at hq
    exact h.once q r hq he

/-- what is not in use is in no place -/
theorem ne_of_unused (h : Allots f used) (hb : ¬ used b) (hb0 : b ≠ 0) (q : ι) : f q ≠ b := by
  intro he
  exact hb (he ▸ h.used q (he ▸ hb0))

theorem add (h : Allots f used) (hp : g p = b) (hother : ∀ q, q ≠ p → g q = f q) (hb : ¬ used b) (hb' : used' b)
    (hu : ∀ x, used x → used' x) : Allots g used' := by
  constructor
  · intro q hq
    by_cases hqp : q = p
    · rw [hqp, hp]
      exact hb'
    · rw [hother q hqp] at hq ⊢
      exact hu _ (h.used q hq)
  · intro q r hq he
    by_cases hqp : q = p
    · by_cases hrp : r = p
      · rw [hqp, hrp]
      · rw [hqp, hp] at hq he
        rw [hother r hrp] at he
        exact absurd he.symm (h.ne_of_unused hb hq r)
    · rw [hother q hqp] at hq he
      by_cases hrp : r = p
      · rw [hrp, hp] at he
        exact absurd he (h.ne_of_unused hb (he ▸ hq) q)
      · rw [hother r hrp] at he
        exact h.once q r hq he

end Allots

end Xv6Threads.Core
