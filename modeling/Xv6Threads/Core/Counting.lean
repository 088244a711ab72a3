/-
The atomic counting semaphore, as a specification: a counter with an `up` that always succeeds and a `down` that is
enabled only when the counter is positive. A history is the list of operations performed, oldest first.
- `Legal k hist v`: `hist` is a history of the atomic semaphore from initial value `k`, and it ends at value `v`.
- `Legal.balance`: then `v = k + ups - downs`.
-/
import Mathlib

namespace Xv6Threads.Core

/-- the two operations of a counting semaphore -/
inductive CountOp where
  | down
  | up
deriving DecidableEq, Repr

/-- one atomic operation: `down` is refused at zero -/
def countStep (v : ℤ) : CountOp → Option ℤ
  | .down => if 0 < v then some (v - 1) else none
  | .up => some (v + 1)

/-- `hist` is a history of the atomic counting semaphore from `k`, ending at `v` -/
def Legal (k : ℤ) (hist : List CountOp) (v : ℤ) : Prop := hist.foldlM countStep k = some v

theorem legal_nil (k : ℤ) : Legal k [] k := rfl

theorem Legal.snoc {k v v' : ℤ} {hist : List CountOp} (h : Legal k hist v) {o : CountOp} (ho : countStep v o = some v') :
    Legal k (hist ++ [o]) v' := by
  unfold Legal at h ⊢
  rw [List.foldlM_append, h]
  simp [ho]

theorem Legal.down {k v : ℤ} {hist : List CountOp} (h : Legal k hist v) (hv : 0 < v) :
    Legal k (hist ++ [.down]) (v - 1) := h.snoc (by simp [countStep, hv])

theorem Legal.up {k v : ℤ} {hist : List CountOp} (h : Legal k hist v) : Legal k (hist ++ [.up]) (v + 1) := h.snoc rfl

/-- a legal history that ends with one more operation: the prefix is legal and the operation was enabled -/
theorem legal_snoc {k v' : ℤ} {hist : List CountOp} {o : CountOp} (h : Legal k (hist ++ [o]) v') :
    ∃ v, Legal k hist v ∧ countStep v o = some v' := by
  unfold Legal at h ⊢
  rw [List.foldlM_append] at h
  obtain ⟨v, hv, ho⟩ := Option.bind_eq_some_iff.1 h
  exact ⟨v, hv, by simpa using ho⟩

/-- the value is the initial value plus the `up`s minus the `down`s -/
theorem Legal.balance {k v : ℤ} {hist : List CountOp} (h : Legal k hist v) :
    v = k + hist.count .up - hist.count .down := by
  induction hist using List.reverseRecOn generalizing v with
  | nil =>
    have : k = v := by simpa [Legal] using h
    simp [this]
  | append_singleton hist o ih =>
    obtain ⟨u, hu, ho⟩ := legal_snoc h
    have hb := ih hu
    cases o with
    | down =>
      simp only [countStep, Option.ite_none_right_eq_some, Option.some.injEq] at ho
      simp only [List.count_append, List.count_singleton]
      simp
      omega
    | up =>
      simp only [countStep, Option.some.injEq] at ho
      simp only [List.count_append, List.count_singleton]
      simp
      omega

end Xv6Threads.Core
