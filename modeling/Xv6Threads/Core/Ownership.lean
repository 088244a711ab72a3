/-
Handles with one owner each.

An allocator hands out the handles `next`, `next + 1`, ...; every handle has at most one owner, ownership can be given
away, and freeing a handle ends it. `Owned` says that the books are in order: nobody owns a handle that was never handed
out or was freed, and no handle was freed twice. A machine keeps the function `owner` as a ghost and shows that whoever
uses a handle shares its owner; then what is in use was not freed (`Owned.not_freed`).
-/
import Xv6Threads.Core.Runs

namespace Xv6Threads.Core

open Function

variable {α : Type}

structure Owned (owner : ℕ → Option α) (next : ℕ) (freed : List ℕ) : Prop where
  fresh : ∀ h, next ≤ h → owner h = none ∧ h ∉ freed
  ended : ∀ h ∈ freed, owner h = none
  nodup : freed.Nodup

namespace Owned

variable {owner : ℕ → Option α} {next : ℕ} {freed : List ℕ} {h : ℕ} {a : α}

theorem not_freed (ho : Owned owner next freed) (ha : owner h = some a) : h ∉ freed := by
  intro hf
  rw [ho.ended h hf] at ha
  cases ha

theorem lt_next (ho : Owned owner next freed) (ha : owner h = some a) : h < next := by
  by_contra hn
  rw [(ho.fresh h (Nat.le_of_not_lt hn)).1] at ha
  cases ha

/-- handles with different owners are different -/
theorem ne_of_owner {h' : ℕ} {a' : α} (ha : owner h = some a) (ha' : owner h' = some a') (hne : a ≠ a') : h ≠ h' := by
  rintro rfl
  exact hne (Option.some.inj (ha.symm.trans ha'))

theorem alloc (ho : Owned owner next freed) (a : α) : Owned (update owner next (some a)) (next + 1) freed := by
  refine ⟨fun h hh => ?_, fun h hf => ?_, ho.nodup⟩
  · rw [update_of_ne (by omega)]
    exact ho.fresh h (by omega)
  · have hne : h ≠ next := by
      rintro rfl
      exact (ho.fresh h le_rfl).2 hf
    rw [update_of_ne hne]
    exact ho.ended h hf

theorem give (ho : Owned owner next freed) (ha : owner h = some a) (b : α) :
    Owned (update owner h (some b)) next freed := by
  refine ⟨fun h' hh => ?_, fun h' hf => ?_, ho.nodup⟩
  · have hne : h' ≠ h := fun e => absurd (ho.lt_next ha) (by omega)
    rw [update_of_ne hne]
    exact ho.fresh h' hh
  · have hne : h' ≠ h := fun e => ho.not_freed ha (e ▸ hf)
    rw [update_of_ne hne]
    exact ho.ended h' hf

theorem free (ho : Owned owner next freed) (ha : owner h = some a) :
    Owned (update owner h none) next (freed ++ [h]) := by
  refine ⟨fun h' hh => ?_, fun h' hf => ?_, ?_⟩
  · have hne : h' ≠ h := fun e => absurd (ho.lt_next ha) (by omega)
    rw [update_of_ne hne]
    refine ⟨(ho.fresh h' hh).1, ?_⟩
    simp [(ho.fresh h' hh).2, hne]
  · by_cases hne : h' = h
    · rw [hne, update_self]
    · rw [update_of_ne hne]
      exact ho.ended h' (by simpa [hne] using hf)
  · rw [List.nodup_append]
    refine ⟨ho.nodup, List.nodup_singleton h, fun x hx y hy => ?_⟩
    rintro rfl
    exact ho.not_freed ha (List.mem_singleton.1 hy ▸ hx)

end Owned

end Xv6Threads.Core
