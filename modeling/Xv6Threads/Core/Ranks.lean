/-
A queue without a list: the members of a set carry their places, and a counter says how many there are.

`Ranks S rank n`: the members of `S` have the ranks 1, …, n, each of them once. This is how a queue looks when its places
are stored with the waiters and renumbered at every departure:
- `Ranks.empty`, `Ranks.enqueue`: nobody waits; one more member takes place n + 1.
- `Ranks.shift`: everybody moves up one place, and whoever was first is out.
- `Ranks.first`, `Ranks.card`: the head of a queue that is not empty; the counter is the number of members.
-/
import Mathlib

namespace Xv6Threads.Core

variable {α : Type*}

/-- the members of `S` are numbered from 1 to `n` by `rank` -/
structure Ranks (S : α → Prop) (rank : α → ℤ) (n : ℤ) : Prop where
  nonneg : 0 ≤ n
  bound : ∀ a, S a → 1 ≤ rank a ∧ rank a ≤ n
  inj : ∀ a b, S a → S b → rank a = rank b → a = b
  surj : ∀ k, 1 ≤ k → k ≤ n → ∃ a, S a ∧ rank a = k

variable {S S' : α → Prop} {rank rank' : α → ℤ} {n : ℤ}

theorem Ranks.empty (h : ∀ a, ¬ S a) (rank : α → ℤ) : Ranks S rank 0 :=
  ⟨le_rfl, fun a ha => absurd ha (h a), fun a _ ha => absurd ha (h a), fun k h1 h0 => by omega⟩

/-- only the members and their places matter -/
theorem Ranks.congr (h : Ranks S rank n) (hS : ∀ a, S' a ↔ S a) (hr : ∀ a, S a → rank' a = rank a) :
    Ranks S' rank' n := by
  refine ⟨h.nonneg, fun a ha => ?_, fun a b ha hb hab => ?_, fun k h1 hk => ?_⟩
  · rw [hr a ((hS a).1 ha)]
    exact h.bound a ((hS a).1 ha)
  · rw [hr a ((hS a).1 ha), hr b ((hS b).1 hb)] at hab
    exact h.inj a b ((hS a).1 ha) ((hS b).1 hb) hab
  · obtain ⟨a, ha, hak⟩ := h.surj k h1 hk
    exact ⟨a, (hS a).2 ha, (hr a ha).trans hak⟩

/-- a newcomer takes the place after the last one -/
theorem Ranks.enqueue {p : α} (h : Ranks S rank n) (hS : ∀ a, S' a ↔ S a ∨ a = p) (hr : ∀ a, a ≠ p → rank' a = rank a)
    (hp : ¬ S p) (hpr : rank' p = n + 1) : Ranks S' rank' (n + 1) := by
  have hmem : ∀ a, S a → rank' a = rank a := fun a ha => hr a (by rintro rfl; exact hp ha)
  have hb := h.bound
  refine ⟨by have := h.nonneg; omega, fun a ha => ?_, fun a b ha hb' hab => ?_, fun k h1 hk => ?_⟩
  · rcases (hS a).1 ha with ha | rfl
    · rw [hmem a ha]
      have := hb a ha
      omega
    · have := h.nonneg
      omega
  · rcases (hS a).1 ha with ha | rfl <;> rcases (hS b).1 hb' with hb' | rfl
    · rw [hmem a ha, hmem b hb'] at hab
      exact h.inj a b ha hb' hab
    · rw [hmem a ha, hpr] at hab
      have := hb a ha
      omega
    · rw [hmem b hb', hpr] at hab
      have := hb b hb'
      omega
    · rfl
  · by_cases hkn : k = n + 1
    · exact ⟨p, (hS p).2 (Or.inr rfl), hpr.trans hkn.symm⟩
    · obtain ⟨a, ha, hak⟩ := h.surj k h1 (by omega)
      exact ⟨a, (hS a).2 (Or.inl ha), (hmem a ha).trans hak⟩

/-- **Everybody moves up.** Who had a place after the first keeps waiting, one place further ahead. -/
theorem Ranks.shift (h : Ranks S rank n) (hS : ∀ a, S' a ↔ S a ∧ 1 < rank a) (hr : ∀ a, S a → rank' a = rank a - 1) :
    Ranks S' rank' (if 0 < n then n - 1 else n) := by
  have hn : (if 0 < n then n - 1 else n) = max 0 (n - 1) := by
    have := h.nonneg
    split <;> omega
  rw [hn]
  refine ⟨le_max_left _ _, fun a ha => ?_, fun a b ha hb hab => ?_, fun k h1 hk => ?_⟩
  · obtain ⟨ha, h1⟩ := (hS a).1 ha
    rw [hr a ha]
    have := h.bound a ha
    omega
  · have ha := ((hS a).1 ha).1
    have hb := ((hS b).1 hb).1
    rw [hr a ha, hr b hb] at hab
    exact h.inj a b ha hb (by omega)
  · obtain ⟨a, ha, hak⟩ := h.surj (k + 1) (by omega) (by omega)
    exact ⟨a, (hS a).2 ⟨ha, by omega⟩, by rw [hr a ha]; omega⟩

/-- a queue that is not empty has a head -/
theorem Ranks.first (h : Ranks S rank n) (hn : 0 < n) : ∃ a, S a ∧ rank a = 1 :=
  h.surj 1 le_rfl (by omega)

theorem Ranks.not_mem (h : Ranks S rank 0) (a : α) : ¬ S a := by
  intro ha
  have := h.bound a ha
  omega

/-- **The counter counts.** -/
theorem Ranks.card [Fintype α] [DecidablePred S] (h : Ranks S rank n) : ((Finset.univ.filter S).card : ℤ) = n := by
  classical
  have himage : (Finset.univ.filter S).image rank = Finset.Icc 1 n := by
    ext k
    simp only [Finset.mem_image, Finset.mem_filter, Finset.mem_univ, true_and, Finset.mem_Icc]
    constructor
    · rintro ⟨a, ha, rfl⟩
      exact h.bound a ha
    · rintro ⟨h1, hk⟩
      exact h.surj k h1 hk
  have hinj : Set.InjOn rank (Finset.univ.filter S) := by
    intro a ha b hb hab
    exact h.inj a b (by simpa using ha) (by simpa using hb) hab
  rw [← Finset.card_image_of_injOn hinj, himage, Int.card_Icc]
  have := h.nonneg
  omega

end Xv6Threads.Core
