/-
First come, first served, read off a history.

Fix four events of a history: one customer's arrival `a` and service `x`, another's arrival `b` and service `y`.
- `Pending a x h`: the first has arrived and has not been served since.
- `Behind a b x y h`: the second arrived after the first, and neither has been served since.
- `NoOvertake a b x y h`: whenever the second arrived after the first, the first was served before the second.
Each of them is decided by the last event from what held before it (`pending_snoc`, `behind_snoc`, `noOvertake_snoc`),
so a machine that writes its own history keeps them as invariants, one event at a time.
-/
import Mathlib

namespace Xv6Threads.Core

variable {E : Type*} {a b x y e : E} {h : List E}

/-- `a` happened and `x` has not happened since -/
def Pending (a x : E) (h : List E) : Prop := ∃ l₁ l₂, h = l₁ ++ a :: l₂ ∧ x ∉ l₂

/-- `a` happened, later `b` did; `x` has not happened since `a`, nor `y` since `b` -/
def Behind (a b x y : E) (h : List E) : Prop :=
  ∃ l₁ l₂ l₃, h = l₁ ++ a :: (l₂ ++ b :: l₃) ∧ x ∉ l₂ ++ b :: l₃ ∧ y ∉ l₃

/-- between `b` and the next `y`, or between `a` and that `b`, there is an `x` -/
def NoOvertake (a b x y : E) (h : List E) : Prop :=
  ∀ l₁ l₂ l₃ l₄, h = l₁ ++ a :: (l₂ ++ b :: (l₃ ++ y :: l₄)) → y ∉ l₃ → x ∈ l₂ ++ b :: l₃

theorem Behind.pending (hb : Behind a b x y h) : Pending a x h := by
  obtain ⟨l₁, l₂, l₃, rfl, hx, _⟩ := hb
  exact ⟨l₁, l₂ ++ b :: l₃, rfl, hx⟩

/-- a list that ends in `e` and splits around `c`: the split is at the end or before it -/
theorem snoc_eq_append_cons {c : E} {l₁ l₂ : List E} (he : h ++ [e] = l₁ ++ c :: l₂) :
    (e = c ∧ h = l₁ ∧ l₂ = []) ∨ ∃ l, l₂ = l ++ [e] ∧ h = l₁ ++ c :: l := by
  rcases List.eq_nil_or_concat l₂ with rfl | ⟨l, e', rfl⟩
  · obtain ⟨h1, h2⟩ := List.append_inj' he rfl
    exact Or.inl ⟨by simpa using h2, h1, rfl⟩
  · rw [List.concat_eq_append] at he ⊢
    have he' : h ++ [e] = (l₁ ++ c :: l) ++ [e'] := by
      simpa using he
    obtain ⟨h1, h2⟩ := List.append_inj' he' rfl
    obtain rfl : e = e' := by simpa using h2
    exact Or.inr ⟨l, rfl, h1⟩

theorem pending_snoc : Pending a x (h ++ [e]) ↔ e = a ∨ (Pending a x h ∧ e ≠ x) := by
  constructor
  · rintro ⟨l₁, l₂, hs, hx⟩
    rcases snoc_eq_append_cons hs with ⟨rfl, _, _⟩ | ⟨l, rfl, rfl⟩
    · exact Or.inl rfl
    · simp only [List.mem_append, List.mem_singleton, not_or] at hx
      exact Or.inr ⟨⟨l₁, l, rfl, hx.1⟩, fun h => hx.2 h.symm⟩
  · rintro (rfl | ⟨⟨l₁, l₂, rfl, hx⟩, he⟩)
    · exact ⟨h, [], rfl, by simp⟩
    · exact ⟨l₁, l₂ ++ [e], by simp, by simp [hx, he.symm]⟩

theorem behind_snoc : Behind a b x y (h ++ [e]) ↔
    (e = b ∧ b ≠ x ∧ Pending a x h) ∨ (Behind a b x y h ∧ e ≠ x ∧ e ≠ y) := by
  constructor
  · rintro ⟨l₁, l₂, l₃, hs, hx, hy⟩
    have hs' : h ++ [e] = (l₁ ++ a :: l₂) ++ b :: l₃ := by
      simpa using hs
    simp only [List.mem_append, List.mem_cons, not_or] at hx
    rcases snoc_eq_append_cons hs' with ⟨rfl, rfl, rfl⟩ | ⟨l, rfl, rfl⟩
    · exact Or.inl ⟨rfl, fun h => hx.2.1 h.symm, l₁, l₂, rfl, hx.1⟩
    · simp only [List.mem_append, List.mem_singleton, not_or] at hx hy
      refine Or.inr ⟨⟨l₁, l₂, l, by simp, ?_, hy.1⟩, fun h => hx.2.2.2 h.symm, fun h => hy.2 h.symm⟩
      simp [hx.1, hx.2.1, hx.2.2.1]
  · rintro (⟨rfl, hbx, l₁, l₂, rfl, hx⟩ | ⟨⟨l₁, l₂, l₃, rfl, hx, hy⟩, hex, hey⟩)
    · exact ⟨l₁, l₂, [], by simp, by simp [hx, hbx.symm], by simp⟩
    · refine ⟨l₁, l₂, l₃ ++ [e], by simp, ?_, by simp [hy, hey.symm]⟩
      simp only [List.mem_append, List.mem_cons, not_or] at hx
      simp [hx.1, hx.2.1, hx.2.2, hex.symm]

/-- **Service in order.** Only the service of the second can break the order, and only while it is behind the first. -/
theorem noOvertake_snoc (hn : NoOvertake a b x y h) (he : e = y → ¬ Behind a b x y h) :
    NoOvertake a b x y (h ++ [e]) := by
  intro l₁ l₂ l₃ l₄ hs hy
  have hs' : h ++ [e] = (l₁ ++ a :: (l₂ ++ b :: l₃)) ++ y :: l₄ := by
    simpa using hs
  rcases snoc_eq_append_cons hs' with ⟨hey, rfl, rfl⟩ | ⟨l, rfl, hl⟩
  · by_contra hx
    exact he hey ⟨l₁, l₂, l₃, rfl, hx, hy⟩
  · exact hn l₁ l₂ l₃ l (by simpa using hl) hy

theorem noOvertake_nil : NoOvertake a b x y ([] : List E) := by
  intro l₁ l₂ l₃ l₄ hs
  simp at hs

theorem not_pending_nil : ¬ Pending a x ([] : List E) := by
  rintro ⟨l₁, l₂, hs, _⟩
  simp at hs

end Xv6Threads.Core
