/-
Circular lists in a memory of next fields, and intervals that tile a set of addresses; nothing here is about what they are.

`Circle next l` says that the next fields lead from each cell of `l` to the one after it, and from the last to the first.
`Tiles l S` says that the intervals (an address and a length) are apart and cover the addresses of `S`.
- `Circle.rotate`: a circle may be read from any of its cells.
- `Circle.insert`, `Circle.remove`: a cell is linked in or out after another.
- `tiles_split`: two intervals that meet are as good as one.
- `Tiles.extend`: an interval is added that is apart from the others.
-/
import Xv6Threads.Core.Runs

namespace Xv6Threads.Core

open Function

/-! ## Circles -/

section Circle

variable {α : Type*} {next next' : α → α} {a b e p q : α} {l l' r : List α}

def Circle (next : α → α) (l : List α) : Prop := Cycle.Chain (fun a b => next a = b) (l : Cycle α)

theorem circle_cons : Circle next (a :: l) ↔ List.IsChain (fun a b => next a = b) (a :: (l ++ [a])) :=
  Cycle.chain_coe_cons _ _ _

theorem Circle.rotate (h : Circle next l) (hl : l ~r l') : Circle next l' := by
  unfold Circle
  rw [← Cycle.coe_eq_coe.2 hl]
  exact h

/-- only the next fields before the last cell matter -/
theorem isChain_congr (hnext : ∀ a ∈ l, next' a = next a) (h : List.IsChain (fun a b => next a = b) (l ++ [e])) :
    List.IsChain (fun a b => next' a = b) (l ++ [e]) := by
  induction l with
  | nil => exact .singleton e
  | cons a l ih =>
    have hrest := ih (fun b hb => hnext b (List.mem_cons_of_mem _ hb)) h.tail
    have ha := hnext a List.mem_cons_self
    cases l with
    | nil =>
      have hab := (List.isChain_cons_cons.1 h).1
      exact .cons_cons (ha.trans hab) hrest
    | cons b l =>
      have hab := (List.isChain_cons_cons.1 h).1
      exact .cons_cons (ha.trans hab) hrest

theorem Circle.congr (hnext : ∀ a ∈ l, next' a = next a) (h : Circle next l) : Circle next' l := by
  cases l with
  | nil => exact h
  | cons a l =>
    rw [circle_cons] at h ⊢
    exact isChain_congr (l := a :: l) hnext h

/-- the first next field leads to the rest -/
theorem isChain_first : List.IsChain (fun a b => next a = b) (a :: (l ++ [e])) ↔
    next a = (l ++ [e]).headD e ∧ List.IsChain (fun a b => next a = b) (l ++ [e]) := by
  cases l with
  | nil => exact List.isChain_cons_cons
  | cons b l => exact List.isChain_cons_cons

/-- the cell after the first -/
theorem Circle.next_eq (h : Circle next (p :: r)) : next p = (r ++ [p]).headD p :=
  (isChain_first.1 (circle_cons.1 h)).1

variable [DecidableEq α]

/-- **A cell is linked in** after `p`. -/
theorem Circle.insert (h : Circle next (p :: r)) (hp : p ∉ r) (hb : b ∉ p :: r) :
    Circle (update (update next b (next p)) p b) (p :: b :: r) := by
  rw [circle_cons, isChain_first] at h
  obtain ⟨hnext, hrest⟩ := h
  have hbp : b ≠ p := fun e => hb (e ▸ List.mem_cons_self)
  rw [circle_cons, List.cons_append]
  refine .cons_cons (update_self ..) (isChain_first.2 ⟨?_, isChain_congr ?_ hrest⟩)
  · rw [update_of_ne hbp, update_self]
    exact hnext
  · intro a ha
    have hap : a ≠ p := fun e => hp (e ▸ ha)
    have hab : a ≠ b := fun e => hb (e ▸ List.mem_cons_of_mem _ ha)
    rw [update_of_ne hap, update_of_ne hab]

/-- **The cell after `p` is linked out.** -/
theorem Circle.remove (h : Circle next (p :: q :: r)) (hp : p ∉ r) : Circle (update next p (next q)) (p :: r) := by
  rw [circle_cons, List.cons_append] at h
  obtain ⟨hnext, hrest⟩ := isChain_first.1 h.tail
  rw [circle_cons]
  refine isChain_first.2 ⟨?_, isChain_congr ?_ hrest⟩
  · rw [update_self]
    exact hnext
  · intro a ha
    have hap : a ≠ p := fun e => hp (e ▸ ha)
    exact update_of_ne hap ..

end Circle

/-! ## Tilings -/

/-- the interval that starts at the first number and is as long as the second says -/
def Covers (t : ℕ × ℕ) (u : ℕ) : Prop := t.1 ≤ u ∧ u < t.1 + t.2

/-- one is before the other -/
def Apart (s t : ℕ × ℕ) : Prop := s.1 + s.2 ≤ t.1 ∨ t.1 + t.2 ≤ s.1

instance symmApart : Std.Symm Apart := ⟨fun _ _ h => Or.symm h⟩

structure Tiles (l : List (ℕ × ℕ)) (S : ℕ → Prop) : Prop where
  pos : ∀ t ∈ l, 0 < t.2
  apart : l.Pairwise Apart
  cover : ∀ u, S u ↔ ∃ t ∈ l, Covers t u

section Tiles

variable {l l' : List (ℕ × ℕ)} {S : ℕ → Prop} {t : ℕ × ℕ}

theorem Tiles.perm (h : Tiles l S) (hl : l.Perm l') : Tiles l' S := by
  refine ⟨fun t ht => h.pos t (hl.mem_iff.2 ht), (hl.pairwise_iff fun h => Or.symm h).1 h.apart, ?_⟩
  intro u
  rw [h.cover u]
  constructor
  · rintro ⟨t, ht, hu⟩
    exact ⟨t, hl.mem_iff.1 ht, hu⟩
  · rintro ⟨t, ht, hu⟩
    exact ⟨t, hl.mem_iff.2 ht, hu⟩

/-- two tiles of the list are apart -/
theorem Tiles.apart_of_mem (h : Tiles l S) {s : ℕ × ℕ} (hs : s ∈ l) (ht : t ∈ l) (hne : s ≠ t) : Apart s t := by
  exact h.apart.forall hs ht hne

/-- **Two intervals that meet** are as good as one. -/
theorem tiles_split {a m n : ℕ} (hm : 0 < m) (hn : 0 < n) :
    Tiles ((a, m + n) :: l) S ↔ Tiles ((a, m) :: (a + m, n) :: l) S := by
  have hcover : ∀ u, Covers (a, m + n) u ↔ Covers (a, m) u ∨ Covers (a + m, n) u := by
    intro u
    unfold Covers
    simp only
    omega
  constructor
  · rintro ⟨hpos, hapart, hu⟩
    obtain ⟨hfirst, hrest⟩ := List.pairwise_cons.1 hapart
    have hl : ∀ t ∈ l, Apart (a, m) t ∧ Apart (a + m, n) t := by
      intro t ht
      have hpos := hpos t (List.mem_cons_of_mem _ ht)
      have hfirst := hfirst t ht
      unfold Apart at hfirst ⊢
      simp only at hfirst ⊢
      omega
    refine ⟨?_, List.pairwise_cons.2 ⟨?_, List.pairwise_cons.2 ⟨fun t ht => (hl t ht).2, hrest⟩⟩, ?_⟩
    · intro t ht
      simp only [List.mem_cons] at ht
      rcases ht with rfl | rfl | ht
      · exact hm
      · exact hn
      · exact hpos t (List.mem_cons_of_mem _ ht)
    · intro t ht
      rcases List.mem_cons.1 ht with rfl | ht
      · exact .inl le_rfl
      · exact (hl t ht).1
    · intro u
      rw [hu u, List.exists_mem_cons_iff, List.exists_mem_cons_iff, List.exists_mem_cons_iff, hcover u, or_assoc]
  · rintro ⟨hpos, hapart, hu⟩
    obtain ⟨hfirst, hrest⟩ := List.pairwise_cons.1 hapart
    obtain ⟨hsecond, hrest⟩ := List.pairwise_cons.1 hrest
    refine ⟨?_, List.pairwise_cons.2 ⟨?_, hrest⟩, ?_⟩
    · intro t ht
      rcases List.mem_cons.1 ht with rfl | ht
      · exact Nat.add_pos_left hm n
      · exact hpos t (List.mem_cons_of_mem _ (List.mem_cons_of_mem _ ht))
    · intro t ht
      have hpos := hpos t (List.mem_cons_of_mem _ (List.mem_cons_of_mem _ ht))
      have h1 := hfirst t (List.mem_cons_of_mem _ ht)
      have h2 := hsecond t ht
      unfold Apart at h1 h2 ⊢
      simp only at h1 h2 ⊢
      omega
    · intro u
      rw [hu u, List.exists_mem_cons_iff, List.exists_mem_cons_iff, List.exists_mem_cons_iff, hcover u, or_assoc]

/-- **An interval is added.** -/
theorem Tiles.extend (h : Tiles l S) (hpos : 0 < t.2) (ht : ∀ s ∈ l, Apart t s) :
    Tiles (t :: l) (fun u => S u ∨ Covers t u) := by
  refine ⟨List.forall_mem_cons.2 ⟨hpos, h.pos⟩, List.pairwise_cons.2 ⟨ht, h.apart⟩, ?_⟩
  intro u
  rw [List.exists_mem_cons_iff, h.cover u, or_comm]

end Tiles

end Xv6Threads.Core
