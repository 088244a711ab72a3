/-
Texts as lines, and buffers that are overwritten from the front; nothing here is about a program.

A line ends with a separator; `unlines ls` is the text of the lines `ls`, `leftover s` what follows the last separator of
`s`. `overwrite x buf` is the buffer after `x` was stored at its start.
- `exists_unlines`, `leftover_unlines`: a text is its lines and its leftover.
- `split_unlines`: a cut through the text of some lines cuts the list of lines, and the line that it meets.
- `drop_overwrite`, `mem_drop_overwrite`: what is behind the stored part is as it was.
-/
import Mathlib.Data.List.DropRight
import Mathlib.Data.List.Basic

namespace Xv6Threads.Core

section Lines

variable {α : Type*} (sep : α)

def unlines (ls : List (List α)) : List α := ls.flatMap (· ++ [sep])

variable {sep}

@[simp] theorem unlines_nil : unlines sep [] = [] := rfl

theorem unlines_cons (l : List α) (ls : List (List α)) : unlines sep (l :: ls) = l ++ sep :: unlines sep ls := by
  unfold unlines
  rw [List.flatMap_cons, List.append_assoc, List.singleton_append]

theorem unlines_append (ls ls' : List (List α)) : unlines sep (ls ++ ls') = unlines sep ls ++ unlines sep ls' :=
  List.flatMap_append

variable (sep) in
theorem length_le_unlines (ls : List (List α)) : ls.length ≤ (unlines sep ls).length := by
  induction ls with
  | nil => exact Nat.le_refl 0
  | cons l ls ih =>
    rw [unlines_cons, List.length_append, List.length_cons, List.length_cons]
    omega

variable (sep) in
/-- the text of lines ends with the separator -/
theorem unlines_ends {ls : List (List α)} (h : ls ≠ []) : ∃ s, unlines sep ls = s ++ [sep] := by
  obtain ⟨ls', l, rfl⟩ : ∃ ls' l, ls = ls' ++ [l] := ⟨_, _, (List.dropLast_append_getLast h).symm⟩
  refine ⟨unlines sep ls' ++ l, ?_⟩
  rw [unlines_append, unlines_cons, unlines_nil, List.append_assoc]

/-- a cut through the text of some lines -/
theorem split_unlines {ls : List (List α)} (hls : ∀ l ∈ ls, sep ∉ l) {a b : List α} (h : a ++ b = unlines sep ls) :
    ∃ ls₁ ls₂ tail, ls = ls₁ ++ ls₂ ∧ a = unlines sep ls₁ ++ tail ∧ tail ++ b = unlines sep ls₂ ∧ sep ∉ tail := by
  induction ls generalizing a with
  | nil =>
    obtain ⟨rfl, rfl⟩ := List.append_eq_nil_iff.1 h
    exact ⟨[], [], [], rfl, rfl, rfl, List.not_mem_nil⟩
  | cons l ls ih =>
    obtain ⟨hl, hrest⟩ := List.forall_mem_cons.1 hls
    rw [unlines_cons] at h
    rcases List.append_eq_append_iff.1 h with ⟨y, hlay, hb⟩ | ⟨y, ha, hy⟩
    · -- the cut is in the first line
      refine ⟨[], l :: ls, a, rfl, rfl, ?_, ?_⟩
      · rw [unlines_cons, hlay, hb, List.append_assoc]
      · intro ha
        exact hl (by rw [hlay]; exact List.mem_append_left _ ha)
    · cases y with
      | nil =>
        refine ⟨[], l :: ls, a, rfl, rfl, by rw [unlines_cons]; exact h, ?_⟩
        rw [ha, List.append_nil]
        exact hl
      | cons y₀ y =>
        obtain ⟨rfl, hyb⟩ := List.cons_eq_cons.1 hy
        obtain ⟨ls₁, ls₂, tail, rfl, rfl, hb, htail⟩ := ih hrest hyb.symm
        exact ⟨l :: ls₁, ls₂, tail, rfl, by rw [ha, unlines_cons, List.append_assoc]; rfl, hb, htail⟩

variable (sep) in
/-- a text is its lines and what follows the last separator -/
theorem exists_unlines (s : List α) : ∃ ls tail, s = unlines sep ls ++ tail ∧ (∀ l ∈ ls, sep ∉ l) ∧ sep ∉ tail := by
  induction s with
  | nil => exact ⟨[], [], rfl, fun l hl => absurd hl List.not_mem_nil, List.not_mem_nil⟩
  | cons x s ih =>
    obtain ⟨ls, tail, hs, hls, htail⟩ := ih
    by_cases hx : sep = x
    · refine ⟨[] :: ls, tail, by rw [hs, unlines_cons, hx]; rfl, ?_, htail⟩
      exact List.forall_mem_cons.2 ⟨List.not_mem_nil, hls⟩
    · cases ls with
      | nil => exact ⟨[], x :: tail, by rw [hs]; rfl, hls, List.not_mem_cons_of_ne_of_not_mem hx htail⟩
      | cons l ls =>
        obtain ⟨hl, hls⟩ := List.forall_mem_cons.1 hls
        refine ⟨(x :: l) :: ls, tail, by rw [hs, unlines_cons, unlines_cons]; rfl, ?_, htail⟩
        exact List.forall_mem_cons.2 ⟨List.not_mem_cons_of_ne_of_not_mem hx hl, hls⟩

variable (sep) in
/-- a text that ends with the separator is the text of lines -/
theorem exists_unlines_of_ends (s : List α) : ∃ ls, s ++ [sep] = unlines sep ls ∧ ∀ l ∈ ls, sep ∉ l := by
  obtain ⟨ls, tail, hs, hls, htail⟩ := exists_unlines sep s
  refine ⟨ls ++ [tail], ?_, ?_⟩
  · rw [hs, unlines_append, unlines_cons, unlines_nil, List.append_assoc]
  · exact List.forall_mem_append.2 ⟨hls, List.forall_mem_singleton.2 htail⟩

variable [DecidableEq α]

/-- the first line of a text is determined by the text -/
theorem first_line_inj {l l' a b : List α} (hl : sep ∉ l) (hl' : sep ∉ l') (h : l ++ sep :: a = l' ++ sep :: b) : l = l' := by
  have htake : ∀ {x : List α} (y : List α), sep ∉ x → (x ++ sep :: y).takeWhile (· ≠ sep) = x := by
    intro x y hx
    have hne : ∀ u ∈ x, decide (u ≠ sep) = true := fun u hu => decide_eq_true fun heq => hx (heq ▸ hu)
    rw [List.takeWhile_append_of_pos hne, List.takeWhile_cons_of_neg (by simp), List.append_nil]
  rw [← htake a hl, h, htake b hl']

/-- what follows the last separator -/
def leftover (sep : α) (s : List α) : List α := s.rtakeWhile (· ≠ sep)

theorem leftover_plain {s : List α} (h : sep ∉ s) : leftover sep s = s := by
  unfold leftover
  rw [List.rtakeWhile_eq_self_iff]
  intro x hx
  exact decide_eq_true fun heq => h (heq ▸ hx)

/-- the leftover of a text is that of its end -/
theorem leftover_append_cons (s : List α) {tail : List α} (h : sep ∉ tail) : leftover sep (s ++ sep :: tail) = tail := by
  have hrev : ∀ x ∈ tail.reverse, decide (x ≠ sep) = true := fun x hx =>
    decide_eq_true fun heq => h (heq ▸ List.mem_reverse.1 hx)
  unfold leftover List.rtakeWhile
  rw [List.reverse_append, List.reverse_cons, List.append_assoc, List.takeWhile_append_of_pos hrev,
    List.singleton_append, List.takeWhile_cons_of_neg (by simp), List.append_nil, List.reverse_reverse]

theorem leftover_unlines (ls : List (List α)) {tail : List α} (h : sep ∉ tail) :
    leftover sep (unlines sep ls ++ tail) = tail := by
  by_cases hls : ls = []
  · rw [hls, unlines_nil, List.nil_append, leftover_plain h]
  · obtain ⟨s, hs⟩ := unlines_ends sep hls
    rw [hs, List.append_assoc, List.singleton_append, leftover_append_cons s h]

end Lines

/-! ## Buffers -/

section Buffers

variable {α : Type*}

/-- the buffer after a text was stored at its start -/
def overwrite (x buf : List α) : List α := x ++ buf.drop x.length

theorem length_overwrite {x buf : List α} (h : x.length ≤ buf.length) : (overwrite x buf).length = buf.length := by
  unfold overwrite
  rw [List.length_append, List.length_drop]
  omega

/-- what is behind the stored text is as it was -/
theorem drop_overwrite {x : List α} {k : ℕ} (buf : List α) (h : x.length ≤ k) : (overwrite x buf).drop k = buf.drop k := by
  unfold overwrite
  rw [List.drop_append, List.drop_of_length_le h, List.nil_append, List.drop_drop]
  congr 1
  omega

/-- a text that is shorter than the first part of a buffer changes only that part -/
theorem take_overwrite {x u : List α} (r : List α) (h : x.length ≤ u.length) :
    (overwrite x (u ++ r)).take u.length = overwrite x u := by
  unfold overwrite
  have hlen : u.length = (x ++ u.drop x.length).length := by
    rw [List.length_append, List.length_drop]
    omega
  rw [List.drop_append_of_le_length h, ← List.append_assoc, hlen, List.take_left]

/-- what is found from a place on was stored or was there -/
theorem mem_drop_overwrite {x buf : List α} {k : ℕ} {a : α} (h : a ∈ (overwrite x buf).drop k) : a ∈ x ∨ a ∈ buf.drop k := by
  unfold overwrite at h
  rw [List.drop_append, List.drop_drop] at h
  rcases List.mem_append.1 h with h | h
  · exact .inl (List.mem_of_mem_drop h)
  · exact .inr (List.drop_subset_drop_left buf (by omega) h)

end Buffers

end Xv6Threads.Core
