/-
One token, taken and given back: the bookkeeping of a binary semaphore, with nothing said about who waits for it.

A ledger has the token's value and the lists of those who took it and gave it. `Ledger.Moves` is what may happen to it: a
take, which needs a value other than 0 and leaves 0, or a give, which leaves 1 whatever was there. A ledger opened with
value `v` in {0, 1} then stays in order (`Ledger.Sound v`): the value is 0 or 1, and there are no more takes than `v`
plus the gives.
- `Ledger.Moves.sound`: every move keeps the ledger in order.
- `Ledger.Sound.holder_unique`: if nobody gave more often than they took and `v ≤ 1`, at most one holds the token.
-/
import Mathlib

namespace Xv6Threads.Core

variable {W : Type*}

structure Ledger (W : Type*) where
  value : ℤ
  taken : List W
  given : List W

namespace Ledger

/-- nothing happens, somebody takes the token, or somebody gives it -/
inductive Moves (l : Ledger W) : Ledger W → Prop
  | stay : Moves l l
  | take (w : W) (h : l.value ≠ 0) : Moves l ⟨0, l.taken ++ [w], l.given⟩
  | give (w : W) : Moves l ⟨1, l.taken, l.given ++ [w]⟩

/-- the token is there or not, and it was taken at most as often as it was put there -/
structure Sound (v : ℤ) (l : Ledger W) : Prop where
  binary : l.value = 0 ∨ l.value = 1
  balance : l.value + l.taken.length ≤ v + l.given.length

/-- a new ledger -/
theorem sound_open {v : ℤ} (hv : v = 0 ∨ v = 1) : Sound v (⟨v, [], []⟩ : Ledger W) := ⟨hv, le_rfl⟩

theorem Moves.sound {v : ℤ} {l l' : Ledger W} (h : Moves l l') (hl : Sound v l) : Sound v l' := by
  obtain ⟨hb, hl⟩ := hl
  cases h with
  | stay => exact ⟨hb, hl⟩
  | take w h =>
    refine ⟨Or.inl rfl, ?_⟩
    simp only [List.length_append, List.length_singleton]
    omega
  | give w =>
    refine ⟨Or.inr rfl, ?_⟩
    simp only [List.length_append, List.length_singleton]
    omega

variable [DecidableEq W]

/-- how often `w` took the token -/
def takes (l : Ledger W) (w : W) : ℕ := l.taken.count w

/-- how often `w` gave the token -/
def gives (l : Ledger W) (w : W) : ℕ := l.given.count w

/-- **Mutual exclusion.** What was taken and not given is at most one token, so at most one holds it. -/
theorem Sound.holder_unique {v : ℤ} {l : Ledger W} (h : Sound v l) (hv : v ≤ 1) (hd : ∀ w, l.gives w ≤ l.takes w) {p q : W}
    (hp : l.gives p < l.takes p) (hq : l.gives q < l.takes q) : p = q := by
  -- the tokens that are out, as a multiset of holders
  let out : Multiset W := (l.taken : Multiset W) - (l.given : Multiset W)
  have hle : (l.given : Multiset W) ≤ l.taken := Multiset.le_iff_count.2 fun w => by
    simpa [takes, gives] using hd w
  have hcard : out.card ≤ 1 := by
    rw [Multiset.card_sub hle, Multiset.coe_card, Multiset.coe_card]
    have := h.balance
    rcases h.binary with h0 | h0 <;> omega
  have hmem : ∀ w, l.gives w < l.takes w → w ∈ out := fun w hw => by
    rw [← Multiset.count_pos, Multiset.count_sub, Multiset.coe_count, Multiset.coe_count]
    exact Nat.sub_pos_of_lt hw
  obtain ⟨rest, hrest⟩ := Multiset.exists_cons_of_mem (hmem p hp)
  have hnil : rest = 0 := by
    rw [hrest, Multiset.card_cons] at hcard
    exact Multiset.card_eq_zero.1 (by omega)
  have hmq := hmem q hq
  rw [hrest, hnil, Multiset.mem_cons] at hmq
  exact (hmq.resolve_right (Multiset.notMem_zero q)).symm

end Ledger

end Xv6Threads.Core
