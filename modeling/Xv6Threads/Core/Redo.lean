/-
A physical redo log over an arbitrary store. Nothing here is about a particular log.

A log is a list of keys with one slot of contents for each; slot `i` holds the new contents of key `keys[i]`, and a key
that is written twice keeps its slot. `redo keys blk home` is the store that installing the whole log would give.
- `redo_record`: recording one more write changes what redoing gives at the written key only.
- `redo_install`: installing one slot does not change what redoing gives, so a crash in the middle costs nothing.
- `Installed.done`: when every slot is installed, the store is what redoing gives.
-/
import Mathlib

namespace Xv6Threads.Core

open Function

variable {κ β : Type*} [DecidableEq κ]

/-- the store after installing every slot of the log -/
def redo (keys : List κ) (blk : ℕ → β) (home : κ → β) : κ → β :=
  fun x => if x ∈ keys then blk (keys.idxOf x) else home x

/-- the keys after recording a write to `k`: a key that is there already is absorbed -/
def record (keys : List κ) (k : κ) : List κ := if k ∈ keys then keys else keys ++ [k]

@[simp] theorem redo_nil (blk : ℕ → β) (home : κ → β) : redo [] blk home = home := by
  funext x
  simp [redo]

theorem mem_record {keys : List κ} {k x : κ} : x ∈ record keys k ↔ x ∈ keys ∨ x = k := by
  unfold record
  split
  next h => exact ⟨Or.inl, fun hx => hx.elim id fun e => e ▸ h⟩
  next => simp

theorem nodup_record {keys : List κ} (h : keys.Nodup) (k : κ) : (record keys k).Nodup := by
  unfold record
  split
  next => exact h
  next hk => simpa using h.concat hk

/-- the slot of a recorded key does not move -/
theorem idxOf_record {keys : List κ} {x : κ} (hx : x ∈ keys) (k : κ) : (record keys k).idxOf x = keys.idxOf x := by
  unfold record
  split
  next => rfl
  next => exact List.idxOf_append_of_mem hx

/-- a recorded write lands in the slot where the search for the key stopped -/
theorem idxOf_record_self (keys : List κ) (k : κ) : (record keys k).idxOf k = keys.idxOf k := by
  by_cases hk : k ∈ keys
  · exact idxOf_record hk k
  · rw [record, if_neg hk, List.idxOf_append_of_notMem hk, List.idxOf_eq_length hk]
    simp

theorem length_record_le (keys : List κ) (k : κ) : (record keys k).length ≤ keys.length + 1 := by
  unfold record
  split <;> simp

/-- **Recording a write.** Redoing the log with one more write is redoing the log and then making the write. -/
theorem redo_record (keys : List κ) (blk : ℕ → β) (home : κ → β) (k : κ) (v : β) :
    redo (record keys k) (update blk (keys.idxOf k) v) home = update (redo keys blk home) k v := by
  funext x
  by_cases hxk : x = k
  · subst hxk
    simp [redo, mem_record, idxOf_record_self]
  · rw [update_of_ne hxk]
    by_cases hx : x ∈ keys
    · have hne : keys.idxOf x ≠ keys.idxOf k := fun e => hxk ((List.idxOf_inj hx).1 e)
      simp [redo, mem_record, hx, idxOf_record hx, hne]
    · simp [redo, mem_record, hx, hxk]

/-- **Installing one slot changes nothing for who redoes the log.** -/
theorem redo_install (keys : List κ) (blk : ℕ → β) (home : κ → β) (k : κ) (hk : k ∈ keys) (v : β) :
    redo keys blk (update home k v) = redo keys blk home := by
  funext x
  unfold redo
  split
  next => rfl
  next hx =>
    have hxk : x ≠ k := fun e => hx (e ▸ hk)
    exact update_of_ne hxk _ _

/-- only the slots in use matter -/
theorem redo_congr {keys : List κ} {blk blk' : ℕ → β} {home home' : κ → β} {x : κ}
    (hblk : ∀ i < keys.length, blk' i = blk i) (hhome : home' x = home x) :
    redo keys blk' home' x = redo keys blk home x := by
  unfold redo
  split
  next hx => exact hblk _ (List.idxOf_lt_length_iff.2 hx)
  next => exact hhome

/-- the first `tail` slots are installed -/
def Installed (keys : List κ) (blk : ℕ → β) (home : κ → β) (tail : ℕ) : Prop :=
  ∀ x ∈ keys, keys.idxOf x < tail → home x = blk (keys.idxOf x)

theorem Installed.zero (keys : List κ) (blk : ℕ → β) (home : κ → β) : Installed keys blk home 0 :=
  fun _ _ h => absurd h (Nat.not_lt_zero _)

theorem Installed.congr {keys : List κ} {blk blk' : ℕ → β} {home home' : κ → β} {tail : ℕ}
    (h : Installed keys blk home tail) (hblk : ∀ i < keys.length, blk' i = blk i)
    (hhome : ∀ x ∈ keys, home' x = home x) : Installed keys blk' home' tail := by
  intro x hx hlt
  rw [hhome x hx, hblk _ (List.idxOf_lt_length_iff.2 hx)]
  exact h x hx hlt

/-- installing the next slot -/
theorem Installed.succ {keys : List κ} {blk : ℕ → β} {home : κ → β} {tail : ℕ} (h : Installed keys blk home tail)
    (k : κ) (hk : keys.idxOf k = tail) :
    Installed keys blk (update home k (blk tail)) (tail + 1) := by
  intro x hx hlt
  by_cases hxk : x = k
  · subst hxk
    rw [update_self, hk]
  · have hne : keys.idxOf x ≠ tail := fun e => hxk ((List.idxOf_inj hx).1 (e.trans hk.symm))
    rw [update_of_ne hxk]
    exact h x hx (by omega)

/-- **A log whose slots are all installed says what the store holds.** -/
theorem Installed.done {keys : List κ} {blk : ℕ → β} {home : κ → β} {tail : ℕ} (h : Installed keys blk home tail)
    (hlen : keys.length ≤ tail) : redo keys blk home = home := by
  funext x
  unfold redo
  split
  next hx => exact (h x hx ((List.idxOf_lt_length_iff.2 hx).trans_le hlen)).symm
  next => rfl

end Xv6Threads.Core
