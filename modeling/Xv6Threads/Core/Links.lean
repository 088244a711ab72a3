/-
Singly linked lists: a head, and a next field in each cell, with nothing said about the cells.

`Spells next start l` says that the cells from `start` on are those of `l`, the last with a null next field. A C loop that
walks to the end has a pointer to a link: the head, or the next field of a cell. `Links.last` is that loop.
- `Spells.nodup`: no cell is twice in a list that ends.
- `Spells.congr`: only the next fields of its own cells matter.
- `Spells.last`: the loop ends, at the link after the last cell.
- `Spells.push`: a cell put there is the new last one.
-/
import Xv6Threads.Core.Runs

namespace Xv6Threads.Core

open Function

variable {α : Type*}

/-- the list from `start` on -/
def Spells (next : α → Option α) : Option α → List α → Prop
  | start, [] => start = none
  | start, a :: l => start = some a ∧ Spells next (next a) l

namespace Spells

variable {next next' : α → Option α} {start : Option α} {l l' : List α}

theorem congr (h : Spells next start l) (hnext : ∀ a ∈ l, next' a = next a) : Spells next' start l := by
  induction l generalizing start with
  | nil => exact h
  | cons a l ih =>
    refine ⟨h.1, ?_⟩
    rw [hnext a List.mem_cons_self]
    exact ih h.2 fun b hb => hnext b (List.mem_cons_of_mem _ hb)

theorem unique (h : Spells next start l) (h' : Spells next start l') : l = l' := by
  induction l generalizing start l' with
  | nil =>
    cases l' with
    | nil => rfl
    | cons a l' => exact absurd (h.symm.trans h'.1) nofun
  | cons a l ih =>
    cases l' with
    | nil => exact absurd (h.1.symm.trans h') nofun
    | cons b l' =>
      obtain rfl : a = b := Option.some.inj (h.1.symm.trans h'.1)
      rw [ih h.2 h'.2]

/-- from a cell of the list on there is a part of it -/
theorem from_mem (h : Spells next start l) {a : α} (ha : a ∈ l) : ∃ rest, rest.length < l.length ∧ Spells next (next a) rest := by
  induction l generalizing start with
  | nil => exact absurd ha List.not_mem_nil
  | cons b l ih =>
    rcases List.mem_cons.1 ha with rfl | ha
    · exact ⟨l, Nat.lt_succ_self _, h.2⟩
    · obtain ⟨rest, hlt, hrest⟩ := ih h.2 ha
      exact ⟨rest, hlt.trans (Nat.lt_succ_self _), hrest⟩

theorem nodup (h : Spells next start l) : l.Nodup := by
  induction l generalizing start with
  | nil => exact List.nodup_nil
  | cons a l ih =>
    refine List.nodup_cons.2 ⟨?_, ih h.2⟩
    intro ha
    -- the part after `a` would be shorter than itself
    obtain ⟨rest, hlt, hrest⟩ := from_mem h.2 ha
    rw [unique hrest h.2] at hlt
    exact absurd hlt (Nat.lt_irrefl _)

end Spells

/-- a list and its head -/
structure Links (α : Type*) where
  head : Option α
  next : α → Option α

namespace Links

/-- what a link holds: the head's is `none` -/
def get (s : Links α) : Option α → Option α
  | none => s.head
  | some a => s.next a

variable [DecidableEq α]

def set (s : Links α) (v : Option α) : Option α → Links α
  | none => { s with head := v }
  | some a => { s with next := update s.next a v }

theorem get_set_of_ne {s : Links α} {v : Option α} {pp q : Option α} (h : pp ≠ q) : (s.set v q).get pp = s.get pp := by
  cases q with
  | none =>
    cases pp with
    | none => exact absurd rfl h
    | some c => rfl
  | some d =>
    cases pp with
    | none => rfl
    | some c =>
      have hcd : c ≠ d := fun e => h (e ▸ rfl)
      exact update_of_ne hcd ..

/-- the loop that looks for the link that holds null -/
def last (s : Links α) : ℕ → Option α → Option (Option α)
  | 0, _ => none
  | turns + 1, pp =>
    match s.get pp with
    | none => some pp
    | some a => last s turns (some a)

/-- the link after the cells of `l`, when the first is in the link `pp` -/
def endOf (pp : Option α) : List α → Option α
  | [] => pp
  | a :: l => endOf (some a) l

end Links

namespace Spells

variable [DecidableEq α] {s : Links α} {pp : Option α} {l : List α}

theorem last (h : Spells s.next (s.get pp) l) {turns : ℕ} (hturns : l.length < turns) :
    s.last turns pp = some (Links.endOf pp l) := by
  induction l generalizing pp turns with
  | nil =>
    cases turns with
    | zero => exact absurd hturns (Nat.not_lt_zero _)
    | succ turns =>
      have hget : s.get pp = none := h
      rw [Links.last, hget]
      rfl
  | cons a l ih =>
    cases turns with
    | zero => exact absurd hturns (Nat.not_lt_zero _)
    | succ turns =>
      rw [Links.last, h.1]
      exact @ih (some a) h.2 _ (Nat.lt_of_succ_lt_succ hturns)

/-- a new cell after the last one: what the link `pp` holds then -/
theorem push_get (h : Spells s.next (s.get pp) l) {b : α} (hb : b ∉ l) (hpp : pp ≠ some b) (hfresh : ∀ a ∈ l, pp ≠ some a)
    (hend : s.next b = none) :
    Spells (s.set (some b) (Links.endOf pp l)).next ((s.set (some b) (Links.endOf pp l)).get pp) (l ++ [b]) := by
  induction l generalizing pp with
  | nil =>
    change Spells _ _ [b]
    cases pp with
    | none => exact ⟨rfl, hend⟩
    | some a =>
      have hba : b ≠ a := fun e => hpp (e ▸ rfl)
      refine ⟨update_self .., ?_⟩
      exact (update_of_ne hba ..).trans hend
  | cons a l ih =>
    have hnodup := nodup h
    have ha : a ∉ l := (List.nodup_cons.1 hnodup).1
    have hba : a ≠ b := fun e => hb (e ▸ List.mem_cons_self)
    have hrest := @ih (some a) h.2 (fun hm => hb (List.mem_cons_of_mem _ hm)) (fun e => hba (Option.some.inj e))
      fun c hc e => ha (Option.some.inj e ▸ hc)
    refine ⟨?_, hrest⟩
    -- the link that is set is one of the cells, and `pp` is not
    have hother : ∀ (l : List α) (c : α), pp ≠ some c → (∀ a ∈ l, pp ≠ some a) → pp ≠ Links.endOf (some c) l := by
      intro l
      induction l with
      | nil => exact fun c hc _ => hc
      | cons d l ih' =>
        exact fun c _ hl => ih' d (hl d List.mem_cons_self) fun a ha => hl a (List.mem_cons_of_mem _ ha)
    have hne := hother l a (hfresh a List.mem_cons_self) fun c hc => hfresh c (List.mem_cons_of_mem _ hc)
    exact (Links.get_set_of_ne hne).trans h.1

/-- **A cell is put at the end.** -/
theorem push (h : Spells s.next s.head l) {b : α} (hb : b ∉ l) (hend : s.next b = none) :
    Spells (s.set (some b) (Links.endOf none l)).next (s.set (some b) (Links.endOf none l)).head (l ++ [b]) :=
  push_get h hb nofun (fun _ _ => nofun) hend

/-- the new cell is the head of a list that was empty -/
theorem push_head (h : Spells s.next s.head l) (b : α) :
    (s.set (some b) (Links.endOf none l)).head = if l = [] then some b else s.head := by
  cases l with
  | nil => rfl
  | cons a l =>
    rw [if_neg (List.cons_ne_nil _ _)]
    -- from a cell on, the loop stays at cells
    have hcell : ∀ (l : List α) (a : α), ∃ c, Links.endOf (some a) l = some c := by
      intro l
      induction l with
      | nil => exact fun a => ⟨a, rfl⟩
      | cons d l ih => exact fun _ => ih d
    obtain ⟨c, hc⟩ := hcell l a
    change (s.set (some b) (Links.endOf (some a) l)).head = s.head
    rw [hc]
    rfl

end Spells

end Xv6Threads.Core
