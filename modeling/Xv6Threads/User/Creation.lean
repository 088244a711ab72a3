/-
`semaphore_create` and `BB_create`, and the binary semaphores that a failed call leaves behind.

The kernel has a table of 128 binary semaphores. Neither function gives one back when a later one cannot be had, and no
system call would let it. `malloc` is taken to succeed.
- `Takes n`: a call that takes `n` semaphores of the table, or all that are free if these are fewer.
- `semaphoreCreate_takes`, `bbCreate_takes`: the two calls, with 2 and 5.
- `failed_creation_iff`: a failed call leaves the table as it was iff nothing was free, or the call does not fail.
-/
import Xv6Threads.Kernel.Machine

namespace Xv6Threads.Creation

open Function

open Xv6Threads.Kernel

abbrev SemTable := SemId → BSem

/-! ## The code -/

/-- `binary_semaphore_create`; `none` is -1 -/
def binarySemaphoreCreate (initial_value : ℤ) : StateM SemTable (Option SemId) := fun t =>
  match (List.finRange 128).find? fun id => (t id).created = false with
  | none => (none, t)
  | some id => (some id, update t id { t id with created := true, value := initial_value })

/-- `struct semaphore`; a name is the address of its text -/
structure Semaphore where
  value : ℤ
  s1 : SemId
  s2 : SemId
  name : ℕ

/-- `none` is the null pointer -/
def semaphoreCreate (initial_semaphore_value : ℤ) (name : ℕ) : StateM SemTable (Option Semaphore) := do
  let s1 ← binarySemaphoreCreate 1
  match s1 with
  | none => return none
  | some s1 =>
    let min := if initial_semaphore_value < 1 then initial_semaphore_value else 1
    let s2 ← binarySemaphoreCreate min
    match s2 with
    | none => return none
    | some s2 => return some ⟨initial_semaphore_value, s1, s2, name⟩

/-- `struct BB` -/
structure BB where
  BUFFER_SIZE : ℤ
  mutex : SemId
  empty : Semaphore
  full : Semaphore
  start : ℕ
  end_ : ℕ
  name : ℕ
  elements : List ℕ

def bbCreate (max_capacity : ℤ) (name : ℕ) : StateM SemTable (Option BB) := do
  let mutex ← binarySemaphoreCreate 1
  match mutex with
  | none => return none
  | some mutex =>
    let empty ← semaphoreCreate max_capacity name
    match empty with
    | none => return none
    | some empty =>
      let full ← semaphoreCreate 0 name
      match full with
      | none => return none
      | some full =>
        -- malloc and memset of sizeof(void*) * max_capacity bytes, an unsigned number
        let elements := List.replicate ((4 * max_capacity % 2 ^ 32).toNat / 4) 0
        return some ⟨max_capacity, mutex, empty, full, 0, 0, name, elements⟩

/-! ## What the calls take -/

/-- the semaphores that have been created -/
def created (t : SemTable) : Finset SemId := Finset.univ.filter fun id => (t id).created = true

/-- the number of those that have not -/
def free (t : SemTable) : ℕ := (Finset.univ.filter fun id => (t id).created = false).card

variable {α β : Type} {t t' : SemTable} {m n : ℕ}

theorem created_add_free (t : SemTable) : (created t).card + free t = 128 := by
  have hnot : (Finset.univ.filter fun id => (t id).created = false) =
      Finset.univ.filter fun id => ¬ (t id).created = true := by
    simp only [Bool.not_eq_true]
  unfold created free
  rw [hnot, Finset.card_filter_add_card_filter_not, Finset.card_univ, Fintype.card_fin]

theorem created_eq_iff (h : created t ⊆ created t') : created t' = created t ↔ free t' = free t := by
  have ht := created_add_free t
  have ht' := created_add_free t'
  constructor
  · intro heq
    rw [heq] at ht'
    omega
  · intro heq
    exact (Finset.eq_of_subset_of_card_le h (by omega)).symm

/-- the call takes `n` of the semaphores and succeeds, or it takes all that are free and fails -/
structure Takes (n : ℕ) (c : StateM SemTable (Option α)) : Prop where
  keeps : ∀ t, created t ⊆ created (c t).2
  left : ∀ t, free (c t).2 = free t - n
  fails : ∀ t, (c t).1 = none ↔ free t < n

/-- one call, and if it succeeds another one -/
theorem Takes.bind {c : StateM SemTable (Option α)} {g : Option α → StateM SemTable (Option β)} (hc : Takes m c)
    (hnone : g none = pure none) (hsome : ∀ a, Takes n (g (some a))) : Takes (m + n) (c >>= g) := by
  have hrun : ∀ t, (c >>= g) t = g (c t).1 (c t).2 := fun _ => rfl
  constructor
  case keeps =>
    intro t
    rw [hrun]
    cases (c t).1 with
    | none =>
      rw [hnone]
      exact hc.keeps t
    | some a => exact (hc.keeps t).trans ((hsome a).keeps _)
  case left =>
    intro t
    have hleft := hc.left t
    rw [hrun]
    cases hr : (c t).1 with
    | none =>
      have hlt := (hc.fails t).1 hr
      rw [hnone]
      change free (c t).2 = _
      omega
    | some a =>
      rw [(hsome a).left]
      omega
  case fails =>
    intro t
    have hfails := hc.fails t
    have hleft := hc.left t
    rw [hrun]
    cases hr : (c t).1 with
    | none =>
      have hlt := hfails.1 hr
      rw [hnone]
      exact iff_of_true rfl (by omega)
    | some a =>
      have hge : ¬ free t < m := by
        intro hlt
        rw [hfails.2 hlt] at hr
        cases hr
      rw [(hsome a).fails, hleft]
      omega

theorem Takes.pure (a : α) : Takes 0 (pure (some a) : StateM SemTable (Option α)) where
  keeps _ := subset_rfl
  left _ := rfl
  fails _ := iff_of_false nofun (Nat.not_lt_zero _)

theorem binarySemaphoreCreate_takes (v : ℤ) : Takes 1 (binarySemaphoreCreate v) := by
  have hnone : ∀ t, ((List.finRange 128).find? fun id => (t id).created = false) = none ↔ free t < 1 := by
    intro t
    rw [List.find?_eq_none, free, Nat.lt_one_iff, Finset.card_eq_zero, Finset.filter_eq_empty_iff]
    simp
  constructor
  case keeps =>
    intro t id hid
    unfold binarySemaphoreCreate
    split
    · exact hid
    · rename_i new _
      rw [created, Finset.mem_filter_univ] at hid ⊢
      change (update t new { t new with created := true, value := v } id).created = true
      rw [update_apply]
      split
      · rfl
      · exact hid
  case left =>
    intro t
    have hn := hnone t
    unfold binarySemaphoreCreate
    cases hfind : (List.finRange 128).find? fun id => (t id).created = false with
    | none =>
      have hlt := hn.1 hfind
      change free t = _
      omega
    | some id =>
      have hclear : (t id).created = false := by simpa using List.find?_some hfind
      have herase : (Finset.univ.filter fun j =>
          (update t id { t id with created := true, value := v } j).created = false) =
          (Finset.univ.filter fun j => (t j).created = false).erase id := by
        ext j
        rw [Finset.mem_erase, Finset.mem_filter_univ, Finset.mem_filter_univ, update_apply]
        by_cases hj : j = id
        · simp [hj]
        · simp [hj]
      change free (update t id { t id with created := true, value := v }) = free t - 1
      rw [free, herase, Finset.card_erase_of_mem (by rwa [Finset.mem_filter_univ]), free]
  case fails =>
    intro t
    rw [← hnone t]
    unfold binarySemaphoreCreate
    cases (List.finRange 128).find? fun id => (t id).created = false with
    | none => exact iff_of_true rfl rfl
    | some id => exact iff_of_false nofun nofun

theorem semaphoreCreate_takes (k : ℤ) (name : ℕ) : Takes 2 (semaphoreCreate k name) := by
  change Takes (1 + (1 + 0)) (semaphoreCreate k name)
  unfold semaphoreCreate
  refine (binarySemaphoreCreate_takes 1).bind rfl ?_
  intro s1
  refine (binarySemaphoreCreate_takes _).bind rfl ?_
  intro s2
  exact .pure _

theorem bbCreate_takes (max_capacity : ℤ) (name : ℕ) : Takes 5 (bbCreate max_capacity name) := by
  change Takes (1 + (2 + (2 + 0))) (bbCreate max_capacity name)
  unfold bbCreate
  refine (binarySemaphoreCreate_takes 1).bind rfl ?_
  intro mutex
  refine (semaphoreCreate_takes _ name).bind rfl ?_
  intro empty
  refine (semaphoreCreate_takes 0 name).bind rfl ?_
  intro full
  exact .pure _

/-- a failed call changes the table unless it has nothing to take -/
theorem Takes.clean_iff {c : StateM SemTable (Option α)} (hc : Takes n c) (t : SemTable) :
    ((c t).1 = none → created (c t).2 = created t) ↔ free t = 0 ∨ n ≤ free t := by
  rw [hc.fails, created_eq_iff (hc.keeps t), hc.left]
  omega

/-- **A failed creation leaves the table as it was** iff no semaphore is free, or as many as the call needs: 2 for
`semaphore_create`, 5 for `BB_create`. -/
theorem failed_creation_iff (t : SemTable) (k max_capacity : ℤ) (name : ℕ) :
    (((semaphoreCreate k name t).1 = none → created (semaphoreCreate k name t).2 = created t) ↔
      free t = 0 ∨ 2 ≤ free t) ∧
    (((bbCreate max_capacity name t).1 = none → created (bbCreate max_capacity name t).2 = created t) ↔
      free t = 0 ∨ 5 ≤ free t) :=
  ⟨(semaphoreCreate_takes k name).clean_iff t, (bbCreate_takes max_capacity name).clean_iff t⟩

/-- a table with one free place -/
def oneFree : SemTable := fun id => ⟨0, decide (id ≠ 0), 0⟩

theorem free_oneFree : free oneFree = 1 := by
  have hset : (Finset.univ.filter fun id => (oneFree id).created = false) = {0} := by
    ext id
    simp [oneFree]
  rw [free, hset, Finset.card_singleton]

/-- **The first one stays.** Both calls fail with one free place, and it is taken then. -/
theorem failed_creation_keeps :
    ((semaphoreCreate 1 0 oneFree).1 = none ∧ created (semaphoreCreate 1 0 oneFree).2 ≠ created oneFree) ∧
    ((bbCreate 1 0 oneFree).1 = none ∧ created (bbCreate 1 0 oneFree).2 ≠ created oneFree) := by
  have hone := free_oneFree
  constructor
  · have hc := semaphoreCreate_takes 1 0
    refine ⟨(hc.fails _).2 (by omega), fun heq => ?_⟩
    rw [created_eq_iff (hc.keeps _), hc.left] at heq
    omega
  · have hc := bbCreate_takes 1 0
    refine ⟨(hc.fails _).2 (by omega), fun heq => ?_⟩
    rw [created_eq_iff (hc.keeps _), hc.left] at heq
    omega

end Xv6Threads.Creation
