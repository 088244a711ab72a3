/-
Binary semaphores keep one token: the kernel's semaphores against `Core.Ledger`.

The ledger of semaphore `id` is its value, the processes whose `binary_semaphore_down(id)` returned 0, and those whose
`binary_semaphore_up(id)` did, as the history has them. A step opens the ledger (`binary_semaphore_create`), or makes at
most one move in it, whatever the queue of waiting processes looks like; neither `exit`, `kill` and `wait` nor the reuse
of a slot is a move. So the result needs no premise on the run.

Results:
- `step_ledger`: the refinement, for every operation.
- `token_conserved`: in every state reached from boot.
-/
import Xv6Threads.Core.Tokens
import Xv6Threads.Kernel.SemaphoreSteps

namespace Xv6Threads.Kernel

open Xv6Threads.Core

variable {N K : ℕ}

/-! ## The ledger of a semaphore -/

/-- who took the token of semaphore `id` in this event -/
def Ev.taker (id : SemId) : Ev N → Option (Who N)
  | .down w i => if i = id then some w else none
  | _ => none

/-- who gave the token of semaphore `id` in this event -/
def Ev.giver (id : SemId) : Ev N → Option (Who N)
  | .up w i => if i = id then some w else none
  | _ => none

/-- the processes whose `binary_semaphore_down(id)` returned 0, in order -/
def downsOf (id : SemId) (hist : List (Ev N)) : List (Who N) := hist.filterMap (Ev.taker id)

/-- the processes whose `binary_semaphore_up(id)` returned 0, in order -/
def upsOf (id : SemId) (hist : List (Ev N)) : List (Who N) := hist.filterMap (Ev.giver id)

@[simp] theorem downsOf_snoc (id : SemId) (hist : List (Ev N)) (e : Ev N) :
    downsOf id (hist ++ [e]) = downsOf id hist ++ (e.taker id).toList := by
  cases h : e.taker id <;> simp [downsOf, List.filterMap_append, h]

@[simp] theorem upsOf_snoc (id : SemId) (hist : List (Ev N)) (e : Ev N) :
    upsOf id (hist ++ [e]) = upsOf id hist ++ (e.giver id).toList := by
  cases h : e.giver id <;> simp [upsOf, List.filterMap_append, h]

def St.ledger (s : St N K) (id : SemId) : Ledger (Who N) where
  value := (s.semtable id).value
  taken := downsOf id s.hist
  given := upsOf id s.hist

theorem takes_ledger (s : St N K) (id : SemId) (w : Who N) : (s.ledger id).takes w = s.hist.count (.down w id) := by
  unfold Ledger.takes St.ledger downsOf
  simp only [List.count, List.countP_filterMap]
  refine List.countP_congr fun e _ => ?_
  cases e with
  | down w' i => by_cases h : i = id <;> simp [Ev.taker, h]
  | _ => simp [Ev.taker]

theorem gives_ledger (s : St N K) (id : SemId) (w : Who N) : (s.ledger id).gives w = s.hist.count (.up w id) := by
  unfold Ledger.gives St.ledger upsOf
  simp only [List.count, List.countP_filterMap]
  refine List.countP_congr fun e _ => ?_
  cases e with
  | up w' i => by_cases h : i = id <;> simp [Ev.giver, h]
  | _ => simp [Ev.giver]

/-- semaphore `id` is as before, and no history was made that its ledger sees -/
structure Keeps (id : SemId) (s s' : St N K) : Prop where
  created : (s'.semtable id).created = (s.semtable id).created
  opened : ∀ v, .create id v ∈ s'.hist ↔ .create id v ∈ s.hist
  ledger : s'.ledger id = s.ledger id

/-- at most one move in the ledger of semaphore `id`, and none before the semaphore is created -/
structure Uses (id : SemId) (s s' : St N K) : Prop where
  created : (s'.semtable id).created = (s.semtable id).created
  opened : ∀ v, .create id v ∈ s'.hist ↔ .create id v ∈ s.hist
  moves : (s.ledger id).Moves (s'.ledger id)
  closed : (s.semtable id).created = false → s'.ledger id = s.ledger id

/-- semaphore `id` is created with value `v` -/
structure Opens (id : SemId) (v : ℤ) (s s' : St N K) : Prop where
  fresh : (s.semtable id).created = false
  created : (s'.semtable id).created = true
  opened : ∀ v', .create id v' ∈ s'.hist ↔ .create id v' ∈ s.hist ∨ v' = v
  ledger : s'.ledger id = ⟨v, (s.ledger id).taken, (s.ledger id).given⟩

section Calls

variable {s s₁ s' : St N K} {c : Fin K} {p : Fin N} {id i : SemId}

theorem Keeps.trans (h : Keeps id s s₁) (h' : Keeps id s₁ s') : Keeps id s s' :=
  ⟨h'.created.trans h.created, fun v => (h'.opened v).trans (h.opened v), h'.ledger.trans h.ledger⟩

theorem Keeps.uses (h : Keeps id s s') : Uses id s s' :=
  ⟨h.created, h.opened, h.ledger ▸ .stay, fun _ => h.ledger⟩

theorem Keeps.then (h : Keeps id s s₁) (h' : Uses id s₁ s') : Uses id s s' :=
  ⟨h'.created.trans h.created, fun v => (h'.opened v).trans (h.opened v), h.ledger ▸ h'.moves,
    fun hc => (h'.closed (h.created.trans hc)).trans h.ledger⟩

/-- a change that no semaphore sees -/
theorem SameSems.keeps (h : SameSems s s') : Keeps id s s' := by
  refine ⟨by rw [h.semtable], fun v => by rw [h.hist], ?_⟩
  unfold St.ledger
  rw [h.semtable, h.hist]

/-- an event that no ledger sees -/
theorem Keeps.log {e : Ev N} (ht : e.taker id = none) (hg : e.giver id = none) (hc : ∀ v, e ≠ .create id v) :
    Keeps id s (s.log e) := by
  refine ⟨rfl, fun v => ?_, ?_⟩
  · have := hc v
    simp only [St.log_hist, List.mem_append, List.mem_singleton, this.symm, or_false]
  · simp [St.ledger, ht, hg]

theorem enqueue_keeps (s : St N K) (p : Fin N) (id i : SemId) : Keeps id s (enqueue s p i) := by
  by_cases h : id = i
  · subst h
    exact ⟨by simp [enqueue], fun v => by simp [enqueue], by simp [St.ledger, enqueue, Ev.taker, Ev.giver]⟩
  · exact ⟨by simp [enqueue, h], fun v => by simp [enqueue], by simp [St.ledger, enqueue, h, Ev.taker, Ev.giver]⟩

theorem semSleep_sems (s : St N K) (c : Fin K) (p : Fin N) (i : SemId) : SameSems s (semSleep s c p i) := ⟨rfl, rfl⟩

/-- `binary_semaphore_down` takes the token -/
theorem semTake_uses (hc : (s.semtable i).created = true) (hv : (s.semtable i).value ≠ 0) (id : SemId) :
    Uses id s (semTake s p i) := by
  have hopened : ∀ v, .create id v ∈ (semTake s p i).hist ↔ .create id v ∈ s.hist := by
    simp [semTake]
  by_cases h : i = id
  · subst h
    have hl : (semTake s p i).ledger i = ⟨0, (s.ledger i).taken ++ [s.who p], (s.ledger i).given⟩ := by
      simp [St.ledger, semTake, Ev.taker, Ev.giver]
    refine ⟨by simp [semTake], hopened, ?_, fun hf => ?_⟩
    · rw [hl]
      exact .take _ hv
    · rw [hc] at hf
      cases hf
  · have hl : (semTake s p i).ledger id = s.ledger id := by
      simp [St.ledger, semTake, Ev.taker, Ev.giver, h, Ne.symm h]
    exact Keeps.uses ⟨by simp [semTake, Ne.symm h], hopened, hl⟩

theorem downLoop_uses (s : St N K) (c : Fin K) (p : Fin N) (i id : SemId) : Uses id s (downLoop s c p i) := by
  unfold downLoop
  split
  · rename_i hc
    split
    · rename_i hv
      exact semTake_uses hc hv.1 id
    · split
      · exact ((enqueue_keeps s p id i).trans (semSleep_sems _ c p i).keeps).uses
      · exact (semSleep_sems s c p i).keeps.uses
  · have h : SameSems s (s.sysret p (-1)) := ⟨rfl, rfl⟩
    exact h.keeps.uses

theorem down_uses (s : St N K) (c : Fin K) (p : Fin N) (i id : SemId) : Uses id s (binarySemaphoreDown s c p i) := by
  have hcall : Keeps id s (s.log (.call (s.who p) i)) := .log rfl rfl (by simp)
  unfold binarySemaphoreDown
  dsimp only
  split
  · exact (hcall.trans (enqueue_keeps _ p id i)).then (downLoop_uses _ c p i id)
  · exact hcall.then (downLoop_uses _ c p i id)

/-- `binary_semaphore_up` gives the token -/
theorem up_uses (s : St N K) (p : Fin N) (i id : SemId) : Uses id s (binarySemaphoreUp s p i) := by
  unfold binarySemaphoreUp
  split
  · rename_i hc
    dsimp only
    refine ⟨?_, fun v => by simp, ?_, fun hf => ?_⟩
    · by_cases h : id = i
      · subst h
        simp
      · simp [h]
    · by_cases h : id = i
      · subst h
        simp only [St.ledger, St.sysret_semtable, St.log_semtable, Function.update_self, St.sysret_hist, St.log_hist,
          downsOf_snoc, upsOf_snoc, Ev.taker, Ev.giver, if_true, Option.toList_none, Option.toList_some,
          List.append_nil]
        exact .give (l := s.ledger id) _
      · have : (s.ledger id).Moves (s.ledger id) := .stay
        simpa [St.ledger, Ev.taker, Ev.giver, h, Ne.symm h] using this
    · have h : id ≠ i := by
        rintro rfl
        rw [hc] at hf
        cases hf
      simp [St.ledger, Ev.taker, Ev.giver, h, Ne.symm h]
  · have h : SameSems s (s.sysret p (-1)) := ⟨rfl, rfl⟩
    exact h.keeps.uses

theorem create_opens (s : St N K) (p : Fin N) (v : ℤ) (id : SemId) :
    Keeps id s (binarySemaphoreCreate s p v) ∨ Opens id v s (binarySemaphoreCreate s p v) := by
  unfold binarySemaphoreCreate
  split
  · exact Or.inl (SameSems.keeps ⟨rfl, rfl⟩)
  · rename_i i hi
    have hfresh : (s.semtable i).created = false := by
      simpa using List.find?_some hi
    by_cases h : id = i
    · subst h
      refine Or.inr ⟨hfresh, by simp, fun v' => by simp, ?_⟩
      simp [St.ledger, Ev.taker, Ev.giver]
    · refine Or.inl ⟨by simp [h], fun v' => by simp [h], ?_⟩
      simp [St.ledger, Ev.taker, Ev.giver, h]

end Calls

/-- **Refinement.** A step creates the semaphore or makes at most one move in its ledger. -/
theorem step_ledger (s : St N K) (o : Op N K) (id : SemId) : Uses id s (step s o) ∨ ∃ v, Opens id v s (step s o) := by
  cases hsem : semCall s o with
  | none => exact Or.inl (step_table hsem).keeps.uses
  | some x =>
    obtain ⟨c, p, f⟩ := x
    rw [(step_of_semCall hsem).2.2]
    cases f with
    | create v => exact (create_opens s p v id).imp Keeps.uses fun h => ⟨v, h⟩
    | down i => exact Or.inl (down_uses s c p i id)
    | retest i => exact Or.inl (downLoop_uses s c p i id)
    | up i => exact Or.inl (up_uses s p i id)

/-! ## The invariant -/

/-- before its creation a semaphore has no ledger; afterwards the ledger is in order for the value it was created with -/
structure Accounted (id : SemId) (s : St N K) : Prop where
  closed : (s.semtable id).created = false → (∀ v, .create id v ∉ s.hist) ∧
    (s.ledger id).taken = [] ∧ (s.ledger id).given = []
  opened : (s.semtable id).created = true → ∀ v, .create id v ∈ s.hist → v = 0 ∨ v = 1 → (s.ledger id).Sound v

theorem step_accounted {s : St N K} {id : SemId} (h : Accounted id s) (o : Op N K) : Accounted id (step s o) := by
  rcases step_ledger s o id with hu | ⟨v, hv⟩
  · refine ⟨fun hc => ?_, fun hc v hv h01 => ?_⟩
    · rw [hu.created] at hc
      rw [hu.closed hc]
      exact ⟨fun v hv => (h.closed hc).1 v ((hu.opened v).1 hv), (h.closed hc).2⟩
    · rw [hu.created] at hc
      exact hu.moves.sound (h.opened hc v ((hu.opened v).1 hv) h01)
  · obtain ⟨hnone, htaken, hgiven⟩ := h.closed hv.fresh
    refine ⟨fun hc => ?_, fun _ v' hv' h01 => ?_⟩
    · rw [hv.created] at hc
      cases hc
    · obtain rfl : v' = v := ((hv.opened v').1 hv').resolve_left (hnone v')
      rw [hv.ledger, htaken, hgiven]
      exact Ledger.sound_open h01

theorem boot_accounted [NeZero N] (id : SemId) : Accounted id (boot N K) := by
  refine ⟨fun _ => ⟨fun _ h => by simp [boot] at h, rfl, rfl⟩, fun h => ?_⟩
  cases h

theorem reach_accounted [NeZero N] (ops : List (Op N K)) (id : SemId) : Accounted id (run step (boot N K) ops) :=
  run_inv (I := Accounted id) (fun _ o h => step_accounted h o) (boot_accounted id) ops

/-- **The token is conserved.** In every state of every run, of any number of processes on any number of CPUs: if `id`
was created with value `v` in {0, 1}, at most `v` plus the number of successful `up`s many `down`s have returned 0, and
the value is 0 or 1. If moreover `v = 1` and no process has called `up` more often than it returned from `down`, at most
one process is between a `down` and its `up`. -/
theorem token_conserved [NeZero N] (ops : List (Op N K)) (id : SemId) (v : ℤ) (hv : v = 0 ∨ v = 1)
    (hc : .create id v ∈ (run step (boot N K) ops).hist) :
    let s := run step (boot N K) ops
    ((downsOf id s.hist).length : ℤ) ≤ v + (upsOf id s.hist).length ∧
      ((s.semtable id).value = 0 ∨ (s.semtable id).value = 1) ∧
      (v = 1 → (∀ w, s.hist.count (.up w id) ≤ s.hist.count (.down w id)) →
        ∀ P Q, s.hist.count (.up P id) < s.hist.count (.down P id) →
          s.hist.count (.up Q id) < s.hist.count (.down Q id) → P = Q) := by
  intro s
  have h : Accounted id s := reach_accounted ops id
  have hcreated : (s.semtable id).created = true := by
    by_contra hf
    exact (h.closed (Bool.eq_false_iff.2 hf)).1 v hc
  have hsound := h.opened hcreated v hc hv
  refine ⟨?_, hsound.binary, fun h1 hd P Q hP hQ => ?_⟩
  swap
  · simp only [← takes_ledger, ← gives_ledger] at hd hP hQ
    exact hsound.holder_unique h1.le hd hP hQ
  have hb := hsound.balance
  have h01 := hsound.binary
  simp only [St.ledger] at hb h01
  omega

/-- init creates a semaphore with value 1 and takes it; its child waits for it and is killed -/
def killedWaiter : List (Op 64 1) :=
  [Op.dispatch 0 0, Op.call 0 (.semCreate 1), Op.call 0 (.semDown 0), Op.call 0 .fork] ++ List.replicate 10 (Op.exec 0 true) ++
    [Op.preempt 0, Op.dispatch 0 1, Op.call 0 (.semDown 0), Op.dispatch 0 0, Op.call 0 (.kill 2)]

theorem killedWaiter_conserved :
    let s := run step (boot 64 1) killedWaiter
    ((downsOf 0 s.hist).length : ℤ) ≤ 1 + (upsOf 0 s.hist).length ∧ ((s.semtable 0).value = 0 ∨ (s.semtable 0).value = 1) ∧
      ∀ P Q, .down P 0 ∈ s.hist → .down Q 0 ∈ s.hist → P = Q := by
  intro s
  have hc : .create 0 1 ∈ s.hist := by decide +kernel
  have hups : ∀ w, s.hist.count (.up w 0) = 0 := by
    have : s.hist = [.create 0 1, .call (0, 1) 0, .down (0, 1) 0, .call (1, 2) 0, .queued (1, 2) 0] := by
      decide +kernel
    simp [this]
  obtain ⟨h1, h2, h3⟩ := token_conserved killedWaiter 0 1 (Or.inr rfl) hc
  refine ⟨h1, h2, fun P Q hP hQ => h3 rfl (fun w => ?_) P Q ?_ ?_⟩
  · exact (hups w).trans_le (Nat.zero_le _)
  · exact (hups P).trans_lt (List.count_pos_iff.2 hP)
  · exact (hups Q).trans_lt (List.count_pos_iff.2 hQ)

end Xv6Threads.Kernel
