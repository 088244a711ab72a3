/-
Whether ZOMBIE is final when several CPUs run.

The state of a slot is written by the process that runs in it, with one exception: `exit` makes every slot of its pid a
ZOMBIE, also one that another CPU is running. That process goes on, and its next `sleep` or `yield` overwrites the
ZOMBIE; in the meantime a `wait` may already have freed the slot under it. `zombie_revived` is the run.
- `step_zombie`: in an orderly state a ZOMBIE slot stays one, or a `wait` that reaps its pid frees it.
- `zombie_final`: if no `exit` meets a sibling on another CPU, and no thread but the main one leaves last through
  `thread_exit`, that is all that ever happens to a ZOMBIE slot, and no CPU runs a slot that `wait` frees.
-/
import Xv6Threads.Kernel.Frames

namespace Xv6Threads.Kernel

open Xv6Threads.Core

variable {N K : ℕ}

/-- no other CPU runs a slot of the process whose `exit` takes `ptable.lock` in this step -/
def ExitApart (s : St N K) (o : Op N K) : Prop :=
  ∀ p ∈ exiting s o, ∀ c, ∀ q ∈ s.curproc c, q ≠ p → (s.ptable q).pid ≠ (s.ptable p).pid

instance decidableExitApart (s : St N K) (o : Op N K) : Decidable (ExitApart s o) := by
  unfold ExitApart
  infer_instance

theorem life_zombie {st : ProcState} : st.life = .zombie ↔ st = .zombie := by
  cases st <;> simp [ProcState.life]

section Step

variable {odd : Bool → Prop} {s : St N K} {o : Op N K}

/-- what `wait` reaps is dead, so no CPU runs it -/
theorem Kept.not_running (h : Kept (· = false) s) {X : ℕ} (hX : Reaps s o X) {c : Fin K} {q : Fin N}
    (hc : s.curproc c = some q) : (s.ptable q).pid ≠ X := by
  intro hq
  have hz := h.reaped_zombie hX hq
  have hr := h.cpus.running c q hc
  rw [hz] at hr
  cases hr

theorem Kept.cpusApart (h : Kept (· = false) s) (ha : ExitApart s o) : CpusApart s o := by
  refine ⟨ha, ?_⟩
  intro p hp c q hq hqp hpid
  by_cases h0 : waitFound s.ptable p = 0
  · -- an active slot has a pid
    have hl := h.life_active hq
    have hpos := h.orderly.pid_pos q (by rw [show s.census.life q = .active from hl]; simp)
    exact hpos.ne' (hpid.trans h0)
  · exact h.not_running ⟨h0, p, hp, rfl⟩ hq hpid

/-- **One step.** A ZOMBIE slot stays one, or is freed by a `wait` that reaps its pid. -/
theorem step_zombie (h : Kept odd s) {q : Fin N} (hz : (s.ptable q).state = .zombie) :
    ((step s o).ptable q).state = .zombie ∨
      (((step s o).ptable q).state = .unused ∧ Reaps s o (s.ptable q).pid) := by
  have hl : (s.ptable q).state.life = .zombie := life_zombie.2 hz
  have hdeed := step_deed h.cpus o
  generalize step s o = s' at hdeed ⊢
  cases hdeed with
  | calm _ halike hmoved hglob => exact .inl (life_zombie.1 ((halike q).life.trans hl))
  | alloc p np f he hnp =>
    have hqn : q ≠ np := by
      rintro rfl
      rw [findUnused_unused hnp] at hz
      cases hz
    rw [(allocproc_some hnp f).1, Table.write_of_ne _ hqn]
    exact .inl hz
  | make c p np st ok ho hc hm =>
    have hemb := life_eq_embryo h (h.life_active hc) hm
    have hqn : q ≠ np := by
      rintro rfl
      rw [hl] at hemb
      cases hemb
    exact .inl (life_zombie.1 ((makeStep_alike hqn).life.trans hl))
  | retire _ p he hret hlast hzp hpid hpar hthr hpg halike hsame hglob =>
    by_cases hqp : q = p
    · exact .inl (hqp ▸ hzp)
    · exact .inl (life_zombie.1 ((halike q hqp).life.trans hl))
  | exit c p ok ho hc hm =>
    left
    have hp := h.life_active hc
    by_cases hpid : (s.ptable q).pid = (s.ptable p).pid
    · exact (exitSection_visited s.initproc (parentsWithin h.orderly hp) q).dead hpid
    · exact life_zombie.1 ((exitLocked_alike h hp hpid).trans hl)
  | reap _ p X hw hX hfound hfree halike hmoved hinit hnext hfreed =>
    by_cases hpid : (s.ptable q).pid = X
    · exact .inr ⟨(hfree q hpid).state, hpid ▸ hX, p, hw, hfound.trans hpid.symm⟩
    · exact .inl (life_zombie.1 ((halike q hpid).life.trans hl))

end Step

/-- no `exit` meets a sibling on another CPU, and the last count of a process is given up by its main slot -/
def ZombieOk (s : St N K) (o : Op N K) : Prop := ExitApart s o ∧ MainLast s o

instance decidableZombieOk (s : St N K) (o : Op N K) : Decidable (ZombieOk s o) := instDecidableAnd

theorem reach_kept_main [NeZero N] {ops : List (Op N K)} (h : Along step ZombieOk (boot N K) ops) :
    Kept (· = false) (run step (boot N K) ops) :=
  h.inv (I := Kept (· = false)) (fun _ _ ho hs => step_kept hs (hs.cpusApart ho.1) ho.2) boot_kept

/-- **ZOMBIE is final**, on any number of CPUs, in every run of steps that are `ZombieOk`: the next step, whatever it is,
leaves a ZOMBIE slot as it is or is a `wait` that frees it, and no CPU runs a slot that a `wait` frees. -/
theorem zombie_final [NeZero N] (ops : List (Op N K)) (h : Along step ZombieOk (boot N K) ops) (o : Op N K) (q : Fin N)
    (s : St N K) (hs : s = run step (boot N K) ops) :
    ((s.ptable q).state = .zombie → ((step s o).ptable q).state = .zombie ∨
      (((step s o).ptable q).state = .unused ∧ Reaps s o (s.ptable q).pid)) ∧
    ∀ X, Reaps s o X → ∀ c, s.curproc c = some q → (s.ptable q).pid ≠ X := by
  have hk : Kept (· = false) s := hs ▸ reach_kept_main h
  exact ⟨step_zombie hk, fun X hX c hc => hk.not_running hX hc⟩

/-- two CPUs: init forks a child, and the child calls `exit` on the other CPU -/
def childOnTwo : List (Op 64 2) := List.flatten
  [[.dispatch 0 0, .call 0 .fork], List.replicate 10 (.exec 0 true), [.dispatch 1 1, .call 1 .exit, .exec 1 true]]

/-- the theorem at that run: the child is a ZOMBIE, and init's `wait` on the first CPU frees it -/
theorem zombie_final_child :
    ((run step (boot 64 2) childOnTwo).ptable 1).state = .zombie ∧
    (((step (run step (boot 64 2) childOnTwo) (.call 0 .wait)).ptable 1).state = .zombie ∨
      (((step (run step (boot 64 2) childOnTwo) (.call 0 .wait)).ptable 1).state = .unused ∧
        Reaps (run step (boot 64 2) childOnTwo) (.call 0 .wait) ((run step (boot 64 2) childOnTwo).ptable 1).pid)) := by
  have hz : ((run step (boot 64 2) childOnTwo).ptable 1).state = .zombie := by decide +kernel
  exact ⟨hz, (zombie_final childOnTwo (by decide +kernel) (.call 0 .wait) 1 _ rfl).1 hz⟩

/-- a child makes a thread, the second CPU runs the thread, and the child calls `exit` on the first -/
def siblingOnTwo : List (Op 64 2) := List.flatten
  [[.dispatch 0 0, .call 0 .fork], List.replicate 10 (.exec 0 true), [.preempt 0, .dispatch 0 1, .call 0 .threadCreate],
    List.replicate 12 (.exec 0 true), [.dispatch 1 2, .call 0 .exit, .exec 0 true]]

/-- **A zombie comes back.** The thread is a ZOMBIE while the second CPU runs it. If it goes to sleep, its slot is
SLEEPING; if init calls `wait` first, the slot is freed while the CPU still runs it. -/
theorem zombie_revived :
    let s := run step (boot 64 2) siblingOnTwo
    ((s.ptable 2).state = .zombie ∧ ((step s (.sleepDev 1 0)).ptable 2).state = .sleeping) ∧
    ((step s (.dispatch 0 0)).curproc 1 = some 2 ∧ ((step s (.dispatch 0 0)).ptable 2).pid = 2 ∧
      Reaps (step s (.dispatch 0 0)) (.call 0 .wait) 2) := by
  decide +kernel

end Xv6Threads.Kernel
