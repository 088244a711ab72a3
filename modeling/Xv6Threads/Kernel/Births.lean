/-
Whether a process is born killed.

`allocproc` does not clear `killed`; the code relies on `wait`, which clears it when it frees a slot. Between that and the
day `fork` or `thread_create` makes the slot RUNNABLE, three things can mark it under a pid it will not run with:
`kill(0)`, and the `kill` of a pid left behind by a failed allocation, find an UNUSED slot; a `kill` may hit the slot
while it is made, and the allocation then fails; and a slot made by `thread_create` has a pid of its own before it gets
that of its process.

The kernel does not record who was killed since when, so the run is paired with a ghost that does (`Births`).
- `step_unborn`: one step keeps the slots that are not running yet unmarked, or marked under their own pid, if the step
  is `BirthOk`.
- `born_unkilled`: so every process made in a run of such steps is born unkilled, or killed under its pid.
- `born_killed`: the run with `kill(0)`.
-/
import Xv6Threads.Kernel.Marks

namespace Xv6Threads.Kernel

open Xv6Threads.Core

variable {N K : ℕ}

/-! ## The kernel with the calls of kill -/

/-- the slot that `allocproc` takes in this step -/
def allocating (s : St N K) : Op N K → Option (Fin N)
  | .call c .fork | .call c .threadCreate => (s.curproc c).bind fun p =>
    if s.pc p = .user ∧ (s.ptable p).killed = false then findUnused s.ptable else none
  | _ => none

/-- `calls q`: the arguments of the calls of `kill` since slot `q` was allocated -/
structure Births (N K : ℕ) where
  st : St N K
  calls : Fin N → List ℤ

def Births.step (m : Births N K) (o : Op N K) : Births N K where
  st := Kernel.step m.st o
  calls := fun q => if allocating m.st o = some q then [] else m.calls q ++ (killing m.st o).toList

def birthsBoot (N K : ℕ) [NeZero N] : Births N K := ⟨boot N K, fun _ => []⟩

/-- after this store the slot no longer is one with the pid it was allocated with: memory has run out, or `thread_create`
gives it the pid of its process -/
def Making.parts (ok : Bool) : Making → Bool
  | .kstack _ | .forkPgdir => !ok
  | .tcPid => true
  | _ => false

/-- the slot that loses its pid in this step -/
def parting (s : St N K) : Op N K → Option (Fin N)
  | .exec c ok => (storing s (.exec c ok)).bind fun x => if x.2.1.parts ok then some x.2.2 else none
  | _ => none

/-- `kill` does not find an UNUSED slot, and a slot that loses its pid is not marked -/
def BirthOk (m : Births N K) (o : Op N K) : Prop :=
  CpusApart m.st o ∧
    (∀ pid ∈ killing m.st o, ∀ q ∈ killFind m.st.ptable pid, (m.st.ptable q).state ≠ .unused) ∧
    ∀ np ∈ parting m.st o, (m.st.ptable np).killed = false

instance decidableBirthOk (m : Births N K) (o : Op N K) : Decidable (BirthOk m o) := instDecidableAnd

/-! ## The invariant -/

/-- a free slot is not marked, and an embryo only if its pid has been killed -/
structure Unborn (m : Births N K) : Prop where
  kept : Kept (fun _ => True) m.st
  free : ∀ q, (m.st.ptable q).state = .unused → (m.st.ptable q).killed = false
  embryo : ∀ q, (m.st.ptable q).state = .embryo → (m.st.ptable q).killed = true → ((m.st.ptable q).pid : ℤ) ∈ m.calls q

theorem life_free {st : ProcState} : st.life = .free ↔ st = .unused := by
  cases st <;> simp [ProcState.life]

theorem life_embryo {st : ProcState} : st.life = .embryo ↔ st = .embryo := by
  cases st <;> simp [ProcState.life]

section Step

variable {odd : Bool → Prop} {s : St N K} {m : Births N K} {o : Op N K} {q : Fin N}

theorem parting_exec {c : Fin K} {p np : Fin N} {st : Making} (hc : s.curproc c = some p) (hpc : s.pc p = .make st np)
    (ok : Bool) : parting s (.exec c ok) = if st.parts ok then some np else none := by
  simp [parting, storing_exec hc hpc ok]

/-- an embryo was free, or an embryo with the same pid, or gets the pid of its process in this step -/
theorem embryo_before (h : Kept odd s) (hl : ((step s o).ptable q).state.life = .embryo) :
    (s.ptable q).state.life = .free ∨ ((s.ptable q).state.life = .embryo ∧
      (((step s o).ptable q).pid = (s.ptable q).pid ∨ parting s o = some q)) := by
  have hdeed := step_deed h.cpus o
  generalize step s o = s' at hdeed hl ⊢
  cases hdeed with
  | calm _ halike hmoved hglob => exact .inr ⟨(halike q).life.symm.trans hl, .inl (halike q).pid⟩
  | alloc p np f he hnp =>
    rw [(allocproc_some hnp f).1] at hl ⊢
    by_cases hqn : q = np
    · subst hqn
      exact .inl (life_free.2 (findUnused_unused hnp))
    · rw [Table.write_of_ne _ hqn] at hl ⊢
      exact .inr ⟨hl, .inl rfl⟩
  | make c p np st ok ho hc hm =>
    by_cases hqn : q = np
    · subst hqn
      refine .inr ⟨life_eq_embryo h (h.life_active hc) hm, ?_⟩
      by_cases hst : st = .tcPid
      · subst hst
        right
        rw [ho, parting_exec hc hm ok]
        rfl
      · exact .inl ((makeStep_untouched s p q q ok st).pid hst)
    · have ha : Alike (s.ptable q) ((makeStep s p np ok st).ptable q) := makeStep_alike hqn
      exact .inr ⟨ha.life.symm.trans hl, .inl ha.pid⟩
  | retire _ p he hret hlast hz hpid hpar hthr hpg halike hsame hglob =>
    by_cases hqp : q = p
    · subst hqp
      rw [hz] at hl
      cases hl
    · exact .inr ⟨(halike q hqp).life.symm.trans hl, .inl (halike q hqp).pid⟩
  | exit c p ok ho hc hm =>
    have hv := exitSection_visited s.initproc (parentsWithin h.orderly (h.life_active hc)) q
    by_cases hpid : (s.ptable q).pid = (s.ptable p).pid
    · have hz : ((exitLocked s c p).ptable q).state = .zombie := hv.dead hpid
      rw [hz] at hl
      cases hl
    · exact .inr ⟨(exitLocked_alike h (h.life_active hc) hpid).symm.trans hl, .inl hv.pid⟩
  | reap _ p X hw hX hfound hfree halike hmoved hinit hnext hfreed =>
    by_cases hpid : (s.ptable q).pid = X
    · rw [(hfree q hpid).state] at hl
      cases hl
    · exact .inr ⟨(halike q hpid).life.symm.trans hl, .inl (halike q hpid).pid⟩

/-- a store that frees the slot being made is that of a failed allocation -/
theorem parting_of_freed {c : Fin K} {p np : Fin N} {st : Making} {ok : Bool} (hc : s.curproc c = some p)
    (hpc : s.pc p = .make st np) (hemb : (s.ptable np).state.life = .embryo)
    (hs : ((makeStep s p np ok st).ptable np).state = .unused) : parting s (.exec c ok) = some np := by
  have hfail := makeStep_fail hemb (life_free.2 hs)
  rw [parting_exec hc hpc ok]
  -- with enough memory the slot stays an embryo
  have hok : ok = false := by
    cases ok with
    | false => rfl
    | true =>
      rcases hfail with ⟨f, rfl⟩ | rfl <;> simp [makeStep, life_embryo.1 hemb] at hs
  subst hok
  rcases hfail with ⟨f, rfl⟩ | rfl <;> rfl

variable (hm : Unborn m) (hok : BirthOk m o)

include hm hok

theorem step_free (hs : ((m.step o).st.ptable q).state = .unused) : ((m.step o).st.ptable q).killed = false := by
  cases step_touch m.st o q with
  | unmarked h => exact h.killed.trans (hm.free q (h.unused hs))
  | slept ha h => exact absurd (h.state.symm.trans hs) ProcState.noConfusion
  | killed pid hk hf hst ha hid => exact absurd (hst hs) (hok.2.1 pid hk q hf)
  | fault c b ho ha hc hst hid =>
    have hrun := hm.kept.cpus.running c q hc
    rw [← hst] at hrun
    exact absurd (hrun.symm.trans hs) ProcState.noConfusion
  | freed hst hk hid => exact hk
  | stored p np st hstore hk ha hid =>
    obtain ⟨c, ok, rfl, hc, hpc, hstep⟩ := step_storing hstore
    refine hk.trans ?_
    have hs' : ((makeStep m.st p np ok st).ptable q).state = .unused := hstep ▸ hs
    by_cases hq : q = np
    · subst hq
      have hemb := life_eq_embryo hm.kept (hm.kept.life_active hc) hpc
      exact hok.2.2 q (parting_of_freed hc hpc hemb hs')
    · have ha : Alike (m.st.ptable q) ((makeStep m.st p np ok st).ptable q) := makeStep_alike hq
      exact hm.free q (life_free.1 (ha.life.symm.trans (life_free.2 hs')))

/-- a slot that was free is not marked yet -/
theorem step_fresh_embryo (hx : (m.st.ptable q).state = .unused) : ((m.step o).st.ptable q).killed = false := by
  cases step_touch m.st o q with
  | unmarked h => exact h.killed.trans (hm.free q hx)
  | slept ha h => exact h.killed.trans (hm.free q hx)
  | killed pid hk hf hst ha hid => exact absurd hx (hok.2.1 pid hk q hf)
  | fault c b ho ha hc hst hid => exact absurd (hx.symm.trans (hm.kept.cpus.running c q hc)) ProcState.noConfusion
  | freed hst hk hid => exact hk
  | stored p np st hstore hk ha hid => exact hk.trans (hm.free q hx)

/-- a slot that stays an embryo is marked only by a call of `kill` -/
theorem step_embryo (hs : ((m.step o).st.ptable q).state = .embryo) (hk : ((m.step o).st.ptable q).killed = true) :
    (((m.step o).st.ptable q).pid : ℤ) ∈ (m.step o).calls q := by
  rcases embryo_before hm.kept (life_embryo.2 hs) with hfree | ⟨hemb, hpid⟩
  · rw [step_fresh_embryo hm hok (life_free.1 hfree)] at hk
    cases hk
  have hx := life_embryo.1 hemb
  have hcalls : (m.step o).calls q = m.calls q ++ (killing m.st o).toList := by
    refine if_neg fun ha => ?_
    have hun : (m.st.ptable q).state = .unused := by
      unfold allocating at ha
      split at ha <;> simp only [Option.bind_eq_some_iff, Option.ite_none_right_eq_some, reduceCtorEq] at ha
      · obtain ⟨_, _, _, hf⟩ := ha
        exact findUnused_unused hf
      · obtain ⟨_, _, _, hf⟩ := ha
        exact findUnused_unused hf
    rw [hx] at hun
    cases hun
  rw [hcalls, List.mem_append]
  -- an unmarked slot keeps its mark, and that was there under its pid
  have hold : ((m.step o).st.ptable q).killed = (m.st.ptable q).killed →
      (((m.step o).st.ptable q).pid : ℤ) ∈ m.calls q := by
    intro hsame
    rw [hsame] at hk
    rcases hpid with hp | hpart
    · have hin := hm.embryo q hx hk
      rw [← hp] at hin
      exact hin
    · rw [hok.2.2 q hpart] at hk
      cases hk
  cases step_touch m.st o q with
  | unmarked h => exact .inl (hold h.killed)
  | slept ha h => exact .inl (hold h.killed)
  | killed pid hkill hf hst ha hid =>
    right
    have hfound := List.find?_some hf
    rw [decide_eq_true_eq] at hfound
    have hp : ((m.step o).st.ptable q).pid = (m.st.ptable q).pid := by
      rcases hpid with hp | hpart
      · exact hp
      · -- `kill` is not a store of `thread_create`
        exfalso
        cases o with
        | exec c ok => cases hkill
        | _ => cases hpart
    rw [hp, hfound]
    simpa using hkill
  | fault c b ho ha hc hst hid => exact absurd (hx.symm.trans (hm.kept.cpus.running c q hc)) ProcState.noConfusion
  | freed hst hk' hid => exact absurd (hk'.symm.trans hk) Bool.noConfusion
  | stored p np st hstore hsame ha hid => exact .inl (hold hsame)

theorem step_unborn : Unborn (m.step o) where
  kept := step_kept hm.kept hok.1 fun _ _ => trivial
  free := fun _ hs => step_free hm hok hs
  embryo := fun _ hs hk => step_embryo hm hok hs hk

end Step

theorem birthsBoot_unborn [NeZero N] : Unborn (birthsBoot N K) where
  kept := boot_kept
  free := by
    intro q _
    by_cases hq : q = 0
    · simp [birthsBoot, boot, hq, freeSlot]
    · simp [birthsBoot, boot, hq, freeSlot]
  embryo := by
    intro q hs
    by_cases hq : q = 0
    · simp [birthsBoot, boot, hq, freeSlot] at hs
    · simp [birthsBoot, boot, hq, freeSlot] at hs

/-- **Processes are born unkilled.** In every run of steps that are `BirthOk`, a slot that `fork` or `thread_create` makes
RUNNABLE is not marked, unless `kill` has been called with the pid it runs under since it was allocated. -/
theorem born_unkilled [NeZero N] (ops : List (Op N K)) (h : Along Births.step BirthOk (birthsBoot N K) ops) (o : Op N K)
    (np : Fin N) :
    let m := run Births.step (birthsBoot N K) ops
    published m.st o = some np → ((step m.st o).ptable np).state = .runnable ∧
      (((step m.st o).ptable np).killed = true → (((step m.st o).ptable np).pid : ℤ) ∈ m.calls np) := by
  intro m hp
  have hm : Unborn m := h.inv (fun m o ho hm => step_unborn hm ho) birthsBoot_unborn
  have hemb := published_embryo hm.kept hp
  obtain ⟨p, st, hs, hst⟩ := storing_of_published hp
  obtain ⟨c, ok, rfl, hc, hpc, hstep⟩ := step_storing hs
  have hpub : (makeStep m.st p np ok st).ptable np = { m.st.ptable np with state := .runnable } := by
    rcases hst with rfl | rfl <;> simp [makeStep]
  rw [hstep, hpub]
  exact ⟨rfl, hm.embryo np (life_embryo.1 hemb)⟩

/-- init forks a child, up to the store that makes it RUNNABLE -/
def forkUnpublished : List (Op 64 1) := [.dispatch 0 0, .call 0 .fork] ++ List.replicate 9 (.exec 0 true)

/-- the theorem at that run: the child is born unkilled -/
theorem born_unkilled_child :
    ((step (run Births.step (birthsBoot 64 1) forkUnpublished).st (.exec 0 true)).ptable 1).killed = false := by
  have h := born_unkilled forkUnpublished (by decide +kernel) (.exec 0 true) 1 (by decide +kernel)
  have hcalls : (run Births.step (birthsBoot 64 1) forkUnpublished).calls 1 = [] := by decide +kernel
  rw [hcalls] at h
  cases hk : ((step (run Births.step (birthsBoot 64 1) forkUnpublished).st (.exec 0 true)).ptable 1).killed with
  | false => rfl
  | true => exact absurd (h.2 hk) List.not_mem_nil

/-- the same, but init calls `kill(0)` first -/
def killZeroFork : List (Op 64 1) :=
  [.dispatch 0 0, .call 0 (.kill 0), .call 0 .fork] ++ List.replicate 9 (.exec 0 true)

/-- **A process born killed.** `kill(0)` marks the first UNUSED slot; the child that `fork` makes there has pid 2, nobody
has called `kill` since its slot was allocated, and it becomes RUNNABLE with `killed` set. -/
theorem born_killed :
    let m := run Births.step (birthsBoot 64 1) killZeroFork
    published m.st (.exec 0 true) = some 1 ∧ m.calls 1 = [] ∧
      ((step m.st (.exec 0 true)).ptable 1).pid = 2 ∧ ((step m.st (.exec 0 true)).ptable 1).state = .runnable ∧
      ((step m.st (.exec 0 true)).ptable 1).killed = true := by
  decide +kernel

end Xv6Threads.Kernel
