/-
`thread_join`: at most one of the calls that name a thread returns 0, and only after that thread's `thread_exit`.

A call that finds its thread alive sets `isjoined` and sleeps once on the thread's slot; one that finds it a ZOMBIE returns
0 and sets nothing, so the next call that names the same ZOMBIE returns 0 again. `joined_twice` is the run. Two more
ways to go wrong come with it: the joiner does not test again when it wakes, and `exit` of another process wakes
the sleepers of every slot that one of its own slots has as its parent, also when that slot is a thread's by now; and
`thread_join` may name a slot that `thread_create` is still making, by the id its last thread had.

The kernel does not record what a call returned, so the run is paired with a ghost that does (`Joins`). A thread is named
by its slot and the use of the slot.
- `Sleeper`: what is known of a process asleep in `thread_join` and of the thread it waits for.
- `step_joined`: one step keeps the invariant, if the step is `JoinOk`.
- `joined_at_most_once`: so the property holds in every state of every run of such steps.
-/
import Xv6Threads.Kernel.JoinSteps
import Xv6Threads.Kernel.Zombies

namespace Xv6Threads.Kernel

open Xv6Threads.Core Function

variable {N K : ℕ}

/-! ## The kernel with the results of thread_join -/

/-- `target`: the thread that a process's last `thread_join` named; `named`: some `thread_join` named the thread;
`exited`: the thread called `thread_exit`; `results`: what the calls that named the thread returned, in order -/
structure Joins (N K : ℕ) where
  st : St N K
  target : Fin N → Option (Who N)
  named : Who N → Bool
  exited : Who N → Bool
  results : Who N → List ℤ

/-- the process that returns from `thread_join` in this step, and the thread it named -/
def answering (m : Joins N K) : Op N K → Option (Fin N × Who N)
  | .dispatch c q =>
    if m.st.curproc c = none ∧ (m.st.ptable q).state = .runnable ∧ m.st.pc q = .joinSleep then (m.target q).map (q, ·)
    else none
  | o => (joining m.st o).bind fun x =>
    if (m.st.ptable x.2).isjoined = true ∨ (m.st.ptable x.2).state = .zombie then some (x.1, m.st.who x.2) else none

def Joins.step (m : Joins N K) (o : Op N K) : Joins N K where
  st := Kernel.step m.st o
  target := match joining m.st o with
    | none => m.target
    | some (p, t) => update m.target p (some (m.st.who t))
  named := match joining m.st o with
    | none => m.named
    | some (_, t) => update m.named (m.st.who t) true
  exited := match threadExiting m.st o with
    | none => m.exited
    | some p => update m.exited (m.st.who p) true
  results := match answering m o with
    | none => m.results
    | some (p, w) => update m.results w (m.results w ++ [(Kernel.step m.st o).eax p])

def joinsBoot (N K : ℕ) [NeZero N] : Joins N K where
  st := boot N K
  target := fun _ => none
  named := fun _ => false
  exited := fun _ => false
  results := fun _ => []

/-- the step is neither `kill` nor `binary_semaphore_up`; a call of `thread_join` names a thread that has been made, and
one that is a ZOMBIE and not joined only if no call named it before; `exit` wakes no joiner of another process -/
def JoinOk (m : Joins N K) (o : Op N K) : Prop :=
  o.stranger = false ∧ CpusApart m.st o ∧
  (∀ t ∈ (joining m.st o).map Prod.snd, (m.st.ptable t).state ≠ .embryo ∧ ((m.st.ptable t).state = .zombie →
    (m.st.ptable t).isjoined = false → m.named (m.st.who t) = false)) ∧
  ∀ p ∈ exiting m.st o, ∀ q, m.st.pc q = .joinSleep → (m.st.ptable q).state = .sleeping →
    (m.st.ptable q).pid ≠ (m.st.ptable p).pid → ¬ ExitWakes m.st.ptable m.st.initproc p (m.st.ptable q).chan

instance decidableExitWakes (t : Table N) (initproc proc : Fin N) (chan : Chan N) :
    Decidable (ExitWakes t initproc proc chan) := instDecidableOr

instance decidableJoinOk (m : Joins N K) (o : Op N K) : Decidable (JoinOk m o) := instDecidableAnd

/-! ## The invariant -/

/-- `q` sleeps in `thread_join`, and `t` is the thread it waits for -/
structure Sleeper (m : Joins N K) (q t : Fin N) : Prop where
  target : m.target q = some (m.st.who t)
  live : (m.st.ptable t).state.life = .active ∨ (m.st.ptable t).state.life = .zombie
  pid : (m.st.ptable t).pid = (m.st.ptable q).pid
  isjoined : (m.st.ptable t).isjoined = true
  chan : (m.st.ptable q).chan = .proc t
  state : (m.st.ptable q).state = .sleeping ∨ ((m.st.ptable q).state = .runnable ∧ m.exited (m.st.who t) = true)
  named : m.named (m.st.who t) = true
  unanswered : 0 ∉ m.results (m.st.who t)

/-- the process in slot `q` is a joiner -/
def Joiner (s : St N K) (q : Fin N) : Prop := (s.ptable q).state.life = .active ∧ s.pc q = .joinSleep

structure Joined (m : Joins N K) : Prop where
  kept : Kept (fun _ => True) m.st
  uid_lt : ∀ q, (m.st.ptable q).uid < m.st.nextpid
  sleeper : ∀ q, Joiner m.st q → ∃ t, Sleeper m q t
  apart : ∀ q q', Joiner m.st q → Joiner m.st q' → m.target q = m.target q' → q = q'
  values : ∀ w, ∀ v ∈ m.results w, v = 0 ∨ v = -2
  once : ∀ w, (m.results w).count 0 ≤ 1
  done : ∀ w, 0 ∈ m.results w → m.exited w = true
  answered : ∀ w, 0 ∈ m.results w → m.named w = true
  settled : ∀ t, 0 ∈ m.results (m.st.who t) → (m.st.ptable t).state.life = .free ∨
    (m.st.ptable t).state.life = .zombie ∨ ((m.st.ptable t).state.life = .active ∧ (m.st.ptable t).isjoined = true)
  fresh : ∀ t n, m.st.nextpid ≤ n → 0 ∉ m.results (t, n)
  dead : ∀ p t, (m.st.ptable p).state.life = .active → (m.st.ptable t).pid = (m.st.ptable p).pid →
    (m.st.ptable t).isthread = true → (m.st.ptable t).state = .zombie → m.exited (m.st.who t) = true

/-- in this step a `thread_join` that named `w` returns 0 -/
inductive Grants (m : Joins N K) (o : Op N K) : Who N → Prop
  | woken (c : Fin K) (q t : Fin N) (ho : o = .dispatch c q) (hc : m.st.curproc c = none) (hq : Joiner m.st q)
      (hr : (m.st.ptable q).state = .runnable) (ht : Sleeper m q t) : Grants m o (m.st.who t)
  | zombie (p t : Fin N) (hj : joining m.st o = some (p, t)) (hz : (m.st.ptable t).state = .zombie)
      (hun : (m.st.ptable t).isjoined = false) : Grants m o (m.st.who t)

section Ghosts

variable {m : Joins N K} {o : Op N K} {p t q : Fin N} {w : Who N}

/-- a call of `thread_join` that names a slot -/
structure JoinCall (s : St N K) (o : Op N K) (p t : Fin N) : Prop where
  running : ∃ c, s.curproc c = some p
  pid : (s.ptable t).pid = (s.ptable p).pid
  isthread : (s.ptable t).isthread = true
  step : ∃ c tid, joinFind s.ptable p tid = some t ∧ Kernel.step s o = threadJoin s c p tid

theorem joinCall_of_joining {s : St N K} (hj : joining s o = some (p, t)) : JoinCall s o p t := by
  cases o with
  | call c f =>
    cases f with
    | threadJoin tid =>
      simp only [joining, Option.bind_eq_some_iff] at hj
      obtain ⟨p', hc, hj⟩ := hj
      split at hj
      · rename_i hu
        simp only [Option.map_eq_some_iff, Prod.mk.injEq] at hj
        obtain ⟨t', hfind, rfl, rfl⟩ := hj
        have hmatch := List.find?_some hfind
        simp only [decide_eq_true_eq] at hmatch
        refine ⟨⟨c, hc⟩, hmatch.1, hmatch.2.1, c, tid, hfind, ?_⟩
        simp [Kernel.step, Op.cpu, hc, stepOn, hu.1, hu.2, syscall]
      · cases hj
    | _ => cases hj
  | _ => cases hj

theorem named_mono (h : m.named w = true) : (m.step o).named w = true := by
  cases hj : joining m.st o with
  | none => simpa [Joins.step, hj] using h
  | some x => simp [Joins.step, hj, update_apply, h]

theorem exited_mono (h : m.exited w = true) : (m.step o).exited w = true := by
  cases he : threadExiting m.st o with
  | none => simpa [Joins.step, he] using h
  | some p => simp [Joins.step, he, update_apply, h]

theorem named_of_joining (hj : joining m.st o = some (p, t)) : (m.step o).named (m.st.who t) = true := by
  simp [Joins.step, hj]

theorem exited_of_threadExiting (he : threadExiting m.st o = some p) : (m.step o).exited (m.st.who p) = true := by
  simp [Joins.step, he]

theorem target_of_joining (hj : joining m.st o = some (p, t)) : (m.step o).target p = some (m.st.who t) := by
  simp [Joins.step, hj]

theorem target_of_not_joining (hq : ∀ t, joining m.st o ≠ some (q, t)) : (m.step o).target q = m.target q := by
  cases hj : joining m.st o with
  | none => simp [Joins.step, hj]
  | some x =>
    have hne : q ≠ x.1 := by
      rintro rfl
      exact hq x.2 hj
    simp [Joins.step, hj, hne]

/-- a joiner that is dispatched returns 0 -/
theorem dispatch_joiner {s : St N K} {c : Fin K} (hc : s.curproc c = none) (hr : (s.ptable q).state = .runnable)
    (hpc : s.pc q = .joinSleep) :
    (Kernel.step s (.dispatch c q)).eax q = 0 ∧ (Kernel.step s (.dispatch c q)).pc q = .user := by
  have hpc' : (dispatched s c q).pc q = .joinSleep := hpc
  simp [Kernel.step, hc, hr, resume, hpc']

/-- a call of `thread_join` that does not sleep -/
theorem JoinCall.eax {s : St N K} (h : JoinCall s o p t) :
    ((s.ptable t).isjoined = true → (Kernel.step s o).eax p = -2) ∧
      ((s.ptable t).isjoined = false → (s.ptable t).state = .zombie → (Kernel.step s o).eax p = 0) := by
  obtain ⟨c, tid, hfind, hstep⟩ := h.step
  rw [hstep]
  unfold threadJoin
  rw [hfind]
  refine ⟨fun hj => ?_, fun hj hz => ?_⟩
  · simp [hj]
  · simp [hj, hz]

theorem answering_cases (ha : answering m o = some (p, w)) :
    (∃ c, o = .dispatch c p ∧ m.st.curproc c = none ∧ (m.st.ptable p).state = .runnable ∧ m.st.pc p = .joinSleep ∧
      m.target p = some w) ∨
    ∃ t, joining m.st o = some (p, t) ∧ m.st.who t = w ∧
      ((m.st.ptable t).isjoined = true ∨ (m.st.ptable t).state = .zombie) := by
  have hcall : ((joining m.st o).bind fun x =>
      if (m.st.ptable x.2).isjoined = true ∨ (m.st.ptable x.2).state = .zombie then some (x.1, m.st.who x.2)
      else none) = some (p, w) → ∃ t, joining m.st o = some (p, t) ∧ m.st.who t = w ∧
        ((m.st.ptable t).isjoined = true ∨ (m.st.ptable t).state = .zombie) := by
    intro h
    obtain ⟨⟨p', t⟩, hj, h⟩ := Option.bind_eq_some_iff.1 h
    split at h
    · rename_i hor
      cases h
      exact ⟨t, hj, rfl, hor⟩
    · cases h
  cases o with
  | dispatch c q =>
    simp only [answering] at ha
    split at ha
    · rename_i hq
      obtain ⟨w', hw, he⟩ := Option.map_eq_some_iff.1 ha
      cases he
      exact .inl ⟨c, rfl, hq.1, hq.2.1, hq.2.2, hw⟩
    · cases ha
  | preempt | trap | call | exec | sleepDev | wakeDev => exact .inr (hcall ha)

/-- what the calls of `thread_join` return -/
theorem results_step (hm : Joined m) (w : Who N) : (m.step o).results w = m.results w ∨
    (m.step o).results w = m.results w ++ [-2] ∨ ((m.step o).results w = m.results w ++ [0] ∧ Grants m o w) := by
  cases ha : answering m o with
  | none => exact .inl (by simp [Joins.step, ha])
  | some x =>
    obtain ⟨p, w'⟩ := x
    by_cases hw : w = w'
    · subst hw
      have hres : (m.step o).results w = m.results w ++ [(Kernel.step m.st o).eax p] := by simp [Joins.step, ha]
      rcases answering_cases ha with ⟨c, rfl, hc, hr, hpc, htarget⟩ | ⟨t, hj, rfl, hor⟩
      · have hq : Joiner m.st p := ⟨ProcState.life_active.2 (.inr (.inl hr)), hpc⟩
        obtain ⟨t, ht⟩ := hm.sleeper p hq
        have hwt : w = m.st.who t := Option.some.inj (htarget.symm.trans ht.target)
        rw [(dispatch_joiner hc hr hpc).1] at hres
        exact .inr (.inr ⟨hres, hwt ▸ .woken c p t rfl hc hq hr ht⟩)
      · have heax := (joinCall_of_joining hj).eax
        cases hun : (m.st.ptable t).isjoined with
        | true =>
          rw [heax.1 hun] at hres
          exact .inr (.inl hres)
        | false =>
          have hz := hor.resolve_left (by simp [hun])
          rw [heax.2 hun hz] at hres
          exact .inr (.inr ⟨hres, .zombie p t hj hz hun⟩)
    · exact .inl (by simp [Joins.step, ha, hw])

/-- a 0 among the results was there before, or is returned in this step -/
theorem zero_before (hm : Joined m) (h0 : 0 ∈ (m.step o).results w) : 0 ∈ m.results w ∨ Grants m o w := by
  rcases results_step hm w with he | he | ⟨_, hg⟩
  · rw [he] at h0
    exact .inl h0
  · rw [he] at h0
    exact .inl (by simpa using h0)
  · exact .inr hg

variable (hm : Joined m) (hok : JoinOk m o)

include hm in
theorem JoinCall.life_active (hj : JoinCall m.st o p t) : (m.st.ptable p).state.life = .active := by
  obtain ⟨c, hc⟩ := hj.running
  exact hm.kept.life_active hc

include hm in
/-- who names a thread is no joiner: it runs -/
theorem not_joining (hq : Joiner m.st q) (t : Fin N) : joining m.st o ≠ some (q, t) := by
  intro hj
  obtain ⟨c, hc⟩ := (joinCall_of_joining hj).running
  obtain ⟨t', ht⟩ := hm.sleeper q hq
  have hrun := hm.kept.cpus.running c q hc
  rcases ht.state with hs | ⟨hs, _⟩ <;> rw [hs] at hrun <;> cases hrun

include hm hok in
/-- **A 0 comes after `thread_exit`, and is the first.** -/
theorem Grants.spec (hg : Grants m o w) : m.exited w = true ∧ 0 ∉ m.results w ∧ (m.step o).named w = true := by
  cases hg with
  | woken c q t ho hc hq hr ht =>
    refine ⟨?_, ht.unanswered, named_mono ht.named⟩
    rcases ht.state with hs | ⟨_, he⟩
    · rw [hs] at hr
      cases hr
    · exact he
  | zombie p t hj hz hun =>
    have hcall := joinCall_of_joining hj
    refine ⟨hm.dead p t (hcall.life_active hm) hcall.pid hcall.isthread hz, fun h0 => ?_, named_of_joining hj⟩
    have hnamed := (hok.2.2.1 t (by simp [hj])).2 hz hun
    rw [hm.answered _ h0] at hnamed
    cases hnamed

/-- the thread is over or joined -/
theorem Grants.slot (hg : Grants m o w) : ∃ t, w = m.st.who t ∧ ((m.st.ptable t).state.life = .zombie ∨
    ((m.st.ptable t).state.life = .active ∧ (m.st.ptable t).isjoined = true)) := by
  cases hg with
  | woken c q t ho hc hq hr ht =>
    refine ⟨t, rfl, ?_⟩
    rcases ht.live with hl | hl
    · exact .inr ⟨hl, ht.isjoined⟩
    · exact .inl hl
  | zombie p t hj hz hun =>
    refine ⟨t, rfl, .inl ?_⟩
    rw [hz]
    rfl

end Ghosts

/-! ## One step -/

section Step

variable {m : Joins N K} {o : Op N K} (hm : Joined m) (hok : JoinOk m o)

include hm hok

theorem fate (q : Fin N) : Fate m.st o (m.step o).st q := step_fate hm.kept hok.1 q

omit hok in
theorem step_values (w : Who N) (v : ℤ) (hv : v ∈ (m.step o).results w) : v = 0 ∨ v = -2 := by
  rcases results_step hm w with he | he | ⟨he, _⟩ <;> rw [he] at hv
  · exact hm.values w v hv
  · rcases List.mem_append.1 hv with hv | hv
    · exact hm.values w v hv
    · exact .inr (List.mem_singleton.1 hv)
  · rcases List.mem_append.1 hv with hv | hv
    · exact hm.values w v hv
    · exact .inl (List.mem_singleton.1 hv)

theorem step_once (w : Who N) : ((m.step o).results w).count 0 ≤ 1 := by
  rcases results_step hm w with he | he | ⟨he, hg⟩ <;> rw [he]
  · exact hm.once w
  · simpa using hm.once w
  · have hnone := List.count_eq_zero.2 (hg.spec hm hok).2.1
    simp [hnone]

theorem step_done (w : Who N) (h0 : 0 ∈ (m.step o).results w) : (m.step o).exited w = true := by
  rcases zero_before hm h0 with h | hg
  · exact exited_mono (hm.done w h)
  · exact exited_mono (hg.spec hm hok).1

theorem step_answered (w : Who N) (h0 : 0 ∈ (m.step o).results w) : (m.step o).named w = true := by
  rcases zero_before hm h0 with h | hg
  · exact named_mono (hm.answered w h)
  · exact (hg.spec hm hok).2.2

omit hok in
theorem uid_lt_of_zero {t : Fin N} {n : ℕ} (h0 : 0 ∈ (m.step o).results (t, n)) : n < m.st.nextpid := by
  rcases zero_before hm h0 with h | hg
  · by_contra hn
    exact hm.fresh t n (not_lt.1 hn) h
  · obtain ⟨t', hw, _⟩ := hg.slot
    rw [show n = (m.st.ptable t').uid from congrArg Prod.snd hw]
    exact hm.uid_lt t'

theorem step_fresh (t : Fin N) (n : ℕ) (hn : (m.step o).st.nextpid ≤ n) : 0 ∉ (m.step o).results (t, n) := by
  intro h0
  have hlt := uid_lt_of_zero hm h0
  have hle := step_nextpid_le hm.kept hok.1
  exact absurd (hle.trans hn) (not_le.2 hlt)

theorem step_settled_slot (t : Fin N) (h0 : 0 ∈ (m.step o).results ((m.step o).st.who t)) :
    ((m.step o).st.ptable t).state.life = .free ∨ ((m.step o).st.ptable t).state.life = .zombie ∨
      (((m.step o).st.ptable t).state.life = .active ∧ ((m.step o).st.ptable t).isjoined = true) := by
  have hfate := fate hm hok t
  rcases hfate.uid with hu | ⟨_, _, hu, _⟩
  · have hwho : (m.step o).st.who t = m.st.who t := Prod.ext rfl hu
    rw [hwho] at h0
    have hold : (m.st.ptable t).state.life = .free ∨ (m.st.ptable t).state.life = .zombie ∨
        ((m.st.ptable t).state.life = .active ∧ (m.st.ptable t).isjoined = true) := by
      rcases zero_before hm h0 with h | hg
      · exact hm.settled t h
      · obtain ⟨t', hw, hslot⟩ := hg.slot
        obtain rfl : t = t' := congrArg Prod.fst hw
        exact .inr hslot
    cases hfate with
    | same h =>
      rw [h.life, h.isjoined]
      exact hold
    | joined p hj h =>
      rw [h.life, h.isjoined]
      rcases hold with hl | hl | ⟨hl, _⟩
      · exact .inl hl
      · exact .inr (.inl hl)
      · exact .inr (.inr ⟨hl, rfl⟩)
    | ended hcause h =>
      rw [h.state]
      exact .inr (.inl rfl)
    | freed hcause hy hu => exact .inl hy
    | allocated hx hy hu' hn =>
      have := hm.uid_lt t
      rw [← hu, hu'] at this
      exact absurd this (lt_irrefl _)
    | made hx hy hu =>
      rw [hx] at hold
      simp at hold
  · have hlt := uid_lt_of_zero hm h0
    rw [hu] at hlt
    exact absurd hlt (lt_irrefl _)

omit hm hok in
theorem Fate.pid_of_active {s s' : St N K} {q : Fin N} (h : Fate s o s' q) (hl : (s.ptable q).state.life = .active)
    (hl' : (s'.ptable q).state.life = .active) : (s'.ptable q).pid = (s.ptable q).pid := by
  cases h with
  | same h => exact h.pid
  | joined p hj h => exact h.pid
  | ended hcause h => exact h.pid
  | freed hcause hy hu =>
    rw [hy] at hl'
    cases hl'
  | allocated hx hy hu hn =>
    rw [hx] at hl
    cases hl
  | made hx hy hu =>
    rw [hx] at hl
    cases hl

omit hok in
/-- whoever is active with the pid of an exiting process is ended by it -/
theorem exiting_ends {p q : Fin N} (hp : p ∈ exiting m.st o)
    (hpid : ((m.step o).st.ptable q).pid = (m.st.ptable p).pid) : ((m.step o).st.ptable q).state = .zombie := by
  obtain ⟨c, hc, hstep⟩ := exiting_step hp
  have hl := hm.kept.life_active hc
  have hv := exitSection_visited m.st.initproc (parentsWithin hm.kept.orderly hl) q
  have heq : (m.step o).st.ptable q = exitSection m.st.initproc p m.st.ptable q := by
    show (Kernel.step m.st o).ptable q = _
    rw [hstep]
    rfl
  rw [heq] at hpid ⊢
  exact hv.dead (hv.pid.symm.trans hpid)

/-- an active slot was one of the process, or is a new thread of one that was -/
theorem active_pid {p : Fin N} (hp : ((m.step o).st.ptable p).state.life = .active) :
    (∃ r, (m.st.ptable r).state.life = .active ∧ (m.st.ptable r).pid = ((m.step o).st.ptable p).pid) ∨
      ∀ q, ((m.step o).st.ptable q).pid = ((m.step o).st.ptable p).pid → q = p := by
  rcases active_before hm.kept hp with hl | hpub
  · exact .inl ⟨p, hl, ((fate hm hok p).pid_of_active hl hp).symm⟩
  · obtain ⟨r, st, hs, hst⟩ := storing_of_published hpub
    obtain ⟨c, ok, ho, hc, hpc, hstep⟩ := step_storing hs
    have hl := hm.kept.life_active hc
    have hact : m.st.census.act r = .making st p := by
      simp only [St.census, hpc]
      rfl
    have hmade := hm.kept.orderly.made r st p hl hact
    have hpids : ∀ q, ((m.step o).st.ptable q).pid = (m.st.ptable q).pid := by
      intro q
      show ((Kernel.step m.st o).ptable q).pid = _
      rw [hstep]
      by_cases hq : q = p
      · subst hq
        rw [(makeStep_publish hmade.embryo (.inl (hstep ▸ hp))).2.1]
      · exact (makeStep_rests hq).pid
    rcases hst with rfl | rfl
    · right
      intro q hq
      rw [hpids, hpids] at hq
      exact hmade.fresh rfl q hq
    · exact .inl ⟨r, hl, (hmade.pid rfl).symm.trans (hpids p).symm⟩

theorem step_dead (p t : Fin N) (hp : ((m.step o).st.ptable p).state.life = .active)
    (hpid : ((m.step o).st.ptable t).pid = ((m.step o).st.ptable p).pid)
    (ht : ((m.step o).st.ptable t).isthread = true) (hz : ((m.step o).st.ptable t).state = .zombie) :
    (m.step o).exited ((m.step o).st.who t) = true := by
  have hfate := fate hm hok t
  have hlife : ((m.step o).st.ptable t).state.life = .zombie := by rw [hz]; rfl
  have hstay : (m.st.ptable t).state = .zombie → (m.st.ptable t).isthread = true →
      ((m.step o).st.ptable t).pid = (m.st.ptable t).pid → ((m.step o).st.ptable t).uid = (m.st.ptable t).uid →
      (m.step o).exited ((m.step o).st.who t) = true := by
    intro hzt htt hpt hut
    have hwho : (m.step o).st.who t = m.st.who t := Prod.ext rfl hut
    rw [hwho]
    rcases active_pid hm hok hp with ⟨r, hr, hrp⟩ | halone
    · refine exited_mono (hm.dead r t hr ?_ htt hzt)
      rw [hrp, ← hpid, hpt]
    · obtain rfl := halone t hpid
      rw [hp] at hlife
      cases hlife
  cases hfate with
  | same h => exact hstay (life_zombie.1 (h.life.symm.trans hlife)) (h.isthread.symm.trans ht) h.pid h.uid
  | joined r hj h => exact hstay (life_zombie.1 (h.life.symm.trans hlife)) (h.isthread.symm.trans ht) h.pid h.uid
  | ended hcause h =>
    rcases hcause with he | ⟨r, hr, hrp⟩
    · have hwho : (m.step o).st.who t = m.st.who t := Prod.ext rfl h.uid
      rw [hwho]
      exact exited_of_threadExiting he
    · have hpz := exiting_ends hm hr (q := p) (by rw [← hpid, h.pid, hrp])
      rw [hpz] at hp
      cases hp
  | freed hcause hy hu =>
    rw [hy] at hlife
    cases hlife
  | allocated hx hy hu hn =>
    rw [hy] at hlife
    cases hlife
  | made hx hy hu =>
    rw [hlife] at hy
    rcases hy with hy | hy <;> cases hy

omit hm hok in
/-- a joiner that stays one is not dispatched -/
theorem Joiner.not_dispatched {q : Fin N} {c : Fin K} (hq : Joiner m.st q) (hq' : Joiner (m.step o).st q)
    (hc : m.st.curproc c = none) (hr : (m.st.ptable q).state = .runnable) : o ≠ .dispatch c q := by
  rintro rfl
  have huser : (m.step (.dispatch c q)).st.pc q = .user := (dispatch_joiner hc hr hq.2).2
  rw [hq'.2] at huser
  cases huser

theorem Sleeper.dozes {q t : Fin N} (ht : Sleeper m q t) (hq : Joiner m.st q) (hq' : Joiner (m.step o).st q) :
    Dozes m.st o (m.step o).st q := by
  have hrun : (m.st.ptable q).state ≠ .running := by
    rcases ht.state with hs | ⟨hs, _⟩ <;> rw [hs] <;> exact ProcState.noConfusion
  rcases step_joiner hm.kept hok.1 hq.1 hq.2 hrun ht.chan with hl | ⟨c, ho, hc, hr⟩ | hd
  · exact absurd hq'.1 hl
  · exact absurd ho (hq.not_dispatched hq' hc hr)
  · exact hd

omit hok in
/-- the process of a joiner is not reaped: the joiner does not leave -/
theorem Joiner.not_reaped {q : Fin N} (hq : Joiner m.st q) : ¬ Reaps m.st o (m.st.ptable q).pid := by
  rintro ⟨h0, p, _, hfound⟩
  obtain ⟨m₀, hm₀, hpid₀⟩ := exists_of_waitFound (hfound ▸ h0)
  rcases hm.kept.reaped_slot hm₀ (q := q) (by rw [hpid₀, hfound]) with hz | ⟨_, hact, _⟩
  · have hl := hq.1
    rw [hz] at hl
    cases hl
  · simp only [St.census, hq.2] at hact
    cases hact

/-- the thread that a joiner waits for is still in its slot -/
theorem Sleeper.thread_stays {q t : Fin N} (ht : Sleeper m q t) (hq : Joiner m.st q) :
    ((m.step o).st.ptable t).uid = (m.st.ptable t).uid ∧ ((m.step o).st.ptable t).pid = (m.st.ptable t).pid ∧
      ((m.step o).st.ptable t).isjoined = true ∧ (((m.step o).st.ptable t).state.life = .active ∨
        ((m.step o).st.ptable t).state.life = .zombie) := by
  have hlive := ht.live
  cases fate hm hok t with
  | same h =>
    refine ⟨h.uid, h.pid, h.isjoined.trans ht.isjoined, ?_⟩
    rw [h.life]
    exact hlive
  | joined p hj h =>
    refine ⟨h.uid, h.pid, h.isjoined, ?_⟩
    rw [h.life]
    exact hlive
  | ended hcause h =>
    refine ⟨h.uid, h.pid, h.isjoined.trans ht.isjoined, .inr ?_⟩
    rw [h.state]
    rfl
  | freed hcause hy hu =>
    rcases hcause with he | hr
    · rw [he] at hlive
      rcases hlive with hl | hl <;> cases hl
    · rw [ht.pid] at hr
      exact absurd hr (hq.not_reaped hm)
  | allocated hx hy hu hn =>
    rw [hx] at hlive
    rcases hlive with hl | hl <;> cases hl
  | made hx hy hu =>
    rw [hx] at hlive
    rcases hlive with hl | hl <;> cases hl

/-- whoever wakes a joiner is the thread it waits for -/
theorem Sleeper.woken {q t : Fin N} (ht : Sleeper m q t) (hq : Joiner m.st q) (hq' : Joiner (m.step o).st q)
    (hsl : (m.st.ptable q).state = .sleeping) (hw : Wakes m.st o (.proc t)) :
    (m.step o).exited (m.st.who t) = true := by
  rcases hw with ⟨p, he, hch⟩ | ⟨p, hp, hch⟩
  · obtain rfl : t = p := Chan.proc.inj hch
    exact exited_of_threadExiting he
  · exfalso
    refine hok.2.2.2 p hp q hq.2 hsl (fun he => ?_) (ht.chan ▸ hch)
    have hz := exiting_ends hm hp (q := q) (((fate hm hok q).pid_of_active hq.1 hq'.1).trans he)
    have hl := hq'.1
    rw [hz] at hl
    cases hl

omit hok in
/-- as long as a joiner sleeps, no call that named the thread has returned 0 -/
theorem Sleeper.unanswered_step {q t : Fin N} (ht : Sleeper m q t) (hq : Joiner m.st q)
    (hq' : Joiner (m.step o).st q) : 0 ∉ (m.step o).results (m.st.who t) := by
  intro h0
  rcases zero_before hm h0 with h | hg
  · exact ht.unanswered h
  · generalize hw : m.st.who t = w at hg
    cases hg with
    | woken c q₂ t₂ ho hc hq₂ hr ht₂ =>
      -- the one that returns is the only one that waits for the thread
      obtain rfl : q₂ = q := hm.apart q₂ q hq₂ hq (by rw [ht₂.target, ht.target, hw])
      exact hq.not_dispatched hq' hc hr ho
    | zombie p t₂ hj hz hun =>
      obtain rfl : t = t₂ := congrArg Prod.fst hw
      rw [ht.isjoined] at hun
      cases hun

/-- a joiner that stays one sleeps on for the same thread -/
theorem sleeper_stays {q t : Fin N} (hq : Joiner m.st q) (ht : Sleeper m q t) (hq' : Joiner (m.step o).st q) :
    Sleeper (m.step o) q t := by
  have hdoze := ht.dozes hm hok hq hq'
  obtain ⟨huid, hpid, hjoined, hlive⟩ := ht.thread_stays hm hok hq
  have hwho : (m.step o).st.who t = m.st.who t := Prod.ext rfl huid
  constructor <;> try rw [hwho]
  · exact (target_of_not_joining (not_joining hm hq)).trans ht.target
  · exact hlive
  · rw [hpid, (fate hm hok q).pid_of_active hq.1 hq'.1]
    exact ht.pid
  · exact hjoined
  · exact hdoze.chan.trans ht.chan
  · rcases hdoze.state with hs | ⟨hsl, hr, hw⟩
    · rw [hs]
      exact ht.state.imp_right fun h => ⟨h.1, exited_mono h.2⟩
    · exact .inr ⟨hr, ht.woken hm hok hq hq' hsl (ht.chan ▸ hw)⟩
  · exact named_mono ht.named
  · exact ht.unanswered_step hm hq hq'

/-- a thread that is named, not joined and not a ZOMBIE is active -/
theorem named_active {p t : Fin N} (hj : joining m.st o = some (p, t)) (hz : (m.st.ptable t).state ≠ .zombie) :
    (m.st.ptable t).state.life = .active := by
  have hcall := joinCall_of_joining hj
  have hp := hcall.life_active hm
  cases hl : (m.st.ptable t).state.life with
  | active => rfl
  | zombie => exact absurd (life_zombie.1 hl) hz
  | embryo =>
    have hne := (hok.2.2.1 t (by simp [hj])).1
    cases hs : (m.st.ptable t).state with
    | embryo => exact absurd hs hne
    | _ =>
      rw [hs] at hl
      cases hl
  | free =>
    have hlf : m.st.census.life t = .free := hl
    have hpl : m.st.census.life p ≠ .free := by
      show (m.st.ptable p).state.life ≠ .free
      rw [hp]
      exact Life.noConfusion
    exact absurd hcall.pid (hm.kept.orderly.free_pid_ne hlf hpl)

/-- a call of `thread_join` that sleeps is the first to wait for its thread -/
theorem sleeper_new {c : Fin K} {q t : Fin N} (hj : joining m.st o = some (q, t))
    (hun : (m.st.ptable t).isjoined = false) (hz : (m.st.ptable t).state ≠ .zombie)
    (hstep : Kernel.step m.st o =
      (m.st.write t fun x => { x with isjoined := true }).sleep c q (.proc t) .joinSleep) : Sleeper (m.step o) q t := by
  have hcall := joinCall_of_joining hj
  have hl := named_active hm hok hj hz
  have hne := joining_ne hj
  have hst : (m.step o).st = (m.st.write t fun x => { x with isjoined := true }).sleep c q (.proc t) .joinSleep := hstep
  have htslot : (m.step o).st.ptable t = { m.st.ptable t with isjoined := true } := by
    rw [hst]
    simp [St.sleep, Table.write_of_ne _ hne]
  have hqslot : (m.step o).st.ptable q = { m.st.ptable q with chan := .proc t, state := .sleeping } := by
    rw [hst]
    simp [St.sleep, Table.write_of_ne _ hne.symm]
  have hwho : (m.step o).st.who t = m.st.who t := by
    unfold St.who
    rw [htslot]
  constructor <;> try rw [hwho]
  · exact target_of_joining hj
  · rw [htslot]
    exact .inl hl
  · rw [htslot, hqslot]
    exact hcall.pid
  · rw [htslot]
  · rw [hqslot]
  · rw [hqslot]
    exact .inl rfl
  · exact named_of_joining hj
  · intro h0
    have hslot : (m.st.ptable t).state.life = .free ∨ (m.st.ptable t).state.life = .zombie ∨
        ((m.st.ptable t).state.life = .active ∧ (m.st.ptable t).isjoined = true) := by
      rcases zero_before hm h0 with h | hg
      · exact hm.settled t h
      · obtain ⟨t', hw, hslot⟩ := hg.slot
        obtain rfl : t = t' := congrArg Prod.fst hw
        exact .inr hslot
    rw [hl, hun] at hslot
    simp at hslot

/-- who is a joiner after a step: one that was, or the caller of `thread_join` -/
theorem joiner_cases {q : Fin N} (hq' : Joiner (m.step o).st q) :
    (∃ t, Joiner m.st q ∧ Sleeper m q t ∧ (m.step o).target q = m.target q) ∨
      ∃ t, joining m.st o = some (q, t) ∧ (m.st.ptable t).isjoined = false ∧ Sleeper (m.step o) q t := by
  rcases joiner_before hm.kept hok.1 hq'.1 hq'.2 with hq | ⟨c, t, hj, hun, hz, hstep⟩
  · obtain ⟨t, ht⟩ := hm.sleeper q hq
    exact .inl ⟨t, hq, ht, target_of_not_joining (not_joining hm hq)⟩
  · exact .inr ⟨t, hj, hun, sleeper_new hm hok hj hun hz hstep⟩

/-- nobody waits for a thread that is not joined -/
theorem new_apart {q q' t : Fin N} (hj : joining m.st o = some (q, t)) (hun : (m.st.ptable t).isjoined = false)
    (hq' : Joiner (m.step o).st q') (he : (m.step o).target q = (m.step o).target q') : q = q' := by
  rcases joiner_cases hm hok hq' with ⟨t', _, ht', htarget⟩ | ⟨t', hj', _, _⟩
  · rw [target_of_joining hj, htarget, ht'.target] at he
    obtain rfl : t = t' := congrArg Prod.fst (Option.some.inj he)
    rw [ht'.isjoined] at hun
    cases hun
  · rw [hj] at hj'
    cases hj'
    rfl

/-- **One step keeps the invariant.** -/
theorem step_joined : Joined (m.step o) where
  kept := step_kept hm.kept hok.2.1 fun _ _ => trivial
  uid_lt := step_uid_lt hm.kept hok.1 hm.uid_lt
  sleeper := by
    intro q hq'
    rcases joiner_cases hm hok hq' with ⟨t, hq, ht, _⟩ | ⟨t, _, _, ht⟩
    · exact ⟨t, sleeper_stays hm hok hq ht hq'⟩
    · exact ⟨t, ht⟩
  apart := by
    intro q₁ q₂ h₁ h₂ he
    rcases joiner_cases hm hok h₁ with ⟨_, hq₁, _, ht₁⟩ | ⟨t, hj, hun, _⟩
    · rcases joiner_cases hm hok h₂ with ⟨_, hq₂, _, ht₂⟩ | ⟨t, hj, hun, _⟩
      · rw [ht₁, ht₂] at he
        exact hm.apart q₁ q₂ hq₁ hq₂ he
      · exact (new_apart hm hok hj hun h₁ he.symm).symm
    · exact new_apart hm hok hj hun h₂ he
  values := step_values hm
  once := step_once hm hok
  done := step_done hm hok
  answered := step_answered hm hok
  settled := step_settled_slot hm hok
  fresh := step_fresh hm hok
  dead := step_dead hm hok

end Step

/-! ## Runs -/

theorem joinsBoot_joined [NeZero N] : Joined (joinsBoot N K) where
  kept := boot_kept
  uid_lt := by
    intro q
    by_cases hq : q = 0
    · simp [joinsBoot, boot, hq]
    · simp [joinsBoot, boot, hq, freeSlot]
  sleeper := fun q hq => by cases hq.2
  apart := fun q q' hq => by cases hq.2
  values := fun w v hv => by cases hv
  once := fun w => Nat.zero_le _
  done := fun w h0 => by cases h0
  answered := fun w h0 => by cases h0
  settled := fun t h0 => by cases h0
  fresh := fun t n hn h0 => by cases h0
  dead := by
    intro p t hp hpid ht hz
    by_cases hq : t = 0
    · simp [joinsBoot, boot, hq] at hz
    · simp [joinsBoot, boot, hq, freeSlot] at hz

/-- init forks a child, and the child makes a thread -/
def childWithThread : List (Op 64 1) := List.flatten
  [[.dispatch 0 0, .call 0 .fork], List.replicate 10 (.exec 0 true), [.preempt 0, .dispatch 0 1, .call 0 .threadCreate],
    List.replicate 12 (.exec 0 true)]

/-- the child joins the thread, the thread calls `thread_exit`, and the child joins it again -/
def joinsThread : List (Op 64 1) := childWithThread ++
  [.call 0 (.threadJoin 1), .dispatch 0 2, .call 0 (.threadExit 0), .dispatch 0 1, .call 0 (.threadJoin 1)]

/-- the same, but the thread calls `thread_exit` before the child joins it -/
def joinsZombie : List (Op 64 1) := childWithThread ++
  [.preempt 0, .dispatch 0 2, .call 0 (.threadExit 0), .dispatch 0 1, .call 0 (.threadJoin 1), .call 0 (.threadJoin 1)]

end Xv6Threads.Kernel
