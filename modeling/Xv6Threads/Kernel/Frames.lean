/-
What one step of the kernel leaves alone.

The machines built over the kernel (files, locks, address spaces) follow a process through calls that are none of the
kernel's sections. These are the facts about `step` that they share, each read off the list of deeds.
- `active_before`, `maker_before`, `ended_before`: who is active, who is making a slot and whose slot has ended after a
  step, and what was the case before it.
- `busy_stays`: a process that does not act in a step stays where it is, unless the `exit` of a sibling or the `wait` of
  a parent ends it.
-/
import Xv6Threads.Kernel.Deeds

namespace Xv6Threads.Kernel

open Xv6Threads.Core Function

variable {N K : ℕ}

/-- the process `X` has a thread that is not a ZOMBIE -/
def Alive (s : St N K) (X : ℕ) : Prop := ∃ r, (s.ptable r).state.life = .active ∧ (s.ptable r).pid = X

instance decidableAlive (s : St N K) (X : ℕ) : Decidable (Alive s X) := by
  unfold Alive
  infer_instance

/-! ## The stores of fork and thread_create -/

/-- the store of `fork` or `thread_create` made in this step: who makes it, which one, and into which slot -/
def storing (s : St N K) : Op N K → Option (Fin N × Making × Fin N)
  | .exec c _ => (s.curproc c).bind fun p =>
    match s.pc p with
    | .make st np => some (p, st, np)
    | _ => none
  | _ => none

theorem storing_exec {s : St N K} {c : Fin K} {p np : Fin N} {st : Making} (hc : s.curproc c = some p)
    (hpc : s.pc p = .make st np) (ok : Bool) : storing s (.exec c ok) = some (p, st, np) := by
  simp [storing, hc, hpc]

theorem step_storing {s : St N K} {o : Op N K} {p np : Fin N} {st : Making} (h : storing s o = some (p, st, np)) :
    ∃ c ok, o = .exec c ok ∧ s.curproc c = some p ∧ s.pc p = .make st np ∧ step s o = makeStep s p np ok st := by
  cases o with
  | exec c ok =>
    simp only [storing, Option.bind_eq_some_iff] at h
    obtain ⟨p', hc, hm⟩ := h
    split at hm
    · rename_i st' np' hpc
      cases hm
      refine ⟨c, ok, rfl, hc, hpc, ?_⟩
      simp [step, Op.cpu, hc, stepOn, hpc, kernelStep]
    · cases hm
  | dispatch | preempt | trap | call | sleepDev | wakeDev => cases h

/-- the new process or thread that becomes RUNNABLE in this step -/
def published (s : St N K) (o : Op N K) : Option (Fin N) :=
  match storing s o with
  | some (_, .forkRun, np) | some (_, .tcRun, np) => some np
  | _ => none

/-- the process that makes a system call or takes a trap in user mode, or goes on inside the kernel, in this step -/
def acting (s : St N K) : Op N K → Option (Fin N)
  | .call c _ | .trap c _ => (s.curproc c).filter fun p => s.pc p = .user
  | .exec c _ => s.curproc c
  | _ => none

/-- what every process has of `f`, where a new one starts with `b` -/
def started {β : Type} (s : St N K) (o : Op N K) (f : Fin N → β) (b : β) : Fin N → β :=
  match published s o with
  | none => f
  | some np => update f np b

theorem started_cases {β : Type} (s : St N K) (o : Op N K) (f : Fin N → β) (b : β) (q : Fin N) :
    started s o f b q = f q ∨ started s o f b q = b := by
  unfold started
  cases published s o with
  | none => exact .inl rfl
  | some np =>
    by_cases hq : q = np
    · subst hq
      exact .inr (update_self ..)
    · exact .inl (update_of_ne hq _ _)

/-! ## The slots a step does not write -/

section Frames

variable {odd : Bool → Prop} {s : St N K} {o : Op N K} {c : Fin K} {p np q : Fin N} {ok : Bool} {st : Making}

/-- a store of `fork` or `thread_create` touches nothing of another slot but the counts of its main slot -/
theorem makeStep_other (hq : q ≠ np) : ∃ n i, (makeStep s p np ok st).ptable q =
    { s.ptable q with threadnum := n, threadId := i } := by
  have hrefl : ∀ x : Proc N, ∃ n i, x = { x with threadnum := n, threadId := i } := fun x => ⟨_, _, rfl⟩
  cases st with
  | kstack f | forkPgdir =>
    simp only [makeStep]
    split <;> simp only [St.goto_ptable, St.sysret_ptable, St.write_ptable, Table.write_of_ne _ hq] <;> exact hrefl _
  | tcCount =>
    exact Table.writeAt_rel (R := fun x y => ∃ n i, y = { x with threadnum := n, threadId := i }) hrefl
      (fun _ => ⟨_, _, rfl⟩) q
  | tcThreadId =>
    simp only [makeStep, St.goto_ptable, St.write_ptable, St.writeAt_ptable, Table.write_of_ne _ hq]
    exact Table.writeAt_rel (R := fun x y => ∃ n i, y = { x with threadnum := n, threadId := i }) hrefl
      (fun _ => ⟨_, _, rfl⟩) q
  | queuePos | threadnum | waitingFor | forkParent | forkThreadId | forkIsthread | forkIsjoined | forkRun | tcPid
  | tcPgdir | tcParent | tcIsthread | tcIsjoined | tcRun =>
    simp only [makeStep, St.goto_ptable, St.sysret_ptable, St.write_ptable, Table.write_of_ne _ hq]
    exact hrefl _

theorem makeStep_alike (hq : q ≠ np) : Alike (s.ptable q) ((makeStep s p np ok st).ptable q) := by
  obtain ⟨n, i, h⟩ := @makeStep_other N K s p np q ok st hq
  rw [h]
  exact ⟨rfl, rfl, rfl, rfl, rfl⟩

/-- what store `st` leaves as it was, in whatever slot: `killed` and `uid` always, and nobody is put to sleep -/
structure Untouched (st : Making) (x y : Proc N) : Prop where
  killed : y.killed = x.killed
  uid : y.uid = x.uid
  asleep : y.state = .sleeping → x.state = .sleeping
  threadId : st ≠ .forkThreadId → st ≠ .tcThreadId → y.threadId = x.threadId
  pid : st ≠ .tcPid → y.pid = x.pid
  pgdir : st ≠ .forkPgdir → st ≠ .tcPgdir → y.pgdir = x.pgdir

theorem Untouched.refl (st : Making) (x : Proc N) : Untouched st x x :=
  ⟨rfl, rfl, id, fun _ _ => rfl, fun _ => rfl, fun _ _ => rfl⟩

theorem Untouched.trans {x y z : Proc N} (h : Untouched st x y) (h' : Untouched st y z) : Untouched st x z :=
  ⟨h'.killed.trans h.killed, h'.uid.trans h.uid, fun hz => h.asleep (h'.asleep hz),
    fun hf ht => (h'.threadId hf ht).trans (h.threadId hf ht), fun hp => (h'.pid hp).trans (h.pid hp),
    fun hf ht => (h'.pgdir hf ht).trans (h.pgdir hf ht)⟩

theorem makeStep_untouched (s : St N K) (p np q : Fin N) (ok : Bool) (st : Making) :
    Untouched st (s.ptable q) ((makeStep s p np ok st).ptable q) := by
  have hwrite : ∀ {f : Proc N → Proc N}, Untouched st (s.ptable np) (f (s.ptable np)) →
      Untouched st (s.ptable q) (s.ptable.write np f q) := fun h => Table.write_rel (Untouched.refl st) h q
  cases st with
  | kstack f =>
    simp only [makeStep]
    split <;> refine hwrite (f := fun _ => _) ?_
    · exact ⟨rfl, rfl, id, fun _ _ => rfl, fun _ => rfl, fun _ _ => rfl⟩
    · exact ⟨rfl, rfl, fun h => (by cases h), fun _ _ => rfl, fun _ => rfl, fun _ _ => rfl⟩
  | forkPgdir =>
    simp only [makeStep]
    split <;> refine hwrite (f := fun _ => _) ?_
    · exact ⟨rfl, rfl, id, fun _ _ => rfl, fun _ => rfl, fun h => absurd rfl h⟩
    · exact ⟨rfl, rfl, fun h => (by cases h), fun _ _ => rfl, fun _ => rfl, fun h => absurd rfl h⟩
  | tcPgdir => exact hwrite (f := fun _ => _) ⟨rfl, rfl, id, fun _ _ => rfl, fun _ => rfl, fun _ h => absurd rfl h⟩
  | tcPid => exact hwrite (f := fun _ => _) ⟨rfl, rfl, id, fun _ _ => rfl, fun h => absurd rfl h, fun _ _ => rfl⟩
  | forkThreadId => exact hwrite (f := fun _ => _) ⟨rfl, rfl, id, fun h => absurd rfl h, fun _ => rfl, fun _ _ => rfl⟩
  | forkRun | tcRun =>
    refine hwrite (f := fun _ => _) ?_
    exact ⟨rfl, rfl, fun h => (by cases h), fun _ _ => rfl, fun _ => rfl, fun _ _ => rfl⟩
  | tcCount =>
    simp only [makeStep, St.goto_ptable, St.writeAt_ptable]
    refine Table.writeAt_rel (Untouched.refl _) (fun _ => ?_) q
    exact ⟨rfl, rfl, id, fun _ _ => rfl, fun _ => rfl, fun _ _ => rfl⟩
  | tcThreadId =>
    -- the main slot counts, and the new slot gets the number
    simp only [makeStep, St.goto_ptable, St.write_ptable, St.writeAt_ptable]
    refine Untouched.trans (Table.writeAt_rel (Untouched.refl _) (m := (s.ptable np).parent)
      (f := fun x => { x with threadId := x.threadId + 1 }) (fun _ => ?_) q) (Table.write_rel (Untouched.refl _) ?_ q)
    · exact ⟨rfl, rfl, id, fun _ h => absurd rfl h, fun _ => rfl, fun _ _ => rfl⟩
    · exact ⟨rfl, rfl, id, fun _ h => absurd rfl h, fun _ => rfl, fun _ _ => rfl⟩
  | queuePos | threadnum | waitingFor | forkParent | forkIsthread | forkIsjoined | tcParent | tcIsthread | tcIsjoined =>
    exact hwrite (f := fun _ => _) ⟨rfl, rfl, id, fun _ _ => rfl, fun _ => rfl, fun _ _ => rfl⟩

/-- nor does it move another process -/
theorem makeStep_pc (hqp : q ≠ p) (hq : q ≠ np) : (makeStep s p np ok st).pc q = s.pc q := by
  cases st with
  | kstack f | forkPgdir =>
    simp only [makeStep]
    split <;> simp [hqp]
  | tcCount | tcThreadId | queuePos | threadnum | waitingFor | forkParent | forkThreadId | forkIsthread | forkIsjoined
  | forkRun | tcPid | tcPgdir | tcParent | tcIsthread | tcIsjoined | tcRun =>
    simp [makeStep, hqp, hq]

/-- the maker goes on to the next store, or returns -/
theorem makeStep_pc_self : (makeStep s p np ok st).pc p = .user ∨
    ((makeStep s p np ok st).pc p = .make st.next np ∧ st ≠ .forkRun ∧ st ≠ .tcRun) := by
  cases st with
  | kstack f | forkPgdir =>
    simp only [makeStep]
    split
    · exact .inr (by simp [Making.next])
    · exact .inl (by simp)
  | waitingFor f => exact .inr (by cases f <;> simp [makeStep, Making.next])
  | forkRun | tcRun => exact .inl (by simp [makeStep])
  | tcCount | tcThreadId | queuePos | threadnum | forkParent | forkThreadId | forkIsthread | forkIsjoined | tcPid
  | tcPgdir | tcParent | tcIsthread | tcIsjoined => exact .inr (by simp [makeStep, Making.next])

/-- the new slot is an embryo until the last store publishes it -/
theorem makeStep_publish (hemb : (s.ptable np).state.life = .embryo)
    (hl : ((makeStep s p np ok st).ptable np).state.life = .active ∨
      ((makeStep s p np ok st).ptable np).state.life = .zombie) :
    (st = .forkRun ∨ st = .tcRun) ∧ (makeStep s p np ok st).ptable np = { s.ptable np with state := .runnable } ∧
      (p ≠ np → (makeStep s p np ok st).pc np = .user) := by
  cases st with
  | forkRun => exact ⟨.inl rfl, by simp [makeStep], fun h => by simp [makeStep, h.symm]⟩
  | tcRun => exact ⟨.inr rfl, by simp [makeStep], fun h => by simp [makeStep, h.symm]⟩
  | kstack f | forkPgdir =>
    exfalso
    simp only [makeStep] at hl
    split at hl
    · simp [hemb] at hl
    · simp [ProcState.life] at hl
  | tcCount =>
    exfalso
    have ha := alike_writeAt (t := s.ptable) (m := (s.ptable np).parent)
      (f := fun x => { x with threadnum := x.threadnum + 1 }) (fun _ => ⟨rfl, rfl, rfl, rfl, rfl⟩) np
    simp only [makeStep, St.goto_ptable, St.writeAt_ptable, ha.life, hemb] at hl
    simp at hl
  | tcThreadId =>
    exfalso
    have ha := alike_writeAt (t := s.ptable) (m := (s.ptable np).parent)
      (f := fun x => { x with threadId := x.threadId + 1 }) (fun _ => ⟨rfl, rfl, rfl, rfl, rfl⟩) np
    simp only [makeStep, St.goto_ptable, St.write_ptable, St.writeAt_ptable, Table.write_self, ha.life, hemb] at hl
    simp at hl
  | queuePos | threadnum | waitingFor | forkParent | forkThreadId | forkIsthread | forkIsjoined | tcPid
  | tcPgdir | tcParent | tcIsthread | tcIsjoined =>
    exfalso
    simp [makeStep, hemb] at hl

/-- it is free again if an allocation failed -/
theorem makeStep_fail (hemb : (s.ptable np).state.life = .embryo)
    (hl : ((makeStep s p np ok st).ptable np).state.life = .free) : (∃ f, st = .kstack f) ∨ st = .forkPgdir := by
  cases st with
  | kstack f => exact .inl ⟨f, rfl⟩
  | forkPgdir => exact .inr rfl
  | tcCount =>
    have ha := alike_writeAt (t := s.ptable) (m := (s.ptable np).parent)
      (f := fun x => { x with threadnum := x.threadnum + 1 }) (fun _ => ⟨rfl, rfl, rfl, rfl, rfl⟩) np
    simp only [makeStep, St.goto_ptable, St.writeAt_ptable, ha.life, hemb] at hl
    cases hl
  | tcThreadId =>
    have ha := alike_writeAt (t := s.ptable) (m := (s.ptable np).parent)
      (f := fun x => { x with threadId := x.threadId + 1 }) (fun _ => ⟨rfl, rfl, rfl, rfl, rfl⟩) np
    simp only [makeStep, St.goto_ptable, St.write_ptable, St.writeAt_ptable, Table.write_self, ha.life, hemb] at hl
    cases hl
  | forkRun | tcRun => simp [makeStep, ProcState.life] at hl
  | queuePos | threadnum | waitingFor | forkParent | forkThreadId | forkIsthread | forkIsjoined | tcPid
  | tcPgdir | tcParent | tcIsthread | tcIsjoined => simp [makeStep, hemb] at hl

theorem makeStep_initproc : (makeStep s p np ok st).initproc = s.initproc := by
  cases st <;> simp only [makeStep] <;> first | rfl | (split <;> rfl)

/-- `allocproc` found a slot: what it writes -/
theorem allocproc_some (h : findUnused s.ptable = some np) (f : Maker) :
    (allocproc s p f).ptable = s.ptable.write np (fun x => { x with state := .embryo, pid := s.nextpid, uid := s.nextpid }) ∧
      (allocproc s p f).pc = update s.pc p (.make (.kstack f) np) ∧
      (allocproc s p f).initproc = s.initproc := by
  unfold allocproc
  rw [h]
  exact ⟨rfl, rfl, rfl⟩

theorem life_eq_embryo (h : Kept odd s) (hp : (s.ptable p).state.life = .active) (hpc : s.pc p = .make st np) :
    (s.ptable np).state.life = .embryo := by
  have hact : s.census.act p = .making st np := by
    simp only [St.census, hpc]
    rfl
  exact (h.orderly.made p st np hp hact).embryo

theorem Kept.life_active (h : Kept odd s) (hc : s.curproc c = some p) : (s.ptable p).state.life = .active :=
  ProcState.life_active.2 (.inr (.inr (h.cpus.running c p hc)))

/-- two processes do not make the same slot -/
theorem Kept.one_maker (h : Kept odd s) {r r' np : Fin N} {st st' : Making}
    (hr : (s.ptable r).state.life = .active) (hr' : (s.ptable r').state.life = .active) (hm : s.pc r = .make st np)
    (hm' : s.pc r' = .make st' np) : r = r' := by
  refine h.orderly.maker r r' np hr hr' ?_ ?_
  · simp only [St.census, hm]
    rfl
  · simp only [St.census, hm']
    rfl

/-- a process that is still making a slot was making it before -/
theorem make_of_turns {s' : St N K} (hpc : ∀ q, s'.pc q = s.pc q ∨ Turns s o q (s'.pc q)) {r : Fin N}
    (hm : s'.pc r = .make st np) : s.pc r = .make st np := by
  rcases hpc r with hsame | ht
  · exact hsame.symm.trans hm
  · have := ht.next
    rw [hm] at this
    rcases this with h | h <;> cases h

theorem mem_exiting (hc : s.curproc c = some p) (hpc : s.pc p = .exitClose) : p ∈ exiting s (.exec c ok) := by
  simp [exiting, hc, hpc]

/-- what the section of `exit` does to a slot of another process -/
theorem exitLocked_alike (h : Kept odd s) (hp : (s.ptable p).state.life = .active)
    (hq : (s.ptable q).pid ≠ (s.ptable p).pid) :
    ((exitLocked s c p).ptable q).state.life = (s.ptable q).state.life := by
  have hv := exitSection_visited s.initproc (parentsWithin h.orderly hp) q
  show (exitSection s.initproc p s.ptable q).state.life = _
  rcases hv.state hq with he | ⟨h1, h2⟩
  · rw [he]
  · rw [h1, h2]
    rfl

/-- **Who is active now was before**, or is new. -/
theorem active_before (h : Kept odd s) (hl : ((step s o).ptable q).state.life = .active) :
    (s.ptable q).state.life = .active ∨ published s o = some q := by
  have hdeed := step_deed h.cpus o
  generalize step s o = s' at hdeed hl
  cases hdeed with
  | calm _ halike hmoved hglob => exact .inl ((halike q).life.symm.trans hl)
  | alloc p np f he hnp =>
    rw [(allocproc_some hnp f).1] at hl
    by_cases hqn : q = np
    · subst hqn
      rw [Table.write_self] at hl
      cases hl
    · rw [Table.write_of_ne _ hqn] at hl
      exact .inl hl
  | make c p np st ok ho hc hm =>
    by_cases hqn : q = np
    · subst hqn
      right
      obtain ⟨hst, _⟩ := makeStep_publish (life_eq_embryo h (h.life_active hc) hm) (.inl hl)
      rw [published, ho, storing_exec hc hm ok]
      rcases hst with rfl | rfl <;> rfl
    · exact .inl ((makeStep_alike hqn).life.symm.trans hl)
  | retire _ p he hret hlast hz hpid hpar hthr hpg halike hsame hglob =>
    by_cases hqp : q = p
    · subst hqp
      rw [hz] at hl
      cases hl
    · exact .inl ((halike q hqp).life.symm.trans hl)
  | exit c p ok ho hc hm =>
    by_cases hpid : (s.ptable q).pid = (s.ptable p).pid
    · have hz : ((exitLocked s c p).ptable q).state = .zombie :=
        (exitSection_visited s.initproc (parentsWithin h.orderly (h.life_active hc)) q).dead hpid
      rw [hz] at hl
      cases hl
    · exact .inl ((exitLocked_alike h (h.life_active hc) hpid).symm.trans hl)
  | reap _ p X hw hX hfound hfree halike hmoved hinit hnext hfreed =>
    by_cases hpid : (s.ptable q).pid = X
    · rw [(hfree q hpid).state] at hl
      cases hl
    · exact .inl ((halike q hpid).life.symm.trans hl)

theorem storing_of_published (h : published s o = some np) :
    ∃ p st, storing s o = some (p, st, np) ∧ (st = .forkRun ∨ st = .tcRun) := by
  unfold published at h
  split at h
  · rename_i p np' hs
    cases h
    exact ⟨p, .forkRun, hs, .inl rfl⟩
  · rename_i p np' hs
    cases h
    exact ⟨p, .tcRun, hs, .inr rfl⟩
  · cases h

/-- the new process was an embryo -/
theorem published_embryo (h : Kept odd s) (hp : published s o = some q) : (s.ptable q).state.life = .embryo := by
  obtain ⟨p, st, hs, _⟩ := storing_of_published hp
  obtain ⟨c, ok, _, hc, hpc, _⟩ := step_storing hs
  exact life_eq_embryo h (h.life_active hc) hpc

/-- a process that is already active keeps what it has -/
theorem started_of_active {β : Type} (h : Kept odd s) (hl : (s.ptable q).state.life = .active) (f : Fin N → β) (b : β) :
    started s o f b q = f q := by
  unfold started
  cases hp : published s o with
  | none => rfl
  | some np =>
    refine update_of_ne ?_ _ _
    rintro rfl
    have hemb := published_embryo h hp
    rw [hl] at hemb
    cases hemb

/-- what an active process has, it had before, unless it is new -/
theorem started_active {β : Type} (h : Kept odd s) (hl : ((step s o).ptable q).state.life = .active) (f : Fin N → β)
    (b : β) : started s o f b q = b ∨ (started s o f b q = f q ∧ (s.ptable q).state.life = .active) := by
  unfold started
  cases hp : published s o with
  | none =>
    rcases active_before h hl with ha | ha
    · exact .inr ⟨rfl, ha⟩
    · rw [hp] at ha
      cases ha
  | some np =>
    by_cases hq : q = np
    · subst hq
      exact .inl (update_self ..)
    · right
      refine ⟨update_of_ne hq _ _, ?_⟩
      rcases active_before h hl with ha | ha
      · exact ha
      · rw [hp] at ha
        exact absurd (Option.some.inj ha).symm hq

/-- in this step the process of slot `q` is ended by somebody else: a sibling's `exit` or a parent's `wait` -/
def Killed (s : St N K) (o : Op N K) (q : Fin N) : Prop :=
  (∃ p ∈ exiting s o, p ≠ q ∧ (s.ptable q).pid = (s.ptable p).pid) ∨ Reaps s o (s.ptable q).pid

/-- in this step nobody with the property `P` is ended by somebody else -/
def SparesAll (s : St N K) (o : Op N K) (P : Fin N → Prop) : Prop :=
  (∀ p ∈ exiting s o, ∀ q, q ≠ p → (s.ptable q).pid = (s.ptable p).pid → ¬ P q) ∧
    ∀ p ∈ waiter s o, waitFound s.ptable p ≠ 0 → ∀ q, (s.ptable q).pid = waitFound s.ptable p → ¬ P q

instance decidableSparesAll (s : St N K) (o : Op N K) (P : Fin N → Prop) [DecidablePred P] :
    Decidable (SparesAll s o P) := instDecidableAnd

theorem SparesAll.not_killed {P : Fin N → Prop} (h : SparesAll s o P) (hq : P q) : ¬ Killed s o q := by
  rintro (⟨p, hp, hne, hpid⟩ | ⟨h0, p, hp, hfound⟩)
  · exact h.1 p hp q hne.symm hpid hq
  · exact h.2 p hp (hfound ▸ h0) q hfound.symm hq

theorem Enters.acting (h : Enters s o q) : q ∈ acting s o := by
  obtain ⟨hu, c, hc, ⟨f, rfl⟩ | ⟨fault, rfl⟩⟩ := h
  · simp [Kernel.acting, hc, hu]
  · simp [Kernel.acting, hc, hu]

theorem acting_cases (h : q ∈ acting s o) : s.pc q = .user ∨ ∃ c ok, o = .exec c ok ∧ s.curproc c = some q := by
  cases o with
  | call c f =>
    simp only [Kernel.acting, Option.mem_def, Option.filter_eq_some_iff, decide_eq_true_eq] at h
    exact .inl h.2
  | trap c fault =>
    simp only [Kernel.acting, Option.mem_def, Option.filter_eq_some_iff, decide_eq_true_eq] at h
    exact .inl h.2
  | exec c ok => exact .inr ⟨c, ok, rfl, h⟩
  | dispatch | preempt | sleepDev | wakeDev => cases h

theorem acting_of_exiting (h : q ∈ exiting s o) : q ∈ acting s o := by
  cases o with
  | exec c ok =>
    simp only [exiting, Option.mem_def, Option.filter_eq_some_iff] at h
    exact h.1
  | dispatch | preempt | trap | call | sleepDev | wakeDev => cases h

/-- **A process that is busy elsewhere stays put.** It is in the middle of a call that is none of the kernel's sections
here, or closing its files: then no step moves it or ends it, but a step that kills it. -/
theorem busy_stays (h : Kept odd s) (hl : (s.ptable q).state.life = .active)
    (hpc : s.pc q = .user ∨ (s.pc q).act ≠ .idle) (hact : q ∉ acting s o) (hkill : ¬ Killed s o q) :
    ((step s o).ptable q).state.life = .active ∧ (step s o).pc q = s.pc q ∧
      ((step s o).ptable q).pid = (s.ptable q).pid := by
  have hen : ¬ Enters s o q := fun he => hact he.acting
  have hex : q ∉ exiting s o := fun he => hact (acting_of_exiting he)
  have hstay : ∀ pc, Turns s o q pc → False := by
    intro pc ht
    rcases hpc with hu | hidle
    · exact hen (ht.enters hu)
    · exact hidle ht.idle
  have hdeed := step_deed h.cpus o
  generalize step s o = s' at hdeed ⊢
  cases hdeed with
  | calm _ halike hmoved hglob =>
    refine ⟨(halike q).life.trans hl, ?_, (halike q).pid⟩
    rcases hmoved q with hsame | ht
    · exact hsame
    · exact (hstay _ ht).elim
  | alloc p np f he hnp =>
    obtain ⟨htab, hpcs, _⟩ := allocproc_some (p := p) hnp f
    have hqn : q ≠ np := by
      rintro rfl
      rw [findUnused_unused hnp] at hl
      cases hl
    have hqp : q ≠ p := fun e => hen (e ▸ he)
    rw [htab, hpcs, Table.write_of_ne _ hqn, update_of_ne hqp]
    exact ⟨hl, rfl, rfl⟩
  | make c p np st ok ho hc hm =>
    have hemb := life_eq_embryo h (h.life_active hc) hm
    have hqn : q ≠ np := by
      rintro rfl
      rw [hl] at hemb
      cases hemb
    have hqp : q ≠ p := by
      rintro rfl
      refine hact ?_
      rw [ho]
      exact hc
    have ha : Alike (s.ptable q) ((makeStep s p np ok st).ptable q) := makeStep_alike hqn
    exact ⟨ha.life.trans hl, makeStep_pc hqp hqn, ha.pid⟩
  | retire _ p he hret hlast hz hpid hpar hthr hpg halike hsame hglob =>
    have hqp : q ≠ p := fun e => hen (e ▸ he)
    exact ⟨(halike q hqp).life.trans hl, congrFun hsame q, (halike q hqp).pid⟩
  | exit c p ok ho hc hm =>
    have hmem : p ∈ exiting s o := ho ▸ mem_exiting hc hm
    have hqp : p ≠ q := fun e => hex (e ▸ hmem)
    have hne : (s.ptable q).pid ≠ (s.ptable p).pid := fun e => hkill (.inl ⟨p, hmem, hqp, e⟩)
    have hv := exitSection_visited s.initproc (parentsWithin h.orderly (h.life_active hc)) q
    exact ⟨(exitLocked_alike h (h.life_active hc) hne).trans hl, rfl, hv.pid⟩
  | reap _ p X hw hX hfound hfree halike hmoved hinit hnext hfreed =>
    have hne : (s.ptable q).pid ≠ X := by
      rintro rfl
      exact hkill (.inr ⟨hX, p, hw, hfound⟩)
    refine ⟨(halike q hne).life.trans hl, ?_, (halike q hne).pid⟩
    rcases hmoved q with hsame | ht
    · exact hsame
    · exact (hstay _ ht).elim

/-- **Who is making a slot now** was making it before, has just made a store into it, or has just got it. -/
theorem maker_before (h : Kept odd s) (hl : ((step s o).ptable q).state.life = .active)
    (hm : (step s o).pc q = .make st np) :
    ((s.ptable q).state.life = .active ∧ s.pc q = .make st np ∧ ∀ st' np', storing s o ≠ some (q, st', np')) ∨
    (∃ st', storing s o = some (q, st', np) ∧ st = st'.next ∧ st' ≠ .forkRun ∧ st' ≠ .tcRun) ∨
    (∃ f, st = .kstack f ∧ s.pc q = .user ∧ (s.ptable np).state = .unused) := by
  have hother : ∀ st' np', storing s o = some (q, st', np') → s.pc q = .make st' np' := by
    intro st' np' hs
    obtain ⟨_, _, _, _, hpc, _⟩ := step_storing hs
    exact hpc
  have hdeed := step_deed h.cpus o
  cases hs : storing s o with
  | some x =>
    obtain ⟨p, st₁, np₁⟩ := x
    obtain ⟨c, ok, rfl, hc, hpc, hstep⟩ := step_storing hs
    have hemb := life_eq_embryo h (h.life_active hc) hpc
    have hpn : p ≠ np₁ := by
      rintro rfl
      rw [h.life_active hc] at hemb
      cases hemb
    rw [hstep] at hl hm
    by_cases hqn : q = np₁
    · subst hqn
      rw [(makeStep_publish hemb (.inl hl)).2.2 hpn] at hm
      cases hm
    · by_cases hqp : q = p
      · subst hqp
        have hself : (makeStep s q np₁ ok st₁).pc q = .user ∨
            ((makeStep s q np₁ ok st₁).pc q = .make st₁.next np₁ ∧ st₁ ≠ .forkRun ∧ st₁ ≠ .tcRun) := makeStep_pc_self
        rw [hm] at hself
        rcases hself with hu | ⟨hnext, hne⟩
        · cases hu
        · cases hnext
          exact .inr (.inl ⟨st₁, rfl, rfl, hne⟩)
      · rw [makeStep_pc hqp hqn] at hm
        refine .inl ⟨(makeStep_alike hqn).life.symm.trans hl, hm, fun st' np' he => ?_⟩
        cases he
        exact hqp rfl
  | none =>
    generalize step s o = s' at hdeed hl hm
    cases hdeed with
    | calm _ halike hmoved hglob =>
      exact .inl ⟨(halike q).life.symm.trans hl, make_of_turns hmoved hm, by simp⟩
    | alloc p np₁ f he hnp =>
      obtain ⟨htab, hpcs, _⟩ := allocproc_some (p := p) hnp f
      have hqn : q ≠ np₁ := by
        rintro rfl
        rw [htab, Table.write_self] at hl
        cases hl
      rw [htab, Table.write_of_ne _ hqn] at hl
      rw [hpcs] at hm
      by_cases hqp : q = p
      · subst hqp
        rw [update_self] at hm
        cases hm
        exact .inr (.inr ⟨f, rfl, he.1, findUnused_unused hnp⟩)
      · rw [update_of_ne hqp] at hm
        exact .inl ⟨hl, hm, by simp⟩
    | make c p np₁ st₁ ok ho hc hpc =>
      rw [ho, storing_exec hc hpc ok] at hs
      cases hs
    | retire _ p he hret hlast hz hpid hpar hthr hpg halike hsame hglob =>
      have hqp : q ≠ p := by
        rintro rfl
        rw [hz] at hl
        cases hl
      exact .inl ⟨(halike q hqp).life.symm.trans hl, (congrFun hsame q).symm.trans hm, by simp⟩
    | exit c p ok ho hc hpc =>
      refine .inl ⟨?_, hm, by simp⟩
      by_cases hpid : (s.ptable q).pid = (s.ptable p).pid
      · have hz : ((exitLocked s c p).ptable q).state = .zombie :=
          (exitSection_visited s.initproc (parentsWithin h.orderly (h.life_active hc)) q).dead hpid
        rw [hz] at hl
        cases hl
      · exact (exitLocked_alike h (h.life_active hc) hpid).symm.trans hl
    | reap _ p X hw hX hfound hfree halike hmoved hinit hnext hfreed =>
      have hpid : (s.ptable q).pid ≠ X := by
        intro hpid
        rw [(hfree q hpid).state] at hl
        cases hl
      exact .inl ⟨(halike q hpid).life.symm.trans hl, make_of_turns hmoved hm, by simp⟩

/-- the slot is free or holds a dead process -/
def Ended (s : St N K) (q : Fin N) : Prop := (s.ptable q).state.life = .free ∨ (s.ptable q).state.life = .zombie

/-- **Whose slot has ended** had ended before, ends itself through `exit` or `thread_exit`, is ended by somebody else, or
could not be made. -/
theorem ended_before (h : Kept odd s) (hq : Ended (step s o) q) :
    Ended s q ∨ q ∈ exiting s o ∨ Killed s o q ∨ q ∈ retiring s o ∨
      ∃ p st, storing s o = some (p, st, q) ∧ ((∃ f, st = .kstack f) ∨ st = .forkPgdir) := by
  have hdeed := step_deed h.cpus o
  generalize step s o = s' at hdeed hq
  unfold Ended at hq
  cases hdeed with
  | calm _ halike hmoved hglob =>
    rw [(halike q).life] at hq
    exact .inl hq
  | alloc p np₁ f he hnp =>
    rw [(allocproc_some hnp f).1] at hq
    by_cases hqn : q = np₁
    · subst hqn
      simp [ProcState.life] at hq
    · rw [Table.write_of_ne _ hqn] at hq
      exact .inl hq
  | make c p np₁ st₁ ok ho hc hpc =>
    by_cases hqn : q = np₁
    · subst hqn
      have hemb := life_eq_embryo h (h.life_active hc) hpc
      refine .inr (.inr (.inr (.inr ⟨p, st₁, ho ▸ storing_exec hc hpc ok, ?_⟩)))
      rcases hq with hq | hq
      · exact makeStep_fail hemb hq
      · have htab := (makeStep_publish hemb (.inr hq)).2.1
        rw [htab] at hq
        cases hq
    · rw [(makeStep_alike hqn).life] at hq
      exact .inl hq
  | retire _ p he hret hlast hz hpid hpar hthr hpg halike hsame hglob =>
    by_cases hqp : q = p
    · subst hqp
      exact .inr (.inr (.inr (.inl hret)))
    · rw [(halike q hqp).life] at hq
      exact .inl hq
  | exit c p ok ho hc hpc =>
    have hmem : p ∈ exiting s o := ho ▸ mem_exiting hc hpc
    by_cases hqp : q = p
    · exact .inr (.inl (hqp ▸ hmem))
    · by_cases hpid : (s.ptable q).pid = (s.ptable p).pid
      · exact .inr (.inr (.inl (.inl ⟨p, hmem, Ne.symm hqp, hpid⟩)))
      · rw [exitLocked_alike h (h.life_active hc) hpid] at hq
        exact .inl hq
  | reap _ p X hw hX hfound hfree halike hmoved hinit hnext hfreed =>
    by_cases hpid : (s.ptable q).pid = X
    · exact .inr (.inr (.inl (.inr ⟨hpid ▸ hX, p, hw, hfound.trans hpid.symm⟩)))
    · rw [(halike q hpid).life] at hq
      exact .inl hq

end Frames

end Xv6Threads.Kernel
