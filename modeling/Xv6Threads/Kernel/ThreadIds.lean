/-
Whether a thread id names one thread.

`thread_create` writes the new slot without `ptable.lock`: first the pid of the process, then `isthread`, and `thread_id`
last. In between the slot shows the id of its last use, and a call of `thread_join` takes it for that thread. If two
threads of a process are in `thread_create` at once, both new slots may show 0.

The id of a new thread is the count kept in `thread_id` of the main slot. Once it is stored it is larger than every id
given before, so only the slots still being made can clash.
- `Opening`: a slot that has the pid of its process and not yet its own id.
- `Identified`: the invariant; `step_identified`: a step that is `IdsOk` keeps it.
- `thread_ids_distinct`: so in every run of such steps no two threads of a process have the same id, and `thread_join`
  finds the thread for which `thread_create` returned that id, or will.
- `thread_ids_clash`: two threads with the same id.
-/
import Xv6Threads.Kernel.Marks
import Xv6Threads.Kernel.JoinSteps

namespace Xv6Threads.Kernel

open Xv6Threads.Core

variable {N K : ℕ}

/-! ## The kernel with the results of thread_create -/

/-- `returned q`: what `thread_create` returned for the thread in slot `q` -/
structure Ids (N K : ℕ) where
  st : St N K
  returned : Fin N → Option ℤ

def Ids.step (m : Ids N K) (o : Op N K) : Ids N K where
  st := Kernel.step m.st o
  returned := match storing m.st o with
    | some (p, .tcRun, np) => Function.update m.returned np (some ((Kernel.step m.st o).eax p))
    | _ => m.returned

def idsBoot (N K : ℕ) [NeZero N] : Ids N K := ⟨boot N K, fun _ => none⟩

/-- the slot is in use and marked as a thread -/
def Proc.IsThread (x : Proc N) : Prop := x.state ≠ .unused ∧ x.isthread = true

instance decidableIsThread (x : Proc N) : Decidable x.IsThread := instDecidableAnd

/-- the slot being made shows the pid of its process, and not yet an id of its own -/
def Making.opening (st : Making) : Bool := st.joined && st != .tcRun

/-- process `r` is in `thread_create` and its slot is one of these -/
def Opening (s : St N K) (r np : Fin N) : Prop :=
  (s.ptable r).state.life = .active ∧ ∃ st, s.pc r = .make st np ∧ st.opening = true

/-- the same, as a test on the program counter -/
def Pc.opening : Pc N → Option (Fin N)
  | .make st np => if st.opening then some np else none
  | _ => none

/-- when `thread_create` gives a slot its pid, no other thread of the process is in this part of `thread_create`, and no
thread of the process has the id that the slot shows; `thread_join` does not find a slot in this part -/
def IdsOk (m : Ids N K) (o : Op N K) : Prop :=
  CpusApart m.st o ∧
  (∀ x ∈ storing m.st o, x.2.1 = .tcPid →
    (∀ r, r ≠ x.1 → (m.st.ptable r).state.life = .active → (m.st.ptable r).pid = (m.st.ptable x.1).pid →
      (m.st.pc r).opening = none) ∧
    ∀ q, q ≠ x.2.2 → (m.st.ptable q).IsThread → (m.st.ptable q).pid = (m.st.ptable x.1).pid →
      (m.st.ptable q).threadId ≠ (m.st.ptable x.2.2).threadId) ∧
  ∀ t ∈ (joining m.st o).map Prod.snd, ∀ r, (m.st.ptable r).state.life = .active → (m.st.pc r).opening ≠ some t

instance decidableIdsOk (m : Ids N K) (o : Op N K) : Decidable (IdsOk m o) := instDecidableAnd

/-! ## The invariant -/

/-- slot `q` is being made -/
def Pending (s : St N K) (q : Fin N) : Prop := ∃ r st, (s.ptable r).state.life = .active ∧ s.pc r = .make st q

/-- slot `q` is a thread, or soon will be -/
def Shown (s : St N K) (q : Fin N) : Prop := (s.ptable q).IsThread ∨ ∃ r, Opening s r q

structure Identified (m : Ids N K) : Prop where
  kept : Kept (fun _ => True) m.st
  clash : ∀ q q', q ≠ q' → (m.st.ptable q).IsThread → Shown m.st q' → (m.st.ptable q).pid = (m.st.ptable q').pid →
    (m.st.ptable q).threadId ≠ (m.st.ptable q').threadId
  single : ∀ r r' np np', Opening m.st r np → Opening m.st r' np' → (m.st.ptable r).pid = (m.st.ptable r').pid → r = r'
  counted : ∀ q n, Alive m.st (m.st.ptable q).pid → (m.st.ptable q).IsThread → (∀ r, ¬ Opening m.st r q) →
    m.st.census.Live n → (m.st.ptable n).isthread = false → (m.st.ptable n).pid = (m.st.ptable q).pid →
    (m.st.ptable q).threadId ≤ (m.st.ptable n).threadId
  returned : ∀ q, Alive m.st (m.st.ptable q).pid → (m.st.ptable q).IsThread → ¬ Pending m.st q →
    m.returned q = some (m.st.ptable q).threadId

/-! ## What a slot was before the step -/

section Before

variable {odd : Bool → Prop} {s : St N K} {o : Op N K} {p q r np : Fin N} {st : Making} {ok : Bool}

/-- the id of a slot that is not being made changes only in the main slot, which counts -/
theorem makeStep_threadId (hq : q ≠ np) : ((makeStep s p np ok st).ptable q).threadId = (s.ptable q).threadId ∨
    (st = .tcThreadId ∧ (s.ptable np).parent = some q ∧
      ((makeStep s p np ok st).ptable q).threadId = (s.ptable q).threadId + 1) := by
  by_cases hf : st = .forkThreadId
  · subst hf
    left
    simp [makeStep, Table.write_of_ne _ hq]
  by_cases ht : st = .tcThreadId
  · subst ht
    simp only [makeStep, St.goto_ptable, St.write_ptable, St.writeAt_ptable, Table.write_of_ne _ hq]
    cases hpar : (s.ptable np).parent with
    | none => exact .inl rfl
    | some n =>
      by_cases hqn : q = n
      · subst hqn
        exact .inr (by simp [Table.writeAt])
      · exact .inl (by simp [Table.writeAt, Table.write_of_ne _ hqn])
  · exact .inl ((makeStep_untouched s p np q ok st).threadId hf ht)

/-- what a slot in use was before the step -/
inductive Past (s : St N K) (o : Op N K) (q : Fin N) : Prop
  | same (hu : (s.ptable q).state ≠ .unused) (hpid : ((step s o).ptable q).pid = (s.ptable q).pid)
      (hthr : ((step s o).ptable q).isthread = (s.ptable q).isthread)
      (hid : (s.ptable q).isthread = true ∨ ¬ s.census.Live q → ((step s o).ptable q).threadId = (s.ptable q).threadId)
      (hle : (s.ptable q).threadId ≤ ((step s o).ptable q).threadId)
      (hlive : Alive (step s o) (s.ptable q).pid → (step s o).census.Live q → s.census.Live q)
      (hns : ∀ p st, storing s o ≠ some (p, st, q)) : Past s o q
  | stored (p : Fin N) (st : Making) (hs : storing s o = some (p, st, q)) : Past s o q
  | fresh (hemb : ((step s o).ptable q).state.life = .embryo)
      (halone : ∀ q', ((step s o).ptable q').pid = ((step s o).ptable q).pid → q' = q) : Past s o q

/-- only the stores of `fork` and `thread_create` write an id -/
theorem threadId_of_not_storing (hs : storing s o = none) (q : Fin N) :
    ((step s o).ptable q).threadId = (s.ptable q).threadId := by
  cases step_touch s o q with
  | unmarked h => exact h.threadId
  | slept ha h => exact h.threadId
  | killed pid hk hf hst ha hid => exact hid
  | fault c b ho ha hc hst hid => exact hid
  | freed hst hk hid => exact hid
  | stored p np st hstore hk ha hid =>
    rw [hs] at hstore
    cases hstore

theorem census_act (hpc : s.pc p = .make st np) : s.census.act p = .making st np := by
  simp only [St.census, hpc]
  rfl

theorem made_of_storing (h : Kept odd s) (hs : storing s o = some (p, st, np)) : Made s.census p st np := by
  obtain ⟨c, ok, _, hc, hpc, _⟩ := step_storing hs
  exact h.orderly.made p st np (h.life_active hc) (census_act hpc)

theorem active_of_storing (h : Kept odd s) (hs : storing s o = some (p, st, np)) : (s.ptable p).state.life = .active := by
  obtain ⟨c, ok, _, hc, _, _⟩ := step_storing hs
  exact h.life_active hc

/-- the main slot, to which the count belongs, is not a thread -/
theorem parent_not_thread (h : Kept odd s) (hs : storing s o = some (p, .tcThreadId, np))
    (hq : (s.ptable np).parent = some q) :
    (s.ptable q).isthread = false ∧ (s.ptable q).pid = (s.ptable p).pid ∧ s.census.Live q := by
  have hmade := made_of_storing h hs
  have hp := active_of_storing h hs
  obtain ⟨n, hhome, _⟩ := h.orderly.home p hp
  have hmain : s.census.mainOf p = some q := (hmade.parent rfl).symm.trans hq
  have hqn : q = n := by
    unfold Census.mainOf at hmain
    split at hmain
    · rename_i hthr
      exact Option.some.inj (hmain.symm.trans (hhome.thread hthr))
    · rename_i hthr
      rw [← Option.some.inj hmain]
      exact hhome.self (by simpa using hthr)
  rw [hqn]
  exact ⟨hhome.main, hhome.pid, hhome.live⟩

theorem exiting_zombie (h : Kept odd s) {p : Fin N} (hp : p ∈ exiting s o)
    (hpid : ((step s o).ptable q).pid = (s.ptable p).pid) : ((step s o).ptable q).state = .zombie := by
  obtain ⟨c, hc, hstep⟩ := exiting_step hp
  have hv := exitSection_visited s.initproc (parentsWithin h.orderly (h.life_active hc)) q
  have heq : (step s o).ptable q = exitSection s.initproc p s.ptable q := by
    rw [hstep]
    rfl
  rw [heq] at hpid ⊢
  exact hv.dead (hv.pid.symm.trans hpid)

/-- `exit` leaves no slot of its process active -/
theorem not_alive_of_exiting (h : Kept odd s) {p : Fin N} (hp : p ∈ exiting s o) :
    ¬ Alive (step s o) (s.ptable p).pid := by
  rintro ⟨q, hl, hpid⟩
  rw [exiting_zombie h hp hpid] at hl
  cases hl

theorem past (h : Kept odd s) (hq : ((step s o).ptable q).state ≠ .unused) : Past s o q := by
  have hfree : ∀ {x : ProcState}, x ≠ .unused ↔ x.life ≠ .free := by
    intro x
    cases x <;> simp [ProcState.life]
  have halike : storing s o = none → Alike (s.ptable q) ((step s o).ptable q) → Past s o q := by
    intro hs ha
    have hid := threadId_of_not_storing hs q
    refine .same ?_ ha.pid ha.isthread (fun _ => hid) hid.ge (fun _ hl => ?_) (by simp [hs])
    · rw [hfree, ← ha.life]
      exact hfree.1 hq
    · exact hl.imp ha.life.symm.trans ha.life.symm.trans
  cases hs : storing s o with
  | some x =>
    obtain ⟨p, st, np⟩ := x
    by_cases hqn : q = np
    · subst hqn
      exact .stored p st hs
    · obtain ⟨c, ok, rfl, hc, hpc, hstep⟩ := step_storing hs
      have ha : Alike (s.ptable q) ((step s (.exec c ok)).ptable q) := hstep ▸ makeStep_alike hqn
      have hid := hstep ▸ makeStep_threadId (s := s) (p := p) hqn
      refine .same ?_ ha.pid ha.isthread ?_ ?_ (fun _ hl => ?_) ?_
      · rw [hfree, ← ha.life]
        exact hfree.1 hq
      · intro hor
        rcases hid with he | ⟨rfl, hpar, _⟩
        · exact he
        · obtain ⟨hthr, _, hlive⟩ := parent_not_thread h hs hpar
          rcases hor with hor | hor
          · rw [hthr] at hor
            cases hor
          · exact absurd hlive hor
      · rcases hid with he | ⟨_, _, he⟩ <;> omega
      · exact hl.imp ha.life.symm.trans ha.life.symm.trans
      · intro p' st' he
        rw [hs] at he
        cases he
        exact hqn rfl
  | none =>
    have hid := threadId_of_not_storing hs q
    have hdeed := step_deed h.cpus o
    generalize hs' : step s o = s' at hdeed
    cases hdeed with
    | calm _ ha hmoved hglob => exact halike hs (hs' ▸ ha q)
    | alloc p np f he hnp =>
      have htab : (step s o).ptable = s.ptable.write np
          (fun x => { x with state := .embryo, pid := s.nextpid, uid := s.nextpid }) := by
        rw [hs']
        exact (allocproc_some hnp f).1
      by_cases hqn : q = np
      · subst hqn
        refine .fresh (by rw [htab, Table.write_self]; rfl) fun q' hpid => ?_
        by_contra hne
        rw [htab, Table.write_self, Table.write_of_ne _ hne] at hpid
        exact (h.orderly.pid_lt q').ne hpid
      · refine halike hs ?_
        rw [htab, Table.write_of_ne _ hqn]
        exact .refl _
    | make c p np st ok ho hc hpc =>
      rw [ho, storing_exec hc hpc ok] at hs
      cases hs
    | retire _ p he hret hlast hz hpid hpar hthr hpg ha hsame hglob =>
      subst hs'
      by_cases hqp : q = p
      · subst hqp
        obtain ⟨_, c, hc, _⟩ := he
        have hl : (s.ptable q).state.life = .active := h.life_active hc
        refine .same ?_ hpid hthr (fun _ => hid) hid.ge (fun _ _ => .inl hl) (by simp [hs])
        rw [hfree, hl]
        exact Life.noConfusion
      · exact halike hs (ha q hqp)
    | exit c p ok ho hc hpc =>
      have hmem : p ∈ exiting s o := ho ▸ mem_exiting hc hpc
      have hl := h.life_active hc
      have hv := exitSection_visited s.initproc (parentsWithin h.orderly hl) q
      have heq : (step s o).ptable q = exitSection s.initproc p s.ptable q := by
        rw [hs']
        rfl
      have hu : (s.ptable q).state ≠ .unused := by
        intro hu
        have hne : (s.ptable q).pid ≠ (s.ptable p).pid := by
          refine h.orderly.free_pid_ne (q := q) (p := p) ?_ ?_
          · show (s.ptable q).state.life = .free
            rw [hu]
            rfl
          · show (s.ptable p).state.life ≠ .free
            rw [hl]
            exact Life.noConfusion
        rcases hv.state hne with he | ⟨he, _⟩
        · exact hq (by rw [heq, he, hu])
        · rw [hu] at he
          cases he
      refine .same hu (heq ▸ hv.pid) (heq ▸ hv.isthread) (fun _ => hid) hid.ge ?_ (by simp [hs])
      intro halive hlive
      by_cases hpid : (s.ptable q).pid = (s.ptable p).pid
      · rw [hpid] at halive
        exact absurd halive (not_alive_of_exiting h hmem)
      · have hlife : ((step s o).ptable q).state.life = (s.ptable q).state.life := by
          rw [hs']
          exact exitLocked_alike h hl hpid
        exact hlive.imp hlife.symm.trans hlife.symm.trans
    | reap _ p X hw hX hfound hfreed ha hmoved hinit hnext hlist =>
      subst hs'
      by_cases hpid : (s.ptable q).pid = X
      · exact absurd (hfreed q hpid).state hq
      · exact halike hs (ha q hpid)

/-- an active slot keeps its pid -/
theorem pid_of_active (h : Kept odd s) (hl : (s.ptable q).state.life = .active)
    (hl' : ((step s o).ptable q).state.life = .active) : ((step s o).ptable q).pid = (s.ptable q).pid := by
  have hu : ((step s o).ptable q).state ≠ .unused := by
    intro hu
    rw [hu] at hl'
    cases hl'
  cases past h hu with
  | same _ hpid => exact hpid
  | stored p st hs =>
    have hemb : (s.ptable q).state.life = .embryo := (made_of_storing h hs).embryo
    rw [hl] at hemb
    cases hemb
  | fresh hemb =>
    rw [hl'] at hemb
    cases hemb

/-- a process that is still in `fork` or `thread_create` stays there, as long as its process runs -/
theorem maker_stays (h : Kept odd s) (hl : (s.ptable r).state.life = .active) (hpc : s.pc r = .make st np)
    (hns : storing s o ≠ some (r, st, np)) (halive : Alive (step s o) (s.ptable r).pid) :
    ((step s o).ptable r).state.life = .active ∧ (step s o).pc r = .make st np := by
  have hact : r ∉ acting s o := by
    intro hr
    rcases acting_cases hr with hu | ⟨c, ok, rfl, hc⟩
    · rw [hpc] at hu
      cases hu
    · exact hns (storing_exec hc hpc ok)
  have hkill : ¬ Killed s o r := by
    rintro (⟨p, hp, _, hpid⟩ | ⟨hX, p, hw, hfound⟩)
    · rw [hpid] at halive
      exact not_alive_of_exiting h hp halive
    · obtain ⟨n, hn, hpid⟩ := exists_of_waitFound (hfound ▸ hX)
      rcases h.reaped_slot hn (q := r) (by rw [hpid, hfound]) with hz | ⟨_, hleave, _⟩
      · rw [hz] at hl
        cases hl
      · rw [census_act hpc] at hleave
        cases hleave
  have hidle : s.pc r = .user ∨ (s.pc r).act ≠ .idle := by
    right
    rw [hpc]
    exact nofun
  obtain ⟨hl', hpc', _⟩ := busy_stays h hl hidle hact hkill
  exact ⟨hl', hpc'.trans hpc⟩

/-- the process of a thread was running before -/
theorem alive_before (h : Kept odd s) (hq : ((step s o).ptable q).IsThread)
    (halive : Alive (step s o) ((step s o).ptable q).pid) : Alive s ((step s o).ptable q).pid := by
  obtain ⟨p, hl, hpid⟩ := halive
  rcases active_before h hl with hold | hpub
  · exact ⟨p, hold, (pid_of_active h hold hl).symm.trans hpid⟩
  · obtain ⟨r, st, hs, hst⟩ := storing_of_published hpub
    obtain ⟨c, ok, rfl, hc, hpc, hstep⟩ := step_storing hs
    have hmade := made_of_storing h hs
    have hslot : (step s (.exec c ok)).ptable p = { s.ptable p with state := .runnable } := by
      rw [hstep]
      rcases hst with rfl | rfl <;> simp [makeStep]
    rcases hst with rfl | rfl
    · -- the new process of `fork` has one slot, and that is not a thread
      exfalso
      have hqp : q = p := by
        by_contra hne
        have hpq : ((step s (.exec c ok)).ptable q).pid = (s.ptable q).pid := by
          rw [hstep]
          exact (makeStep_alike hne).pid
        rw [hslot, hpq] at hpid
        exact hne (hmade.fresh rfl q hpid.symm)
      have hthr := hq.2
      rw [hqp, hslot] at hthr
      exact Bool.noConfusion (hthr.symm.trans (hmade.isthread rfl))
    · refine ⟨r, h.life_active hc, ?_⟩
      rw [hslot] at hpid
      exact (hmade.pid rfl).symm.trans hpid

/-- with the pid of its process a slot being made is one that shows an old id, or has its own -/
theorem opening_or_run (hj : st.joined = true) : st.opening = true ∨ st = .tcRun := by
  cases st <;> simp_all [Making.joined, Making.opening]

theorem joined_of_opening (ho : st.opening = true) : st.joined = true ∧ st ≠ .tcRun := by
  simpa [Making.opening] using ho

theorem pc_opening (hpc : s.pc r = .make st np) (ho : st.opening = true) : (s.pc r).opening = some np := by
  rw [hpc, Pc.opening, if_pos ho]

theorem Opening.pid (h : Kept odd s) (ho : Opening s r np) : (s.ptable np).pid = (s.ptable r).pid := by
  obtain ⟨hl, st, hpc, hst⟩ := ho
  exact (h.orderly.made r st np hl (census_act hpc)).pid (joined_of_opening hst).1

theorem Opening.embryo (h : Kept odd s) (ho : Opening s r np) : (s.ptable np).state.life = .embryo := by
  obtain ⟨hl, st, hpc, _⟩ := ho
  exact life_eq_embryo h hl hpc

/-- a slot that is being opened now was before, or gets its pid in this step -/
theorem opening_before (h : Kept odd s) (ho : Opening (step s o) r np) :
    Opening s r np ∨ storing s o = some (r, .tcPid, np) := by
  obtain ⟨hl, st, hpc, hst⟩ := ho
  rcases maker_before h hl hpc with ⟨hl', hpc', _⟩ | ⟨st', hs, rfl, _⟩ | ⟨f, rfl, _⟩
  · exact .inl ⟨hl', st, hpc', hst⟩
  · by_cases hpid : st' = .tcPid
    · subst hpid
      exact .inr hs
    · obtain ⟨c, ok, _, hc, hpc', _⟩ := step_storing hs
      refine .inl ⟨h.life_active hc, st', hpc', ?_⟩
      -- the store before one of this part, apart from that of the pid, belongs to this part
      cases st' with
      | waitingFor f => cases f <;> cases hst
      | tcPid => exact absurd rfl hpid
      | tcPgdir | tcParent | tcCount | tcIsthread | tcIsjoined => rfl
      | kstack | queuePos | threadnum | forkPgdir | forkParent | forkThreadId | forkIsthread | forkIsjoined | forkRun
      | tcThreadId | tcRun => cases hst
  · cases hst

/-- a slot that is being opened stays so, as long as its process runs and no store into it is made -/
theorem opening_stays (h : Kept odd s) (ho : Opening s r np) (hns : ∀ p st, storing s o ≠ some (p, st, np))
    (halive : Alive (step s o) (s.ptable np).pid) : Opening (step s o) r np := by
  rw [ho.pid h] at halive
  obtain ⟨hl, st, hpc, hst⟩ := ho
  obtain ⟨hl', hpc'⟩ := maker_stays h hl hpc (hns r st) halive
  exact ⟨hl', st, hpc', hst⟩

/-- after a store of this part, but the last, the slot is still in it -/
theorem opening_next (h : Kept odd s) (hs : storing s o = some (p, st, np)) (hst : st.next.opening = true) :
    Opening (step s o) p np := by
  have hemb := (made_of_storing h hs).embryo
  have hl := active_of_storing h hs
  have hne : p ≠ np := by
    rintro rfl
    exact Life.noConfusion (hl.symm.trans hemb)
  obtain ⟨c, ok, rfl, hc, hpc, hstep⟩ := step_storing hs
  rw [hstep]
  refine ⟨(makeStep_alike hne).life.trans hl, st.next, ?_, hst⟩
  cases st with
  | waitingFor f => cases f <;> simp [makeStep, Making.next]
  | kstack | forkPgdir | forkRun | tcRun => cases hst
  | queuePos | threadnum | forkParent | forkThreadId | forkIsthread | forkIsjoined | tcPid | tcPgdir | tcParent | tcCount
  | tcIsthread | tcIsjoined | tcThreadId => simp [makeStep, Making.next]

/-- the last store of this part: the main slot counts, and the new thread gets the count -/
theorem tcThreadId_slot (h : Kept odd s) (hs : storing s o = some (p, .tcThreadId, np)) :
    ∃ n, (s.ptable np).parent = some n ∧ ((step s o).ptable np).threadId = (s.ptable n).threadId + 1 ∧
      ((step s o).ptable n).threadId = (s.ptable n).threadId + 1 := by
  have hmade := made_of_storing h hs
  have hl := active_of_storing h hs
  obtain ⟨n, hhome, _⟩ := h.orderly.home p hl
  have hpar : (s.ptable np).parent = some n := by
    have hmain : s.census.mainOf p = some n := by
      unfold Census.mainOf
      split
      · rename_i hthr
        exact hhome.thread hthr
      · rename_i hthr
        rw [hhome.self (by simpa using hthr)]
    exact (hmade.parent rfl).trans hmain
  have hne : n ≠ np := by
    rintro rfl
    have hemb : s.census.life n = .embryo := hmade.embryo
    rcases hhome.live with hx | hx <;> rw [hemb] at hx <;> cases hx
  obtain ⟨c, ok, rfl, hc, hpc, hstep⟩ := step_storing hs
  refine ⟨n, hpar, ?_, ?_⟩
  · simp [hstep, makeStep, hpar, Table.writeAt, Table.write_of_ne _ hne.symm]
  · simp [hstep, makeStep, hpar, Table.writeAt, Table.write_of_ne _ hne]

/-- a new slot with a pid of its own is the only one with it -/
theorem alone_of_stored (h : Kept odd s) (hs : storing s o = some (p, st, np)) (hj : st.joined = false)
    (hst : st ≠ .tcPid) (hq : (s.ptable q).pid = ((step s o).ptable np).pid) : q = np := by
  have hmade := made_of_storing h hs
  obtain ⟨c, ok, rfl, hc, hpc, hstep⟩ := step_storing hs
  rw [hstep, (makeStep_untouched ..).pid hst] at hq
  exact hmade.fresh hj q hq

theorem stored_pid (h : Kept odd s) (hs : storing s o = some (p, st, np)) (hj : st.joined = true ∨ st = .tcPid) :
    ((step s o).ptable np).pid = (s.ptable p).pid := by
  have hmade := made_of_storing h hs
  obtain ⟨c, ok, rfl, hc, hpc, hstep⟩ := step_storing hs
  rw [hstep]
  by_cases hst : st = .tcPid
  · subst hst
    simp [makeStep]
  · rw [(makeStep_untouched ..).pid hst]
    exact hmade.pid (hj.resolve_right hst)

theorem stored_threadId (hs : storing s o = some (p, st, np)) (hf : st ≠ .forkThreadId) (ht : st ≠ .tcThreadId) :
    ((step s o).ptable q).threadId = (s.ptable q).threadId := by
  obtain ⟨c, ok, rfl, hc, hpc, hstep⟩ := step_storing hs
  rw [hstep]
  exact (makeStep_untouched s p np q ok st).threadId hf ht

end Before

/-! ## One step -/

section Step

variable {m : Ids N K} {o : Op N K} {p q q' r np : Fin N} {st : Making}

/-- a slot that no store was made into shows what it showed before -/
theorem shown_before (hm : Identified m) (hq : Shown (step m.st o) q) (hns : ∀ p st, storing m.st o ≠ some (p, st, q))
    (hu : (m.st.ptable q).state ≠ .unused) (hthr : ((step m.st o).ptable q).isthread = (m.st.ptable q).isthread) :
    Shown m.st q := by
  rcases hq with hq | ⟨r, hr⟩
  · exact .inl ⟨hu, hthr.symm.trans hq.2⟩
  · exact .inr ⟨r, (opening_before hm.kept hr).resolve_right (hns r .tcPid)⟩

/-- a slot that shows an id keeps it, unless a store is made into it -/
theorem shown_live (hm : Identified m) (hq : Shown m.st q) : (m.st.ptable q).isthread = true ∨ ¬ m.st.census.Live q := by
  rcases hq with hq | ⟨r, hr⟩
  · exact .inl hq.2
  · right
    have hemb : m.st.census.life q = .embryo := hr.embryo hm.kept
    rintro (hl | hl) <;> rw [hemb] at hl <;> cases hl

variable (hm : Identified m) (hok : IdsOk m o)

include hm hok

/-- two makers of one process are not in this part of `thread_create` at once -/
theorem step_single {r' np' : Fin N} (h : Opening (step m.st o) r np) (h' : Opening (step m.st o) r' np')
    (hpid : ((step m.st o).ptable r).pid = ((step m.st o).ptable r').pid) : r = r' := by
  -- one that has just stored the pid was alone
  have hfirst : ∀ {a b na nb : Fin N}, storing m.st o = some (a, .tcPid, na) → Opening m.st b nb →
      (m.st.ptable a).pid = (m.st.ptable b).pid → a = b := by
    intro a b na nb hs hb hab
    by_contra hne
    obtain ⟨hl, st, hpc, hst⟩ := hb
    have hnone := (hok.2.1 _ hs rfl).1 b (Ne.symm hne) hl hab.symm
    rw [pc_opening hpc hst] at hnone
    cases hnone
  have hlr : (m.st.ptable r).state.life = .active := by
    rcases opening_before hm.kept h with ho | hs
    · exact ho.1
    · exact active_of_storing hm.kept hs
  have hlr' : (m.st.ptable r').state.life = .active := by
    rcases opening_before hm.kept h' with ho | hs
    · exact ho.1
    · exact active_of_storing hm.kept hs
  rw [pid_of_active hm.kept hlr h.1, pid_of_active hm.kept hlr' h'.1] at hpid
  rcases opening_before hm.kept h with ho | hs
  · rcases opening_before hm.kept h' with ho' | hs'
    · exact hm.single r r' np np' ho ho' hpid
    · exact (hfirst hs' ho hpid.symm).symm
  · rcases opening_before hm.kept h' with ho' | hs'
    · exact hfirst hs ho' hpid
    · rw [hs] at hs'
      cases hs'
      rfl

omit hok in
/-- the id stored last is larger than that of every thread of the process -/
theorem new_id_ne (hs : storing m.st o = some (p, .tcThreadId, np)) (hq : (m.st.ptable q).IsThread) (hne : q ≠ np)
    (hpid : (m.st.ptable q).pid = (m.st.ptable p).pid) :
    ((step m.st o).ptable np).threadId ≠ (m.st.ptable q).threadId := by
  obtain ⟨n, hpar, hnew, _⟩ := tcThreadId_slot hm.kept hs
  obtain ⟨hmain, hnp, hlive⟩ := parent_not_thread hm.kept hs hpar
  have hl := active_of_storing hm.kept hs
  obtain ⟨c, ok, _, hc, hpc, _⟩ := step_storing hs
  have hself : Opening m.st p np := ⟨hl, .tcThreadId, hpc, rfl⟩
  have hclosed : ∀ r, ¬ Opening m.st r q := by
    intro r hr
    obtain rfl : r = p := hm.single r p q np hr hself ((hr.pid hm.kept).symm.trans hpid)
    obtain ⟨_, st, hpc', _⟩ := hr
    rw [hpc] at hpc'
    cases hpc'
    exact hne rfl
  have hle := hm.counted q n ⟨p, hl, hpid.symm⟩ hq hclosed hlive hmain (hnp.trans hpid.symm)
  omega

/-- a slot that a store was made into shows another id than any other of the process -/
theorem stored_ne (hs : storing m.st o = some (p, st, np)) (hq : Shown m.st q) (hne : q ≠ np)
    (hpid : (m.st.ptable q).pid = ((step m.st o).ptable np).pid) :
    ((step m.st o).ptable np).threadId ≠ (m.st.ptable q).threadId := by
  have hmade := made_of_storing hm.kept hs
  have hl := active_of_storing hm.kept hs
  obtain ⟨c, ok, _, hc, hpc, _⟩ := step_storing hs
  have hemb : (m.st.ptable np).state ≠ .unused := by
    intro hu
    have hx : (m.st.ptable np).state.life = .embryo := hmade.embryo
    rw [hu] at hx
    cases hx
  by_cases hst : st = .tcPid
  · subst hst
    rw [stored_threadId hs nofun nofun]
    rw [stored_pid hm.kept hs (.inr rfl)] at hpid
    obtain ⟨hsingle, hid⟩ := hok.2.1 _ hs rfl
    rcases hq with hq | ⟨r, hr⟩
    · exact (hid q hne hq hpid).symm
    · exfalso
      have hrp : r ≠ p := by
        rintro rfl
        obtain ⟨_, st', hpc', hst'⟩ := hr
        rw [hpc] at hpc'
        cases hpc'
        cases hst'
      obtain ⟨hlr, st', hpc', hst'⟩ := hr
      have hnone := hsingle r hrp hlr ((Opening.pid hm.kept ⟨hlr, st', hpc', hst'⟩).symm.trans hpid)
      rw [pc_opening hpc' hst'] at hnone
      cases hnone
  by_cases hj : st.joined = true
  · rw [stored_pid hm.kept hs (.inl hj)] at hpid
    have hnpid : (m.st.ptable np).pid = (m.st.ptable p).pid := hmade.pid hj
    rcases opening_or_run hj with hopen | rfl
    · have hself : Opening m.st p np := ⟨hl, st, hpc, hopen⟩
      -- the other slot is a thread: nobody else is in this part
      have hthread : (m.st.ptable q).IsThread := by
        rcases hq with hq | ⟨r, hr⟩
        · exact hq
        · obtain rfl : r = p := hm.single r p q np hr hself ((hr.pid hm.kept).symm.trans hpid)
          obtain ⟨_, st', hpc', _⟩ := hr
          rw [hpc] at hpc'
          cases hpc'
          exact absurd rfl hne
      by_cases hid : st = .tcThreadId
      · subst hid
        exact new_id_ne hm hs hthread hne hpid
      · rw [stored_threadId hs (by rintro rfl; cases hj) hid]
        exact (hm.clash q np hne hthread (.inr ⟨p, hself⟩) (hpid.trans hnpid.symm)).symm
    · rw [stored_threadId hs nofun nofun]
      have hthread : (m.st.ptable np).IsThread := ⟨hemb, hmade.isthread rfl⟩
      exact hm.clash np q hne.symm hthread hq (hnpid.trans hpid.symm)
  · exact absurd (alone_of_stored hm.kept hs (by simpa using hj) hst hpid) hne

theorem step_clash (hne : q ≠ q') (hq : ((step m.st o).ptable q).IsThread) (hq' : Shown (step m.st o) q')
    (hk : Kept (fun _ => True) (step m.st o))
    (hpid : ((step m.st o).ptable q).pid = ((step m.st o).ptable q').pid) :
    ((step m.st o).ptable q).threadId ≠ ((step m.st o).ptable q').threadId := by
  have hu' : ((step m.st o).ptable q').state ≠ .unused := by
    rcases hq' with h | ⟨r, h⟩
    · exact h.1
    · intro hu
      have hemb := h.embryo hk
      rw [hu] at hemb
      cases hemb
  cases past hm.kept hq.1 with
  | same hu hp hthr hid hle hlive hns =>
    have hthread : (m.st.ptable q).IsThread := ⟨hu, hthr.symm.trans hq.2⟩
    rw [hid (.inl hthread.2)]
    cases past hm.kept hu' with
    | same hu₂ hp₂ hthr₂ hid₂ hle₂ hlive₂ hns₂ =>
      have hshown := shown_before hm hq' hns₂ hu₂ hthr₂
      rw [hid₂ (shown_live hm hshown)]
      rw [hp, hp₂] at hpid
      exact hm.clash q q' hne hthread hshown hpid
    | stored p st hs =>
      exact (stored_ne hm hok hs (.inl hthread) hne (hp.symm.trans hpid)).symm
    | fresh hemb halone => exact absurd (halone q hpid) hne
  | stored p st hs =>
    cases past hm.kept hu' with
    | same hu₂ hp₂ hthr₂ hid₂ hle₂ hlive₂ hns₂ =>
      have hshown := shown_before hm hq' hns₂ hu₂ hthr₂
      rw [hid₂ (shown_live hm hshown)]
      exact stored_ne hm hok hs hshown hne.symm (hp₂.symm.trans hpid.symm)
    | stored p' st' hs' =>
      rw [hs] at hs'
      cases hs'
      exact absurd rfl hne
    | fresh hemb halone => exact absurd (halone q hpid) hne
  | fresh hemb halone => exact absurd (halone q' hpid.symm).symm hne

omit hok in
/-- a main slot was one before, and its count has not gone down -/
theorem main_before {n : Fin N} (hlive : (step m.st o).census.Live n) (hn : ((step m.st o).ptable n).isthread = false)
    (hne : q ≠ n) (hu : ((step m.st o).ptable q).state ≠ .unused)
    (hpid : ((step m.st o).ptable n).pid = ((step m.st o).ptable q).pid)
    (halive : Alive (step m.st o) ((step m.st o).ptable q).pid) :
    m.st.census.Live n ∧ (m.st.ptable n).isthread = false ∧ (m.st.ptable n).pid = ((step m.st o).ptable q).pid ∧
      (m.st.ptable n).threadId ≤ ((step m.st o).ptable n).threadId := by
  have hun : ((step m.st o).ptable n).state ≠ .unused := by
    intro hx
    have hfree : (step m.st o).census.life n = .free := by
      simp only [St.census, hx]
      rfl
    rcases hlive with hl | hl <;> rw [hfree] at hl <;> cases hl
  cases past hm.kept hun with
  | same hu₂ hp hthr hid hle hback hns =>
    have hn' : (m.st.ptable n).pid = ((step m.st o).ptable q).pid := hp.symm.trans hpid
    exact ⟨hback (hn' ▸ halive) hlive, hthr.symm.trans hn, hn', hle⟩
  | stored p st hs =>
    -- a slot that has just been made is the child of `fork`, which is alone, or a thread
    exfalso
    have hmade := made_of_storing hm.kept hs
    obtain ⟨c, ok, rfl, hc, hpc, hstep⟩ := step_storing hs
    have hl' : ((makeStep m.st p n ok st).ptable n).state.life = .active ∨
        ((makeStep m.st p n ok st).ptable n).state.life = .zombie := hstep ▸ hlive
    obtain ⟨hst, hslot, _⟩ := makeStep_publish hmade.embryo hl'
    rcases hst with rfl | rfl
    · cases past hm.kept hu with
      | same hu₂ hp hthr hid hle hback hns =>
        exact hne (alone_of_stored hm.kept hs rfl (by intro h; cases h) (hp.symm.trans hpid.symm))
      | stored p' st' hs' =>
        rw [hs] at hs'
        cases hs'
        exact hne rfl
      | fresh hemb halone => exact hne (halone n hpid).symm
    · rw [hstep, hslot] at hn
      exact Bool.noConfusion (hn.symm.trans (hmade.isthread rfl))
  | fresh hemb halone => exact absurd (halone q hpid.symm) hne

omit hok in
theorem step_ids_counted {n : Fin N} (halive : Alive (step m.st o) ((step m.st o).ptable q).pid)
    (hq : ((step m.st o).ptable q).IsThread) (hclosed : ∀ r, ¬ Opening (step m.st o) r q)
    (hlive : (step m.st o).census.Live n) (hn : ((step m.st o).ptable n).isthread = false)
    (hpid : ((step m.st o).ptable n).pid = ((step m.st o).ptable q).pid) :
    ((step m.st o).ptable q).threadId ≤ ((step m.st o).ptable n).threadId := by
  have hne : q ≠ n := by
    rintro rfl
    exact Bool.noConfusion (hn.symm.trans hq.2)
  have hbefore := alive_before hm.kept hq halive
  obtain ⟨hlive₁, hn₁, hpid₁, hle⟩ := main_before hm hlive hn hne hq.1 hpid halive
  cases past hm.kept hq.1 with
  | same hu hp hthr hid _ _ hns =>
    rw [hp] at hbefore hpid₁ halive
    have hthread : (m.st.ptable q).IsThread := ⟨hu, hthr.symm.trans hq.2⟩
    have hclosed₁ : ∀ r, ¬ Opening m.st r q := fun r hr => hclosed r (opening_stays hm.kept hr hns halive)
    have hcount := hm.counted q n hbefore hthread hclosed₁ hlive₁ hn₁ hpid₁
    rw [hid (.inl hthread.2)]
    exact hcount.trans hle
  | stored p st hs =>
    have hmade := made_of_storing hm.kept hs
    have hl := active_of_storing hm.kept hs
    by_cases hid : st = .tcThreadId
    · -- the new thread has the count itself, and the process has one main slot
      subst hid
      obtain ⟨n', hpar, hnew, hcount⟩ := tcThreadId_slot hm.kept hs
      obtain ⟨hmain, hnp, hlive'⟩ := parent_not_thread hm.kept hs hpar
      obtain ⟨a, hhome, _⟩ := hm.kept.orderly.home p hl
      have hpp := stored_pid hm.kept hs (.inl rfl)
      obtain rfl : n' = a := hhome.unique n' hlive' hnp hmain
      obtain rfl : n = n' := hhome.unique n hlive₁ (hpid₁.trans hpp) hn₁
      rw [hnew, hcount]
    by_cases hrun : st = .tcRun
    · subst hrun
      have hemb : (m.st.ptable q).state ≠ .unused := by
        intro hu
        have hx : (m.st.ptable q).state.life = .embryo := hmade.embryo
        rw [hu] at hx
        cases hx
      have hpp : ((step m.st o).ptable q).pid = (m.st.ptable q).pid :=
        (stored_pid hm.kept hs (.inl rfl)).trans (hmade.pid rfl).symm
      rw [hpp] at hbefore hpid₁
      obtain ⟨c, ok, _, hc, hpc, _⟩ := step_storing hs
      have hclosed₁ : ∀ r, ¬ Opening m.st r q := by
        rintro r ⟨hlr, st', hpc', hst'⟩
        obtain rfl := hm.kept.one_maker hlr hl hpc' hpc
        rw [hpc] at hpc'
        cases hpc'
        cases hst'
      have hcount := hm.counted q n hbefore ⟨hemb, hmade.isthread rfl⟩ hclosed₁ hlive₁ hn₁ hpid₁
      rw [stored_threadId hs nofun nofun]
      exact hcount.trans hle
    · by_cases hst : st.next.opening = true
      · exact absurd (opening_next hm.kept hs hst) (hclosed p)
      · -- the slot has a pid of its own
        have hj : st.joined = false ∧ st ≠ .tcPid := by
          cases st with
          | tcThreadId => exact absurd rfl hid
          | tcRun => exact absurd rfl hrun
          | tcPid | tcPgdir | tcParent | tcCount | tcIsthread | tcIsjoined => exact absurd rfl hst
          | _ => exact ⟨rfl, nofun⟩
        exact absurd (alone_of_stored hm.kept hs hj.1 hj.2 hpid₁).symm hne
  | fresh hemb halone => exact absurd (halone n hpid).symm hne

omit hok in
/-- a store into a slot leaves it in the making, unless it was the last or an allocation failed -/
theorem pending_next (hs : storing m.st o = some (p, st, np)) (hu : ((step m.st o).ptable np).state ≠ .unused)
    (hf : st ≠ .forkRun) (ht : st ≠ .tcRun) : Pending (step m.st o) np := by
  have hemb := (made_of_storing hm.kept hs).embryo
  have hl := active_of_storing hm.kept hs
  have hne : p ≠ np := by
    rintro rfl
    exact Life.noConfusion (hl.symm.trans hemb)
  obtain ⟨c, ok, rfl, hc, hpc, hstep⟩ := step_storing hs
  rw [hstep] at hu ⊢
  refine ⟨p, st.next, (makeStep_alike hne).life.trans hl, ?_⟩
  cases st with
  | waitingFor f => cases f <;> simp [makeStep, Making.next]
  | kstack | forkPgdir => cases ok <;> simp_all [makeStep, Making.next]
  | forkRun => exact absurd rfl hf
  | tcRun => exact absurd rfl ht
  | queuePos | threadnum | forkParent | forkThreadId | forkIsthread | forkIsjoined | tcPid | tcPgdir | tcParent | tcCount
  | tcIsthread | tcIsjoined | tcThreadId => simp [makeStep, Making.next]

omit hm hok in
/-- only the return of `thread_create` is recorded -/
theorem returned_of_not_stored (hns : ∀ p st, storing m.st o ≠ some (p, st, q)) :
    (m.step o).returned q = m.returned q := by
  cases hs : storing m.st o with
  | none => simp only [Ids.step, hs]
  | some x =>
    obtain ⟨p, st, np⟩ := x
    have hne : q ≠ np := by
      rintro rfl
      exact hns p st hs
    cases st <;> simp only [Ids.step, hs, Function.update_of_ne hne]

omit hok in
theorem step_returned (halive : Alive (step m.st o) ((step m.st o).ptable q).pid)
    (hq : ((step m.st o).ptable q).IsThread) (hmade : ¬ Pending (step m.st o) q) :
    (m.step o).returned q = some ((step m.st o).ptable q).threadId := by
  have hbefore := alive_before hm.kept hq halive
  cases past hm.kept hq.1 with
  | same hu hp hthr hid hle hback hns =>
    have hsame := returned_of_not_stored hns
    rw [hp] at hbefore halive
    have hthread : (m.st.ptable q).IsThread := ⟨hu, hthr.symm.trans hq.2⟩
    have hsettled : ¬ Pending m.st q := by
      rintro ⟨r, st, hl, hpc⟩
      have hrq := hm.kept.orderly.made r st q hl (census_act hpc)
      have hpid : (m.st.ptable r).pid = (m.st.ptable q).pid := by
        by_cases hj : st.joined = true
        · exact (hrq.pid hj).symm
        · -- a slot with a pid of its own is no running process
          obtain ⟨a, hla, hpa⟩ := hbefore
          obtain rfl := hrq.fresh (by simpa using hj) a hpa
          exact Life.noConfusion (hla.symm.trans hrq.embryo)
      obtain ⟨hl', hpc'⟩ := maker_stays hm.kept hl hpc (hns r st) (hpid ▸ halive)
      exact hmade ⟨r, st, hl', hpc'⟩
    rw [hsame, hid (.inl hthread.2)]
    exact hm.returned q hbefore hthread hsettled
  | stored p st hs =>
    have hrun : st = .tcRun := by
      by_contra ht
      by_cases hf : st = .forkRun
      · subst hf
        have hx := (made_of_storing hm.kept hs).isthread rfl
        obtain ⟨c, ok, rfl, hc, hpc, hstep⟩ := step_storing hs
        have hthr := hq.2
        rw [hstep] at hthr
        simp only [makeStep, St.sysret_ptable, St.goto_ptable, St.write_ptable, Table.write_self] at hthr
        exact Bool.noConfusion (hthr.symm.trans hx)
      · exact hmade (pending_next hm hs hq.1 hf ht)
    subst hrun
    obtain ⟨c, ok, rfl, hc, hpc, hstep⟩ := step_storing hs
    simp only [Ids.step, hs, Function.update_self, hstep, makeStep]
    simp
  | fresh hemb halone =>
    obtain ⟨a, hla, hpa⟩ := halive
    obtain rfl := halone a hpa
    exact Life.noConfusion (hla.symm.trans hemb)

theorem step_identified : Identified (m.step o) :=
  have hk := step_kept hm.kept hok.1 fun _ _ => trivial
  { kept := hk
    clash := fun _ _ hne hq hq' hpid => step_clash hm hok hne hq hq' hk hpid
    single := fun _ _ _ _ h h' hpid => step_single hm hok h h' hpid
    counted := fun _ _ halive hq hclosed hlive hn hpid => step_ids_counted hm halive hq hclosed hlive hn hpid
    returned := fun _ halive hq hmade => step_returned hm halive hq hmade }

end Step

/-! ## Runs -/

theorem idsBoot_identified [NeZero N] : Identified (idsBoot N K) := by
  have hnone : ∀ q, ¬ ((idsBoot N K).st.ptable q).IsThread := by
    intro q hq
    have hthr := hq.2
    by_cases h0 : q = 0
    · simp [idsBoot, boot, h0, freeSlot] at hthr
    · simp [idsBoot, boot, h0, freeSlot] at hthr
  refine ⟨boot_kept, fun q _ _ hq => absurd hq (hnone q), ?_, fun q _ _ hq => absurd hq (hnone q),
    fun q _ hq => absurd hq (hnone q)⟩
  rintro r r' np np' ⟨_, st, hpc, _⟩
  cases hpc

/-- **Thread ids identify threads.** In every run of steps that are `IdsOk`, no two slots in use that have the same pid and
are threads have the same id, and `thread_join` finds the thread for which `thread_create` returned the id it is called
with, or is about to. -/
theorem thread_ids_distinct [NeZero N] (ops : List (Op N K)) (h : Along Ids.step IdsOk (idsBoot N K) ops) :
    let m := run Ids.step (idsBoot N K) ops
    (∀ q q', q ≠ q' → (m.st.ptable q).IsThread → (m.st.ptable q').IsThread → (m.st.ptable q).pid = (m.st.ptable q').pid →
      (m.st.ptable q).threadId ≠ (m.st.ptable q').threadId) ∧
    ∀ c tid p t, IdsOk m (.call c (.threadJoin tid)) → joining m.st (.call c (.threadJoin tid)) = some (p, t) →
      m.returned t = some tid ∨
        ∃ r, m.st.pc r = .make .tcRun t ∧ ∀ ok, (makeStep m.st r t ok .tcRun).eax r = tid := by
  intro m
  have hm : Identified m := h.inv (fun m o ho hm => step_identified hm ho) idsBoot_identified
  refine ⟨fun q q' hne hq hq' hpid => hm.clash q q' hne hq (.inl hq') hpid, ?_⟩
  intro c tid p t hok hj
  simp only [joining, Option.bind_eq_some_iff, Option.ite_none_right_eq_some, Option.map_eq_some_iff] at hj
  obtain ⟨p', hc, hu, t', hfind, he⟩ := hj
  cases he
  have hmatch := List.find?_some hfind
  obtain ⟨hpid, hthr, hid, hne⟩ : (m.st.ptable t).pid = (m.st.ptable p).pid ∧ (m.st.ptable t).isthread = true ∧
      (m.st.ptable t).threadId = tid ∧ t ≠ p := by simpa using hmatch
  have hlp := hm.kept.life_active hc
  have halive : Alive m.st (m.st.ptable t).pid := ⟨p, hlp, hpid.symm⟩
  have hused : (m.st.ptable t).state ≠ .unused := by
    intro hx
    refine hm.kept.orderly.free_pid_ne (q := t) (p := p) ?_ ?_ hpid
    · show (m.st.ptable t).state.life = .free
      rw [hx]
      rfl
    · show (m.st.ptable p).state.life ≠ .free
      rw [hlp]
      exact Life.noConfusion
  by_cases hpend : Pending m.st t
  · right
    obtain ⟨r, st, hl, hpc⟩ := hpend
    have hmade := hm.kept.orderly.made r st t hl (census_act hpc)
    have hj : st.joined = true := by
      by_contra hj
      exact hne (hmade.fresh (by simpa using hj) p hpid.symm).symm
    rcases opening_or_run hj with hopen | rfl
    · exfalso
      have hjoin : joining m.st (.call c (.threadJoin tid)) = some (p, t) := by
        simp [joining, hc, hu, hfind]
      exact hok.2.2 t (by simp [hjoin]) r hl (pc_opening hpc hopen)
    · refine ⟨r, hpc, fun ok => ?_⟩
      simp [makeStep, hid]
  · left
    rw [hm.returned t halive ⟨hused, hthr⟩ hpend, hid]

/-- a process with a thread: init forks a child, and the child makes a thread -/
def oneThread : List (Op 64 1) := List.flatten
  [[.dispatch 0 0, .call 0 .fork], List.replicate 10 (.exec 0 true), [.preempt 0, .dispatch 0 1, .call 0 .threadCreate],
    List.replicate 12 (.exec 0 true)]

/-- the theorem at that run: `thread_join(1)` finds the thread for which `thread_create` returned 1 -/
theorem thread_ids_one :
    (run Ids.step (idsBoot 64 1) oneThread).returned 2 = some 1 := by
  have h := (thread_ids_distinct oneThread (by decide +kernel)).2 0 1 1 2 (by decide +kernel) (by decide +kernel)
  rcases h with h | ⟨r, hr, _⟩
  · exact h
  · exfalso
    revert r
    decide +kernel

/-- the thread and the main thread of the child both call `thread_create`, and the timer takes the CPU from each before
it has stored the id -/
def twoOpening : List (Op 64 1) := oneThread ++ List.flatten
  [[.call 0 .threadCreate], List.replicate 10 (.exec 0 true), [.preempt 0, .dispatch 0 2, .call 0 .threadCreate],
    List.replicate 10 (.exec 0 true)]

/-- **Two threads with the same id.** Both new slots have the pid of the process and are threads, and both show 0. -/
theorem thread_ids_clash :
    let s := (run Ids.step (idsBoot 64 1) twoOpening).st
    ((s.ptable 3).IsThread ∧ (s.ptable 4).IsThread) ∧ (s.ptable 3).pid = 2 ∧ (s.ptable 4).pid = 2 ∧
      (s.ptable 3).threadId = 0 ∧ (s.ptable 4).threadId = 0 := by
  decide +kernel

end Xv6Threads.Kernel
