/-
Whose child a process is, and what becomes of it when its parent goes.

`fork` records the main slot of the calling process as the parent, whichever of its threads calls. `exit` gives the
children of the exiting SLOT to init, so the children of a process move to init only if the main thread is the one
that calls `exit`; when a thread does, they keep a parent whose slots are all ZOMBIE and, once reaped, another
process's. `orphans_left` is the run. Three more ways to lose a parent come with it: the threads of init, `wait` reaping
a process whose last thread is still on its way through `exit`, and a half-made thread that `exit` turns into a ZOMBIE
before it is marked as a thread.

The kernel does not record who forked a process, so the run is paired with a ghost that does (`Kin`).
- `Adopted`: the parent is the main slot of a living process, which forked this one or is init's.
- `step_family`: one step keeps it for every main slot, if the step is `OrphanOk`.
- `orphans_adopted`: so it holds in every state of every run of such steps.
-/
import Xv6Threads.Kernel.Frames

namespace Xv6Threads.Kernel

open Xv6Threads.Core Function

variable {N K : ℕ}

/-! ## Families -/

/-- the kernel with a ghost: the pid of the process that forked the process in a slot -/
structure Kin (N K : ℕ) where
  st : St N K
  forker : Fin N → ℕ

/-- the ghost changes where `fork` stores the parent -/
def forkerAfter (k : Kin N K) (o : Op N K) : Fin N → ℕ :=
  match storing k.st o with
  | some (p, .forkParent, np) => update k.forker np (k.st.ptable p).pid
  | _ => k.forker

def Kin.step (k : Kin N K) (o : Op N K) : Kin N K := { st := Kernel.step k.st o, forker := forkerAfter k o }

def kinBoot (N K : ℕ) [NeZero N] : Kin N K := { st := boot N K, forker := fun _ => 0 }

/-- a slot that holds the main thread of a process, running or dead -/
def MainSlot (s : St N K) (m : Fin N) : Prop :=
  ((s.ptable m).state.life = .active ∨ (s.ptable m).state.life = .zombie) ∧ (s.ptable m).isthread = false

/-- the parent of `q` is the main slot of another, living process: the one that forked it, or init's -/
def Adopted (k : Kin N K) (q : Fin N) : Prop :=
  ∃ m, (k.st.ptable q).parent = some m ∧ MainSlot k.st m ∧ (k.st.ptable m).pid ≠ (k.st.ptable q).pid ∧
    Alive k.st (k.st.ptable m).pid ∧ ((k.st.ptable m).pid = k.forker q ∨ m = k.st.initproc)

/-- no process has a parent of the pid `X` -/
def Childless (s : St N K) (X : ℕ) : Prop :=
  ∀ q m, MainSlot s q → (s.ptable q).parent = some m → (s.ptable m).pid ≠ X

instance decidableMainSlot (s : St N K) (m : Fin N) : Decidable (MainSlot s m) := instDecidableAnd

instance decidableChildless (s : St N K) (X : ℕ) : Decidable (Childless s X) := by
  unfold Childless
  infer_instance

/-- who may end a process in this step: not a thread of init, and a thread only if the process has no children and no
slot of it that is half made and not marked as a thread; a process reaped with a thread left has no children either -/
def OrphanOk (s : St N K) (o : Op N K) : Prop :=
  (∀ p ∈ exiting s o, (s.ptable p).pid ≠ (s.ptable s.initproc).pid ∧
    ((s.ptable p).isthread = true → Childless s (s.ptable p).pid) ∧
    ∀ q, (s.ptable q).pid = (s.ptable p).pid → (s.ptable q).state = .embryo → (s.ptable q).isthread = true) ∧
  (∀ p ∈ waiter s o, Alive s (waitFound s.ptable p) → Childless s (waitFound s.ptable p)) ∧ CpusApart s o

instance decidableOrphanOk (s : St N K) (o : Op N K) : Decidable (OrphanOk s o) := by
  unfold OrphanOk
  infer_instance

/-- the invariant: init is there, a fork in progress is known to the ghost, and everyone has a parent -/
structure Family (k : Kin N K) : Prop where
  init_main : MainSlot k.st k.st.initproc
  init_parent : (k.st.ptable k.st.initproc).parent = none
  init_alive : Alive k.st (k.st.ptable k.st.initproc).pid
  forked : ∀ r st np, (k.st.ptable r).state.life = .active → k.st.pc r = .make st np → st.parented = true →
    st.joined = false → k.forker np = (k.st.ptable r).pid
  adopted : ∀ q, MainSlot k.st q → q ≠ k.st.initproc → Adopted k q

/-! ## Steps that end nobody -/

/-- every process that was there still is, with its threads and its parent -/
structure Grows (s s' : St N K) : Prop where
  alike : ∀ q, (s.ptable q).state.life = .active ∨ (s.ptable q).state.life = .zombie →
    ((s'.ptable q).state.life = .active ∨ (s'.ptable q).state.life = .zombie) ∧
      (s'.ptable q).pid = (s.ptable q).pid ∧ (s'.ptable q).parent = (s.ptable q).parent ∧
      (s'.ptable q).isthread = (s.ptable q).isthread
  alive : ∀ X, Alive s X → Alive s' X
  initproc : s'.initproc = s.initproc

section Grow

variable {odd : Bool → Prop} {s s' : St N K} {o : Op N K} {k k' : Kin N K}

theorem Grows.mainSlot (h : Grows s s') {m : Fin N} (hm : MainSlot s m) : MainSlot s' m := by
  obtain ⟨hl, _, _, ht⟩ := h.alike m hm.1
  exact ⟨hl, ht.trans hm.2⟩

theorem Grows.adopted (h : Grows k.st k'.st) {q : Fin N} (hq : MainSlot k.st q) (hf : k'.forker q = k.forker q)
    (ha : Adopted k q) : Adopted k' q := by
  obtain ⟨m, hpar, hm, hne, hal, hwho⟩ := ha
  obtain ⟨_, hpq, hparq, _⟩ := h.alike q hq.1
  obtain ⟨_, hpm, _, _⟩ := h.alike m hm.1
  refine ⟨m, hparq.trans hpar, h.mainSlot hm, ?_, ?_, ?_⟩
  · rw [hpm, hpq]
    exact hne
  · rw [hpm]
    exact h.alive _ hal
  · rw [hpm, hf, h.initproc]
    exact hwho

theorem Alive.of_alike {X : ℕ} (h : ∀ r, (s.ptable r).state.life = .active → Alike (s.ptable r) (s'.ptable r))
    (ha : Alive s X) : Alive s' X := by
  obtain ⟨r, hl, hp⟩ := ha
  exact ⟨r, (h r hl).life.trans hl, (h r hl).pid.trans hp⟩

/-- slots that are alike in every process that lives or is dead -/
theorem Grows.of_alike (hinit : s'.initproc = s.initproc)
    (h : ∀ q, (s.ptable q).state.life = .active ∨ (s.ptable q).state.life = .zombie →
      Alike (s.ptable q) (s'.ptable q)) : Grows s s' := by
  refine ⟨fun q hq => ?_, fun X => Alive.of_alike fun r hr => h r (.inl hr), hinit⟩
  have ha := h q hq
  rw [ha.life]
  exact ⟨hq, ha.pid, ha.parent, ha.isthread⟩

/-- a process that retires a thread by `thread_exit`, and not the last one, has another -/
theorem Census.exists_other {l : Census N} {p : Fin N} (hp : l.life p = .active) (hi : l.act p = .idle)
    (hw : l.weight (l.pid p) ≠ 1) : ∃ q, q ≠ p ∧ l.life q = .active ∧ l.pid q = l.pid p := by
  by_contra hnone
  push Not at hnone
  have hsplit := tally_split (l.share (l.pid p)) id p
  have hrest : others (l.share (l.pid p)) id p = 0 := by
    apply Finset.sum_eq_zero
    intro q hq
    refine if_neg fun hc => ?_
    exact hnone q (Finset.ne_of_mem_erase hq) hc.1 hc.2
  have hself : l.share (l.pid p) p = 1 := by
    rw [Census.share_active hp, hi]
    rfl
  simp only [id, hrest, hself] at hsplit
  exact hw hsplit

theorem retire_alive (h : Kept odd s) {p : Fin N} (hl : (s.ptable p).state.life = .active) (hu : s.pc p = .user)
    (hlast : ∀ m, s.mainOf p = some m → (s.ptable m).threadnum ≠ 1)
    (halike : ∀ q, q ≠ p → Alike (s.ptable q) (s'.ptable q)) {X : ℕ} (ha : Alive s X) : Alive s' X := by
  obtain ⟨r, hr, hX⟩ := ha
  by_cases hrp : r = p
  · subst hrp
    have hidle : s.census.act r = .idle := by
      simp only [St.census, hu]
      rfl
    obtain ⟨m, hh, hb⟩ := h.orderly.home r hl
    have hcount := hb.of_not_leaving (by rw [hidle]; simp)
    have hw : s.census.weight (s.census.pid r) ≠ 1 := by
      rw [← hcount]
      exact hlast m hh.mainOf
    obtain ⟨q, hq, hql, hqp⟩ := Census.exists_other hl hidle hw
    exact ⟨q, (halike q hq).life.trans hql, (halike q hq).pid.trans (hqp.trans hX)⟩
  · exact ⟨r, (halike r hrp).life.trans hr, (halike r hrp).pid.trans hX⟩

end Grow

/-! ## One step -/

section Step

variable {odd : Bool → Prop} {k : Kin N K} {o : Op N K}

theorem Grows.init {s s' : St N K} (h : Grows s s') (hm : MainSlot s s.initproc)
    (hp : (s.ptable s.initproc).parent = none) (ha : Alive s (s.ptable s.initproc).pid) :
    MainSlot s' s'.initproc ∧ (s'.ptable s'.initproc).parent = none ∧ Alive s' (s'.ptable s'.initproc).pid := by
  obtain ⟨_, hpid, hpar, _⟩ := h.alike s.initproc hm.1
  rw [h.initproc, hpid, hpar]
  exact ⟨h.mainSlot hm, hp, h.alive _ ha⟩

/-- the ghost of a slot that nobody makes in this step -/
theorem forkerAfter_of_ne {p np q : Fin N} {st : Making} (hs : storing k.st o = some (p, st, np)) (hq : q ≠ np) :
    forkerAfter k o q = k.forker q := by
  unfold forkerAfter
  rw [hs]
  cases st with
  | forkParent => exact update_of_ne hq _ _
  | _ => rfl

theorem forkerAfter_none (hs : storing k.st o = none) : forkerAfter k o = k.forker := by
  unfold forkerAfter
  rw [hs]

/-- **A store of `fork` or `thread_create`.** The child that `fork` publishes is that of the caller's process. -/
theorem family_make (hk : Kept odd k.st) (hf : Family k) {p np : Fin N} {st : Making}
    (hs : storing k.st o = some (p, st, np)) : Family (k.step o) := by
  obtain ⟨c, ok, rfl, hc, hpc, hstep⟩ := step_storing hs
  have hl := hk.life_active hc
  have hemb := life_eq_embryo hk hl hpc
  have hne : p ≠ np := by
    rintro rfl
    rw [hl] at hemb
    cases hemb
  have halike : ∀ q, q ≠ np → Alike (k.st.ptable q) ((k.step (.exec c ok)).st.ptable q) := by
    intro q hq
    show Alike _ ((Kernel.step k.st (.exec c ok)).ptable q)
    rw [hstep]
    exact makeStep_alike hq
  have hgrows : Grows k.st (k.step (.exec c ok)).st := by
    refine Grows.of_alike ?_ fun q hq => halike q ?_
    · show (Kernel.step k.st (.exec c ok)).initproc = _
      rw [hstep]
      exact makeStep_initproc
    · rintro rfl
      simp [hemb] at hq
  have hmade := hk.orderly.made p st np hl (by simp only [St.census, hpc]; rfl)
  obtain ⟨hi1, hi2, hi3⟩ := hgrows.init hf.init_main hf.init_parent hf.init_alive
  refine ⟨hi1, hi2, hi3, ?_, ?_⟩
  · intro r st' np' hr hm hpar hj
    by_cases hrn : r = np
    · -- the slot just published is in user mode
      subst hrn
      have hpub : ((makeStep k.st p r ok st).ptable r).state.life = .active := by rw [← hstep]; exact hr
      have huser := (makeStep_publish hemb (.inl hpub)).2.2 hne
      rw [← hstep] at huser
      rw [show (k.step (.exec c ok)).st.pc r = .user from huser] at hm
      cases hm
    · have hr0 : (k.st.ptable r).state.life = .active := (halike r hrn).life ▸ hr
      rw [(halike r hrn).pid]
      by_cases hrp : r = p
      · subst hrp
        have hself : (makeStep k.st r np ok st).pc r = .user ∨
            ((makeStep k.st r np ok st).pc r = .make st.next np ∧ st ≠ .forkRun ∧ st ≠ .tcRun) := makeStep_pc_self
        rw [← hstep, show (Kernel.step k.st (.exec c ok)).pc r = .make st' np' from hm] at hself
        rcases hself with hu | ⟨hnext, _⟩
        · cases hu
        · cases hnext
          show forkerAfter k (.exec c ok) np = _
          unfold forkerAfter
          rw [hs]
          cases st with
          | forkParent => simp
          | forkThreadId => exact hf.forked r _ np hr0 hpc rfl rfl
          | forkIsthread => exact hf.forked r _ np hr0 hpc rfl rfl
          | forkIsjoined => exact hf.forked r _ np hr0 hpc rfl rfl
          | forkRun => exact hf.forked r _ np hr0 hpc rfl rfl
          | waitingFor f => cases f <;> cases hpar
          | kstack | queuePos | threadnum | forkPgdir => cases hpar
          | tcPid | tcPgdir | tcParent | tcCount | tcIsthread | tcIsjoined | tcThreadId | tcRun => cases hj
      · have hm0 : k.st.pc r = .make st' np' := by
          have hsame : (makeStep k.st p np ok st).pc r = k.st.pc r := makeStep_pc hrp hrn
          rw [← hsame, ← hstep]
          exact hm
        have hnn : np' ≠ np := by
          rintro rfl
          exact hrp (hk.one_maker hr0 hl hm0 hpc)
        show forkerAfter k (.exec c ok) np' = _
        rw [forkerAfter_of_ne hs hnn]
        exact hf.forked r st' np' hr0 hm0 hpar hj
  · intro q hq hqi
    rw [hgrows.initproc] at hqi
    by_cases hqn : q = np
    · subst hqn
      have hl' : ((makeStep k.st p q ok st).ptable q).state.life = .active ∨
          ((makeStep k.st p q ok st).ptable q).state.life = .zombie := by rw [← hstep]; exact hq.1
      obtain ⟨hrun, htab, _⟩ := makeStep_publish hemb hl'
      have hslot : (k.step (.exec c ok)).st.ptable q = { k.st.ptable q with state := .runnable } := by
        show (Kernel.step k.st (.exec c ok)).ptable q = _
        rw [hstep, htab]
      rcases hrun with rfl | rfl
      · -- the new process is alone with its pid, and its parent is the main slot of the caller
        obtain ⟨m, hh, _⟩ := hk.orderly.home p hl
        have hparent : (k.st.ptable q).parent = some m := (hmade.parent rfl).trans hh.mainOf
        have hmq : (k.st.ptable m).pid ≠ (k.st.ptable q).pid := by
          intro he
          have := hmade.fresh rfl m he
          subst this
          exact hmade.ne_live hh.live rfl
        obtain ⟨_, hpm, _, _⟩ := hgrows.alike m hh.live
        refine ⟨m, ?_, hgrows.mainSlot ⟨hh.live, hh.main⟩, ?_, ?_, .inl ?_⟩
        · rw [hslot]
          exact hparent
        · rw [hslot, hpm]
          exact hmq
        · rw [hpm]
          exact hgrows.alive _ ⟨p, hl, hh.pid.symm⟩
        · rw [hpm]
          show _ = forkerAfter k (.exec c ok) q
          unfold forkerAfter
          rw [hs]
          exact hh.pid.trans (hf.forked p _ q hl hpc rfl rfl).symm
      · -- a thread is no main slot
        have hthr : (k.st.ptable q).isthread = true := hmade.isthread rfl
        have := hq.2
        rw [hslot] at this
        rw [hthr] at this
        cases this
    · have hq0 : MainSlot k.st q := by
        have ha := halike q hqn
        refine ⟨?_, ha.isthread.symm.trans hq.2⟩
        rw [← ha.life]
        exact hq.1
      exact hgrows.adopted hq0 (forkerAfter_of_ne hs hqn) (hf.adopted q hq0 hqi)

/-- **A step that neither stores nor ends anybody.** -/
theorem family_grows (hf : Family k) {s' : St N K} (hgrows : Grows k.st s')
    (hback : ∀ q, MainSlot s' q → MainSlot k.st q)
    (hmaking : ∀ r st np, (s'.ptable r).state.life = .active → s'.pc r = .make st np → st.parented = true →
      (k.st.ptable r).state.life = .active ∧ k.st.pc r = .make st np ∧ (s'.ptable r).pid = (k.st.ptable r).pid) :
    Family { st := s', forker := k.forker } := by
  obtain ⟨hi1, hi2, hi3⟩ := hgrows.init hf.init_main hf.init_parent hf.init_alive
  refine ⟨hi1, hi2, hi3, ?_, ?_⟩
  · intro r st np hr hm hpar hj
    obtain ⟨hr0, hm0, hpid⟩ := hmaking r st np hr hm hpar
    exact (hf.forked r st np hr0 hm0 hpar hj).trans hpid.symm
  · intro q hq hqi
    rw [show s'.initproc = k.st.initproc from hgrows.initproc] at hqi
    let after : Kin N K := { st := s', forker := k.forker }
    have hgrow : Grows k.st after.st := hgrows
    exact hgrow.adopted (hback q hq) rfl (hf.adopted q (hback q hq) hqi)

/-- **`exit`.** If the main thread calls it, the children go to init; if a thread calls it, there are none. -/
theorem family_exit (hk : Kept odd k.st) (hf : Family k) {c : Fin K} {p : Fin N} (hc : k.st.curproc c = some p)
    (hinit : (k.st.ptable p).pid ≠ (k.st.ptable k.st.initproc).pid)
    (hchild : (k.st.ptable p).isthread = true → Childless k.st (k.st.ptable p).pid)
    (hmade : ∀ q, (k.st.ptable q).pid = (k.st.ptable p).pid → (k.st.ptable q).state = .embryo →
      (k.st.ptable q).isthread = true) :
    Family { st := exitLocked k.st c p, forker := k.forker } := by
  have hl := hk.life_active hc
  have hv := fun q => exitSection_visited k.st.initproc (parentsWithin hk.orderly hl) q
  obtain ⟨m₀, hh, _⟩ := hk.orderly.home p hl
  have hlife : ∀ q, (k.st.ptable q).pid ≠ (k.st.ptable p).pid →
      ((exitLocked k.st c p).ptable q).state.life = (k.st.ptable q).state.life := fun q => exitLocked_alike hk hl
  -- main slots are where they were
  have hmain : ∀ q, MainSlot (exitLocked k.st c p) q → MainSlot k.st q := by
    intro q hq
    have hthr : (k.st.ptable q).isthread = false := (hv q).isthread.symm.trans hq.2
    refine ⟨?_, hthr⟩
    by_cases hqp : (k.st.ptable q).pid = (k.st.ptable p).pid
    · cases hs : (k.st.ptable q).state with
      | unused => exact absurd hqp (hk.orderly.free_pid_ne (by simp [St.census, hs, ProcState.life])
          (by rw [show k.st.census.life p = .active from hl]; simp))
      | embryo =>
        rw [hmade q hqp hs] at hthr
        cases hthr
      | sleeping | runnable | running => exact .inl rfl
      | zombie => exact .inr rfl
    · rw [← hlife q hqp]
      exact hq.1
  have hmain' : ∀ m, MainSlot k.st m → (k.st.ptable m).pid ≠ (k.st.ptable p).pid → MainSlot (exitLocked k.st c p) m := by
    intro m hm hmp
    refine ⟨?_, (hv m).isthread.trans hm.2⟩
    rw [hlife m hmp]
    exact hm.1
  have halive : ∀ X, X ≠ (k.st.ptable p).pid → Alive k.st X → Alive (exitLocked k.st c p) X := by
    rintro X hX ⟨r, hr, rfl⟩
    exact ⟨r, (hlife r hX).trans hr, (hv r).pid⟩
  have hparent : ∀ q, (k.st.ptable q).parent ≠ some p →
      ((exitLocked k.st c p).ptable q).parent = (k.st.ptable q).parent := by
    intro q hq
    rcases (hv q).parent with he | ⟨h1, _⟩
    · exact he
    · exact absurd h1 hq
  refine ⟨hmain' _ hf.init_main hinit.symm, ?_, ?_, ?_, ?_⟩
  · show ((exitLocked k.st c p).ptable k.st.initproc).parent = none
    rw [hparent _ (by rw [hf.init_parent]; simp)]
    exact hf.init_parent
  · have hpid : ((exitLocked k.st c p).ptable k.st.initproc).pid = (k.st.ptable k.st.initproc).pid := (hv _).pid
    show Alive _ ((exitLocked k.st c p).ptable k.st.initproc).pid
    rw [hpid]
    exact halive _ hinit.symm hf.init_alive
  · intro r st np hr hm hpar hj
    have hrp : (k.st.ptable r).pid ≠ (k.st.ptable p).pid := by
      intro he
      have hz : ((exitLocked k.st c p).ptable r).state = .zombie := (hv r).dead he
      rw [show ((exitLocked k.st c p).ptable r).state = .zombie from hz] at hr
      cases hr
    exact (hf.forked r st np ((hlife r hrp).symm.trans hr) hm hpar hj).trans (hv r).pid.symm
  · intro q hq hqi
    obtain ⟨m, hpar, hm, hne, hal, hwho⟩ := hf.adopted q (hmain q hq) hqi
    by_cases hmp : (k.st.ptable m).pid = (k.st.ptable p).pid
    · -- a child of the process that ends: it was the main thread that called `exit`, and init takes the child
      have hthread : (k.st.ptable p).isthread = false := by
        by_contra ht
        exact hchild (by simpa using ht) q m (hmain q hq) hpar hmp
      have hmp' : m = p := (hh.unique m hm.1 hmp hm.2).trans (hh.self hthread).symm
      subst hmp'
      have hadopt : ((exitLocked k.st c m).ptable q).parent = some k.st.initproc :=
        (hv q).adopted hpar (hmain q hq).2 (.inl (Ne.symm hne))
      have hpid : ((exitLocked k.st c m).ptable k.st.initproc).pid = (k.st.ptable k.st.initproc).pid := (hv _).pid
      refine ⟨k.st.initproc, hadopt, hmain' _ hf.init_main hinit.symm, ?_, ?_, .inr rfl⟩
      · show ((exitLocked k.st c m).ptable k.st.initproc).pid ≠ ((exitLocked k.st c m).ptable q).pid
        rw [hpid, (show ((exitLocked k.st c m).ptable q).pid = (k.st.ptable q).pid from (hv q).pid)]
        intro he
        -- init's process has one main slot
        obtain ⟨r, hr, hrp⟩ := hf.init_alive
        obtain ⟨mi, hhi, _⟩ := hk.orderly.home r hr
        have h1 := hhi.unique _ hf.init_main.1 hrp.symm hf.init_main.2
        have h2 := hhi.unique q (hmain q hq).1 (he.symm.trans hrp.symm) (hmain q hq).2
        exact hqi (h2.trans h1.symm)
      · show Alive _ ((exitLocked k.st c m).ptable k.st.initproc).pid
        rw [hpid]
        exact halive _ hinit.symm hf.init_alive
    · have hqpar : (k.st.ptable q).parent ≠ some p := by
        intro he
        rw [hpar] at he
        cases he
        exact hmp rfl
      have hpm : ((exitLocked k.st c p).ptable m).pid = (k.st.ptable m).pid := (hv m).pid
      refine ⟨m, (hparent q hqpar).trans hpar, hmain' m hm hmp, ?_, ?_, ?_⟩
      · show ((exitLocked k.st c p).ptable m).pid ≠ ((exitLocked k.st c p).ptable q).pid
        rw [hpm, (show ((exitLocked k.st c p).ptable q).pid = (k.st.ptable q).pid from (hv q).pid)]
        exact hne
      · show Alive _ ((exitLocked k.st c p).ptable m).pid
        rw [hpm]
        exact halive _ hmp hal
      · show ((exitLocked k.st c p).ptable m).pid = _ ∨ m = k.st.initproc
        rw [hpm]
        exact hwho

/-- init is not a child of anybody, so `wait` does not find it -/
theorem Family.init_not_found (hk : Kept odd k.st) (hf : Family k) {p : Fin N} (h0 : waitFound k.st.ptable p ≠ 0) :
    (k.st.ptable k.st.initproc).pid ≠ waitFound k.st.ptable p := by
  intro he
  obtain ⟨m, hm, hpid⟩ := exists_of_waitFound h0
  obtain ⟨r, hr, hrp⟩ := hf.init_alive
  obtain ⟨m₀, hh, _⟩ := hk.orderly.home r hr
  have hml : k.st.census.life m = .zombie := by simp [St.census, hm.2.1, ProcState.life]
  have h1 := hh.unique _ hf.init_main.1 hrp.symm hf.init_main.2
  have h2 := hh.unique m (.inr hml) (hpid.trans (he.symm.trans hrp.symm)) hm.2.2.1
  have hpar := hf.init_parent
  rw [h1.trans h2.symm, hm.1] at hpar
  cases hpar

/-- **`wait`.** What it frees is nobody's parent: if the process had a thread left, it had no children. -/
theorem family_reap (hk : Kept odd k.st) (hf : Family k) {s' : St N K} {p : Fin N} {X : ℕ} (hX : X ≠ 0)
    (hfound : waitFound k.st.ptable p = X) (hok : Alive k.st X → Childless k.st X)
    (hfree : ∀ q, (k.st.ptable q).pid = X → Emptied (k.st.ptable q) (s'.ptable q))
    (halike : ∀ q, (k.st.ptable q).pid ≠ X → Alike (k.st.ptable q) (s'.ptable q))
    (hpc : ∀ q, s'.pc q = k.st.pc q ∨ Turns k.st o q (s'.pc q)) (hinit : s'.initproc = k.st.initproc) :
    Family { st := s', forker := k.forker } := by
  have hout : ∀ q, (s'.ptable q).state.life ≠ .free → (k.st.ptable q).pid ≠ X := by
    intro q hq hqX
    rw [(hfree q hqX).state] at hq
    exact hq rfl
  have hmain : ∀ m, MainSlot k.st m → (k.st.ptable m).pid ≠ X → MainSlot s' m := by
    intro m hm hmX
    refine ⟨?_, (halike m hmX).isthread.trans hm.2⟩
    rw [(halike m hmX).life]
    exact hm.1
  have halive : ∀ Y, Y ≠ X → Alive k.st Y → Alive s' Y := by
    rintro Y hY ⟨r, hr, rfl⟩
    exact ⟨r, (halike r hY).life.trans hr, (halike r hY).pid⟩
  have hi : (k.st.ptable k.st.initproc).pid ≠ X := hfound ▸ hf.init_not_found hk (hfound ▸ hX)
  refine ⟨?_, ?_, ?_, ?_, ?_⟩
  · show MainSlot s' s'.initproc
    rw [hinit]
    exact hmain _ hf.init_main hi
  · show (s'.ptable s'.initproc).parent = none
    rw [hinit, (halike _ hi).parent]
    exact hf.init_parent
  · show Alive s' (s'.ptable s'.initproc).pid
    rw [hinit, (halike _ hi).pid]
    exact halive _ hi hf.init_alive
  · intro r st np hr hm hpar hj
    have ha := halike r (hout r (by rw [show (s'.ptable r).state.life = .active from hr]; simp))
    exact (hf.forked r st np (ha.life.symm.trans hr) (make_of_turns hpc hm) hpar hj).trans ha.pid.symm
  · intro q hq hqi
    rw [show s'.initproc = k.st.initproc from hinit] at hqi
    have ha : Alike (k.st.ptable q) (s'.ptable q) := by
      refine halike q (hout q ?_)
      rcases hq.1 with h1 | h1 <;> rw [show (s'.ptable q).state.life = _ from h1] <;> simp
    have hq0 : MainSlot k.st q := by
      refine ⟨?_, ha.isthread.symm.trans hq.2⟩
      rw [← ha.life]
      exact hq.1
    obtain ⟨m, hpar, hm, hne, hal, hwho⟩ := hf.adopted q hq0 hqi
    have hmX : (k.st.ptable m).pid ≠ X := by
      intro hmX
      exact hok (hmX ▸ hal) q m hq0 hpar hmX
    refine ⟨m, ha.parent.trans hpar, hmain m hm hmX, ?_, ?_, ?_⟩
    · show (s'.ptable m).pid ≠ (s'.ptable q).pid
      rw [(halike m hmX).pid, ha.pid]
      exact hne
    · show Alive s' (s'.ptable m).pid
      rw [(halike m hmX).pid]
      exact halive _ hmX hal
    · show (s'.ptable m).pid = _ ∨ m = s'.initproc
      rw [(halike m hmX).pid, hinit]
      exact hwho

/-- **One step.** Everyone keeps a living parent, if the step is `OrphanOk`. -/
theorem step_family (hk : Kept odd k.st) (hf : Family k) (hok : OrphanOk k.st o) : Family (k.step o) := by
  cases hs : storing k.st o with
  | some x =>
    obtain ⟨p, st, np⟩ := x
    exact family_make hk hf hs
  | none =>
    have hgoal : k.step o = { st := Kernel.step k.st o, forker := k.forker } := by
      simp only [Kin.step, forkerAfter_none hs]
    rw [hgoal]
    have hdeed := step_deed hk.cpus o
    generalize Kernel.step k.st o = s' at hdeed ⊢
    cases hdeed with
    | calm _ halike hpc hglob =>
      refine family_grows hf (.of_alike hglob.initproc fun q _ => halike q) ?_ ?_
      · intro q hq
        refine ⟨?_, (halike q).isthread.symm.trans hq.2⟩
        rw [← (halike q).life]
        exact hq.1
      · intro r st np hr hm _
        exact ⟨(halike r).life.symm.trans hr, make_of_turns hpc hm, (halike r).pid⟩
    | alloc p np f he hnp =>
      obtain ⟨htab, hpcs, hinit⟩ := allocproc_some (p := p) hnp f
      have halike : ∀ q, q ≠ np → Alike (k.st.ptable q) ((allocproc k.st p f).ptable q) := by
        intro q hq
        rw [htab, Table.write_of_ne _ hq]
        exact .refl _
      have hemb : ((allocproc k.st p f).ptable np).state = .embryo := by
        rw [htab]
        simp
      have hne : ∀ q, ((allocproc k.st p f).ptable q).state.life ≠ .embryo → q ≠ np := by
        rintro q hq rfl
        rw [hemb] at hq
        exact hq rfl
      refine family_grows hf (.of_alike hinit fun q hq => halike q ?_) ?_ ?_
      · rintro rfl
        rw [findUnused_unused hnp] at hq
        simp [ProcState.life] at hq
      · intro q hq
        have hqn : q ≠ np := by
          refine hne q fun h1 => ?_
          have := hq.1
          rw [h1] at this
          simp at this
        refine ⟨?_, (halike q hqn).isthread.symm.trans hq.2⟩
        rw [← (halike q hqn).life]
        exact hq.1
      · intro r st np' hr hm hpar
        have hrn : r ≠ np := hne r (by rw [hr]; simp)
        refine ⟨(halike r hrn).life.symm.trans hr, ?_, (halike r hrn).pid⟩
        rw [hpcs] at hm
        by_cases hrp : r = p
        · -- the caller is at the first store, which has no parent yet
          subst hrp
          rw [update_self] at hm
          cases hm
          cases hpar
        · rw [update_of_ne hrp] at hm
          exact hm
    | make c p np st ok ho hc hm =>
      rw [ho, storing_exec hc hm ok] at hs
      cases hs
    | retire _ p he hret hlast hz hpid hpar hthr hpg halike hpc hglob =>
      obtain ⟨hu, c, hc, _⟩ := he
      have hl := hk.life_active hc
      have hgrows : Grows k.st s' := by
        refine ⟨fun q hq => ?_, fun X => retire_alive hk hl hu hlast halike, hglob.initproc⟩
        by_cases hqp : q = p
        · subst hqp
          rw [hz]
          exact ⟨.inr rfl, hpid, hpar, hthr⟩
        · have ha := halike q hqp
          rw [ha.life]
          exact ⟨hq, ha.pid, ha.parent, ha.isthread⟩
      refine family_grows hf hgrows ?_ ?_
      · intro q hq
        by_cases hqp : q = p
        · subst hqp
          exact ⟨.inl hl, hthr.symm.trans hq.2⟩
        · refine ⟨?_, (halike q hqp).isthread.symm.trans hq.2⟩
          rw [← (halike q hqp).life]
          exact hq.1
      · intro r st np hr hm _
        have hrp : r ≠ p := by
          rintro rfl
          rw [hz] at hr
          cases hr
        exact ⟨(halike r hrp).life.symm.trans hr, (congrFun hpc r).symm.trans hm, (halike r hrp).pid⟩
    | exit c p ok ho hc hpc =>
      obtain ⟨hinit, hchild, hmade⟩ := hok.1 p (ho ▸ mem_exiting hc hpc)
      exact family_exit hk hf hc hinit hchild hmade
    | reap _ p X hw hX hfound hfree halike hpc hinit hnext hfreed =>
      have hchild := hok.2.1 p hw
      rw [hfound] at hchild
      exact family_reap hk hf hX hfound hchild hfree halike hpc hinit

end Step

/-! ## Runs -/

theorem kinBoot_family [NeZero N] : Family (kinBoot N K) := by
  have hmain : ∀ q, MainSlot (boot N K) q → q = 0 := by
    intro q hq
    by_contra hne
    have := hq.1
    simp [boot, hne, freeSlot, ProcState.life] at this
  have hinit : MainSlot (boot N K) 0 := by simp [MainSlot, boot, freeSlot, ProcState.life]
  refine ⟨hinit, ?_, ⟨0, ?_, rfl⟩, ?_, ?_⟩
  · simp [kinBoot, boot, freeSlot]
  · simp [kinBoot, boot, ProcState.life]
  · intro r st np _ hm
    cases hm
  · intro q hq hqi
    exact absurd (hmain q hq) hqi

/-- **Orphans are adopted by init**, in every run of steps that are `OrphanOk`: the parent of every main slot but init's
is the main slot of a process with a living thread, which forked this one or is init. -/
theorem orphans_adopted [NeZero N] (ops : List (Op N K))
    (h : Along Kin.step (fun k o => OrphanOk k.st o) (kinBoot N K) ops) (q : Fin N)
    (k : Kin N K) (hk : k = run Kin.step (kinBoot N K) ops) (hq : MainSlot k.st q) (hinit : q ≠ k.st.initproc) :
    Adopted k q := by
  have hinv : Kept (fun _ => True) k.st ∧ Family k := by
    rw [hk]
    refine h.inv (I := fun k => Kept (fun _ => True) k.st ∧ Family k) ?_ ⟨boot_kept, kinBoot_family⟩
    intro k o ho hs
    refine ⟨step_kept hs.1 ho.2.2 ?_, step_family hs.1 hs.2 ho⟩
    exact fun _ _ => trivial
  exact hinv.2.adopted q hq hinit

/-- init forks a child, the child forks a grandchild and calls `exit` -/
def childForksExits : List (Op 64 1) := List.flatten
  [[.dispatch 0 0, .call 0 .fork], List.replicate 10 (.exec 0 true), [.preempt 0, .dispatch 0 1, .call 0 .fork],
    List.replicate 10 (.exec 0 true), [.call 0 .exit, .exec 0 true]]

/-- the theorem at that run: the grandchild's parent is init -/
theorem orphans_adopted_grandchild :
    MainSlot (run Kin.step (kinBoot 64 1) childForksExits).st 2 ∧
      Adopted (run Kin.step (kinBoot 64 1) childForksExits) 2 := by
  have hq : MainSlot (run Kin.step (kinBoot 64 1) childForksExits).st 2 := by decide +kernel
  exact ⟨hq, orphans_adopted childForksExits (by decide +kernel) 2 _ rfl hq (by decide +kernel)⟩

/-- the same, but the child also makes a thread, and it is the thread that calls `exit` -/
def threadOfForkerExits : List (Op 64 1) := List.flatten
  [[.dispatch 0 0, .call 0 .fork], List.replicate 10 (.exec 0 true), [.preempt 0, .dispatch 0 1, .call 0 .fork],
    List.replicate 10 (.exec 0 true), [.call 0 .threadCreate], List.replicate 12 (.exec 0 true),
    [.preempt 0, .dispatch 0 3, .call 0 .exit, .exec 0 true]]

/-- **An orphan that nobody adopts.** The grandchild can run, its parent is still the child's slot, and the child's
process has no thread that is not a ZOMBIE. -/
theorem orphans_left :
    let k := run Kin.step (kinBoot 64 1) threadOfForkerExits
    MainSlot k.st 2 ∧ (k.st.ptable 2).state = .runnable ∧ (2 : Fin 64) ≠ k.st.initproc ∧
      (k.st.ptable 2).parent = some 1 ∧ ¬ Alive k.st (k.st.ptable 1).pid ∧ ¬ Adopted k 2 := by
  refine ⟨by decide +kernel, by decide +kernel, by decide +kernel, by decide +kernel, by decide +kernel, ?_⟩
  rintro ⟨m, hpar, _, _, hal, _⟩
  have hm : m = 1 := by
    have : ((run Kin.step (kinBoot 64 1) threadOfForkerExits).st.ptable 2).parent = some 1 := by decide +kernel
    rw [this] at hpar
    exact (Option.some.inj hpar).symm
  subst hm
  revert hal
  decide +kernel

end Xv6Threads.Kernel
