/-
The kernel refines the life cycle: every step of the machine is a turn of the census, or does not touch it.

`St.census` forgets everything but what makes a slot part of a process. The kernel's invariant has two halves: the
census is orderly, and a CPU runs only RUNNING slots, each on one CPU (`OnCpu`). The second half needs a premise on the
schedule when there are several CPUs, because `exit` and `wait` write the state of slots that another CPU may be
running (`CpusApart`); on one CPU it always holds.

Results:
- `step_turn`, `run_refines`: the refinement, for every operation and every run.
- `step_kept`, `run_kept`: the invariant `Kept` holds in every state reached from boot.
-/
import Xv6Threads.Kernel.Lifecycle

namespace Xv6Threads.Kernel

open Xv6Threads.Core Function

variable {N K : ℕ}

/-! ## The census of a state -/

def ProcState.life : ProcState → Life
  | .unused => .free
  | .embryo => .embryo
  | .sleeping | .runnable | .running => .active
  | .zombie => .zombie

def Pc.act : Pc N → Act N
  | .make st np => .making st np
  | .exitClose | .panicked => .leaving
  | .user | .waitSleep | .joinSleep | .downSleep _ => .idle

namespace St

def census (s : St N K) : Census N where
  life p := (s.ptable p).state.life
  pid p := (s.ptable p).pid
  parent p := (s.ptable p).parent
  isthread p := (s.ptable p).isthread
  threadnum p := (s.ptable p).threadnum
  act p := (s.pc p).act
  nextpid := s.nextpid

end St

/-- the two slots look the same to the census -/
structure SameLife (x y : Proc N) : Prop where
  life : y.state.life = x.state.life
  pid : y.pid = x.pid
  parent : y.parent = x.parent
  isthread : y.isthread = x.isthread
  threadnum : y.threadnum = x.threadnum

theorem ProcState.life_active {st : ProcState} : st.life = .active ↔ st.Active := by
  cases st <;> decide

theorem Census.setAct_eq {l : Census N} {p : Fin N} {a : Act N} (h : l.act p = a) : l.setAct p a = l := by
  subst h
  simp [Census.setAct]

theorem census_table {s : St N K} {t : Table N} (h : ∀ q, SameLife (s.ptable q) (t q)) :
    { s with ptable := t }.census = s.census := by
  simp only [St.census, fun q => (h q).life, fun q => (h q).pid, fun q => (h q).parent, fun q => (h q).isthread,
    fun q => (h q).threadnum]

theorem census_write_eq (s : St N K) (p : Fin N) (f : Proc N → Proc N) :
    (s.write p f).census = { s.census with
      life := update s.census.life p (f (s.ptable p)).state.life
      pid := update s.census.pid p (f (s.ptable p)).pid
      parent := update s.census.parent p (f (s.ptable p)).parent
      isthread := update s.census.isthread p (f (s.ptable p)).isthread
      threadnum := update s.census.threadnum p (f (s.ptable p)).threadnum } := by
  simp only [St.census, St.write, Census.mk.injEq, and_true]
  refine ⟨?_, ?_, ?_, ?_, ?_⟩ <;>
  · funext q
    by_cases hq : q = p
    · subst hq
      simp [Table.write_self]
    · simp [Table.write_of_ne _ hq, hq]

theorem census_write {s : St N K} {p : Fin N} {f : Proc N → Proc N} (h : SameLife (s.ptable p) (f (s.ptable p))) :
    (s.write p f).census = s.census := by
  exact census_table (Table.write_rel (fun _ => ⟨rfl, rfl, rfl, rfl, rfl⟩) h)

theorem census_writeAt {s : St N K} {o : Option (Fin N)} {f : Proc N → Proc N} (h : ∀ x, SameLife x (f x)) :
    (s.writeAt o f).census = s.census := by
  cases o with
  | none => rfl
  | some m => exact census_write (h _)

theorem census_goto (s : St N K) (p : Fin N) (c : Pc N) : (s.goto p c).census = s.census.setAct p c.act := by
  simp only [St.census, St.goto, Census.setAct, Census.mk.injEq, true_and, and_true]
  funext q
  by_cases hq : q = p
  · subst hq
    simp
  · simp [hq]

theorem census_sysret (s : St N K) (p : Fin N) (v : ℤ) : (s.sysret p v).census = s.census.setAct p .idle :=
  census_goto s p .user

theorem census_leave (s : St N K) (c : Fin K) : (s.leave c).census = s.census := rfl

theorem census_sleep {s : St N K} {p : Fin N} (hp : s.census.life p = .active) (c : Fin K) (chan : Chan N) (pc : Pc N) :
    (s.sleep c p chan pc).census = s.census.setAct p pc.act := by
  have h : (s.write p fun x => { x with chan := chan, state := .sleeping }).census = s.census :=
    census_write ⟨hp.symm, rfl, rfl, rfl, rfl⟩
  change ((s.write p fun x => { x with chan := chan, state := .sleeping }).goto p pc).census = _
  rw [census_goto, h]

/-! ## CPUs -/

/-- a CPU runs a RUNNING slot, and no two CPUs run the same one -/
structure OnCpu (s : St N K) : Prop where
  running : ∀ c p, s.curproc c = some p → (s.ptable p).state = .running
  inj : ∀ c c' p, s.curproc c = some p → s.curproc c' = some p → c = c'

/-- process `p` on CPU `c` made a move: what the other CPUs run still runs, and `p` runs on or has left its CPU -/
structure Moves (s s' : St N K) (c : Fin K) (p : Fin N) : Prop where
  others : ∀ c' q, s.curproc c' = some q → q ≠ p → (s.ptable q).state = .running → (s'.ptable q).state = .running
  self : (s'.curproc = s.curproc ∧ (s'.ptable p).state = .running) ∨ s'.curproc = update s.curproc c none

theorem OnCpu.moves {s s' : St N K} {c : Fin K} {p : Fin N} (h : OnCpu s) (hc : s.curproc c = some p)
    (hm : Moves s s' c p) : OnCpu s' := by
  have hsub : ∀ c' q, s'.curproc c' = some q → s.curproc c' = some q ∧ (s'.ptable q).state = .running := by
    intro c' q hq
    rcases hm.self with ⟨he, hp⟩ | he
    · rw [he] at hq
      by_cases hqp : q = p
      · exact ⟨hq, hqp ▸ hp⟩
      · exact ⟨hq, hm.others c' q hq hqp (h.running c' q hq)⟩
    · rw [he] at hq
      have hcc : c' ≠ c := by
        rintro rfl
        simp at hq
      rw [update_of_ne hcc] at hq
      have hqp : q ≠ p := by
        rintro rfl
        exact hcc (h.inj c' c q hq hc)
      exact ⟨hq, hm.others c' q hq hqp (h.running c' q hq)⟩
  exact ⟨fun c' q hq => (hsub c' q hq).2, fun c1 c2 q h1 h2 => h.inj c1 c2 q (hsub c1 q h1).1 (hsub c2 q h2).1⟩

/-! ## What each operation does -/

/-- a step of `p` on CPU `c`: a turn of the census or none, and a move of the CPU -/
structure Does (odd : Bool → Prop) (dying : Fin N → Prop) (s s' : St N K) (c : Fin K) (p : Fin N) : Prop where
  turn : s'.census = s.census ∨ Turn odd dying s.census s'.census
  moves : Moves s s' c p

section Operations

variable {odd : Bool → Prop} {dying : Fin N → Prop} {s : St N K} {c : Fin K} {p : Fin N} {ok : Bool}

/-- `p` stays on its CPU, and no RUNNING slot leaves that state -/
theorem Moves.stay {s' : St N K} (hp : (s.ptable p).state = .running) (hc : s'.curproc = s.curproc)
    (ht : ∀ q, (s.ptable q).state = .running → (s'.ptable q).state = .running) : Moves s s' c p :=
  ⟨fun _ q _ _ => ht q, Or.inl ⟨hc, ht p hp⟩⟩

/-- `p` leaves its CPU, and no other RUNNING slot leaves that state -/
theorem Moves.leave {s' : St N K} (hc : s'.curproc = update s.curproc c none)
    (ht : ∀ q, q ≠ p → (s.ptable q).state = .running → (s'.ptable q).state = .running) : Moves s s' c p :=
  ⟨fun _ q _ => ht q, Or.inr hc⟩

theorem running_write {t : Table N} {p : Fin N} {f : Proc N → Proc N}
    (h : (t p).state = .running → (f (t p)).state = .running) (q : Fin N) (hq : (t q).state = .running) :
    (t.write p f q).state = .running :=
  Table.write_rel (R := fun x y => x.state = .running → y.state = .running) (fun _ => id) h q hq

theorem running_writeAt {t : Table N} {o : Option (Fin N)} {f : Proc N → Proc N}
    (h : ∀ x, x.state = .running → (f x).state = .running) (q : Fin N) (hq : (t q).state = .running) :
    (t.writeAt o f q).state = .running :=
  Table.writeAt_rel (R := fun x y => x.state = .running → y.state = .running) (fun _ => id) h q hq

theorem running_sleep {q : Fin N} (hq : q ≠ p) (hr : (s.ptable q).state = .running) (chan : Chan N) (pc : Pc N) :
    ((s.sleep c p chan pc).ptable q).state = .running := by
  simpa [St.sleep, Table.write_of_ne, hq] using hr

/-- a change of fields that neither the census nor the CPUs see -/
structure Quiet (s s' : St N K) : Prop where
  census : s'.census = s.census
  curproc : s'.curproc = s.curproc
  running : ∀ q, (s.ptable q).state = .running → (s'.ptable q).state = .running

theorem Quiet.refl (s : St N K) : Quiet s s := ⟨rfl, rfl, fun _ => id⟩

theorem Quiet.trans {s₁ s₂ : St N K} (h : Quiet s s₁) (h' : Quiet s₁ s₂) : Quiet s s₂ :=
  ⟨h'.census.trans h.census, h'.curproc.trans h.curproc, fun q hq => h'.running q (h.running q hq)⟩

theorem Quiet.does {s₁ s' : St N K} (h : Quiet s s₁) (hd : Does odd dying s₁ s' c p) : Does odd dying s s' c p := by
  refine ⟨h.census ▸ hd.turn, ⟨fun c' q hq hqp hr => ?_, h.curproc ▸ hd.moves.self⟩⟩
  exact hd.moves.others c' q (by rw [h.curproc, hq]) hqp (h.running q hr)

theorem Quiet.write {q : Fin N} {f : Proc N → Proc N} (h : SameLife (s.ptable q) (f (s.ptable q)))
    (hr : (f (s.ptable q)).state = (s.ptable q).state) : Quiet s (s.write q f) :=
  ⟨census_write h, rfl, running_write fun h => hr.trans h⟩

theorem Quiet.sysret {s₁ : St N K} (h : Quiet s s₁) (hp : (s.ptable p).state = .running)
    (ha : s.census.act p = .idle) (v : ℤ) : Does odd dying s (s₁.sysret p v) c p := by
  refine ⟨Or.inl ?_, .stay hp h.curproc h.running⟩
  rw [census_sysret, h.census, Census.setAct_eq ha]

theorem Quiet.sleep {s₁ : St N K} (h : Quiet s s₁) (hp : (s.ptable p).state = .running) (chan : Chan N) (pc : Pc N)
    (ha : s.census.act p = pc.act) : Does odd dying s (s₁.sleep c p chan pc) c p := by
  have hl : s.census.life p = .active := ProcState.life_active.2 (Or.inr (Or.inr hp))
  refine ⟨Or.inl ?_, .leave ?_ fun q hq hr => running_sleep hq (h.running q hr) _ _⟩
  · rw [census_sleep (h.census ▸ hl), h.census, Census.setAct_eq ha]
  · rw [← h.curproc]
    rfl

@[simp] theorem exit_ptable (s : St N K) (p : Fin N) : (exit s p).ptable = s.ptable := by
  unfold exit
  split <;> rfl

@[simp] theorem exit_curproc (s : St N K) (p : Fin N) : (exit s p).curproc = s.curproc := by
  unfold exit
  split <;> rfl

theorem census_exit (s : St N K) (p : Fin N) : (exit s p).census = s.census.setAct p .leaving := by
  unfold exit
  split <;> exact census_goto s p _

theorem exit_does (hp : (s.ptable p).state = .running) (ha : s.census.act p = .idle) : Does odd dying s (exit s p) c p := by
  have hl : s.census.life p = .active := ProcState.life_active.2 (Or.inr (Or.inr hp))
  refine ⟨Or.inr ?_, .stay hp (exit_curproc s p) fun q hq => ?_⟩
  · rw [census_exit]
    exact .quit p hl ha
  · rwa [exit_ptable]

theorem kill_does (hp : (s.ptable p).state = .running) (ha : s.census.act p = .idle) (pid : ℤ) :
    Does odd dying s (kill s p pid) c p := by
  unfold kill
  split
  · exact (Quiet.refl s).sysret hp ha _
  · rename_i q _
    have hs : SameLife (s.ptable q) (s.ptable q).kill := by
      refine ⟨?_, rfl, rfl, rfl, rfl⟩
      unfold Proc.kill
      cases (s.ptable q).state <;> rfl
    have hr : (s.ptable q).state = .running → (s.ptable q).kill.state = .running := by
      intro h
      simp [Proc.kill, h]
    exact Quiet.sysret ⟨census_write hs, rfl, running_write hr⟩ hp ha _

theorem findUnused_unused {t : Table N} {np : Fin N} (h : findUnused t = some np) : (t np).state = .unused := by
  simpa using List.find?_some h

theorem allocproc_does (hp : (s.ptable p).state = .running) (ha : s.census.act p = .idle) (f : Maker) :
    Does odd dying s (allocproc s p f) c p := by
  have hl : s.census.life p = .active := ProcState.life_active.2 (Or.inr (Or.inr hp))
  unfold allocproc
  split
  · exact (Quiet.refl s).sysret hp ha _
  · rename_i np hnp
    have hu := findUnused_unused hnp
    have hfree : s.census.life np = .free := by
      simp [St.census, hu, ProcState.life]
    refine ⟨Or.inr ?_, .stay hp rfl (running_write fun h => absurd h (by simp [hu]))⟩
    have he : { ((s.write np fun x => { x with state := .embryo, pid := s.nextpid, uid := s.nextpid }).goto p
        (.make (.kstack f) np)) with nextpid := s.nextpid + 1 }.census =
        (s.census.alloc np).setAct p (.making (.kstack f) np) := by
      change { ((s.write np _).goto p _).census with nextpid := s.nextpid + 1 } = _
      rw [census_goto, census_write_eq]
      simp [Census.alloc, Census.setAct, Census.setLife, Pc.act, ProcState.life, St.census]
    rw [he]
    exact .alloc p np f hl ha hfree

/-- stores into the slot being made: it is not RUNNING, so no CPU notices -/
theorem making_stay {s' : St N K} {np : Fin N} (hp : (s.ptable p).state = .running)
    (hnp : s.census.life np = .embryo) (hc : s'.curproc = s.curproc) (ht : ∀ q, q ≠ np → s'.ptable q = s.ptable q) :
    Moves s s' c p := by
  refine .stay hp hc fun q hq => ?_
  rw [ht q, hq]
  rintro rfl
  simp [St.census, hq, ProcState.life] at hnp

/-- the stores that only the new slot sees -/
theorem makeStep_private (h : Orderly odd s.census) (hp : (s.ptable p).state = .running) {np : Fin N} {st : Making}
    (hpc : s.pc p = .make st np) (hst : st.Private) (hok : ok = true) : Does odd dying s (makeStep s p np ok st) c p := by
  have hl : s.census.life p = .active := ProcState.life_active.2 (Or.inr (Or.inr hp))
  have ha : s.census.act p = .making st np := by
    simp [St.census, hpc, Pc.act]
  have hemb := (h.made p st np hl ha).embryo
  subst hok
  suffices hcen : (makeStep s p np true st).census = (s.census.store p np st).setAct p (.making st.next np) ∧
      Moves s (makeStep s p np true st) c p from
    ⟨Or.inr (by rw [hcen.1]; exact .store p np st hl ha hst), hcen.2⟩
  have hmoves : ∀ s' : St N K, s'.curproc = s.curproc → (∀ q, q ≠ np → s'.ptable q = s.ptable q) → Moves s s' c p :=
    fun s' => making_stay hp hemb
  cases st with
  | tcCount => exact absurd rfl hst.1
  | forkRun => exact absurd rfl hst.2.1
  | tcRun => exact absurd rfl hst.2.2
  | kstack | queuePos | forkThreadId | forkIsjoined | tcPgdir | tcIsjoined =>
    simp only [makeStep, if_true]
    refine ⟨?_, hmoves _ rfl fun q hq => by simp [Table.write_of_ne, hq]⟩
    rw [census_goto, census_write ⟨rfl, rfl, rfl, rfl, rfl⟩]
    rfl
  | waitingFor f =>
    simp only [makeStep]
    refine ⟨?_, hmoves _ rfl fun q hq => by simp [Table.write_of_ne, hq]⟩
    rw [census_goto, census_write ⟨rfl, rfl, rfl, rfl, rfl⟩]
    cases f <;> rfl
  | forkPgdir =>
    simp only [makeStep, if_true]
    refine ⟨?_, hmoves _ rfl fun q hq => by simp [Table.write_of_ne, hq]⟩
    change ((s.write np _).goto p _).census = _
    rw [census_goto, census_write ⟨rfl, rfl, rfl, rfl, rfl⟩]
    rfl
  | threadnum | forkIsthread | tcPid | tcIsthread =>
    simp only [makeStep]
    refine ⟨?_, hmoves _ rfl fun q hq => by simp [Table.write_of_ne, hq]⟩
    rw [census_goto, census_write_eq]
    simp [Census.store, Census.setAct, St.census, Making.next, Pc.act]
  | forkParent | tcParent =>
    simp only [makeStep]
    refine ⟨?_, hmoves _ rfl fun q hq => by simp [Table.write_of_ne, hq]⟩
    rw [census_goto, census_write_eq, show s.mainOf p = s.census.mainOf p from rfl]
    simp [Census.store, Census.setAct, St.census, Making.next, Pc.act]
  | tcThreadId =>
    simp only [makeStep]
    refine ⟨?_, .stay hp rfl fun q hq => ?_⟩
    · rw [census_goto, census_write ⟨rfl, rfl, rfl, rfl, rfl⟩, census_writeAt]
      · rfl
      · exact fun _ => ⟨rfl, rfl, rfl, rfl, rfl⟩
    · refine running_write ?_ q ?_
      · exact id
      · refine running_writeAt ?_ q hq
        exact fun _ h => h

/-- only two of the stores follow an allocation that can fail -/
theorem makeStep_ok {np : Fin N} {st : Making} (h : (∀ f, st ≠ .kstack f) ∧ st ≠ .forkPgdir) :
    makeStep s p np ok st = makeStep s p np true st := by
  cases st with
  | kstack f => exact absurd rfl (h.1 f)
  | forkPgdir => exact absurd rfl h.2
  | _ => rfl

theorem census_publish (s : St N K) (np : Fin N) :
    (s.write np fun x => { x with state := .runnable }).census = s.census.setLife np .active := by
  rw [census_write_eq]
  simp [Census.setLife, St.census, ProcState.life]

/-- **`fork` and `thread_create`.** Every store they make is a turn of the census. -/
theorem makeStep_does (h : Orderly odd s.census) (hp : (s.ptable p).state = .running) {np : Fin N} {st : Making}
    (hpc : s.pc p = .make st np) : Does odd dying s (makeStep s p np ok st) c p := by
  have hl : s.census.life p = .active := ProcState.life_active.2 (Or.inr (Or.inr hp))
  have ha : s.census.act p = .making st np := by
    simp [St.census, hpc, Pc.act]
  have hmade := h.made p st np hl ha
  cases st with
  | kstack f =>
    cases ok with
    | true => exact makeStep_private h hp hpc ⟨nofun, nofun, nofun⟩ rfl
    | false =>
      refine ⟨Or.inr ?_, making_stay hp hmade.embryo rfl fun q hq => by simp [makeStep, Table.write_of_ne, hq]⟩
      have he : (makeStep s p np false (.kstack f)).census = (s.census.setLife np .free).setAct p .idle := by
        simp only [makeStep, Bool.false_eq_true, if_false]
        rw [census_sysret, census_write_eq]
        simp [Census.setLife, Census.setAct, St.census, ProcState.life]
      rw [he]
      exact .abort p np _ hl ha rfl rfl
  | forkPgdir =>
    cases ok with
    | true => exact makeStep_private h hp hpc ⟨nofun, nofun, nofun⟩ rfl
    | false =>
      refine ⟨Or.inr ?_, making_stay hp hmade.embryo rfl fun q hq => by simp [makeStep, Table.write_of_ne, hq]⟩
      have he : (makeStep s p np false .forkPgdir).census = (s.census.setLife np .free).setAct p .idle := by
        simp only [makeStep, Bool.false_eq_true, if_false]
        rw [census_sysret, census_write_eq]
        simp [Census.setLife, Census.setAct, St.census, ProcState.life]
      rw [he]
      exact .abort p np _ hl ha rfl rfl
  | tcCount =>
    obtain ⟨m, hh, _⟩ := h.home p hl
    have hm : (s.ptable np).parent = some m := (hmade.parent rfl).trans hh.mainOf
    simp only [makeStep, hm]
    refine ⟨Or.inr ?_, .stay hp rfl fun q hq => ?_⟩
    swap
    · refine running_writeAt ?_ q hq
      exact fun _ h => h
    have he : ((s.writeAt (some m) fun x => { x with threadnum := x.threadnum + 1 }).goto p
        (.make .tcIsthread np)).census = (s.census.addThreadnum m 1).setAct p (.making .tcIsthread np) := by
      rw [census_goto, show s.writeAt (some m) _ = s.write m _ from rfl, census_write_eq]
      simp [Census.addThreadnum, Census.setAct, St.census, Pc.act]
    rw [he]
    exact .count p np m hl ha hm
  | forkRun | tcRun =>
    simp only [makeStep]
    refine ⟨Or.inr ?_, making_stay hp hmade.embryo rfl fun q hq => by simp [Table.write_of_ne, hq]⟩
    rw [census_sysret, census_goto, census_publish]
    exact .publish p np _ hl ha (by simp)
  | _ =>
    rw [makeStep_ok]
    · exact makeStep_private h hp hpc ⟨nofun, nofun, nofun⟩ rfl
    · exact ⟨nofun, nofun⟩

theorem census_dec (s : St N K) (m : Fin N) :
    (s.write m fun x => { x with threadnum := x.threadnum - 1 }).census = s.census.addThreadnum m (-1) := by
  rw [census_write_eq]
  simp [Census.addThreadnum, St.census, sub_eq_add_neg]

theorem census_zombie (s : St N K) (p : Fin N) :
    (s.write p fun x => { x with state := .zombie }).census = s.census.setLife p .zombie := by
  rw [census_write_eq]
  simp [Census.setLife, St.census, ProcState.life]

theorem sameLife_wake (x : Proc N) (chan : Chan N) : SameLife x (x.wake chan) := by
  unfold Proc.wake
  split
  · rename_i h
    exact ⟨by rw [h.1]; rfl, rfl, rfl, rfl, rfl⟩
  · exact ⟨rfl, rfl, rfl, rfl, rfl⟩

theorem running_wake {x : Proc N} (h : x.state = .running) (chan : Chan N) : (x.wake chan).state = .running := by
  simp [Proc.wake, h]

/-- **`thread_exit`.** The last slot of a process leaves through `exit`; any other retires at once. -/
theorem threadExit_does (h : Orderly odd s.census) (hp : (s.ptable p).state = .running) (ha : s.census.act p = .idle)
    (hlast : ∀ m, s.mainOf p = some m → (s.ptable m).threadnum = 1 → odd (s.ptable p).isthread) (v : ℕ) :
    Does odd dying s (threadExit s c p v) c p := by
  have hl : s.census.life p = .active := ProcState.life_active.2 (Or.inr (Or.inr hp))
  obtain ⟨m, hh, _⟩ := h.home p hl
  have hm : s.mainOf p = some m := hh.mainOf
  -- giving up the last count and leaving
  have hleave : (s.ptable m).threadnum = 1 →
      Does odd dying s (exit (s.write m fun x => { x with threadnum := x.threadnum - 1 }) p) c p := by
    intro h1
    refine ⟨Or.inr ?_, .stay hp (exit_curproc _ _) fun q hq => ?_⟩
    · rw [census_exit, census_dec]
      exact .last p m hl ha hm h1 (hlast m hm h1)
    · rw [exit_ptable]
      refine running_write ?_ q hq
      exact id
  by_cases hi : (s.ptable p).isthread = true
  · have hpar : (s.ptable p).parent = some m := hh.thread hi
    by_cases h1 : (s.ptable m).threadnum = 1
    · have he : threadExit s c p v = exit (s.write m fun x => { x with threadnum := x.threadnum - 1 }) p := by
        simp [threadExit, parentThreadnum, hi, hpar, h1]
        rfl
      exact he ▸ hleave h1
    · -- s₃ is the state in which the slot has just become a zombie
      let s₃ := ((s.write p fun x => { x with retVal := v }).write m
        fun x => { x with threadnum := x.threadnum - 1 }).write p fun x => { x with state := .zombie }
      have hcen : s₃.census = (s.census.addThreadnum m (-1)).setLife p .zombie := by
        rw [census_zombie, census_dec, census_write ⟨rfl, rfl, rfl, rfl, rfl⟩]
      have hrun : ∀ q, q ≠ p → (s.ptable q).state = .running → (s₃.ptable q).state = .running := by
        intro q hq hr
        simp only [s₃, St.write_ptable, Table.write_of_ne _ hq]
        refine running_write ?_ q ?_
        · exact id
        · rwa [St.write_ptable, Table.write_of_ne _ hq]
      have he : threadExit s c p v =
          (if (s₃.ptable p).isjoined then { s₃ with ptable := wakeup1 s₃.ptable (.proc p) } else s₃).leave c := by
        simp only [threadExit, parentThreadnum, hi, hpar, if_true, if_neg h1]
        rfl
      rw [he]
      split
      · refine ⟨Or.inr ?_, .leave rfl fun q hq hr => running_wake (hrun q hq hr) _⟩
        have hw : { s₃ with ptable := wakeup1 s₃.ptable (.proc p) }.census = s₃.census :=
          census_table fun q => sameLife_wake _ _
        rw [census_leave, hw, hcen]
        exact .retire p m hl ha hm
      · refine ⟨Or.inr ?_, .leave rfl hrun⟩
        rw [census_leave, hcen]
        exact .retire p m hl ha hm
  · obtain rfl := hh.self (Bool.eq_false_iff.2 hi)
    by_cases h1 : (s.ptable p).threadnum = 1
    · have he : threadExit s c p v = exit (s.write p fun x => { x with threadnum := x.threadnum - 1 }) p := by
        simp [threadExit, hi, h1]
      exact he ▸ hleave h1
    · simp only [threadExit, hi, if_neg h1, Bool.false_eq_true, if_false]
      refine ⟨Or.inr ?_, .leave rfl fun q hq hr => by simpa [Table.write_of_ne, hq] using hr⟩
      have hcen : (s.write p fun x => { x with threadnum := x.threadnum - 1, state := .zombie }).census =
          (s.census.addThreadnum p (-1)).setLife p .zombie := by
        rw [census_write_eq]
        simp [Census.addThreadnum, Census.setLife, St.census, ProcState.life, sub_eq_add_neg]
      rw [census_leave, hcen]
      exact .retire p p hl ha hm

theorem waitFind_reapable {t : Table N} {q : Fin N} (h : waitFind t p = some q) : Reapable p (t q) := by
  simpa using List.find?_some h

/-- `wait` found a child: a zombie main slot with no count left -/
theorem exists_of_waitFound {t : Table N} (h : waitFound t p ≠ 0) :
    ∃ m, Reapable p (t m) ∧ (t m).pid = waitFound t p := by
  unfold waitFound at h ⊢
  split at h
  · exact absurd rfl h
  · rename_i m hm
    exact ⟨m, waitFind_reapable hm, rfl⟩

theorem census_reap (s : St N K) (X : ℕ) : { s with ptable := reap s.ptable X }.census = s.census.reap X := by
  simp only [St.census, Census.reap, reap, Census.mk.injEq, and_true]
  refine ⟨?_, ?_, ?_, ?_, ?_⟩ <;>
  · funext q
    split <;> simp_all [ProcState.life]

/-- the caller of `wait` is not of the pid it reaps -/
theorem waiter_pid_ne (h : Orderly odd s.census) (hp : (s.ptable p).state = .running) (ha : s.census.act p = .idle)
    {m : Fin N} (hm : Reapable p (s.ptable m)) : (s.ptable p).pid ≠ (s.ptable m).pid := by
  intro hpm
  have hl : s.census.life p = .active := ProcState.life_active.2 (Or.inr (Or.inr hp))
  have hz : s.census.life m = .zombie := by
    simp [St.census, hm.2.1, ProcState.life]
  have := (h.reap_leaving hz hm.2.2.1 hm.2.2.2 hl hpm).1
  rw [ha] at this
  cases this

/-- **`wait`.** One round reaps a pid or leaves the census as it is. -/
theorem waitLoop_does (h : Orderly odd s.census) (hp : (s.ptable p).state = .running) (ha : s.census.act p = .idle)
    (hcpu : ∀ c q, s.curproc c = some q → q ≠ p → (s.ptable q).pid ≠ waitFound s.ptable p) :
    Does odd dying s (waitLoop s c p) c p := by
  have hl : s.census.life p = .active := ProcState.life_active.2 (Or.inr (Or.inr hp))
  unfold waitLoop
  dsimp only
  split
  · rename_i hf
    obtain ⟨m, hm, hX⟩ := exists_of_waitFound hf
    have hz : s.census.life m = .zombie := by
      simp [St.census, hm.2.1, ProcState.life]
    refine ⟨Or.inr ?_, ⟨fun c' q hq hqp hr => ?_, Or.inl ⟨rfl, ?_⟩⟩⟩
    · have he : ∀ fr, { s with ptable := reap s.ptable (waitFound s.ptable p), freed := fr }.census =
          s.census.reap (waitFound s.ptable p) := fun _ => census_reap s _
      rw [census_sysret, he, Census.setAct_eq (show (s.census.reap _).act p = .idle from ha), ← hX]
      exact .reap p m hl ha hz hm.2.2.1 hm.2.2.2
    · simp [reap, hcpu c' q hq hqp, hr]
    · have := waiter_pid_ne h hp ha hm
      rw [hX] at this
      simp [reap, this, hp]
  · split
    · exact (Quiet.refl s).sysret hp ha _
    · exact (Quiet.refl s).sleep hp _ .waitSleep ha

theorem threadJoin_does (hp : (s.ptable p).state = .running) (ha : s.census.act p = .idle) (tid : ℤ) :
    Does odd dying s (threadJoin s c p tid) c p := by
  unfold threadJoin
  split
  · exact (Quiet.refl s).sysret hp ha _
  · rename_i q _
    split
    · exact (Quiet.refl s).sysret hp ha _
    split
    · exact (Quiet.refl s).sysret hp ha _
    · exact (Quiet.write ⟨rfl, rfl, rfl, rfl, rfl⟩ rfl).sleep hp _ .joinSleep ha

/-! The semaphores touch no part of the census. -/

theorem semCreate_does (hp : (s.ptable p).state = .running) (ha : s.census.act p = .idle) (v : ℤ) :
    Does odd dying s (binarySemaphoreCreate s p v) c p := by
  unfold binarySemaphoreCreate
  split
  · exact (Quiet.refl s).sysret hp ha _
  · refine Quiet.sysret ?_ hp ha _
    exact ⟨rfl, rfl, fun _ h => h⟩

theorem enqueue_quiet (s : St N K) (p : Fin N) (id : SemId) : Quiet s (enqueue s p id) :=
  ⟨census_write ⟨rfl, rfl, rfl, rfl, rfl⟩, rfl, running_write fun h => h⟩

theorem downLoop_does (hp : (s.ptable p).state = .running) (ha : s.census.act p = .idle) (id : SemId) :
    Does odd dying s (downLoop s c p id) c p := by
  unfold downLoop
  split
  · split
    · refine Quiet.sysret ?_ hp ha _
      exact ⟨census_write ⟨rfl, rfl, rfl, rfl, rfl⟩, rfl, running_write fun h => h⟩
    · have hq : Quiet s (if (s.ptable p).semQueuePos = 0 then enqueue s p id else s) := by
        split
        · exact enqueue_quiet s p id
        · exact .refl s
      exact (hq.trans (Quiet.write ⟨rfl, rfl, rfl, rfl, rfl⟩ rfl)).sleep hp _ (.downSleep id) ha
  · exact (Quiet.refl s).sysret hp ha _

theorem down_does (hp : (s.ptable p).state = .running) (ha : s.census.act p = .idle) (id : SemId) :
    Does odd dying s (binarySemaphoreDown s c p id) c p := by
  have hlog : Quiet s (s.log (.call (s.who p) id)) := ⟨rfl, rfl, fun _ h => h⟩
  unfold binarySemaphoreDown
  dsimp only
  split
  · have hq := hlog.trans (enqueue_quiet _ p id)
    exact hq.does (downLoop_does (hq.running p hp) (by rw [hq.census, ha]) id)
  · exact hlog.does (downLoop_does (s := s.log _) hp ha id)

/-- what the loop of `binary_semaphore_up` and the wakeup after it can do to a slot -/
theorem up_slot (t : Table N) (p : Fin N) (id : SemId) (o : Option (Fin N)) (q : Fin N) :
    SameLife (t q) ((upSlot t p id).writeAt o Proc.wakeFirst q) ∧
      ((t q).state = .running → ((upSlot t p id).writeAt o Proc.wakeFirst q).state = .running) := by
  have h1 : SameLife (t q) (upSlot t p id q) ∧ (upSlot t p id q).state = (t q).state := by
    unfold upSlot
    split <;> exact ⟨⟨rfl, rfl, rfl, rfl, rfl⟩, rfl⟩
  have h2 : ∀ x : Proc N, SameLife x x.wakeFirst := by
    intro x
    refine ⟨?_, rfl, rfl, rfl, rfl⟩
    unfold Proc.wakeFirst
    cases x.state <;> rfl
  have h3 : ∀ x : Proc N, x.state = .running → x.wakeFirst.state = .running := by
    intro x hx
    simp [Proc.wakeFirst, hx]
  cases o with
  | none => exact ⟨h1.1, fun h => h1.2.trans h⟩
  | some f =>
    by_cases hq : q = f
    · subst hq
      simp only [Table.writeAt, Table.write_self]
      have h4 := h2 (upSlot t p id q)
      exact ⟨⟨h4.life.trans h1.1.life, h4.pid.trans h1.1.pid, h4.parent.trans h1.1.parent,
        h4.isthread.trans h1.1.isthread, h4.threadnum.trans h1.1.threadnum⟩, fun h => h3 _ (h1.2.trans h)⟩
    · simp only [Table.writeAt, Table.write_of_ne _ hq]
      exact ⟨h1.1, fun h => h1.2.trans h⟩

theorem up_does (hp : (s.ptable p).state = .running) (ha : s.census.act p = .idle) (id : SemId) :
    Does odd dying s (binarySemaphoreUp s p id) c p := by
  unfold binarySemaphoreUp
  split
  · refine Quiet.sysret ?_ hp ha _
    exact ⟨census_table fun q => (up_slot _ p id _ q).1, rfl, fun q => (up_slot _ p id _ q).2⟩
  · exact (Quiet.refl s).sysret hp ha _

/-! `exit` under the lock. -/

/-- every slot that is about to die has its main slot in the same process -/
theorem parentsWithin (h : Orderly odd s.census) (hl : s.census.life p = .active) :
    ParentsWithin s.ptable (s.ptable p).pid := by
  intro q m hq hz ht hm
  have hqp : s.census.pid q = s.census.pid p := hq
  cases hlife : s.census.life q with
  | active =>
    obtain ⟨m', hh, _⟩ := h.home q hlife
    have hpar := hh.thread ht
    rw [show s.census.parent q = some m from hm] at hpar
    cases hpar
    exact hh.pid.trans hq
  | zombie =>
    cases hs : (s.ptable q).state <;> simp [St.census, hs, ProcState.life] at hlife
    exact absurd hs hz
  | free => exact absurd hqp (h.free_pid_ne hlife (by rw [hl]; nofun))
  | embryo =>
    rcases h.embryo q hlife with ha | ⟨r, st, h1, h2, h3⟩
    · obtain rfl := ha p hqp.symm
      rw [hl] at hlife
      cases hlife
    · have hmade := h.made r st q h1 h2
      by_cases hpar : st.parented = true
      · obtain ⟨m', hh, _⟩ := h.home r h1
        have hm' := hmade.parent hpar
        rw [hh.mainOf, show s.census.parent q = some m from hm] at hm'
        cases hm'
        exact hh.pid.trans ((hmade.pid h3).symm.trans hq)
      · have := hmade.orphan (by simpa using hpar)
        rw [show s.census.parent q = some m from hm] at this
        cases this

theorem exitLocked_exits (h : Orderly odd s.census) (hl : s.census.life p = .active) :
    Exits s.census (exitLocked s c p).census p := by
  have hv := fun q => exitSection_visited s.initproc (parentsWithin h hl) q
  refine ⟨fun q => ?_, funext fun q => (hv q).pid, fun q => ?_, funext fun q => (hv q).isthread,
    fun q => (hv q).threadnum, rfl, rfl⟩
  · show (exitSection s.initproc p s.ptable q).state.life = _
    by_cases hq : s.census.pid q = s.census.pid p
    · rw [(hv q).dead hq, if_pos hq]
      rfl
    · rw [if_neg hq]
      rcases (hv q).state hq with he | ⟨h1, h2⟩
      · rw [he]
        rfl
      · rw [h2]
        simp [St.census, h1, ProcState.life]
  · rcases (hv q).parent with he | ⟨h1, h2, h3, _⟩
    · exact Or.inl he
    · refine Or.inr ⟨h1, h2, h3.imp_right fun hz => ?_⟩
      simp [St.census, hz, ProcState.life]

/-- **`exit` under the lock.** The whole process dies, and what other CPUs run goes on running if none of it is part of
the process. -/
theorem exitLocked_does (h : Orderly odd s.census) (hp : (s.ptable p).state = .running) (hd : dying p)
    (hcpu : ∀ c q, s.curproc c = some q → q ≠ p → (s.ptable q).pid ≠ (s.ptable p).pid) :
    Does odd dying s (exitLocked s c p) c p := by
  have hl : s.census.life p = .active := ProcState.life_active.2 (Or.inr (Or.inr hp))
  refine ⟨Or.inr (.exit _ p hl hd (exitLocked_exits h hl)), ⟨fun c' q hq hqp hr => ?_, Or.inr rfl⟩⟩
  have hv := exitSection_visited s.initproc (parentsWithin h hl) q
  rcases hv.state (hcpu c' q hq hqp) with he | ⟨h1, _⟩
  · exact he.trans hr
  · rw [hr] at h1
    cases h1

end Operations

/-! ## Premises on a step -/

/-- the process whose `exit` takes `ptable.lock` in this step -/
def exiting (s : St N K) : Op N K → Option (Fin N)
  | .exec c _ => (s.curproc c).filter fun p => s.pc p = .exitClose
  | _ => none

/-- the process that scans for a child to reap in this step -/
def waiter (s : St N K) : Op N K → Option (Fin N)
  | .call c .wait => (s.curproc c).filter fun p => s.pc p = .user ∧ (s.ptable p).killed = false
  | .dispatch c p =>
    if s.curproc c = none ∧ (s.ptable p).state = .runnable ∧ s.pc p = .waitSleep then some p else none
  | _ => none

/-- the process that calls `thread_exit` in this step as the only one still counted in its threadnum -/
def lastExit (s : St N K) : Op N K → Option (Fin N)
  | .call c (.threadExit _) => (s.curproc c).filter fun p =>
      s.pc p = .user ∧ (s.ptable p).killed = false ∧ ∃ m ∈ s.mainOf p, (s.ptable m).threadnum = 1
  | _ => none

/-- no other CPU runs a slot of a process that dies or is reaped in this step -/
def CpusApart (s : St N K) (o : Op N K) : Prop :=
  (∀ p ∈ exiting s o, ∀ c, ∀ q ∈ s.curproc c, q ≠ p → (s.ptable q).pid ≠ (s.ptable p).pid) ∧
    ∀ p ∈ waiter s o, ∀ c, ∀ q ∈ s.curproc c, q ≠ p → (s.ptable q).pid ≠ waitFound s.ptable p

/-- only slots allowed by `odd` give up the last count of their process in this step -/
def LastOk (odd : Bool → Prop) (s : St N K) (o : Op N K) : Prop := ∀ p ∈ lastExit s o, odd (s.ptable p).isthread

instance (s : St N K) (o : Op N K) : Decidable (CpusApart s o) := by
  unfold CpusApart
  infer_instance

instance (odd : Bool → Prop) [DecidablePred odd] (s : St N K) (o : Op N K) : Decidable (LastOk odd s o) := by
  unfold LastOk
  infer_instance

/-- on one CPU there is no other CPU -/
theorem cpusApart_one (s : St N 1) (o : Op N 1) : CpusApart s o := by
  have hone : ∀ {c c' : Fin 1} {p q : Fin N}, p ∈ s.curproc c' → q ∈ s.curproc c → q = p := by
    intro c c' p q hp hq
    rw [Subsingleton.elim c c'] at hq
    exact Option.mem_unique hq hp
  refine ⟨fun p hp c q hq hqp => ?_, fun p hp c q hq hqp => ?_⟩
  · cases o with
    | exec c' ok => exact absurd (hone (Option.mem_filter_iff.1 hp).1 hq) hqp
    | _ => cases hp
  · unfold waiter at hp
    split at hp
    · exact absurd (hone (Option.mem_filter_iff.1 hp).1 hq) hqp
    · rename_i c' p'
      split at hp
      · rename_i hw
        rw [Subsingleton.elim c c', hw.1] at hq
        cases hq
      · cases hp
    · cases hp

section Steps

variable {odd : Bool → Prop} {dying : Fin N → Prop} {s : St N K} {c : Fin K} {p : Fin N} {o : Op N K}

theorem Quiet.stay {s' : St N K} (h : Quiet s s') (hp : (s.ptable p).state = .running) : Does odd dying s s' c p :=
  ⟨Or.inl h.census, .stay hp h.curproc h.running⟩

theorem syscall_does (h : Orderly odd s.census) (hc : s.curproc c = some p) (hp : (s.ptable p).state = .running)
    (hu : s.pc p = .user) (hk : (s.ptable p).killed = false) (f : Syscall) (hapart : CpusApart s (.call c f))
    (hlast : LastOk odd s (.call c f)) : Does odd dying s (syscall s c p f) c p := by
  have ha : s.census.act p = .idle := by
    simp [St.census, hu, Pc.act]
  cases f with
  | fork => exact allocproc_does hp ha _
  | threadCreate => exact allocproc_does hp ha _
  | exit => exact exit_does hp ha
  | wait =>
    refine waitLoop_does h hp ha fun c' q hq hqp => hapart.2 p ?_ c' q hq hqp
    simp [waiter, hc, hu, hk]
  | kill pid => exact kill_does hp ha _
  | threadExit v =>
    refine threadExit_does h hp ha (fun m hm h1 => hlast p ?_) v
    simp [lastExit, hc, hu, hk, hm, h1]
  | threadJoin tid => exact threadJoin_does hp ha _
  | semCreate v => exact semCreate_does hp ha _
  | semDown id => exact down_does hp ha _
  | semUp id => exact up_does hp ha _

theorem kernelStep_does (h : Orderly odd s.census) (hc : s.curproc c = some p) (hp : (s.ptable p).state = .running)
    {ok : Bool} (hapart : CpusApart s (.exec c ok)) :
    Does odd (· ∈ exiting s (.exec c ok)) s (kernelStep s c p ok (s.pc p)) c p := by
  cases hpc : s.pc p with
  | make st np => exact makeStep_does h hp hpc
  | exitClose =>
    have hd : p ∈ exiting s (.exec c ok) := by
      simp [exiting, hc, hpc]
    exact exitLocked_does h hp hd fun c' q hq hqp => hapart.1 p hd c' q hq hqp
  | downSleep id => exact downLoop_does hp (by simp [St.census, hpc, Pc.act]) id
  | _ => exact (Quiet.refl s).stay hp

theorem stepOn_does (h : Orderly odd s.census) (hc : s.curproc c = some p) (hp : (s.ptable p).state = .running)
    (hoc : o.cpu = some c) (hapart : CpusApart s o) (hlast : LastOk odd s o) :
    Does odd (· ∈ exiting s o) s (stepOn s c p o) c p := by
  have hl : s.census.life p = .active := ProcState.life_active.2 (Or.inr (Or.inr hp))
  have ha : s.pc p = .user → s.census.act p = .idle := fun hu => by
    simp [St.census, hu, Pc.act]
  cases o with
  | dispatch c' q => cases hoc
  | wakeDev n => cases hoc
  | preempt c' =>
    simp only [stepOn]
    split
    · refine ⟨Or.inl ?_, .leave rfl fun q hq hr => by simpa [Table.write_of_ne, hq] using hr⟩
      rw [census_leave, census_write]
      exact ⟨hl.symm, rfl, rfl, rfl, rfl⟩
    · exact (Quiet.refl s).stay hp
  | trap c' fault =>
    simp only [stepOn]
    split
    · rename_i hu
      have hq : Quiet s (if fault = true then s.write p fun x => { x with killed := true } else s) := by
        split
        · exact Quiet.write ⟨rfl, rfl, rfl, rfl, rfl⟩ rfl
        · exact .refl s
      generalize (if fault = true then s.write p fun x => { x with killed := true } else s) = s₁ at hq ⊢
      split
      · exact hq.does (exit_does (hq.running p hp) (by rw [hq.census, ha hu]))
      · exact hq.stay hp
    · exact (Quiet.refl s).stay hp
  | call c' f =>
    obtain rfl : c' = c := Option.some.inj hoc
    simp only [stepOn]
    split
    · rename_i hu
      split
      · exact exit_does hp (ha hu)
      · rename_i hk
        exact syscall_does h hc hp hu (by simpa using hk) f hapart hlast
    · exact (Quiet.refl s).stay hp
  | exec c' ok =>
    obtain rfl : c' = c := Option.some.inj hoc
    exact kernelStep_does h hc hp hapart
  | sleepDev c' n =>
    simp only [stepOn]
    split
    · exact (Quiet.refl s).sleep hp _ _ rfl
    · exact (Quiet.refl s).stay hp

end Steps

/-! ## The invariant of the kernel -/

structure Kept (odd : Bool → Prop) (s : St N K) : Prop where
  cpus : OnCpu s
  orderly : Orderly odd s.census

section Kernel

variable {odd : Bool → Prop} {dying : Fin N → Prop} {s : St N K} {o : Op N K}

theorem census_dispatched {c : Fin K} {p : Fin N} (hp : (s.ptable p).state = .runnable) :
    (dispatched s c p).census = s.census := by
  unfold dispatched
  rw [census_write]
  · rfl
  · refine ⟨?_, rfl, rfl, rfl, rfl⟩
    show _ = (s.ptable p).state.life
    rw [hp]
    rfl

theorem OnCpu.dispatched {c : Fin K} {p : Fin N} (h : OnCpu s) (hp : (s.ptable p).state = .runnable) :
    OnCpu (dispatched s c p) := by
  have hne : ∀ c' q, s.curproc c' = some q → q ≠ p := by
    rintro c' q hq rfl
    have := h.running c' q hq
    rw [hp] at this
    cases this
  have hcur : ∀ c' q, (Kernel.dispatched s c p).curproc c' = some q → (c' = c ∧ q = p) ∨ s.curproc c' = some q := by
    intro c' q hq
    by_cases hcc : c' = c
    · subst hcc
      simp [Kernel.dispatched] at hq
      exact Or.inl ⟨rfl, hq.symm⟩
    · simp [Kernel.dispatched, hcc] at hq
      exact Or.inr hq
  refine ⟨fun c' q hq => ?_, fun c1 c2 q h1 h2 => ?_⟩
  · rcases hcur c' q hq with ⟨_, rfl⟩ | hq
    · simp [Kernel.dispatched]
    · simpa [Kernel.dispatched, Table.write_of_ne _ (hne c' q hq)] using h.running c' q hq
  · rcases hcur c1 q h1 with ⟨e1, rfl⟩ | g1 <;> rcases hcur c2 q h2 with ⟨e2, hq⟩ | g2
    · exact e1.trans e2.symm
    · exact absurd rfl (hne c2 q g2)
    · exact absurd hq (hne c1 q g1)
    · exact h.inj c1 c2 q g1 g2

/-- being dispatched does not change what `wait` finds: the scanner itself is no zombie -/
theorem waitFound_dispatched {c : Fin K} {p : Fin N} (hp : (s.ptable p).state = .runnable) :
    waitFound (dispatched s c p).ptable p = waitFound s.ptable p := by
  have hpid : ∀ q, ((dispatched s c p).ptable q).pid = (s.ptable q).pid := by
    intro q
    exact congrFun (congrArg Census.pid (census_dispatched hp)) q
  have hr : ∀ q, Reapable p ((dispatched s c p).ptable q) ↔ Reapable p (s.ptable q) := by
    intro q
    by_cases hq : q = p
    · subst hq
      simp [Reapable, Kernel.dispatched, hp]
    · simp [Kernel.dispatched, Table.write_of_ne _ hq]
  have hf : waitFind (dispatched s c p).ptable p = waitFind s.ptable p := by
    simp only [waitFind, hr]
  unfold waitFound
  rw [hf]
  split
  · rfl
  · exact hpid _

theorem resume_does {c : Fin K} {p : Fin N} (h : Orderly odd s.census) (hp : (s.ptable p).state = .running)
    (hcpu : s.pc p = .waitSleep → ∀ c q, s.curproc c = some q → q ≠ p → (s.ptable q).pid ≠ waitFound s.ptable p) :
    Does odd dying s (resume s c p) c p := by
  unfold resume
  split
  · rename_i hpc
    exact waitLoop_does h hp (by simp [St.census, hpc, Pc.act]) (hcpu hpc)
  · rename_i hpc
    exact (Quiet.refl s).sysret hp (by simp [St.census, hpc, Pc.act]) _
  · exact (Quiet.refl s).stay hp

/-- **Refinement.** A step of the kernel is a turn of the census or leaves it unchanged, and keeps the CPUs in order. -/
theorem step_turn (h : Kept odd s) (hapart : CpusApart s o) (hlast : LastOk odd s o) :
    ((step s o).census = s.census ∨ Turn odd (· ∈ exiting s o) s.census (step s o).census) ∧ OnCpu (step s o) := by
  refine step_cases (P := fun s' =>
    (s'.census = s.census ∨ Turn odd (· ∈ exiting s o) s.census s'.census) ∧ OnCpu s')
    ⟨Or.inl rfl, h.cpus⟩ (fun c p ho hc hr => ?_) (fun n _ => ?_) (fun c p hoc hc => ?_)
  · -- the process runs, then finishes what it was doing under the lock
    have hcen := census_dispatched (c := c) hr
    have hon := h.cpus.dispatched (c := c) hr
    have hcp : (dispatched s c p).curproc c = some p := by
      simp [dispatched]
    have hd : Does odd (· ∈ exiting s o) (dispatched s c p) (resume (dispatched s c p) c p) c p := by
      refine resume_does (hcen ▸ h.orderly) (hon.running c p hcp) fun hw c' q hq hqp => ?_
      have hcc : c' ≠ c := by
        rintro rfl
        exact hqp (Option.some.inj (hq.symm.trans hcp))
      have hq' : s.curproc c' = some q := by
        simpa [dispatched, hcc] using hq
      rw [waitFound_dispatched hr, show ((dispatched s c p).ptable q).pid = (s.ptable q).pid from
        congrFun (congrArg Census.pid hcen) q]
      refine hapart.2 p ?_ c' q hq' hqp
      rw [ho]
      simp [waiter, hc, hr, show s.pc p = .waitSleep from hw]
    exact ⟨hcen ▸ hd.turn, hon.moves hcp hd.moves⟩
  · refine ⟨Or.inl (census_table fun q => sameLife_wake _ _), fun c p hp => running_wake (h.cpus.running c p hp) _,
      h.cpus.inj⟩
  · have hd := stepOn_does h.orderly hc (h.cpus.running c p hc) hoc hapart hlast
    exact ⟨hd.turn, h.cpus.moves hc hd.moves⟩

/-- every step keeps the invariant -/
theorem step_kept (h : Kept odd s) (hapart : CpusApart s o) (hlast : LastOk odd s o) : Kept odd (step s o) := by
  obtain ⟨ht, hc⟩ := step_turn h hapart hlast
  refine ⟨hc, ?_⟩
  rcases ht with he | ht
  · rw [he]
    exact h.orderly
  · exact ht.orderly h.orderly

theorem boot_life [NeZero N] (q : Fin N) : (boot N K).census.life q = if q = 0 then .active else .free := by
  by_cases hq : q = 0 <;> simp [St.census, boot, freeSlot, ProcState.life, hq]

theorem boot_pid [NeZero N] (q : Fin N) : (boot N K).census.pid q = if q = 0 then 1 else 0 := by
  by_cases hq : q = 0 <;> simp [St.census, boot, freeSlot, hq]

theorem boot_parent [NeZero N] (q : Fin N) : (boot N K).census.parent q = none := by
  by_cases hq : q = 0 <;> simp [St.census, boot, freeSlot, hq]

theorem boot_isthread [NeZero N] (q : Fin N) : (boot N K).census.isthread q = false := by
  by_cases hq : q = 0 <;> simp [St.census, boot, freeSlot, hq]

theorem boot_home [NeZero N] : Home (boot N K).census 0 0 ∧ Balanced odd (boot N K).census 0 0 := by
  have hlife := boot_life (N := N) (K := K)
  refine ⟨⟨rfl, boot_isthread 0, Or.inl (by simp [hlife]), fun h => ?_, fun _ => rfl, fun q hq _ _ => ?_⟩, Or.inl ?_⟩
  · simp [boot_isthread] at h
  · by_contra hne
    simp [Census.Live, hlife, hne] at hq
  · have hc := tally_split ((boot N K).census.share 1) id 0
    have h0 : others ((boot N K).census.share 1) id 0 = 0 := Finset.sum_eq_zero fun q hq => by
      simp [Census.share, hlife, Finset.ne_of_mem_erase hq]
    have h1 : (boot N K).census.share 1 0 = 1 := by
      simp [Census.share, boot_life, boot_pid]
      rfl
    have hn : (boot N K).census.threadnum 0 = 1 := by
      simp [St.census, boot]
    simp only [id, h0, h1] at hc
    rw [hn, boot_pid, if_pos rfl, Census.weight, hc]
    rfl

theorem boot_kept [NeZero N] : Kept odd (boot N K) := by
  have hlife := boot_life (N := N) (K := K)
  have hpid := boot_pid (N := N) (K := K)
  refine ⟨⟨nofun, nofun⟩, ⟨Nat.succ_pos _, fun q => ?_, fun q => ?_, fun q hq => ⟨boot_parent q, Or.inl ?_⟩,
    fun q hq => ?_, nofun, nofun, fun p hp => ?_, fun q hq => ?_⟩⟩
  · rw [hpid, show (boot N K).census.nextpid = 2 from rfl]
    split <;> decide
  · rw [hpid, hlife]
    split <;> simp
  · rw [hpid]
    rw [hlife] at hq
    split at hq
    · cases hq
    · simp [*]
  · rw [hlife] at hq
    split at hq <;> cases hq
  · rw [hlife] at hp
    split at hp
    · subst p
      exact ⟨0, boot_home⟩
    · cases hp
  · rw [hlife] at hq
    split at hq <;> cases hq

end Kernel

/-! ## Whole runs -/

/-- some turn of the census -/
def Census.Next (l l' : Census N) : Prop := ∃ dying, Turn (fun _ => True) dying l l'

theorem run_kept [NeZero N] {ops : List (Op N K)} (h : Along step CpusApart (boot N K) ops) :
    Kept (fun _ => True) (run step (boot N K) ops) :=
  h.inv (fun _ _ ho hs => step_kept hs ho fun _ _ => trivial) boot_kept

/-- **The kernel refines the life cycle.** Every run is a sequence of turns of the census, on any number of CPUs, if no other
CPU runs a slot of a process that dies or is reaped. -/
theorem run_refines [NeZero N] (ops : List (Op N K)) (h : Along step CpusApart (boot N K) ops) :
    Relation.ReflTransGen Census.Next (boot N K).census (run step (boot N K) ops).census := by
  have hkept : Kept (fun _ => True) (boot N K) := boot_kept
  generalize boot N K = s at h hkept ⊢
  induction ops generalizing s with
  | nil => exact .refl
  | cons o ops ih =>
    have hlast : LastOk (fun _ => True) s o := fun _ _ => trivial
    have hrest := ih (step s o) h.2 (step_kept hkept h.1 hlast)
    rcases (step_turn hkept h.1 hlast).1 with he | ht
    · rwa [he] at hrest
    · exact .head ⟨_, ht⟩ hrest

/-- init forks -/
theorem run_refines_fork : Relation.ReflTransGen Census.Next (boot 64 2).census
    (run step (boot 64 2) [.dispatch 0 0, .call 0 .fork, .exec 0 true]).census :=
  run_refines _ (by decide +kernel)

/-- **Every process has one main slot, which counts its slots.** Its threads point to it, and its threadnum is the number of
active slots of the pid and of those counted before they run, or 0 when the last one is on its way out. -/
theorem slots_counted [NeZero N] (ops : List (Op N K)) (h : Along step CpusApart (boot N K) ops) :
    let s := run step (boot N K) ops
    ∀ p, (s.ptable p).state.Active → ∃ m, Home s.census p m ∧ Balanced (fun _ => True) s.census p m :=
  fun p hp => (run_kept h).orderly.home p (ProcState.life_active.2 hp)

/-- init has forked -/
theorem slots_counted_init :
    let s := run step (boot 64 2) [.dispatch 0 0, .call 0 .fork]
    ∃ m, Home s.census 0 m ∧ Balanced (fun _ => True) s.census 0 m :=
  slots_counted _ (by decide +kernel) 0 (by decide +kernel)

/-- **A CPU runs a RUNNING slot, and no slot runs on two CPUs.** -/
theorem cpus_run_apart [NeZero N] (ops : List (Op N K)) (h : Along step CpusApart (boot N K) ops) :
    OnCpu (run step (boot N K) ops) := (run_kept h).cpus

/-- two CPUs ask for init -/
theorem cpus_run_apart_init : OnCpu (run step (boot 64 2) [.dispatch 0 0, .dispatch 1 0]) :=
  cpus_run_apart _ (by decide +kernel)

end Xv6Threads.Kernel
