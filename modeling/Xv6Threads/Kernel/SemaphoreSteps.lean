/-
Which steps of the kernel are semaphore calls, and what the others leave alone.

`semCall s o` says which locked section of which semaphore call the step `o` runs, if any. Every other step passes the
semaphores by: it writes neither `semtable` nor the history (`step_table`), and what it does to a slot is either nothing
that matters to a semaphore or done to a slot outside `binary_semaphore_down` (`Aside`, `step_aside`). The one way in
which a process inside `binary_semaphore_down` ends there is the `exit` of a slot with its pid, so that is the one
parameter of `Aside` (`Spared`).

`Tidy` is what the makers of slots and the calls leave behind: a process that is not inside `binary_semaphore_down` is
registered with no semaphore and has position 0.
-/
import Xv6Threads.Kernel.Reaping

namespace Xv6Threads.Kernel

open Xv6Threads.Core

variable {N K : ℕ}

/-! ## Semaphore calls -/

/-- the locked sections of the semaphore calls; `retest` is a round of `down` after a wakeup -/
inductive SemCall where
  | create (v : ℤ)
  | down (id : SemId)
  | retest (id : SemId)
  | up (id : SemId)
  deriving DecidableEq

/-- the semaphore call behind a system call -/
def Syscall.sem : Syscall → Option SemCall
  | .semCreate v => some (.create v)
  | .semDown id => some (.down id)
  | .semUp id => some (.up id)
  | _ => none

/-- the retest behind a place in the kernel -/
def Pc.sem : Pc N → Option SemCall
  | .downSleep id => some (.retest id)
  | _ => none

/-- CPU, process and call of a step that runs a section of a semaphore call -/
def semCall (s : St N K) : Op N K → Option (Fin K × Fin N × SemCall)
  | .call c f => (s.curproc c).bind fun p =>
      if s.pc p = .user ∧ (s.ptable p).killed = false then f.sem.map (c, p, ·) else none
  | .exec c _ => (s.curproc c).bind fun p => (s.pc p).sem.map (c, p, ·)
  | _ => none

def SemCall.run (s : St N K) (c : Fin K) (p : Fin N) : SemCall → St N K
  | .create v => binarySemaphoreCreate s p v
  | .down id => binarySemaphoreDown s c p id
  | .retest id => downLoop s c p id
  | .up id => binarySemaphoreUp s p id

/-- where a process stands when it runs a section -/
def SemCall.At (f : SemCall) (c : Pc N) : Prop :=
  match f with
  | .retest id => c = .downSleep id
  | _ => c = .user

/-- a step that is a semaphore call: the process runs on the CPU and the step is the call's section -/
theorem step_of_semCall {s : St N K} {o : Op N K} {c : Fin K} {p : Fin N} {f : SemCall}
    (h : semCall s o = some (c, p, f)) : s.curproc c = some p ∧ f.At (s.pc p) ∧ step s o = f.run s c p := by
  cases o with
  | call c' g =>
    obtain ⟨p', hp', h⟩ := Option.bind_eq_some_iff.1 h
    split at h
    · rename_i hu
      obtain ⟨f', hf', he⟩ := Option.map_eq_some_iff.1 h
      obtain ⟨rfl, rfl, rfl⟩ : c' = c ∧ p' = p ∧ f' = f := by simpa using he
      have hstep : step s (.call c' g) = syscall s c' p' g := by
        simp [step, Op.cpu, hp', stepOn, hu.1, hu.2]
      cases g <;> cases hf'
      all_goals exact ⟨hp', hu.1, hstep⟩
    · cases h
  | exec c' ok =>
    obtain ⟨p', hp', h⟩ := Option.bind_eq_some_iff.1 h
    obtain ⟨f', hf', he⟩ := Option.map_eq_some_iff.1 h
    obtain ⟨rfl, rfl, rfl⟩ : c' = c ∧ p' = p ∧ f' = f := by simpa using he
    have hstep : step s (.exec c' ok) = kernelStep s c' p' ok (s.pc p') := by
      simp [step, Op.cpu, hp', stepOn]
    cases hpc : s.pc p' <;> rw [hpc] at hf' <;> cases hf'
    rw [hpc] at hstep
    exact ⟨hp', rfl, hstep⟩
  | _ => cases h

/-! ## The semaphore table and the history -/

/-- the step neither writes a semaphore nor makes history -/
structure SameSems (s s' : St N K) : Prop where
  semtable : s'.semtable = s.semtable
  hist : s'.hist = s.hist

theorem SameSems.trans {s s₁ s' : St N K} (h : SameSems s s₁) (h' : SameSems s₁ s') : SameSems s s' :=
  ⟨h'.semtable.trans h.semtable, h'.hist.trans h.hist⟩

section Table

variable {s : St N K} {c : Fin K} {p : Fin N} {o : Op N K}

@[simp] theorem exit_semtable (s : St N K) (p : Fin N) : (exit s p).semtable = s.semtable := by
  unfold exit
  split <;> rfl

@[simp] theorem exit_hist (s : St N K) (p : Fin N) : (exit s p).hist = s.hist := by
  unfold exit
  split <;> rfl

theorem allocproc_sems (s : St N K) (p : Fin N) (f : Maker) : SameSems s (allocproc s p f) := by
  unfold allocproc
  split <;> exact ⟨rfl, rfl⟩

theorem makeStep_sems (s : St N K) (p np : Fin N) (ok : Bool) (st : Making) : SameSems s (makeStep s p np ok st) := by
  cases st with
  | kstack | forkPgdir => cases ok <;> exact ⟨rfl, rfl⟩
  | _ => exact ⟨rfl, rfl⟩

theorem threadExit_sems (s : St N K) (c : Fin K) (p : Fin N) (v : ℕ) : SameSems s (threadExit s c p v) := by
  unfold threadExit
  dsimp only
  split
  · split
    · exact ⟨exit_semtable _ p, exit_hist _ p⟩
    · split <;> exact ⟨rfl, rfl⟩
  · split
    · exact ⟨exit_semtable _ p, exit_hist _ p⟩
    · exact ⟨rfl, rfl⟩

theorem waitLoop_sems (s : St N K) (c : Fin K) (p : Fin N) : SameSems s (waitLoop s c p) := by
  unfold waitLoop
  dsimp only
  split
  · exact ⟨rfl, rfl⟩
  · split <;> exact ⟨rfl, rfl⟩

theorem threadJoin_sems (s : St N K) (c : Fin K) (p : Fin N) (tid : ℤ) : SameSems s (threadJoin s c p tid) := by
  unfold threadJoin
  split
  · exact ⟨rfl, rfl⟩
  · split
    · exact ⟨rfl, rfl⟩
    · split <;> exact ⟨rfl, rfl⟩

theorem kill_sems (s : St N K) (p : Fin N) (pid : ℤ) : SameSems s (kill s p pid) := by
  unfold kill
  split <;> exact ⟨rfl, rfl⟩

theorem syscall_sems {f : Syscall} (h : f.sem = none) : SameSems s (syscall s c p f) := by
  cases f with
  | fork | threadCreate => exact allocproc_sems s p _
  | exit => exact ⟨exit_semtable s p, exit_hist s p⟩
  | wait => exact waitLoop_sems s c p
  | kill pid => exact kill_sems s p pid
  | threadExit v => exact threadExit_sems s c p v
  | threadJoin tid => exact threadJoin_sems s c p tid
  | semCreate | semDown | semUp => cases h

theorem kernelStep_sems {ok : Bool} {pc : Pc N} (h : pc.sem = none) : SameSems s (kernelStep s c p ok pc) := by
  cases pc with
  | make st np => exact makeStep_sems s p np ok st
  | downSleep => cases h
  | _ => exact ⟨rfl, rfl⟩

theorem stepOn_sems (hoc : o.cpu = some c) (hc : s.curproc c = some p) (h : semCall s o = none) :
    SameSems s (stepOn s c p o) := by
  cases o with
  | dispatch | wakeDev => cases hoc
  | preempt c' =>
    simp only [stepOn]
    split <;> exact ⟨rfl, rfl⟩
  | trap c' fault =>
    simp only [stepOn]
    split
    · cases fault
      · simp only [Bool.false_eq_true, if_false]
        split
        · exact ⟨exit_semtable s p, exit_hist s p⟩
        · exact ⟨rfl, rfl⟩
      · simp only [if_true]
        split
        · exact ⟨exit_semtable _ p, exit_hist _ p⟩
        · exact ⟨rfl, rfl⟩
    · exact ⟨rfl, rfl⟩
  | call c' f =>
    obtain rfl : c' = c := Option.some.inj hoc
    simp only [stepOn]
    split
    · rename_i hu
      split
      · exact ⟨exit_semtable s p, exit_hist s p⟩
      · rename_i hk
        exact syscall_sems (by simpa [semCall, hc, hu, hk] using h)
    · exact ⟨rfl, rfl⟩
  | exec c' ok =>
    obtain rfl : c' = c := Option.some.inj hoc
    exact kernelStep_sems (by simpa [semCall, hc] using h)
  | sleepDev c' n =>
    simp only [stepOn]
    split <;> exact ⟨rfl, rfl⟩

/-- **No other step.** Only the semaphore calls write `semtable` and the history. -/
theorem step_table (h : semCall s o = none) : SameSems s (step s o) := by
  refine step_cases (P := fun s' => SameSems s s') ⟨rfl, rfl⟩ (fun c p ho hc hr => ?_) (fun n _ => ⟨rfl, rfl⟩)
    (fun c p hoc hc => stepOn_sems hoc hc h)
  unfold resume
  split
  · have h := waitLoop_sems (dispatched s c p) c p
    exact ⟨h.semtable, h.hist⟩
  · exact ⟨rfl, rfl⟩
  · exact ⟨rfl, rfl⟩

end Table

/-! ## Slots -/

/-- the place is not inside `binary_semaphore_down` -/
def Pc.Out (c : Pc N) : Prop := ∀ id, c ≠ .downSleep id

/-- the process of slot `q` is inside `binary_semaphore_down(id)` -/
def InDown (s : St N K) (id : SemId) (q : Fin N) : Prop := (s.ptable q).state.Active ∧ s.pc q = .downSleep id

/-- the maker has set the position of the new slot -/
def Making.placed : Making → Bool
  | .kstack _ | .queuePos _ => false
  | _ => true

/-- the maker has set the new slot's registration, so that no semaphore finds it -/
def Making.unregistered : Making → Bool
  | .kstack _ | .queuePos _ | .threadnum _ | .waitingFor _ => false
  | _ => true

/-- outside `binary_semaphore_down` a process has no registration and position 0; a slot being made gets both in turn -/
structure Tidy (s : St N K) : Prop where
  out : ∀ q, (s.ptable q).state.Active → (s.pc q).Out →
    (s.ptable q).waitingForSemaphore = none ∧ (s.ptable q).semQueuePos = 0
  made : ∀ p st np, (s.ptable p).state.Active → s.pc p = .make st np →
    (st.placed = true → (s.ptable np).semQueuePos = 0) ∧
      (st.unregistered = true → (s.ptable np).waitingForSemaphore = none)

/-- what a slot is to the semaphores stays: it may have woken up, or won or lost a CPU -/
structure CalmSlot (x y : Proc N) : Prop where
  active : y.state.Active ↔ x.state.Active
  sleeping : y.state = .sleeping → x.state = .sleeping
  uid : y.uid = x.uid
  waitingFor : y.waitingForSemaphore = x.waitingForSemaphore
  pos : y.semQueuePos = x.semQueuePos

/-- slot `q` becomes `y` outside `binary_semaphore_down`; only a slot that is not spared may have been inside -/
structure OutSlot (spared : Fin N → Prop) (s : St N K) (q : Fin N) (y : Proc N) : Prop where
  before : spared q → ∀ id, ¬ InDown s id q
  active : y.state.Active → (s.ptable q).state.Active ∧ (s.pc q).Out
  waitingFor : y.waitingForSemaphore = (s.ptable q).waitingForSemaphore ∨ y.waitingForSemaphore = none
  pos : y.semQueuePos = (s.ptable q).semQueuePos ∨ y.semQueuePos = 0

/-- slot `q` is outside `binary_semaphore_down` after a step, and was before if it is spared -/
structure Outside (spared : Fin N → Prop) (s s' : St N K) (q : Fin N) : Prop where
  before : spared q → ∀ id, ¬ InDown s id q
  after : ∀ id, ¬ InDown s' id q
  pos : (s'.ptable q).semQueuePos = (s.ptable q).semQueuePos ∨ (s'.ptable q).semQueuePos = 0

/-- a step that passes the semaphores by -/
structure Aside (spared : Fin N → Prop) (s s' : St N K) : Prop extends SameSems s s' where
  slot : ∀ q, (s'.pc q = s.pc q ∧ CalmSlot (s.ptable q) (s'.ptable q)) ∨ Outside spared s s' q
  tidy : Tidy s → Tidy s'

section Slots

variable {spared : Fin N → Prop} {s s₁ s' : St N K} {c : Fin K} {p q np : Fin N} {id : SemId}

theorem CalmSlot.refl (x : Proc N) : CalmSlot x x := ⟨Iff.rfl, fun h => h, rfl, rfl, rfl⟩

theorem CalmSlot.trans {x y z : Proc N} (h : CalmSlot x y) (h' : CalmSlot y z) : CalmSlot x z :=
  ⟨h'.active.trans h.active, fun hz => h.sleeping (h'.sleeping hz), h'.uid.trans h.uid,
    h'.waitingFor.trans h.waitingFor, h'.pos.trans h.pos⟩

/-- a slot that at most woke up -/
theorem CalmSlot.of_woken {x y : Proc N} (hs : y.state = x.state ∨ (x.state = .sleeping ∧ y.state = .runnable))
    (hu : y.uid = x.uid) (hw : y.waitingForSemaphore = x.waitingForSemaphore) (hp : y.semQueuePos = x.semQueuePos) :
    CalmSlot x y := by
  refine ⟨?_, ?_, hu, hw, hp⟩
  · rcases hs with h | ⟨h, h'⟩
    · rw [h]
    · simp [h, h', ProcState.Active]
  · rcases hs with h | ⟨h, h'⟩
    · rw [h]
      exact id
    · simp [h']

theorem calmSlot_wake (x : Proc N) (chan : Chan N) : CalmSlot x (x.wake chan) := by
  have h := PassedBy.wake 0 x chan
  exact .of_woken h.state h.uid h.waitingForSemaphore h.semQueuePos

theorem InDown.calm (h : InDown s id q) (hpc : s'.pc q = s.pc q) (hc : CalmSlot (s.ptable q) (s'.ptable q)) :
    InDown s' id q := ⟨hc.active.2 h.1, hpc.trans h.2⟩

theorem InDown.of_calm (h : InDown s' id q) (hpc : s'.pc q = s.pc q) (hc : CalmSlot (s.ptable q) (s'.ptable q)) :
    InDown s id q := ⟨hc.active.1 h.1, hpc.symm.trans h.2⟩

theorem Aside.refl (s : St N K) : Aside spared s s := ⟨⟨rfl, rfl⟩, fun _ => Or.inl ⟨rfl, .refl _⟩, id⟩

theorem Aside.trans (h : Aside spared s s₁) (h' : Aside spared s₁ s') : Aside spared s s' := by
  refine ⟨h.toSameSems.trans h'.toSameSems, fun q => ?_, fun ht => h'.tidy (h.tidy ht)⟩
  rcases h.slot q with ⟨hpc, hc⟩ | ho <;> rcases h'.slot q with ⟨hpc', hc'⟩ | ho'
  · exact Or.inl ⟨hpc'.trans hpc, hc.trans hc'⟩
  · exact Or.inr ⟨fun hs id hd => ho'.before hs id (hd.calm hpc hc), ho'.after, hc.pos ▸ ho'.pos⟩
  · exact Or.inr ⟨ho.before, fun id hd => ho.after id (hd.of_calm hpc' hc'), hc'.pos ▸ ho.pos⟩
  · refine Or.inr ⟨ho.before, ho'.after, ?_⟩
    rcases ho'.pos with h1 | h1
    · exact h1 ▸ ho.pos
    · exact Or.inr h1

/-! What a step does, store by store. -/

theorem Aside.table {t : Table N} (h : ∀ q, CalmSlot (s.ptable q) (t q) ∨ OutSlot spared s q (t q)) :
    Aside spared s { s with ptable := t } := by
  have hactive : ∀ q, (t q).state.Active → (s.ptable q).state.Active := fun q hq =>
    (h q).elim (fun hc => hc.active.1 hq) fun ho => (ho.active hq).1
  have hpos : ∀ q, (t q).semQueuePos = (s.ptable q).semQueuePos ∨ (t q).semQueuePos = 0 := fun q =>
    (h q).elim (fun hc => Or.inl hc.pos) (·.pos)
  have hwait : ∀ q, (t q).waitingForSemaphore = (s.ptable q).waitingForSemaphore ∨ (t q).waitingForSemaphore = none :=
    fun q => (h q).elim (fun hc => Or.inl hc.waitingFor) (·.waitingFor)
  refine ⟨⟨rfl, rfl⟩, fun q => ?_, fun ht => ⟨fun q hq ho => ?_, fun p st np hp hpc => ?_⟩⟩
  · rcases h q with hc | ho
    · exact Or.inl ⟨rfl, hc⟩
    · exact Or.inr ⟨ho.before, fun id hd => (ho.active hd.1).2 id hd.2, ho.pos⟩
  · obtain ⟨h1, h2⟩ := ht.out q (hactive q hq) ho
    exact ⟨(hwait q).elim (·.trans h1) id, (hpos q).elim (·.trans h2) id⟩
  · obtain ⟨h1, h2⟩ := ht.made p st np (hactive p hp) hpc
    exact ⟨fun hst => (hpos np).elim (·.trans (h1 hst)) id, fun hst => (hwait np).elim (·.trans (h2 hst)) id⟩

theorem Aside.write {f : Proc N → Proc N} (h : CalmSlot (s.ptable q) (f (s.ptable q)) ∨
    OutSlot spared s q (f (s.ptable q))) : Aside spared s (s.write q f) := by
  refine .table fun q' => ?_
  by_cases hq : q' = q
  · subst hq
    rwa [Table.write_self]
  · rw [Table.write_of_ne _ hq]
    exact Or.inl (.refl _)

theorem Aside.writeAt {o : Option (Fin N)} {f : Proc N → Proc N} (h : ∀ x, CalmSlot x (f x)) :
    Aside spared s (s.writeAt o f) := by
  cases o with
  | none => exact .refl s
  | some m => exact .write (Or.inl (h _))

/-- a process outside `binary_semaphore_down` goes to another place outside; on its way through the stores of a new
slot it has made the stores that the place promises -/
theorem Aside.goto {pc : Pc N} (hp : (s.pc p).Out) (hpc : pc.Out) (hst : ∀ st np, pc = .make st np → Tidy s →
    (s.ptable p).state.Active → (st.placed = true → (s.ptable np).semQueuePos = 0) ∧
      (st.unregistered = true → (s.ptable np).waitingForSemaphore = none)) : Aside spared s (s.goto p pc) := by
  refine ⟨⟨rfl, rfl⟩, fun q => ?_, fun ht => ⟨fun q hq ho => ?_, fun r st np hr hrpc => ?_⟩⟩
  · by_cases hq : q = p
    · subst hq
      refine Or.inr ⟨fun _ id hd => hp id hd.2, fun id hd => hpc id ?_, Or.inl rfl⟩
      simpa using hd.2
    · exact Or.inl ⟨by simp [hq], .refl _⟩
  · by_cases hqp : q = p
    · subst hqp
      exact ht.out q hq hp
    · exact ht.out q hq (by simpa [hqp] using ho)
  · by_cases hrp : r = p
    · subst hrp
      exact hst st np (by simpa using hrpc) ht hr
    · exact ht.made r st np hr (by simpa [hrp] using hrpc)

/-- registers and CPUs do not matter -/
theorem Aside.of_eq (h : Aside spared s s₁) (ht : s'.ptable = s₁.ptable) (hp : s'.pc = s₁.pc)
    (hs : s'.semtable = s₁.semtable) (hh : s'.hist = s₁.hist) : Aside spared s s' := by
  have hd : ∀ id q, InDown s' id q → InDown s₁ id q := fun id q h => by
    unfold InDown at h ⊢
    rwa [← ht, ← hp]
  refine ⟨⟨hs.trans h.semtable, hh.trans h.hist⟩, fun q => ?_, fun hs => ?_⟩
  · rw [ht, hp]
    exact (h.slot q).imp_right fun ho => ⟨ho.before, fun id hq => ho.after id (hd id q hq), ht ▸ ho.pos⟩
  · have := h.tidy hs
    exact ⟨ht ▸ hp ▸ this.out, ht ▸ hp ▸ this.made⟩

theorem Aside.leave (h : Aside spared s s') : Aside spared s (s'.leave c) := h.of_eq rfl rfl rfl rfl

theorem Aside.sysret (hp : (s.pc p).Out) (v : ℤ) : Aside spared s (s.sysret p v) := by
  have h : Aside spared s (s.goto p .user) := .goto hp (by simp [Pc.Out]) (by simp)
  exact h.of_eq rfl rfl rfl rfl

/-- the acting process stores into its own slot -/
theorem OutSlot.own {y : Proc N} (ha : (s.ptable p).state.Active) (hp : (s.pc p).Out)
    (hw : y.waitingForSemaphore = (s.ptable p).waitingForSemaphore) (hpos : y.semQueuePos = (s.ptable p).semQueuePos) :
    OutSlot spared s p y := ⟨fun _ id hd => hp id hd.2, fun _ => ⟨ha, hp⟩, Or.inl hw, Or.inl hpos⟩

/-- a store into a slot that holds no active process, before or after -/
theorem OutSlot.idle {y : Proc N} (h : ¬ (s.ptable q).state.Active) (hy : ¬ y.state.Active)
    (hw : y.waitingForSemaphore = (s.ptable q).waitingForSemaphore ∨ y.waitingForSemaphore = none)
    (hpos : y.semQueuePos = (s.ptable q).semQueuePos ∨ y.semQueuePos = 0) : OutSlot spared s q y :=
  ⟨fun _ _ hd => h hd.1, fun ha => absurd ha hy, hw, hpos⟩

theorem Aside.sleep (ha : (s.ptable p).state.Active) (hp : (s.pc p).Out) {pc : Pc N} (hpc : pc.Out)
    (hst : ∀ st np, pc ≠ .make st np) (chan : Chan N) : Aside spared s (s.sleep c p chan pc) := by
  have hw : Aside spared s (s.write p fun x => { x with chan := chan, state := .sleeping }) :=
    .write (Or.inr (.own ha hp rfl rfl))
  exact (hw.trans (.goto hp hpc fun st np h => absurd h (hst st np))).leave

/-! The functions that are not semaphore calls. -/

theorem exit_aside (hp : (s.pc p).Out) : Aside spared s (exit s p) := by
  unfold exit
  split <;> exact .goto hp (by simp [Pc.Out]) (by simp)

theorem kill_aside (hp : (s.pc p).Out) (pid : ℤ) : Aside spared s (kill s p pid) := by
  unfold kill
  split
  · exact .sysret hp _
  · rename_i q _
    have hk : CalmSlot (s.ptable q) (s.ptable q).kill := by
      refine .of_woken ?_ rfl rfl rfl
      by_cases h : (s.ptable q).state = .sleeping <;> simp [Proc.kill, h]
    exact (Aside.write (Or.inl hk)).trans (.sysret (s := s.write q Proc.kill) hp _)

theorem allocproc_aside (hp : (s.pc p).Out) (f : Maker) : Aside spared s (allocproc s p f) := by
  unfold allocproc
  split
  · exact .sysret hp _
  · rename_i np hnp
    have hu := findUnused_unused hnp
    have hw : Aside spared s
        (s.write np fun x => { x with state := .embryo, pid := s.nextpid, uid := s.nextpid }) :=
      .write (Or.inr (.idle (by simp [hu, ProcState.Active]) (by simp [ProcState.Active]) (Or.inl rfl) (Or.inl rfl)))
    refine (hw.trans (@Aside.goto _ _ _ _ p (.make (.kstack f) np) hp (by simp [Pc.Out]) ?_)).of_eq rfl rfl rfl rfl
    rintro st np' h
    cases h
    simp [Making.placed, Making.unregistered]

/-- `p` stores into the slot it is making and goes on to the next store -/
theorem Aside.store {st st' : Making} {f : Proc N → Proc N} (ha : (s.ptable p).state.Active)
    (hpc : s.pc p = .make st np) (hnp : (s.ptable np).state = .embryo) (hf : (f (s.ptable np)).state = .embryo)
    (hpos : (f (s.ptable np)).semQueuePos = 0 ∨
      (f (s.ptable np)).semQueuePos = (s.ptable np).semQueuePos ∧ st'.placed = st.placed)
    (hwait : (f (s.ptable np)).waitingForSemaphore = none ∨
      (f (s.ptable np)).waitingForSemaphore = (s.ptable np).waitingForSemaphore ∧ st'.unregistered = st.unregistered) :
    Aside spared s ((s.write np f).goto p (.make st' np)) := by
  have hidle : ¬ (s.ptable np).state.Active := by
    simp [hnp, ProcState.Active]
  have hidle' : ¬ (f (s.ptable np)).state.Active := by
    simp [hf, ProcState.Active]
  have hne : p ≠ np := by
    rintro rfl
    exact hidle ha
  have hout : OutSlot spared s np (f (s.ptable np)) :=
    .idle hidle hidle' (hwait.symm.imp_left And.left) (hpos.symm.imp_left And.left)
  have hw : Aside spared s (s.write np f) := .write (Or.inr hout)
  have hgo : Aside spared (s.write np f) ((s.write np f).goto p (.make st' np)) := by
    refine .goto (by simp [hpc, Pc.Out]) (by simp [Pc.Out]) ?_
    rintro _ _ h ht hp
    cases h
    obtain ⟨h1, h2⟩ := ht.made p st np hp hpc
    simp only [St.write_ptable, Table.write_self] at h1 h2 ⊢
    exact ⟨fun h => hpos.elim id fun hk => h1 (hk.2 ▸ h), fun h => hwait.elim id fun hk => h2 (hk.2 ▸ h)⟩
  exact hw.trans hgo

/-- the allocation failed: the slot is free again -/
theorem Aside.abort {f : Proc N → Proc N} (hp : (s.pc p).Out) (hnp : (s.ptable np).state = .embryo)
    (hf : (f (s.ptable np)).state = .unused)
    (hw : (f (s.ptable np)).waitingForSemaphore = (s.ptable np).waitingForSemaphore)
    (hpos : (f (s.ptable np)).semQueuePos = (s.ptable np).semQueuePos) (v : ℤ) :
    Aside spared s ((s.write np f).sysret p v) :=
  (Aside.write (Or.inr (.idle (by simp [hnp, ProcState.Active]) (by simp [hf, ProcState.Active]) (Or.inl hw)
    (Or.inl hpos)))).trans (.sysret (s := s.write np f) hp v)

/-- the new slot becomes RUNNABLE, with no registration and position 0 -/
theorem Aside.publish {st : Making} (ha : (s.ptable p).state.Active) (hpc : s.pc p = .make st np)
    (hnp : (s.ptable np).state = .embryo) (hst : st.placed = true ∧ st.unregistered = true) (v : ℤ) :
    Aside spared s (((s.write np fun x => { x with state := .runnable }).goto np .user).sysret p v) := by
  have hidle : ¬ (s.ptable np).state.Active := by
    simp [hnp, ProcState.Active]
  have hne : p ≠ np := by
    rintro rfl
    exact hidle ha
  -- whoever was active before is not the new slot
  have hold : ∀ q, q ≠ np → ((s.write np fun x => { x with state := .runnable }).ptable q) = s.ptable q := by
    intro q hq
    rw [St.write_ptable, Table.write_of_ne _ hq]
  refine ⟨⟨rfl, rfl⟩, fun q => ?_, fun ht => ⟨fun q hq ho => ?_, fun r st' np' hr hrpc => ?_⟩⟩
  · by_cases hqnp : q = np
    · subst hqnp
      refine Or.inr ⟨fun _ id hd => hidle hd.1, fun id hd => ?_, Or.inl (by simp)⟩
      simpa [hne.symm] using hd.2
    by_cases hqp : q = p
    · subst hqp
      refine Or.inr ⟨fun _ id hd => ?_, fun id hd => ?_, Or.inl (by simp [Table.write_of_ne _ hne])⟩
      · simpa [hpc] using hd.2
      · simpa using hd.2
    · refine Or.inl ⟨by simp [hqp, hqnp], ?_⟩
      simp only [St.sysret_ptable, St.goto_ptable, hold q hqnp]
      exact .refl _
  · by_cases hqnp : q = np
    · subst hqnp
      obtain ⟨h1, h2⟩ := ht.made p st q ha hpc
      simp [h1 hst.1, h2 hst.2]
    · simp only [St.sysret_ptable, St.goto_ptable, hold q hqnp] at hq ⊢
      refine ht.out q hq ?_
      by_cases hqp : q = p
      · simp [hqp, hpc, Pc.Out]
      · simpa [hqp, hqnp] using ho
  · have hrnp : r ≠ np := by
      rintro rfl
      simp [hne.symm] at hrpc
    have hrp : r ≠ p := by
      rintro rfl
      simp at hrpc
    simp only [St.sysret_ptable, St.goto_ptable, hold r hrnp] at hr
    have h1 := ht.made r st' np' hr (by simpa [hrp, hrnp] using hrpc)
    by_cases hn : np' = np
    · subst hn
      simpa using h1
    · simpa [Table.write_of_ne _ hn] using h1

theorem writeAt_state {o : Option (Fin N)} {f : Proc N → Proc N} (hf : ∀ x, (f x).state = x.state) (q : Fin N) :
    ((s.writeAt o f).ptable q).state = (s.ptable q).state :=
  Table.writeAt_rel (R := fun x y => y.state = x.state) (fun _ => rfl) hf q

theorem makeStep_aside (ha : (s.ptable p).state.Active) {st : Making} (hpc : s.pc p = .make st np)
    (hnp : (s.ptable np).state = .embryo) (ok : Bool) : Aside spared s (makeStep s p np ok st) := by
  have hout : (s.pc p).Out := by
    simp [hpc, Pc.Out]
  have hne : p ≠ np := by
    rintro rfl
    simp [hnp, ProcState.Active] at ha
  cases st with
  | kstack f =>
    cases ok with
    | true => exact .store ha hpc hnp hnp (Or.inr ⟨rfl, rfl⟩) (Or.inr ⟨rfl, rfl⟩)
    | false => exact .abort hout hnp rfl rfl rfl _
  | forkPgdir =>
    cases ok with
    | true =>
      have h : Aside spared s ((s.write np fun x => { x with pgdir := s.nextPgdir }).goto p (.make .forkParent np)) :=
        .store ha hpc hnp hnp (Or.inr ⟨rfl, rfl⟩) (Or.inr ⟨rfl, rfl⟩)
      exact h.of_eq rfl rfl rfl rfl
    | false => exact .abort hout hnp rfl rfl rfl _
  | queuePos f => exact .store ha hpc hnp hnp (Or.inl rfl) (Or.inr ⟨rfl, rfl⟩)
  | waitingFor f => exact .store ha hpc hnp hnp (Or.inr ⟨rfl, by cases f <;> rfl⟩) (Or.inl rfl)
  | forkRun | tcRun => exact .publish ha hpc hnp ⟨rfl, rfl⟩ _
  | tcCount =>
    have hw : Aside spared s (s.writeAt (s.ptable np).parent fun x => { x with threadnum := x.threadnum + 1 }) :=
      .writeAt fun x => .of_woken (Or.inl rfl) rfl rfl rfl
    refine hw.trans (.goto (by simpa using hout) (by simp [Pc.Out]) ?_)
    rintro _ _ h ht hp
    cases h
    exact ht.made p .tcCount np hp hpc
  | tcThreadId =>
    have hw : Aside spared s (s.writeAt (s.ptable np).parent fun x => { x with threadId := x.threadId + 1 }) :=
      .writeAt fun x => .of_woken (Or.inl rfl) rfl rfl rfl
    have hstate : ∀ q, ((s.writeAt (s.ptable np).parent fun x => { x with threadId := x.threadId + 1 }).ptable q).state
        = (s.ptable q).state := writeAt_state fun _ => rfl
    refine hw.trans (.store ?_ hpc ?_ ?_ (Or.inr ⟨rfl, rfl⟩) (Or.inr ⟨rfl, rfl⟩))
    · rwa [hstate]
    · rwa [hstate]
    · exact (hstate np).trans hnp
  | _ => exact .store ha hpc hnp hnp (Or.inr ⟨rfl, rfl⟩) (Or.inr ⟨rfl, rfl⟩)

theorem threadExit_aside (ha : (s.ptable p).state.Active) (hp : (s.pc p).Out) (v : ℕ) :
    Aside spared s (threadExit s c p v) := by
  -- the count of the main slot
  have hcount : ∀ s₁ : St N K, Aside spared s₁
      (s₁.writeAt (s.ptable p).parent fun m => { m with threadnum := m.threadnum - 1 }) :=
    fun s₁ => .writeAt fun x => .of_woken (Or.inl rfl) rfl rfl rfl
  unfold threadExit
  dsimp only
  split
  · split
    · refine (hcount s).trans (exit_aside ?_)
      exact hp
    · -- the slot's own result, the count, the slot's own state
      have h1 : Aside spared s (s.write p fun x => { x with retVal := v }) := .write (Or.inr (.own ha hp rfl rfl))
      have h2 := h1.trans (hcount _)
      have hz : ∀ s₂ : St N K, Aside spared s s₂ → (s₂.ptable p).state.Active → (s₂.pc p).Out →
          Aside spared s (s₂.write p fun x => { x with state := .zombie }) :=
        fun s₂ h ha hp => h.trans (.write (Or.inr (.own ha hp rfl rfl)))
      have h3 := hz _ h2 (by rw [writeAt_state]; exacts [by simpa using ha, fun _ => rfl]) hp
      split
      · refine (h3.trans (.table fun q => Or.inl ?_)).leave
        exact calmSlot_wake _ _
      · exact h3.leave
  · split
    · refine (Aside.write (Or.inl (.of_woken (Or.inl rfl) rfl rfl rfl))).trans (exit_aside ?_)
      exact hp
    · exact (Aside.write (Or.inr (.own ha hp rfl rfl))).leave

theorem threadJoin_aside (ha : (s.ptable p).state.Active) (hp : (s.pc p).Out) (tid : ℤ) :
    Aside spared s (threadJoin s c p tid) := by
  unfold threadJoin
  split
  · exact .sysret hp _
  · rename_i q _
    split
    · exact .sysret hp _
    split
    · exact .sysret hp _
    · have hw : Aside spared s (s.write q fun x => { x with isjoined := true }) :=
        .write (Or.inl (.of_woken (Or.inl rfl) rfl rfl rfl))
      refine hw.trans (.sleep ?_ ?_ ?_ ?_ _)
      · by_cases hq : p = q
        · subst hq
          simpa using ha
        · simpa [Table.write_of_ne _ hq] using ha
      · exact hp
      · simp [Pc.Out]
      · simp

/-- a slot of a pid that `wait` reaps is on its way out of the kernel if it is active at all -/
theorem not_inDown_of_reapable {odd : Bool → Prop} (h : Orderly odd s.census) {m : Fin N}
    (hm : Reapable p (s.ptable m)) (hq : (s.ptable q).pid = (s.ptable m).pid) (id : SemId) : ¬ InDown s id q := by
  rintro ⟨ha, hpc⟩
  have hz : s.census.life m = .zombie := by
    simp [St.census, hm.2.1, ProcState.life]
  have hl := (h.reap_leaving hz hm.2.2.1 hm.2.2.2 (ProcState.life_active.2 ha) hq).1
  simp [St.census, hpc, Pc.act] at hl

theorem waitLoop_aside {odd : Bool → Prop} (h : Orderly odd s.census) (ha : (s.ptable p).state.Active)
    (hp : (s.pc p).Out) : Aside spared s (waitLoop s c p) := by
  unfold waitLoop
  dsimp only
  split
  · rename_i hf
    obtain ⟨m, hm, hX⟩ := exists_of_waitFound hf
    have hr : Aside spared s { s with ptable := reap s.ptable (waitFound s.ptable p) } := by
      refine .table fun q => ?_
      by_cases hq : (s.ptable q).pid = waitFound s.ptable p
      · refine Or.inr ⟨fun _ => not_inDown_of_reapable h hm (hq.trans hX.symm), ?_, ?_, ?_⟩ <;>
          simp [reap, hq, ProcState.Active]
      · simp only [reap, if_neg hq]
        exact Or.inl (.refl _)
    exact (hr.trans (.sysret (p := p) (by simpa using hp) (waitFound s.ptable p))).of_eq rfl rfl rfl rfl
  · split
    · exact .sysret hp _
    · refine .sleep ha hp ?_ ?_ _
      · simp [Pc.Out]
      · simp

theorem exitLocked_aside {odd : Bool → Prop} (h : Orderly odd s.census) (ha : (s.ptable p).state.Active)
    (hs : ∀ q, spared q → (s.ptable q).pid ≠ (s.ptable p).pid) : Aside spared s (exitLocked s c p) := by
  refine Aside.leave (.table fun q => ?_)
  have hv := exitSection_visited s.initproc (parentsWithin h (ProcState.life_active.2 ha)) q
  by_cases hq : (s.ptable q).pid = (s.ptable p).pid
  · refine Or.inr ⟨fun hsq => absurd hq (hs q hsq), fun hz => ?_, Or.inl hv.waitingForSemaphore, Or.inl hv.semQueuePos⟩
    simp [hv.dead hq, ProcState.Active] at hz
  · exact Or.inl (.of_woken (hv.state hq) hv.uid hv.waitingForSemaphore hv.semQueuePos)

end Slots

/-! ## Steps -/

/-- the step does not end the process of slot `q` from outside, by the `exit` of another slot of its pid -/
def Spared (s : St N K) (o : Op N K) (q : Fin N) : Prop := ∀ p ∈ exiting s o, (s.ptable q).pid ≠ (s.ptable p).pid

instance (s : St N K) (o : Op N K) : DecidablePred (Spared s o) := fun q => by
  unfold Spared
  infer_instance

section Steps

variable {odd : Bool → Prop} {s : St N K} {c : Fin K} {p : Fin N} {o : Op N K}

theorem syscall_aside {spared : Fin N → Prop} (h : Orderly odd s.census) (ha : (s.ptable p).state.Active)
    (hu : s.pc p = .user) {f : Syscall} (hf : f.sem = none) : Aside spared s (syscall s c p f) := by
  have hp : (s.pc p).Out := by
    simp [hu, Pc.Out]
  cases f with
  | fork | threadCreate => exact allocproc_aside hp _
  | exit => exact exit_aside hp
  | wait => exact waitLoop_aside h ha hp
  | kill pid => exact kill_aside hp pid
  | threadExit v => exact threadExit_aside ha hp v
  | threadJoin tid => exact threadJoin_aside ha hp tid
  | semCreate | semDown | semUp => cases hf

theorem kernelStep_aside (h : Orderly odd s.census) (hc : s.curproc c = some p) (ha : (s.ptable p).state.Active)
    {ok : Bool} (hf : (s.pc p).sem = none) : Aside (Spared s (.exec c ok)) s (kernelStep s c p ok (s.pc p)) := by
  cases hpc : s.pc p with
  | make st np =>
    have hmade := h.made p st np (ProcState.life_active.2 ha) (by simp [St.census, hpc, Pc.act])
    refine makeStep_aside ha hpc ?_ ok
    have he : (s.ptable np).state.life = .embryo := hmade.embryo
    cases hs : (s.ptable np).state <;> simp [hs, ProcState.life] at he
    rfl
  | exitClose =>
    refine exitLocked_aside h ha fun q hq => hq p ?_
    simp [exiting, hc, hpc]
  | downSleep id => simp [hpc, Pc.sem] at hf
  | _ => exact .refl s

theorem stepOn_aside (h : Orderly odd s.census) (hc : s.curproc c = some p) (hr : (s.ptable p).state = .running)
    (hoc : o.cpu = some c) (hsem : semCall s o = none) : Aside (Spared s o) s (stepOn s c p o) := by
  have ha : (s.ptable p).state.Active := Or.inr (Or.inr hr)
  cases o with
  | dispatch | wakeDev => cases hoc
  | preempt c' =>
    simp only [stepOn]
    split
    · refine (Aside.write (Or.inl ⟨?_, ?_, rfl, rfl, rfl⟩)).leave
      · simp [hr, ProcState.Active]
      · simp
    · exact .refl s
  | trap c' fault =>
    simp only [stepOn]
    split
    · rename_i hu
      have hout : (s.pc p).Out := by
        simp [hu, Pc.Out]
      cases fault with
      | false =>
        simp only [Bool.false_eq_true, if_false]
        split
        · exact exit_aside hout
        · exact .refl s
      | true =>
        simp only [if_true]
        have hw : Aside (Spared s (.trap c' true)) s (s.write p fun x => { x with killed := true }) :=
          .write (Or.inl (.of_woken (Or.inl rfl) rfl rfl rfl))
        split
        · exact hw.trans (exit_aside (by simpa using hout))
        · exact hw
    · exact .refl s
  | call c' f =>
    obtain rfl : c' = c := Option.some.inj hoc
    simp only [stepOn]
    split
    · rename_i hu
      split
      · exact exit_aside (by simp [hu, Pc.Out])
      · rename_i hk
        exact syscall_aside h ha hu (by simpa [semCall, hc, hu, hk] using hsem)
    · exact .refl s
  | exec c' ok =>
    obtain rfl : c' = c := Option.some.inj hoc
    exact kernelStep_aside h hc ha (by simpa [semCall, hc] using hsem)
  | sleepDev c' n =>
    simp only [stepOn]
    split
    · rename_i hu
      refine .sleep ha ?_ ?_ ?_ _ <;> rcases hu with hu | hu <;> simp [hu, Pc.Out]
    · exact .refl s

/-- **Every other step passes the semaphores by.** A process inside `binary_semaphore_down` stays there with its
registration and its position, unless the step is the `exit` of another slot of its pid. -/
theorem step_aside (h : Kept odd s) (hsem : semCall s o = none) : Aside (Spared s o) s (step s o) := by
  refine step_cases (P := fun s' => Aside (Spared s o) s s') (.refl s) (fun c p ho hc hr => ?_) (fun n _ => ?_)
    (fun c p hoc hc => stepOn_aside h.orderly hc (h.cpus.running c p hc) hoc hsem)
  · have hd : Aside (Spared s o) s (dispatched s c p) := by
      refine (Aside.write (q := p) (f := fun x => { x with state := .running, chan := .null })
        (Or.inl ⟨?_, by simp, rfl, rfl, rfl⟩)).of_eq rfl rfl rfl rfl
      simp [hr, ProcState.Active]
    have ha : ((dispatched s c p).ptable p).state.Active := by
      simp [dispatched, ProcState.Active]
    refine hd.trans ?_
    unfold resume
    split
    · rename_i hpc
      exact waitLoop_aside (census_dispatched (c := c) hr ▸ h.orderly) ha (by simp [hpc, Pc.Out])
    · rename_i hpc
      exact .sysret (by simp [hpc, Pc.Out]) _
    · exact .refl _
  · exact .table fun q => Or.inl (calmSlot_wake _ _)

end Steps

end Xv6Threads.Kernel
