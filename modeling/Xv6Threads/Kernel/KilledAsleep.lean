/-
Whether a killed process can be SLEEPING in a blocking call.

`kill` sets the flag and makes a SLEEPING process RUNNABLE, both with `ptable.lock` held. So only a process that goes to
sleep after it was marked can be asleep with the mark, and each loop is to test `killed` before it sleeps. `wait` does so
with `ptable.lock` held. The loops of the devices do it with another lock, and `sleep` takes `ptable.lock` later; a `kill`
in between is not seen. `thread_join` tests nothing after `trap` has, and `binary_semaphore_down` sleeps again as often as
it is woken.
- `Exposed`: the process is past its last test of `killed`.
- `step_awake`: a step keeps the exposed and the sleeping processes unmarked, if `kill` does not hit an exposed one.
- `killed_not_asleep`: so no killed process is SLEEPING in one of these calls in any run of such steps.
- `killed_asleep`: three runs with one that is.
-/
import Xv6Threads.Kernel.Blocking

namespace Xv6Threads.Kernel

open Xv6Threads.Core Function

variable {N K : ℕ}

/-- the process in slot `p` is killed and SLEEPING in one of the seven calls -/
def KilledAsleep (m : Blocking N K) (p : Fin N) : Prop :=
  m.killed p = true ∧ (m.st.ptable p).state = .sleeping ∧ BlockedIn m p

instance decidableKilledAsleep (m : Blocking N K) (p : Fin N) : Decidable (KilledAsleep m p) := instDecidableAnd

/-! ## Exposed processes -/

/-- `sleep` follows, and `killed` is not tested before -/
def Stage.exposed : Stage → Bool
  | .tested _ | .entered (.threadJoin _) | .entered (.semDown _) => true
  | _ => false

def Pc.exposed : Pc N → Bool
  | .downSleep _ => true
  | _ => false

def Exposed (m : Blocking N K) (q : Fin N) : Bool := (m.stage q).exposed || (m.st.pc q).exposed

/-- a `kill` in this step does not hit an exposed process -/
def KillOk (m : Blocking N K) : BOp N K → Prop
  | .kernel o => ∀ pid ∈ killing m.st o, ∀ q ∈ killFind m.st.ptable pid, Exposed m q = false
  | _ => True

instance decidableKillOk (m : Blocking N K) (o : BOp N K) : Decidable (KillOk m o) :=
  match o with
  | .kernel o => inferInstanceAs (Decidable (∀ pid ∈ killing m.st o, ∀ q ∈ killFind m.st.ptable pid, Exposed m q = false))
  | .enter _ _ | .go _ | .tick | .key _ | .close _ _ => .isTrue trivial

/-- an exposed process, and one that is asleep in a blocking call, is not killed -/
def Unkilled (m : Blocking N K) (q : Fin N) : Prop :=
  (Exposed m q = true → m.killed q = false) ∧ ((m.st.ptable q).state = .sleeping → BlockedIn m q → m.killed q = false)

/-- slot `q` is not marked or put to sleep, and does not come into one of these places -/
structure Undisturbed (m m' : Blocking N K) (q : Fin N) : Prop where
  killed : m'.killed q = m.killed q
  asleep : (m'.st.ptable q).state = .sleeping → (m.st.ptable q).state = .sleeping
  stage : m'.stage q = m.stage q ∨ ((m'.stage q).exposed = false ∧ (m'.stage q).blocked = false)
  pc : m'.st.pc q = m.st.pc q ∨ (m'.st.pc q).blocked = false

section Unkilled

variable {m m' : Blocking N K} {q : Fin N}

theorem exposed_of_blocked {pc : Pc N} (h : pc.blocked = false) : pc.exposed = false := by
  cases pc <;> simp_all [Pc.blocked, Pc.exposed]

theorem Undisturbed.unkilled (h : Undisturbed m m' q) (hm : Unkilled m q) : Unkilled m' q := by
  have hpc : (m'.st.pc q).exposed = true → (m.st.pc q).exposed = true := by
    rcases h.pc with he | hb
    · rw [he]
      exact id
    · rw [exposed_of_blocked hb]
      exact nofun
  refine ⟨fun he => ?_, fun hs hi => ?_⟩
  · rw [h.killed]
    refine hm.1 ?_
    simp only [Exposed, Bool.or_eq_true] at he ⊢
    rcases he with hstage | hp
    · rcases h.stage with hs | ⟨hs, _⟩
      · exact .inl (hs ▸ hstage)
      · rw [hs] at hstage
        cases hstage
    · exact .inr (hpc hp)
  · rw [h.killed]
    refine hm.2 (h.asleep hs) ?_
    rcases hi with hp | hstage
    · rcases h.pc with he | hb
      · exact .inl (he ▸ hp)
      · rw [hb] at hp
        cases hp
    · rcases h.stage with he | ⟨_, hb⟩
      · exact .inr (he ▸ hstage)
      · rw [hb] at hstage
        cases hstage

theorem unkilled_of_false (h : m.killed q = false) : Unkilled m q := ⟨fun _ => h, fun _ _ => h⟩

/-- a process outside these calls may be marked -/
theorem unkilled_of_outside (hs : m.stage q = .none) (hpc : (m.st.pc q).blocked = false) : Unkilled m q := by
  refine ⟨fun he => ?_, fun _ hi => ?_⟩
  · simp [Exposed, hs, Stage.exposed, exposed_of_blocked hpc] at he
  · rcases hi with hp | hst
    · rw [hpc] at hp
      cases hp
    · rw [hs] at hst
      cases hst

end Unkilled

/-! ## Whom a step of the kernel moves -/

section Moves

variable {s : St N K} {o : Op N K} {c : Fin K} {p q : Fin N}

/-- nobody but `p` is moved, unless to user mode -/
def MovesOnly (p : Fin N) (s s' : St N K) : Prop := ∀ q, q ≠ p → s'.pc q = s.pc q ∨ s'.pc q = .user

/-- stores of `p` to its own program counter, after some that move nobody -/
theorem MovesOnly.update {s₁ s' : St N K} {e : Pc N} (h₁ : s₁.pc = s.pc) (h : s'.pc = update s₁.pc p e) :
    MovesOnly p s s' := by
  intro q hq
  rw [h, h₁]
  exact .inl (update_of_ne hq _ _)

theorem MovesOnly.refl (p : Fin N) (s : St N K) : MovesOnly p s s := fun _ _ => .inl rfl

theorem MovesOnly.of_eq {s' : St N K} (h : s'.pc = s.pc) : MovesOnly p s s' := fun q _ => .inl (congrFun h q)

theorem exit_moves (s s₁ : St N K) (p : Fin N) (h : s₁.pc = s.pc) : MovesOnly p s (exit s₁ p) := by
  unfold exit
  split
  · exact .update (e := .panicked) h rfl
  · exact .update (e := .exitClose) h rfl

theorem waitLoop_moves (s s₁ : St N K) (c : Fin K) (p : Fin N) (h : s₁.pc = s.pc) : MovesOnly p s (waitLoop s₁ c p) := by
  unfold waitLoop
  dsimp only
  split
  · exact .update (e := .user) h rfl
  · split
    · exact .update (e := .user) h rfl
    · exact .update (e := .waitSleep) h rfl

theorem threadJoin_moves (s : St N K) (c : Fin K) (p : Fin N) (tid : ℤ) : MovesOnly p s (threadJoin s c p tid) := by
  unfold threadJoin
  split
  · exact .update (e := .user) rfl rfl
  split
  · exact .update (e := .user) rfl rfl
  split
  · exact .update (e := .user) rfl rfl
  · exact .update (e := .joinSleep) rfl rfl

theorem downLoop_moves (s s₁ : St N K) (c : Fin K) (p : Fin N) (id : SemId) (h : s₁.pc = s.pc) :
    MovesOnly p s (downLoop s₁ c p id) := by
  unfold downLoop
  split
  · split
    · exact .update (e := .user) h rfl
    · have hq : (if (s₁.ptable p).semQueuePos = 0 then enqueue s₁ p id else s₁).pc = s₁.pc := by
        split <;> rfl
      exact .update (e := .downSleep id) (hq.trans h) rfl
  · exact .update (e := .user) h rfl

theorem down_moves (s : St N K) (c : Fin K) (p : Fin N) (id : SemId) : MovesOnly p s (binarySemaphoreDown s c p id) := by
  unfold binarySemaphoreDown
  dsimp only
  split
  · exact downLoop_moves s _ c p id rfl
  · exact downLoop_moves s _ c p id rfl

theorem threadExit_moves (s : St N K) (c : Fin K) (p : Fin N) (v : ℕ) : MovesOnly p s (threadExit s c p v) := by
  unfold threadExit
  dsimp only
  split
  · split
    · exact exit_moves s _ p rfl
    · split <;> exact .of_eq rfl
  · split
    · exact exit_moves s _ p rfl
    · exact .of_eq rfl

theorem syscall_moves (s : St N K) (c : Fin K) (p : Fin N) (f : Syscall) : MovesOnly p s (syscall s c p f) := by
  cases f with
  | fork | threadCreate =>
    simp only [syscall, allocproc]
    split
    · exact .update (e := .user) rfl rfl
    · rename_i np _
      exact .update (e := .make (.kstack _) np) rfl rfl
  | exit => exact exit_moves s s p rfl
  | wait => exact waitLoop_moves s s c p rfl
  | kill pid =>
    simp only [syscall, kill]
    split <;> exact .update (e := .user) rfl rfl
  | threadExit v => exact threadExit_moves s c p v
  | threadJoin tid => exact threadJoin_moves s c p tid
  | semCreate v =>
    simp only [syscall, binarySemaphoreCreate]
    split <;> exact .update (e := .user) rfl rfl
  | semDown id => exact down_moves s c p id
  | semUp id =>
    simp only [syscall, binarySemaphoreUp]
    split <;> exact .update (e := .user) rfl rfl

theorem makeStep_moves (s : St N K) (p np : Fin N) (ok : Bool) (st : Making) : MovesOnly p s (makeStep s p np ok st) := by
  intro q hqp
  by_cases hqn : q = np
  · subst hqn
    cases st with
    | kstack f | forkPgdir =>
      simp only [makeStep]
      split <;> simp [hqp]
    | tcCount | tcThreadId | queuePos | threadnum | waitingFor | forkParent | forkThreadId | forkIsthread | forkIsjoined
    | forkRun | tcPid | tcPgdir | tcParent | tcIsthread | tcIsjoined | tcRun =>
      simp [makeStep, hqp]
  · exact .inl (makeStep_pc hqp hqn)

theorem stepOn_moves (s : St N K) (c : Fin K) (p : Fin N) (o : Op N K) : MovesOnly p s (stepOn s c p o) := by
  cases o with
  | dispatch | wakeDev => exact .refl p s
  | preempt c' =>
    simp only [stepOn]
    split <;> exact .of_eq rfl
  | trap c' fault =>
    simp only [stepOn]
    split
    · have hpc : (if fault = true then s.write p fun x => { x with killed := true } else s).pc = s.pc := by
        split <;> rfl
      generalize (if fault = true then s.write p fun x => { x with killed := true } else s) = s₁ at hpc ⊢
      split
      · exact exit_moves s s₁ p hpc
      · exact .of_eq hpc
    · exact .refl p s
  | call c' f =>
    simp only [stepOn]
    split
    · split
      · exact exit_moves s s p rfl
      · exact syscall_moves s c p f
    · exact .refl p s
  | exec c' ok =>
    simp only [stepOn]
    cases hpc : s.pc p with
    | make st np => exact makeStep_moves s p np ok st
    | exitClose => exact .of_eq rfl
    | downSleep id => exact downLoop_moves s s c p id rfl
    | user | waitSleep | joinSleep | panicked => exact .refl p s
  | sleepDev c' n =>
    simp only [stepOn]
    split
    · exact .update (e := s.pc p) rfl rfl
    · exact .refl p s

/-- **Whom a step moves.** -/
theorem step_moves (ha : actor s o ≠ some q) : (step s o).pc q = s.pc q ∨ (step s o).pc q = .user := by
  refine step_cases (P := fun s' => s'.pc q = s.pc q ∨ s'.pc q = .user) (.inl rfl) ?_ ?_ ?_
  · intro c p ho _ _
    have hqp : q ≠ p := by
      rintro rfl
      exact ha (by rw [ho]; rfl)
    unfold resume
    split
    · exact waitLoop_moves s (dispatched s c p) c p rfl q hqp
    · exact MovesOnly.update (s := s) (e := .user) rfl rfl q hqp
    · exact .inl rfl
  · intro n _
    exact .inl rfl
  · intro c p hoc hc
    have hqp : q ≠ p := by
      rintro rfl
      refine ha ?_
      cases o with
      | dispatch => cases hoc
      | _ => simp [actor, hoc, hc]
    exact stepOn_moves s c p o q hqp

/-- `wait` sleeps only if it has found `killed` clear -/
theorem waitLoop_slept (hs : ((waitLoop s c p).ptable p).state = .sleeping) (hp : (s.ptable p).state ≠ .sleeping) :
    (s.ptable p).killed = false := by
  unfold waitLoop at hs
  dsimp only at hs
  split at hs
  · simp only [St.sysret_ptable, reap] at hs
    split at hs
    · cases hs
    · exact absurd hs hp
  · split at hs
    · exact absurd hs hp
    · rename_i hk
      simp only [not_or, Bool.not_eq_true] at hk
      exact hk.2

/-- a call that is not one of the blocking ones leaves its caller awake -/
theorem syscall_awake (hpc : s.pc p = .user) {f : Syscall} (hw : f ≠ .wait) (hj : ∀ tid, f ≠ .threadJoin tid)
    (hd : ∀ id, f ≠ .semDown id) : ((syscall s c p f).pc p).blocked = false := by
  have hexit : ∀ s₁ : St N K, ((exit s₁ p).pc p).blocked = false := by
    intro s₁
    unfold exit
    split <;> simp [Pc.blocked]
  cases f with
  | wait => exact absurd rfl hw
  | threadJoin tid => exact absurd rfl (hj tid)
  | semDown id => exact absurd rfl (hd id)
  | fork | threadCreate =>
    simp only [syscall, allocproc]
    split <;> simp [Pc.blocked]
  | exit => exact hexit s
  | kill pid =>
    simp only [syscall, kill]
    split <;> simp [Pc.blocked]
  | threadExit v =>
    have huser : (s.pc p).blocked = false := by rw [hpc]; rfl
    simp only [syscall, threadExit]
    split
    · split
      · exact hexit _
      · split <;> exact huser
    · split
      · exact hexit _
      · exact huser
  | semCreate v =>
    simp only [syscall, binarySemaphoreCreate]
    split <;> simp [Pc.blocked]
  | semUp id =>
    simp only [syscall, binarySemaphoreUp]
    split <;> simp [Pc.blocked]

theorem step_on (hoc : o.cpu = some c) (hc : s.curproc c = some p) : step s o = stepOn s c p o := by
  cases o with
  | dispatch | wakeDev => cases hoc
  | preempt | trap | call | exec | sleepDev =>
    cases hoc
    simp [step, Op.cpu, hc]

end Moves

/-! ## One step -/

section Step

variable {m : Blocking N K} {c : Fin K} {p q : Fin N}

/-- a process that a step of the kernel is not of -/
theorem bystander_unkilled {o : Op N K} (hm : Unkilled m q) (hok : KillOk m (.kernel o)) (ha : actor m.st o ≠ some q)
    {stage : Fin N → Stage} (hstage : stage q = m.stage q ∨ stage q = .none) :
    Unkilled { m with st := Kernel.step m.st o, stage := stage } q := by
  have hpc : (Kernel.step m.st o).pc q = m.st.pc q ∨ ((Kernel.step m.st o).pc q).blocked = false := by
    rcases step_moves ha with he | he
    · exact .inl he
    · exact .inr (by rw [he]; rfl)
  have hst : stage q = m.stage q ∨ ((stage q).exposed = false ∧ (stage q).blocked = false) := by
    rcases hstage with he | he
    · exact .inl he
    · exact .inr (by rw [he]; exact ⟨rfl, rfl⟩)
  cases step_touch m.st o q with
  | unmarked h => exact Undisturbed.unkilled ⟨h.killed, h.asleep, hst, hpc⟩ hm
  | slept hq h => exact absurd hq ha
  | killed pid hk hf hs hawake hid =>
    -- the one that is hit is not exposed, and is awake now
    have hexp : Exposed m q = false := hok pid hk q hf
    simp only [Exposed, Bool.or_eq_false_iff] at hexp
    refine ⟨fun he => ?_, fun hsl _ => absurd hsl hawake⟩
    simp only [Exposed, Bool.or_eq_true] at he
    rcases he with he | he
    · rcases hstage with hs' | hs'
      · rw [hs', hexp.1] at he
        cases he
      · rw [hs'] at he
        cases he
    · rcases hpc with hp | hp
      · rw [hp, hexp.2] at he
        cases he
      · rw [exposed_of_blocked hp] at he
        cases he
  | fault c b ho hq hc hs hid => exact absurd hq ha
  | freed hs hk hid => exact unkilled_of_false hk
  | stored p np st hs hk hawake hid => exact Undisturbed.unkilled ⟨hk, hawake, hst, hpc⟩ hm

/-- a call that is one of `Kernel.Machine` only -/
theorem allowed_call {f : Syscall} (hc : m.st.curproc c = some p) (hal : m.allowed (.call c f) = true) :
    m.stage p = .none ∧ f ≠ .wait ∧ (∀ tid, f ≠ .threadJoin tid) ∧ ∀ id, f ≠ .semDown id := by
  simp only [Blocking.allowed, hc, Option.all_some, Bool.and_eq_true, beq_iff_eq] at hal
  cases f <;> simp_all

/-- the process that a step of the kernel is of, when it is in none of the calls here -/
theorem actor_unkilled {o : Op N K} (hm : Unkilled m p) (hoc : o.cpu = some c) (hc : m.st.curproc c = some p)
    (hal : m.allowed o = true) {stage : Fin N → Stage} (hstage : stage p = m.stage p ∨ stage p = .none) :
    Unkilled { m with st := Kernel.step m.st o, stage := stage } p := by
  have hstay : Unkilled { m with stage := stage } p := by
    refine Undisturbed.unkilled (m := m) ⟨rfl, id, ?_, .inl rfl⟩ hm
    rcases hstage with he | he
    · exact .inl he
    · right
      show (stage p).exposed = false ∧ (stage p).blocked = false
      rw [he]
      exact ⟨rfl, rfl⟩
  have hout : m.stage p = .none → stage p = .none := by
    intro hnone
    rcases hstage with he | he
    · rw [he, hnone]
    · exact he
  rw [step_on hoc hc]
  cases o with
  | dispatch | wakeDev => cases hoc
  | preempt c' =>
    simp only [stepOn]
    split
    · refine Undisturbed.unkilled (m := { m with stage := stage }) ⟨?_, ?_, .inl rfl, .inl rfl⟩ hstay
      · simp [Blocking.killed]
      · simp
    · exact hstay
  | trap c' fault =>
    cases hoc
    have hnone : m.stage p = .none := by simpa [Blocking.allowed, hc] using hal
    have hs := hout hnone
    simp only [stepOn]
    split
    · rename_i hu
      refine unkilled_of_outside hs ?_
      show Pc.blocked (St.pc _ p) = false
      have hpc : (if fault = true then m.st.write p fun x => { x with killed := true } else m.st).pc p = .user := by
        split <;> exact hu
      generalize (if fault = true then m.st.write p fun x => { x with killed := true } else m.st) = s₁ at hpc ⊢
      split
      · unfold exit
        split <;> simp [Pc.blocked]
      · rw [hpc]
        rfl
    · exact hstay
  | call c' f =>
    cases hoc
    obtain ⟨hnone, hw, hj, hd⟩ := allowed_call hc hal
    have hs := hout hnone
    simp only [stepOn]
    split
    · rename_i hu
      refine unkilled_of_outside hs ?_
      show Pc.blocked (St.pc _ p) = false
      split
      · unfold exit
        split <;> simp [Pc.blocked]
      · exact syscall_awake hu hw hj hd
    · exact hstay
  | exec c' ok =>
    cases hoc
    have hnone : m.stage p = .none := by simpa [Blocking.allowed, hc] using hal
    have hs := hout hnone
    simp only [stepOn]
    cases hpc : m.st.pc p with
    | make st np =>
      refine unkilled_of_outside hs ?_
      show ((makeStep m.st p np ok st).pc p).blocked = false
      rcases makeStep_pc_self (s := m.st) (p := p) with he | ⟨he, _⟩ <;> rw [he] <;> rfl
    | exitClose =>
      refine unkilled_of_outside hs ?_
      show (m.st.pc p).blocked = false
      rw [hpc]
      rfl
    | downSleep id =>
      -- woken in `binary_semaphore_down`, which does not test the flag
      have hk : (m.st.ptable p).killed = false := hm.1 (by simp [Exposed, hpc, Pc.exposed])
      refine unkilled_of_false ?_
      show ((downLoop m.st c p id).ptable p).killed = false
      rcases (SameMarks.refl m.st.ptable).downLoop c p id p with h | ⟨_, h⟩
      · exact h.killed.trans hk
      · exact h.killed.trans hk
    | user | waitSleep | joinSleep | panicked => exact hstay
  | sleepDev c' n =>
    cases hoc
    have hnone : m.stage p = .none := by simpa [Blocking.allowed, hc] using hal
    have hs := hout hnone
    simp only [stepOn]
    split
    · rename_i hu
      refine unkilled_of_outside hs ?_
      show Pc.blocked (update m.st.pc p (m.st.pc p) p) = false
      rw [update_self]
      rcases hu with hu | hu <;> rw [hu] <;> rfl
    · exact hstay

/-- the process that a CPU switches to -/
theorem dispatch_unkilled (hm : Unkilled m p) {stage : Fin N → Stage} (hstage : stage p = m.stage p ∨ stage p = .none) :
    Unkilled { m with st := Kernel.step m.st (.dispatch c p), stage := stage } p := by
  have hkilled : ((Kernel.step m.st (.dispatch c p)).ptable p).killed = true → (m.st.ptable p).killed = true :=
    killed_before rfl nofun
  have hkeep : (m.st.ptable p).killed = false → ((Kernel.step m.st (.dispatch c p)).ptable p).killed = false := by
    intro hk
    cases hk' : ((Kernel.step m.st (.dispatch c p)).ptable p).killed with
    | false => rfl
    | true => exact absurd (hk.symm.trans (hkilled hk')) Bool.noConfusion
  have hcases : ((Kernel.step m.st (.dispatch c p)).pc p = m.st.pc p ∨
      ((Kernel.step m.st (.dispatch c p)).pc p).exposed = false) ∧
      (((Kernel.step m.st (.dispatch c p)).ptable p).state = .sleeping →
        Kernel.step m.st (.dispatch c p) = m.st ∨ (m.st.ptable p).killed = false) := by
    simp only [Kernel.step]
    split
    · have hrun : ((dispatched m.st c p).ptable p).state ≠ .sleeping := by simp [dispatched]
      have hk : ((dispatched m.st c p).ptable p).killed = (m.st.ptable p).killed := by simp [dispatched]
      unfold resume
      split
      · rename_i hw
        refine ⟨?_, fun hs => .inr (hk.symm.trans (waitLoop_slept hs hrun))⟩
        right
        unfold waitLoop
        dsimp only
        split
        · simp [Pc.exposed]
        · split
          · simp [Pc.exposed]
          · simp [St.sleep, Pc.exposed]
      · exact ⟨.inr (by simp [Pc.exposed]), fun hs => absurd hs hrun⟩
      · exact ⟨.inl rfl, fun hs => absurd hs hrun⟩
    · exact ⟨.inl rfl, fun _ => .inl rfl⟩
  have hexp : Exposed { m with st := Kernel.step m.st (.dispatch c p), stage := stage } p = true → Exposed m p = true := by
    intro he
    simp only [Exposed, Bool.or_eq_true] at he ⊢
    rcases he with he | he
    · rcases hstage with hs | hs
      · exact .inl (hs ▸ he)
      · rw [hs] at he
        cases he
    · rcases hcases.1 with hp | hp
      · exact .inr (hp ▸ he)
      · rw [hp] at he
        cases he
  refine ⟨fun he => hkeep (hm.1 (hexp he)), fun hs hi => ?_⟩
  rcases hcases.2 hs with hsame | hk
  · -- the CPU was busy, or the process not RUNNABLE
    rw [hsame] at hs hi ⊢
    refine hm.2 hs ?_
    rcases hi with hp | hst
    · exact .inl hp
    · rcases hstage with he | he
      · exact .inr (he ▸ hst)
      · change (stage p).blocked = true at hst
        rw [he] at hst
        cases hst
  · exact hkeep hk

theorem kernel_unkilled {o : Op N K} (hm : ∀ q, Unkilled m q) (hok : KillOk m (.kernel o)) (q : Fin N) :
    Unkilled (m.step (.kernel o)) q := by
  simp only [Blocking.step]
  split
  · rename_i hal
    have hstage := started_cases m.st o m.stage .none q
    by_cases ha : actor m.st o = some q
    · cases o with
      | dispatch c p =>
        cases ha
        exact dispatch_unkilled (hm q) hstage
      | wakeDev n => cases ha
      | preempt c | trap c | call c | exec c | sleepDev c => exact actor_unkilled (hm q) rfl ha hal hstage
    · exact bystander_unkilled (hm q) hok ha hstage
  · exact hm q

/-! ## The steps of the calls -/

/-- a step outside the table that leaves everybody's place, or takes `p` out of these calls -/
theorem unkilled_of_stage (hm : ∀ q, Unkilled m q) (m' : Blocking N K) {e : Stage}
    (hk : ∀ q, m'.killed q = m.killed q)
    (hasleep : ∀ q, (m'.st.ptable q).state = .sleeping → (m.st.ptable q).state = .sleeping)
    (hpc : ∀ q, m'.st.pc q = m.st.pc q ∨ (m'.st.pc q).blocked = false)
    (hstage : m'.stage = update m.stage p e)
    (he : (e.exposed = false ∧ e.blocked = false) ∨ m.killed p = false) (q : Fin N) : Unkilled m' q := by
  by_cases hq : q = p
  · subst hq
    rcases he with he | he
    · refine Undisturbed.unkilled ⟨hk q, hasleep q, .inr ?_, hpc q⟩ (hm q)
      rw [hstage, update_self]
      exact he
    · exact unkilled_of_false ((hk q).trans he)
  · refine Undisturbed.unkilled ⟨hk q, hasleep q, .inl ?_, hpc q⟩ (hm q)
    rw [hstage, update_of_ne hq]

theorem wakeup_unkilled (hm : ∀ q, Unkilled m q) (n : ℕ) (q : Fin N) : Unkilled (m.wakeup n) q := by
  have h := unmarked_wake (m.st.ptable q) (.dev n)
  exact Undisturbed.unkilled ⟨h.killed, h.asleep, .inl rfl, .inl rfl⟩ (hm q)

theorem setStage_unkilled (hm : ∀ q, Unkilled m q) {e : Stage}
    (he : (e.exposed = false ∧ e.blocked = false) ∨ m.killed p = false) (q : Fin N) : Unkilled (m.setStage p e) q :=
  unkilled_of_stage hm (m.setStage p e) (fun _ => rfl) (fun _ => id) (fun _ => .inl rfl) rfl he q

theorem acquire_unkilled (hm : ∀ q, Unkilled m q) (l : Loop) (q : Fin N) : Unkilled (m.acquire p l) q := by
  unfold Blocking.acquire
  split
  · exact setStage_unkilled (e := .loop l) hm (.inl ⟨rfl, rfl⟩) q
  · exact hm q

theorem ret_unkilled (hm : ∀ q, Unkilled m q) (l : Loop) (v : ℤ) (q : Fin N) : Unkilled (m.ret p l v) q := by
  refine unkilled_of_stage (e := .none) hm (m.ret p l v) (fun _ => rfl) (fun _ => id) (fun r => ?_) rfl
    (.inl ⟨rfl, rfl⟩) q
  by_cases hr : r = p
  · subst hr
    exact .inr (by simp [Blocking.ret, Pc.blocked])
  · exact .inl (by simp [Blocking.ret, update_of_ne hr])

theorem loopStep_unkilled (hm : ∀ q, Unkilled m q) (l : Loop) (q : Fin N) : Unkilled (m.loopStep p l) q := by
  -- a change of the device alone is none of the table
  have hdev : ∀ d, ∀ r, Unkilled { m with dev := d } r := fun _ r => hm r
  cases l with
  | sleep ticks0 n =>
    simp only [Blocking.loopStep]
    split
    · split
      · exact ret_unkilled hm _ _ q
      · rename_i hk
        exact setStage_unkilled hm (.inr (by simpa using hk)) q
    · exact ret_unkilled hm _ _ q
  | pipewrite i k n =>
    simp only [Blocking.loopStep]
    split
    · split
      · split
        · exact ret_unkilled hm _ _ q
        · rename_i hk
          have hk' : m.killed p = false := by simpa using (not_or.1 hk).2
          have hw : (m.wakeup (nreadChan i)).killed p = false :=
            (unmarked_wake (m.st.ptable p) (.dev (nreadChan i))).killed.trans hk'
          exact setStage_unkilled (wakeup_unkilled hm _) (.inr hw) q
      · exact setStage_unkilled (m := m.setPipe i _) (hdev _) (.inl ⟨rfl, rfl⟩) q
    · exact ret_unkilled (wakeup_unkilled hm _) _ _ q
  | piperead i n =>
    simp only [Blocking.loopStep]
    split
    · split
      · exact ret_unkilled hm _ _ q
      · rename_i hk
        exact setStage_unkilled hm (.inr (by simpa using hk)) q
    · exact ret_unkilled (wakeup_unkilled (m := m.setPipe i _) (hdev _) _) _ _ q
  | consoleread target n =>
    simp only [Blocking.loopStep]
    split
    · split
      · split
        · exact ret_unkilled hm _ _ q
        · rename_i hk
          exact setStage_unkilled hm (.inr (by simpa using hk)) q
      · split
        · split
          · exact ret_unkilled hm _ _ q
          · exact ret_unkilled (hdev _) _ _ q
        · split
          · exact ret_unkilled (hdev _) _ _ q
          · exact setStage_unkilled (hdev _) (.inl ⟨rfl, rfl⟩) q
    · exact ret_unkilled hm _ _ q

/-- a section of `Kernel.Machine` that its caller has entered before -/
theorem section_unkilled (hm : ∀ q, Unkilled m q) {s' : St N K}
    (hother : ∀ q, q ≠ p → (Unmarked (m.st.ptable q) (s'.ptable q) ∨ (s'.ptable q).killed = false) ∧
      (s'.pc q = m.st.pc q ∨ s'.pc q = .user))
    (hself : (s'.pc p).blocked = true → (s'.ptable p).killed = false) (q : Fin N) :
    Unkilled { m.setStage p .none with st := s' } q := by
  by_cases hq : q = p
  · subst hq
    have hs : ({ m.setStage q .none with st := s' } : Blocking N K).stage q = .none := update_self ..
    by_cases hb : (s'.pc q).blocked = true
    · exact unkilled_of_false (hself hb)
    · exact unkilled_of_outside hs (by simpa using hb)
  · obtain ⟨hmark, hpc⟩ := hother q hq
    rcases hmark with h | h
    · refine Undisturbed.unkilled (m := m) ⟨h.killed, h.asleep, .inl (update_of_ne hq _ _), ?_⟩ (hm q)
      rcases hpc with he | he
      · exact .inl he
      · exact .inr (by show (s'.pc q).blocked = false; rw [he]; rfl)
    · exact unkilled_of_false h

theorem enteredStep_unkilled (hm : ∀ q, Unkilled m q) {f : Blocker} (hc : m.st.curproc c = some p)
    (hst : m.stage p = .entered f) (q : Fin N) : Unkilled (m.enteredStep c p f) q := by
  cases f with
  | wait =>
    refine section_unkilled hm (fun r hr => ⟨?_, waitLoop_moves m.st m.st c p rfl r hr⟩) ?_ q
    · cases waitLoop_touch (s := m.st) (o := .call c .wait) (.refl _) hc c r with
      | unmarked h => exact .inl h
      | slept ha h => exact absurd (Option.some.inj (hc.symm.trans ha)).symm hr
      | killed pid hk => cases hk
      | fault c' b ho => cases ho
      | freed hs hk hid => exact .inr hk
      | stored p' np st hs => cases hs
    · -- it sleeps only if it has found the flag clear
      intro hb
      unfold waitLoop at hb ⊢
      dsimp only at hb ⊢
      split at hb
      · simp [Pc.blocked] at hb
      · rename_i hfound
        rw [if_neg hfound]
        split at hb
        · simp [Pc.blocked] at hb
        · rename_i hk
          rw [if_neg hk]
          simp only [not_or, Bool.not_eq_true] at hk
          simpa [St.sleep] using hk.2
  | threadJoin tid =>
    have hk : (m.st.ptable p).killed = false := (hm p).1 (by simp [Exposed, hst, Stage.exposed])
    have hmarks := threadJoin_marks m.st c p tid
    refine section_unkilled hm (fun r hr => ⟨.inl ?_, threadJoin_moves m.st c p tid r hr⟩) (fun _ => ?_) q
    · exact (hmarks r).resolve_right fun h => hr h.1
    · rcases hmarks p with h | ⟨_, h⟩
      · exact h.killed.trans hk
      · exact h.killed.trans hk
  | semDown id =>
    have hk : (m.st.ptable p).killed = false := (hm p).1 (by simp [Exposed, hst, Stage.exposed])
    have hmarks := down_marks m.st c p id
    refine section_unkilled hm (fun r hr => ⟨.inl ?_, down_moves m.st c p id r hr⟩) (fun _ => ?_) q
    · exact (hmarks r).resolve_right fun h => hr h.1
    · rcases hmarks p with h | ⟨_, h⟩
      · exact h.killed.trans hk
      · exact h.killed.trans hk
  | sleep n => exact acquire_unkilled hm _ q
  | pipewrite i n => exact acquire_unkilled hm _ q
  | piperead i n => exact acquire_unkilled hm _ q
  | consoleread n => exact acquire_unkilled hm _ q

theorem sleep_unkilled (hm : ∀ q, Unkilled m q) {l : Loop} (hst : m.stage p = .tested l) (q : Fin N) :
    Unkilled (m.sleep c p l) q := by
  have hk : (m.st.ptable p).killed = false := (hm p).1 (by simp [Exposed, hst, Stage.exposed])
  by_cases hq : q = p
  · subst hq
    refine unkilled_of_false ?_
    simpa [Blocking.killed, Blocking.sleep, St.sleep] using hk
  · refine Undisturbed.unkilled (m := m) ⟨?_, ?_, .inl (update_of_ne hq _ _), .inl ?_⟩ (hm q)
    · simp [Blocking.killed, Blocking.sleep, St.sleep, Table.write_of_ne _ hq]
    · simp [Blocking.sleep, St.sleep, Table.write_of_ne _ hq]
    · simp [Blocking.sleep, St.sleep, update_of_ne hq]

/-- **One step.** -/
theorem step_unkilled {o : BOp N K} (hm : ∀ q, Unkilled m q) (hok : KillOk m o) (q : Fin N) : Unkilled (m.step o) q := by
  cases o with
  | kernel o => exact kernel_unkilled hm hok q
  | enter c f =>
    simp only [Blocking.step]
    split
    · exact hm q
    · rename_i p hp
      obtain ⟨hc, hu⟩ := Option.filter_eq_some_iff.1 hp
      simp only [decide_eq_true_eq] at hu
      split
      · by_cases hq : q = p
        · subst hq
          refine unkilled_of_outside hu.2 ?_
          show ((exit m.st q).pc q).blocked = false
          unfold exit
          split <;> simp [Pc.blocked]
        · refine Undisturbed.unkilled (m := m) ⟨?_, ?_, .inl rfl, ?_⟩ (hm q)
          · simp [Blocking.killed]
          · simp
          · rcases exit_moves m.st m.st p rfl q hq with he | he
            · exact .inl he
            · exact .inr (by show ((exit m.st p).pc q).blocked = false; rw [he]; rfl)
      · rename_i hk
        exact setStage_unkilled hm (.inr (by simpa using hk)) q
  | go c =>
    simp only [Blocking.step]
    split
    · exact hm q
    · rename_i p hc
      cases hst : m.stage p with
      | none => exact hm q
      | entered f => exact enteredStep_unkilled hm hc hst q
      | loop l => exact loopStep_unkilled hm l q
      | tested l => exact sleep_unkilled hm hst q
      | asleep l => exact acquire_unkilled hm l q
  | tick =>
    simp only [Blocking.step]
    split
    · exact wakeup_unkilled (m := { m with dev := _ }) hm _ q
    · exact hm q
  | key ch =>
    simp only [Blocking.step]
    split
    · split
      · exact wakeup_unkilled (m := { m with dev := _ }) hm _ q
      · exact hm q
    · exact hm q
  | close i writable =>
    simp only [Blocking.step]
    split
    · split
      · exact wakeup_unkilled (m := m.setPipe i _) hm _ q
      · exact wakeup_unkilled (m := m.setPipe i _) hm _ q
    · exact hm q

end Step

/-! ## Runs -/

theorem blockingBoot_unkilled [NeZero N] (q : Fin N) : Unkilled (Blocking.boot N K) q := by
  refine unkilled_of_false ?_
  by_cases hq : q = 0
  · simp [Blocking.killed, Blocking.boot, Kernel.boot, hq, freeSlot]
  · simp [Blocking.killed, Blocking.boot, Kernel.boot, hq, freeSlot]

/-- **A killed process does not stay asleep.** In every run in which no `kill` hits an exposed process, no process that is
killed is SLEEPING in `wait`, `thread_join`, `binary_semaphore_down`, `sys_sleep`, `pipewrite`, `piperead` or
`consoleread`. -/
theorem killed_not_asleep [NeZero N] (ops : List (BOp N K)) (h : Along Blocking.step KillOk (Blocking.boot N K) ops)
    (p : Fin N) :
    ¬ KilledAsleep (run Blocking.step (Blocking.boot N K) ops) p := by
  rintro ⟨hk, hs, hi⟩
  have hm : ∀ q, Unkilled (run Blocking.step (Blocking.boot N K) ops) q :=
    h.inv (I := fun m => ∀ q, Unkilled m q) (fun m o ho hm => step_unkilled hm ho) blockingBoot_unkilled
  exact Bool.noConfusion (((hm p).2 hs hi).symm.trans hk)

/-- init forks a child -/
def forkChild (c : Fin K) [NeZero N] : List (BOp N K) :=
  ([.dispatch c 0, .call c .fork] ++ List.replicate 10 (.exec c true) : List (Op N K)).map .kernel

/-- the child sleeps in `sys_sleep(10)` when init kills it; it is RUNNABLE again -/
def killedInSleep : List (BOp 64 1) := forkChild 0 ++
  [.kernel (.preempt 0), .kernel (.dispatch 0 1), .enter 0 (.sleep 10), .go 0, .go 0, .go 0, .kernel (.dispatch 0 0),
    .kernel (.call 0 (.kill 2))]

/-- the theorem at that run -/
theorem killed_not_asleep_sleep :
    (run Blocking.step (Blocking.boot 64 1) killedInSleep).killed 1 = true ∧
      ((run Blocking.step (Blocking.boot 64 1) killedInSleep).st.ptable 1).state ≠ .sleeping := by
  have hk : (run Blocking.step (Blocking.boot 64 1) killedInSleep).killed 1 = true := by decide +kernel
  have hi : BlockedIn (run Blocking.step (Blocking.boot 64 1) killedInSleep) 1 := by decide +kernel
  exact ⟨hk, fun hs => killed_not_asleep killedInSleep (by decide +kernel) 1 ⟨hk, hs, hi⟩⟩

/-- on two CPUs: the child has tested `killed` in `sys_sleep` when init, on the other one, kills it -/
def killBeforeSleep : List (BOp 64 2) := forkChild 0 ++
  [.kernel (.dispatch 1 1), .enter 1 (.sleep 10), .go 1, .go 1, .kernel (.call 0 (.kill 2)), .go 1]

/-- the child sleeps in `binary_semaphore_down` on a semaphore with value 0 when init kills it, and tests again -/
def killInDown : List (BOp 64 1) := [.kernel (.dispatch 0 0), .kernel (.call 0 (.semCreate 0))] ++ forkChild 0 ++
  [.kernel (.preempt 0), .kernel (.dispatch 0 1), .enter 0 (.semDown 0), .go 0, .kernel (.dispatch 0 0),
    .kernel (.call 0 (.kill 2)), .kernel (.preempt 0), .kernel (.dispatch 0 1), .kernel (.exec 0 true)]

/-- the child has made a thread and is in `thread_join`, before it takes `ptable.lock`, when init kills it -/
def killInJoin : List (BOp 64 1) := forkChild 0 ++ [.kernel (.preempt 0), .kernel (.dispatch 0 1),
  .kernel (.call 0 .threadCreate)] ++ List.replicate 12 (.kernel (.exec 0 true)) ++
  [.enter 0 (.threadJoin 1), .kernel (.preempt 0), .kernel (.dispatch 0 0), .kernel (.call 0 (.kill 2)),
    .kernel (.preempt 0), .kernel (.dispatch 0 1), .go 0]

/-- **Killed and asleep.** In each of the three runs the child is SLEEPING inside the call with `killed` set. -/
theorem killed_asleep :
    KilledAsleep (run Blocking.step (Blocking.boot 64 2) killBeforeSleep) 1 ∧
      KilledAsleep (run Blocking.step (Blocking.boot 64 1) killInDown) 1 ∧
      KilledAsleep (run Blocking.step (Blocking.boot 64 1) killInJoin) 1 := by
  decide +kernel

end Xv6Threads.Kernel
