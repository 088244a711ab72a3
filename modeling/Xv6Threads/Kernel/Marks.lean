/-
Which steps write `killed` and `thread_id` of a slot.

`killed` is set by `kill` and by a fault, and cleared by `wait` when it frees the slot; `allocproc` does not touch it.
`thread_id` is written by `fork` and `thread_create`, without `ptable.lock`, and stays in the slot after its last use.
Every other store of the kernel leaves both alone.
- `Unmarked`: both are as before, and the slot was not freed or put to sleep.
- `Touch`: the ways a slot can come out of a step.
- `step_touch`: every step, every slot.
-/
import Xv6Threads.Kernel.Frames

namespace Xv6Threads.Kernel

open Xv6Threads.Core

variable {N K : ℕ}

/-- neither `killed` nor `thread_id` has been written, and the slot has not been freed or put to sleep -/
structure Unmarked (x y : Proc N) : Prop where
  killed : y.killed = x.killed
  threadId : y.threadId = x.threadId
  unused : y.state = .unused → x.state = .unused
  asleep : y.state = .sleeping → x.state = .sleeping

/-- the process has gone to sleep -/
structure Slept (x y : Proc N) : Prop where
  killed : y.killed = x.killed
  threadId : y.threadId = x.threadId
  state : y.state = .sleeping

/-- no slot of the table has been written so -/
def SameMarks (t t' : Table N) : Prop := ∀ q, Unmarked (t q) (t' q)

/-- or only process `p` has gone to sleep -/
def SleepMarks (p : Fin N) (t t' : Table N) : Prop := ∀ q, Unmarked (t q) (t' q) ∨ (q = p ∧ Slept (t q) (t' q))

/-- the argument of the `kill` that is executed in this step -/
def killing (s : St N K) : Op N K → Option ℤ
  | .call c (.kill pid) => (s.curproc c).bind fun p => if s.pc p = .user ∧ (s.ptable p).killed = false then some pid else none
  | _ => none

/-- the process that a step is of: the one the CPU runs, or switches to -/
def actor (s : St N K) : Op N K → Option (Fin N)
  | .dispatch _ p => some p
  | o => o.cpu.bind s.curproc

/-- how slot `q` comes out of a step -/
inductive Touch (s : St N K) (o : Op N K) (q : Fin N) (y : Proc N) : Prop
  | unmarked (h : Unmarked (s.ptable q) y) : Touch s o q y
  | slept (ha : actor s o = some q) (h : Slept (s.ptable q) y) : Touch s o q y
  | killed (pid : ℤ) (hk : pid ∈ killing s o) (hf : killFind s.ptable pid = some q)
      (hs : y.state = .unused → (s.ptable q).state = .unused) (ha : y.state ≠ .sleeping) (hid : y.threadId = (s.ptable q).threadId) : Touch s o q y
  | fault (c : Fin K) (b : Bool) (ho : o = .trap c b) (ha : actor s o = some q) (hc : s.curproc c = some q) (hs : y.state = (s.ptable q).state) (hid : y.threadId = (s.ptable q).threadId) : Touch s o q y
  | freed (hs : y.state = .unused) (hk : y.killed = false) (hid : y.threadId = (s.ptable q).threadId) : Touch s o q y
  | stored (p np : Fin N) (st : Making) (hs : storing s o = some (p, st, np)) (hk : y.killed = (s.ptable q).killed)
      (ha : y.state = .sleeping → (s.ptable q).state = .sleeping)
      (hid : st ≠ .forkThreadId → st ≠ .tcThreadId → y.threadId = (s.ptable q).threadId) : Touch s o q y

/-! ## Stores that write neither -/

section Tables

variable {t t' t'' : Table N} {f : Proc N → Proc N}

theorem Unmarked.refl (x : Proc N) : Unmarked x x := ⟨rfl, rfl, id, id⟩

theorem Unmarked.trans {x y z : Proc N} (h : Unmarked x y) (h' : Unmarked y z) : Unmarked x z :=
  ⟨h'.killed.trans h.killed, h'.threadId.trans h.threadId, fun hz => h.unused (h'.unused hz),
    fun hz => h.asleep (h'.asleep hz)⟩

theorem SameMarks.refl (t : Table N) : SameMarks t t := fun _ => .refl _

theorem SameMarks.write (h : SameMarks t t') {p : Fin N} (hf : Unmarked (t' p) (f (t' p))) : SameMarks t (t'.write p f) := by
  intro q
  by_cases hq : q = p
  · subst hq
    rw [Table.write_self]
    exact (h q).trans hf
  · rw [Table.write_of_ne t' hq]
    exact h q

theorem SameMarks.writeAt (h : SameMarks t t') {p : Option (Fin N)} (hf : ∀ x, Unmarked x (f x)) :
    SameMarks t (t'.writeAt p f) := by
  cases p with
  | none => exact h
  | some p => exact h.write (hf _)

theorem unmarked_wake (x : Proc N) (chan : Chan N) : Unmarked x (x.wake chan) := by
  unfold Proc.wake
  split
  · exact ⟨rfl, rfl, nofun, nofun⟩
  · exact .refl x

theorem SameMarks.wakeup1 (h : SameMarks t t') (chan : Chan N) : SameMarks t (wakeup1 t' chan) :=
  fun q => (h q).trans (unmarked_wake (t' q) chan)

theorem SameMarks.zombie (h : SameMarks t t') (p : Fin N) : SameMarks t (t'.write p fun x => { x with state := .zombie }) :=
  h.write (f := fun x => { x with state := .zombie }) ⟨rfl, rfl, nofun, nofun⟩

/-- `threadnum--` -/
theorem SameMarks.decrement (h : SameMarks t t') (p : Fin N) :
    SameMarks t (t'.write p fun x => { x with threadnum := x.threadnum - 1 }) :=
  h.write (f := fun x => { x with threadnum := x.threadnum - 1 }) ⟨rfl, rfl, id, id⟩

theorem SameMarks.dropThread (h : SameMarks t t') (m : Fin N) : SameMarks t (dropThread t' m) := by
  have hdec : SameMarks t
      (if (t' m).threadnum ≠ 0 then t'.write m fun x => { x with threadnum := x.threadnum - 1 } else t') := by
    split
    · exact h.decrement m
    · exact h
  unfold Kernel.dropThread
  generalize (if (t' m).threadnum ≠ 0 then t'.write m fun x => { x with threadnum := x.threadnum - 1 } else t') = t₁
    at hdec ⊢
  dsimp only
  split
  · exact hdec.wakeup1 _
  · exact hdec

theorem SameMarks.dropMain (h : SameMarks t t') (m : Fin N) : SameMarks t (dropMain t' m) := by
  unfold Kernel.dropMain
  dsimp only
  split
  · exact (h.decrement m).wakeup1 _
  · exact h.decrement m

theorem SameMarks.exitSlot (h : SameMarks t t') (initproc proc p : Fin N) :
    SameMarks t (exitSlot initproc proc t' p) := by
  have hz := h.zombie p
  have hp : SameMarks t (t'.write p fun x => { x with parent := some initproc }) :=
    h.write (f := fun x => { x with parent := some initproc }) ⟨rfl, rfl, id, id⟩
  unfold Kernel.exitSlot
  dsimp only
  split
  · split
    · split
      · exact hz
      · exact hz.dropThread _
    · exact hz.dropMain p
  · split
    · split
      · exact hp.wakeup1 _
      · exact hp
    · exact h

theorem SameMarks.exitFold (h : SameMarks t t') (initproc proc : Fin N) (slots : List (Fin N)) :
    SameMarks t (slots.foldl (Kernel.exitSlot initproc proc) t') := by
  induction slots generalizing t' with
  | nil => exact h
  | cons p slots ih => exact ih (h.exitSlot initproc proc p)

theorem exitSection_sameMarks (initproc proc : Fin N) (t : Table N) : SameMarks t (exitSection initproc proc t) :=
  (((SameMarks.refl t).wakeup1 _).exitFold initproc proc _).zombie proc

end Tables

/-! ## The functions of proc.c -/

section Functions

variable {s s₁ : St N K} {o : Op N K} {c : Fin K} {p q : Fin N}

theorem SameMarks.touch {t' : Table N} (h : SameMarks s.ptable t') (q : Fin N) : Touch s o q (t' q) := .unmarked (h q)

theorem SameMarks.sleepMarks (h : SameMarks s.ptable s₁.ptable) (p : Fin N) : SleepMarks p s.ptable s₁.ptable :=
  fun q => .inl (h q)

theorem SameMarks.sleep (h : SameMarks s.ptable s₁.ptable) (c : Fin K) (p : Fin N) (chan : Chan N) (pc : Pc N) :
    SleepMarks p s.ptable (s₁.sleep c p chan pc).ptable := by
  intro q
  by_cases hq : q = p
  · subst hq
    right
    have hslot : (s₁.sleep c q chan pc).ptable q = { s₁.ptable q with chan := chan, state := .sleeping } := by
      simp [St.sleep]
    rw [hslot]
    exact ⟨rfl, (h q).killed, (h q).threadId, rfl⟩
  · left
    have hslot : (s₁.sleep c p chan pc).ptable q = s₁.ptable q := by simp [St.sleep, Table.write_of_ne _ hq]
    rw [hslot]
    exact h q

theorem SleepMarks.touch {t' : Table N} (h : SleepMarks p s.ptable t') (ha : actor s o = some p) (q : Fin N) :
    Touch s o q (t' q) := by
  rcases h q with hu | ⟨rfl, hs⟩
  · exact .unmarked hu
  · exact .slept ha hs

theorem allocproc_sameMarks (s : St N K) (p : Fin N) (f : Maker) : SameMarks s.ptable (allocproc s p f).ptable := by
  unfold allocproc
  split
  · exact .refl _
  · exact (SameMarks.refl s.ptable).write
      (f := fun x => { x with state := .embryo, pid := s.nextpid, uid := s.nextpid }) ⟨rfl, rfl, nofun, nofun⟩

theorem threadExit_sameMarks (s : St N K) (c : Fin K) (p : Fin N) (v : ℕ) :
    SameMarks s.ptable (threadExit s c p v).ptable := by
  have hrefl := SameMarks.refl s.ptable
  have hdec : ∀ x : Proc N, Unmarked x { x with threadnum := x.threadnum - 1 } := fun _ => ⟨rfl, rfl, id, id⟩
  unfold threadExit
  dsimp only
  split
  · split
    · rw [exit_ptable]
      exact hrefl.writeAt hdec
    · have hz := ((hrefl.write (p := p) (f := fun x => { x with retVal := v }) ⟨rfl, rfl, id, id⟩).writeAt
        (p := (s.ptable p).parent) hdec).zombie p
      split
      · exact hz.wakeup1 _
      · exact hz
  · split
    · rw [exit_ptable]
      exact hrefl.decrement p
    · exact hrefl.write (f := fun x => { x with threadnum := x.threadnum - 1, state := .zombie }) ⟨rfl, rfl, nofun, nofun⟩

theorem threadJoin_marks (s : St N K) (c : Fin K) (p : Fin N) (tid : ℤ) :
    SleepMarks p s.ptable (threadJoin s c p tid).ptable := by
  have hrefl := SameMarks.refl s.ptable
  unfold threadJoin
  split
  · exact hrefl.sleepMarks p
  split
  · exact hrefl.sleepMarks p
  split
  · exact hrefl.sleepMarks p
  · rename_i t _ _ _
    have hset : SameMarks s.ptable (s.write t fun x => { x with isjoined := true }).ptable :=
      hrefl.write (f := fun x => { x with isjoined := true }) ⟨rfl, rfl, fun h => h, fun h => h⟩
    exact hset.sleep c p _ _

theorem SameMarks.enqueue (h : SameMarks s.ptable s₁.ptable) (p : Fin N) (id : SemId) :
    SameMarks s.ptable (enqueue s₁ p id).ptable :=
  h.write (f := fun x => { x with semQueuePos := (s₁.semtable id).waiting + 1 }) ⟨rfl, rfl, fun h => h, fun h => h⟩

theorem SameMarks.downLoop (h : SameMarks s.ptable s₁.ptable) (c : Fin K) (p : Fin N) (id : SemId) :
    SleepMarks p s.ptable (downLoop s₁ c p id).ptable := by
  unfold Kernel.downLoop
  split
  · split
    · have htake : SameMarks s.ptable (semTake s₁ p id).ptable :=
        h.write (f := fun x => { x with waitingForSemaphore := none }) ⟨rfl, rfl, fun h => h, fun h => h⟩
      exact htake.sleepMarks p
    · have hq : SameMarks s.ptable (if (s₁.ptable p).semQueuePos = 0 then Kernel.enqueue s₁ p id else s₁).ptable := by
        split
        · exact h.enqueue p id
        · exact h
      generalize (if (s₁.ptable p).semQueuePos = 0 then Kernel.enqueue s₁ p id else s₁) = s₂ at hq ⊢
      have hw : SameMarks s.ptable (s₂.write p fun x => { x with waitingForSemaphore := some id }).ptable :=
        hq.write (f := fun x => { x with waitingForSemaphore := some id }) ⟨rfl, rfl, fun h => h, fun h => h⟩
      exact hw.sleep c p _ _
  · exact h.sleepMarks p

theorem down_marks (s : St N K) (c : Fin K) (p : Fin N) (id : SemId) :
    SleepMarks p s.ptable (binarySemaphoreDown s c p id).ptable := by
  have hlog : SameMarks s.ptable (s.log (.call (s.who p) id)).ptable := .refl _
  unfold binarySemaphoreDown
  dsimp only
  split
  · exact (hlog.enqueue p id).downLoop c p id
  · exact hlog.downLoop c p id

theorem up_sameMarks (s : St N K) (p : Fin N) (id : SemId) : SameMarks s.ptable (binarySemaphoreUp s p id).ptable := by
  have hslot : SameMarks s.ptable (upSlot s.ptable p id) := by
    intro q
    unfold upSlot
    split <;> exact ⟨rfl, rfl, fun h => h, fun h => h⟩
  unfold binarySemaphoreUp
  split
  · refine hslot.writeAt (f := Proc.wakeFirst) fun x => ⟨rfl, rfl, fun hs => ?_, fun hs => ?_⟩
    all_goals
      unfold Proc.wakeFirst at hs
      cases hx : x.state <;> simp_all
  · exact .refl _

/-- `wait` clears `killed` in the slots it frees -/
theorem waitLoop_touch (h : SameMarks s.ptable s₁.ptable) (ha : actor s o = some p) (c : Fin K) (q : Fin N) :
    Touch s o q ((waitLoop s₁ c p).ptable q) := by
  unfold waitLoop
  dsimp only
  split
  · simp only [St.sysret_ptable, reap]
    split
    · exact .freed rfl rfl (h q).threadId
    · exact h.touch q
  · split
    · exact h.touch q
    · exact (h.sleep c p _ _).touch ha q

theorem kill_touch {pid : ℤ} (hk : pid ∈ killing s o) (p q : Fin N) : Touch s o q ((kill s p pid).ptable q) := by
  unfold kill
  split
  · exact (SameMarks.refl s.ptable).touch q
  · rename_i f hf
    by_cases hq : q = f
    · subst hq
      simp only [St.sysret_ptable, St.write_ptable, Table.write_self]
      refine .killed pid hk hf ?_ ?_ rfl
      all_goals
        unfold Proc.kill
        cases (s.ptable q).state <;> simp
    · simp only [St.sysret_ptable, St.write_ptable, Table.write_of_ne _ hq]
      exact (SameMarks.refl s.ptable).touch q

theorem syscall_touch (hc : s.curproc c = some p) (hu : s.pc p = .user) (hk : (s.ptable p).killed = false) (f : Syscall)
    (q : Fin N) : Touch s (.call c f) q ((syscall s c p f).ptable q) := by
  have ha : actor s (.call c f) = some p := hc
  cases f with
  | fork => exact (allocproc_sameMarks s p _).touch q
  | threadCreate => exact (allocproc_sameMarks s p _).touch q
  | exit =>
    simp only [syscall, exit_ptable]
    exact (SameMarks.refl s.ptable).touch q
  | wait => exact waitLoop_touch (.refl _) ha c q
  | kill pid => exact kill_touch (by simp [killing, hc, hu, hk]) p q
  | threadExit v => exact (threadExit_sameMarks s c p v).touch q
  | threadJoin tid => exact (threadJoin_marks s c p tid).touch ha q
  | semCreate v =>
    simp only [syscall, binarySemaphoreCreate]
    split <;> exact (SameMarks.refl s.ptable).touch q
  | semDown id => exact (down_marks s c p id).touch ha q
  | semUp id => exact (up_sameMarks s p id).touch q

theorem stepOn_touch (hc : s.curproc c = some p) (hoc : o.cpu = some c) (q : Fin N) :
    Touch s o q ((stepOn s c p o).ptable q) := by
  have hrefl := SameMarks.refl s.ptable
  have ha : actor s o = some p := by
    cases o with
    | dispatch => cases hoc
    | _ => simp [actor, hoc, hc]
  cases o with
  | dispatch c' r => cases hoc
  | wakeDev n => cases hoc
  | preempt c' =>
    simp only [stepOn]
    split
    · exact (hrefl.write (f := fun x => { x with state := .runnable }) ⟨rfl, rfl, (by intro h; cases h), (by intro h; cases h)⟩).touch q
    · exact hrefl.touch q
  | trap c' fault =>
    obtain rfl : c' = c := Option.some.inj hoc
    simp only [stepOn]
    split
    · have hfault : Touch s (.trap c' fault) q
          ((if fault = true then s.write p fun x => { x with killed := true } else s).ptable q) := by
        split
        · by_cases hq : q = p
          · subst hq
            refine .fault c' fault rfl ha hc ?_ ?_ <;> simp
          · simp only [St.write_ptable, Table.write_of_ne _ hq]
            exact hrefl.touch q
        · exact hrefl.touch q
      generalize (if fault = true then s.write p fun x => { x with killed := true } else s) = s₁ at hfault ⊢
      split
      · rw [exit_ptable]
        exact hfault
      · exact hfault
    · exact hrefl.touch q
  | call c' f =>
    obtain rfl : c' = c := Option.some.inj hoc
    simp only [stepOn]
    split
    · rename_i hu
      split
      · rw [exit_ptable]
        exact hrefl.touch q
      · rename_i hk
        exact syscall_touch hc hu (by simpa using hk) f q
    · exact hrefl.touch q
  | exec c' ok =>
    obtain rfl : c' = c := Option.some.inj hoc
    simp only [stepOn]
    cases hpc : s.pc p with
    | make st np =>
      exact .stored p np st (storing_exec hc hpc ok) (makeStep_untouched ..).killed (makeStep_untouched ..).asleep
        (makeStep_untouched ..).threadId
    | exitClose => exact (exitSection_sameMarks s.initproc p s.ptable).touch q
    | downSleep id => exact (hrefl.downLoop c' p id).touch ha q
    | user | waitSleep | joinSleep | panicked => exact hrefl.touch q
  | sleepDev c' n =>
    simp only [stepOn]
    split
    · exact (hrefl.sleep c p _ _).touch ha q
    · exact hrefl.touch q

/-- **What a step writes of `killed` and `thread_id`.** -/
theorem step_touch (s : St N K) (o : Op N K) (q : Fin N) : Touch s o q ((step s o).ptable q) := by
  refine step_cases (P := fun s' => Touch s o q (s'.ptable q)) ((SameMarks.refl s.ptable).touch q) ?_ ?_ ?_
  · intro c p ho _ _
    have ha : actor s o = some p := by rw [ho]; rfl
    have hrun : SameMarks s.ptable (dispatched s c p).ptable :=
      (SameMarks.refl s.ptable).write (f := fun x => { x with state := .running, chan := .null }) ⟨rfl, rfl, nofun, nofun⟩
    unfold resume
    split
    · exact waitLoop_touch hrun ha c q
    · exact hrun.touch q
    · exact hrun.touch q
  · intro n _
    exact ((SameMarks.refl s.ptable).wakeup1 _).touch q
  · intro c p hoc hc
    exact stepOn_touch hc hoc q

/-- only `kill` and a fault set `killed` -/
theorem killed_before (hk : killing s o = none) (hf : ∀ c b, o ≠ .trap c b)
    (h : ((step s o).ptable q).killed = true) : (s.ptable q).killed = true := by
  cases step_touch s o q with
  | unmarked hu => exact hu.killed.symm.trans h
  | slept ha hs => exact hs.killed.symm.trans h
  | killed pid hmem => rw [hk] at hmem; cases hmem
  | fault c b ho => exact absurd ho (hf c b)
  | freed hs hfree => exact absurd (hfree.symm.trans h) Bool.noConfusion
  | stored p np st hs hsame => exact hsame.symm.trans h

end Functions

end Xv6Threads.Kernel
