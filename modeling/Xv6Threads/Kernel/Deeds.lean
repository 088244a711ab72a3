/-
What one step of the kernel does to the table, and who did it.

The turns of the census say which changes are possible; the machines built over the kernel (files, locks, address spaces)
also need to know whose step it was and that every other process is where it was. `Deed` lists the kinds of steps of
proc.c with that: most are calm, the others allocate a slot, make a store into it, retire the caller, end a process, or
free one.
- `step_deed`: every step is one of them, as long as each CPU runs a RUNNING slot.
-/
import Xv6Threads.Kernel.Reaping

namespace Xv6Threads.Kernel

open Xv6Threads.Core Function

variable {N K : ℕ}

/-- the two slots are of the same process, in the same part of its life -/
structure Alike (x y : Proc N) : Prop where
  life : y.state.life = x.state.life
  pid : y.pid = x.pid
  parent : y.parent = x.parent
  isthread : y.isthread = x.isthread
  pgdir : y.pgdir = x.pgdir

/-- init is where it was, and no page directory was made or freed -/
structure SameGlobals (s s' : St N K) : Prop where
  initproc : s'.initproc = s.initproc
  nextPgdir : s'.nextPgdir = s.nextPgdir
  freed : s'.freed = s.freed

/-- a slot that `wait` has freed -/
structure Emptied (x y : Proc N) : Prop where
  state : y.state = .unused
  pid : y.pid = 0
  parent : y.parent = none
  isthread : y.isthread = x.isthread

/-- in this step `p` enters the kernel from user mode, by a system call or a trap -/
def Enters (s : St N K) (o : Op N K) (p : Fin N) : Prop :=
  s.pc p = .user ∧ ∃ c, s.curproc c = some p ∧ ((∃ f, o = .call c f) ∨ ∃ fault, o = .trap c fault)

/-- the process that calls `thread_exit` in this step and does not leave through `exit` -/
def retiring (s : St N K) : Op N K → Option (Fin N)
  | .call c (.threadExit _) => (s.curproc c).filter fun p =>
      s.pc p = .user ∧ (s.ptable p).killed = false ∧ ∀ m ∈ s.mainOf p, (s.ptable m).threadnum ≠ 1
  | _ => none

/-- in this step `p` goes on to `pc` without touching a slot of another process's making -/
structure Turns (s : St N K) (o : Op N K) (p : Fin N) (pc : Pc N) : Prop where
  idle : (s.pc p).act = .idle
  next : pc.act = .idle ∨ pc.act = .leaving
  enters : s.pc p = .user → Enters s o p

/-- a step of the kernel, by its kind -/
inductive Deed (s : St N K) (o : Op N K) : St N K → Prop
  | calm (s' : St N K) (halike : ∀ q, Alike (s.ptable q) (s'.ptable q))
      (hpc : ∀ q, s'.pc q = s.pc q ∨ Turns s o q (s'.pc q)) (hglob : SameGlobals s s') : Deed s o s'
  | alloc (p np : Fin N) (f : Maker) (he : Enters s o p) (hnp : findUnused s.ptable = some np) :
      Deed s o (allocproc s p f)
  | make (c : Fin K) (p np : Fin N) (st : Making) (ok : Bool) (ho : o = .exec c ok) (hc : s.curproc c = some p)
      (hpc : s.pc p = .make st np) : Deed s o (makeStep s p np ok st)
  | retire (s' : St N K) (p : Fin N) (he : Enters s o p) (hr : p ∈ retiring s o)
      (hlast : ∀ m, s.mainOf p = some m → (s.ptable m).threadnum ≠ 1) (hz : (s'.ptable p).state = .zombie)
      (hpid : (s'.ptable p).pid = (s.ptable p).pid) (hpar : (s'.ptable p).parent = (s.ptable p).parent)
      (hthr : (s'.ptable p).isthread = (s.ptable p).isthread) (hpg : (s'.ptable p).pgdir = (s.ptable p).pgdir)
      (halike : ∀ q, q ≠ p → Alike (s.ptable q) (s'.ptable q)) (hpc : s'.pc = s.pc)
      (hglob : SameGlobals s s') : Deed s o s'
  | exit (c : Fin K) (p : Fin N) (ok : Bool) (ho : o = .exec c ok) (hc : s.curproc c = some p)
      (hpc : s.pc p = .exitClose) : Deed s o (exitLocked s c p)
  | reap (s' : St N K) (p : Fin N) (X : ℕ) (hw : p ∈ waiter s o) (hX : X ≠ 0) (hfound : waitFound s.ptable p = X)
      (hfree : ∀ q, (s.ptable q).pid = X → Emptied (s.ptable q) (s'.ptable q))
      (halike : ∀ q, (s.ptable q).pid ≠ X → Alike (s.ptable q) (s'.ptable q))
      (hpc : ∀ q, s'.pc q = s.pc q ∨ Turns s o q (s'.pc q)) (hinit : s'.initproc = s.initproc)
      (hnext : s'.nextPgdir = s.nextPgdir) (hfreed : s'.freed = s.freed ++ (freedPgdir s.ptable X).toList) : Deed s o s'

/-! ## Stores that leave a slot alike -/

section Stores

variable {s : St N K} {o : Op N K} {p : Fin N}

theorem Alike.refl (x : Proc N) : Alike x x := ⟨rfl, rfl, rfl, rfl, rfl⟩

theorem Alike.trans {x y z : Proc N} (h : Alike x y) (h' : Alike y z) : Alike x z :=
  ⟨h'.life.trans h.life, h'.pid.trans h.pid, h'.parent.trans h.parent, h'.isthread.trans h.isthread,
    h'.pgdir.trans h.pgdir⟩

theorem SameGlobals.refl (s : St N K) : SameGlobals s s := ⟨rfl, rfl, rfl⟩

theorem SameGlobals.trans {s₁ s₂ : St N K} (h : SameGlobals s s₁) (h' : SameGlobals s₁ s₂) : SameGlobals s s₂ :=
  ⟨h'.initproc.trans h.initproc, h'.nextPgdir.trans h.nextPgdir, h'.freed.trans h.freed⟩

theorem pgdir_wake (x : Proc N) (chan : Chan N) : (x.wake chan).pgdir = x.pgdir := by
  unfold Proc.wake
  split <;> rfl

theorem Alike.wake (x : Proc N) (chan : Chan N) : Alike x (x.wake chan) :=
  have h := sameLife_wake x chan
  ⟨h.life, h.pid, h.parent, h.isthread, pgdir_wake x chan⟩

theorem alike_write {t : Table N} {m : Fin N} {f : Proc N → Proc N} (h : Alike (t m) (f (t m))) (q : Fin N) :
    Alike (t q) (t.write m f q) := Table.write_rel .refl h q

theorem alike_writeAt {t : Table N} {m : Option (Fin N)} {f : Proc N → Proc N} (h : ∀ x, Alike x (f x)) (q : Fin N) :
    Alike (t q) (t.writeAt m f q) := Table.writeAt_rel .refl h q

/-- a process that is active may go to sleep -/
theorem alike_sleep {s₁ : St N K} (hl : (s₁.ptable p).state.life = .active) (c : Fin K) (chan : Chan N) (pc : Pc N)
    (q : Fin N) : Alike (s₁.ptable q) ((s₁.sleep c p chan pc).ptable q) := by
  refine alike_write (t := s₁.ptable) (m := p) (f := fun x => { x with chan := chan, state := .sleeping }) ?_ q
  exact ⟨hl.symm, rfl, rfl, rfl, rfl⟩

/-- a change that no process notices -/
structure Still (s s₁ : St N K) : Prop where
  alike : ∀ q, Alike (s.ptable q) (s₁.ptable q)
  pc : s₁.pc = s.pc
  globals : SameGlobals s s₁

theorem Still.refl (s : St N K) : Still s s := ⟨fun _ => .refl _, rfl, .refl s⟩

theorem Still.trans {s₁ s₂ : St N K} (h : Still s s₁) (h' : Still s₁ s₂) : Still s s₂ :=
  ⟨fun q => (h.alike q).trans (h'.alike q), h'.pc.trans h.pc, h.globals.trans h'.globals⟩

theorem Still.write {s₁ : St N K} (h : Still s s₁) {m : Fin N} {f : Proc N → Proc N}
    (hf : Alike (s₁.ptable m) (f (s₁.ptable m))) : Still s (s₁.write m f) :=
  h.trans ⟨alike_write hf, rfl, ⟨rfl, rfl, rfl⟩⟩

theorem Still.writeAt {s₁ : St N K} (h : Still s s₁) {m : Option (Fin N)} {f : Proc N → Proc N}
    (hf : ∀ x, Alike x (f x)) : Still s (s₁.writeAt m f) :=
  h.trans ⟨alike_writeAt hf, rfl, ⟨rfl, rfl, rfl⟩⟩

theorem Still.deed {s₁ : St N K} (h : Still s s₁) : Deed s o s₁ :=
  .calm s₁ h.alike (fun q => .inl (congrFun h.pc q)) h.globals

/-- a step of `p` that moves nobody else -/
theorem Still.move {s₁ s' : St N K} (h : Still s s₁) {pc : Pc N} (ht : Turns s o p pc)
    (halike : ∀ q, Alike (s₁.ptable q) (s'.ptable q)) (hpc : s'.pc = update s₁.pc p pc)
    (hglob : SameGlobals s₁ s') : Deed s o s' := by
  refine .calm s' (fun q => (h.alike q).trans (halike q)) ?_ (h.globals.trans hglob)
  intro q
  rw [hpc, h.pc]
  by_cases hq : q = p
  · subst hq
    rw [update_self]
    exact .inr ht
  · exact .inl (update_of_ne hq _ _)

/-- `p` may go on from where it is -/
def MayTurn (s : St N K) (o : Op N K) (p : Fin N) : Prop := (s.pc p).act = .idle ∧ (s.pc p = .user → Enters s o p)

theorem MayTurn.idle {pc : Pc N} (h : MayTurn s o p) (hpc : pc.act = .idle) : Turns s o p pc := ⟨h.1, .inl hpc, h.2⟩

theorem MayTurn.leaving {pc : Pc N} (h : MayTurn s o p) (hpc : pc.act = .leaving) : Turns s o p pc := ⟨h.1, .inr hpc, h.2⟩

theorem Still.sysret {s₁ : St N K} (h : Still s s₁) (ht : MayTurn s o p) (v : ℤ) : Deed s o (s₁.sysret p v) :=
  h.move (ht.idle rfl) (fun _ => .refl _) rfl ⟨rfl, rfl, rfl⟩

theorem Still.sleep {s₁ : St N K} (h : Still s s₁) (ht : MayTurn s o p) (hl : (s₁.ptable p).state.life = .active)
    (c : Fin K) (chan : Chan N) (pc : Pc N) (hpc : pc.act = .idle) : Deed s o (s₁.sleep c p chan pc) :=
  h.move (ht.idle hpc) (alike_sleep hl c chan pc) rfl ⟨rfl, rfl, rfl⟩

theorem Still.exit {s₁ : St N K} (h : Still s s₁) (ht : MayTurn s o p) : Deed s o (Kernel.exit s₁ p) := by
  unfold Kernel.exit
  split
  · exact h.move (ht.leaving rfl) (fun _ => .refl _) rfl ⟨rfl, rfl, rfl⟩
  · exact h.move (ht.leaving rfl) (fun _ => .refl _) rfl ⟨rfl, rfl, rfl⟩

end Stores

/-! ## The functions of proc.c -/

section Functions

variable {s s₁ : St N K} {o : Op N K} {c : Fin K} {p : Fin N}

theorem kill_deed (ht : MayTurn s o p) (pid : ℤ) : Deed s o (kill s p pid) := by
  unfold kill
  split
  · exact (Still.refl s).sysret ht _
  · rename_i q _
    refine ((Still.refl s).write ?_).sysret ht _
    refine ⟨?_, rfl, rfl, rfl, rfl⟩
    unfold Proc.kill
    cases (s.ptable q).state <;> rfl

theorem allocproc_deed (he : Enters s o p) (f : Maker) : Deed s o (allocproc s p f) := by
  cases hf : findUnused s.ptable with
  | none =>
    have hfail : allocproc s p f = s.sysret p (-1) := by
      unfold allocproc
      rw [hf]
    have hidle : (s.pc p).act = .idle := by rw [he.1]; rfl
    rw [hfail]
    exact (Still.refl s).sysret ⟨hidle, fun _ => he⟩ _
  | some np => exact .alloc p np f he hf

theorem threadJoin_deed (ht : MayTurn s o p) (hl : (s.ptable p).state.life = .active) (tid : ℤ) :
    Deed s o (threadJoin s c p tid) := by
  unfold threadJoin
  split
  · exact (Still.refl s).sysret ht _
  · rename_i q _
    split
    · exact (Still.refl s).sysret ht _
    split
    · exact (Still.refl s).sysret ht _
    · have hstill : Still s (s.write q fun x => { x with isjoined := true }) :=
        (Still.refl s).write ⟨rfl, rfl, rfl, rfl, rfl⟩
      exact hstill.sleep ht ((hstill.alike p).life.trans hl) c _ _ rfl

theorem semCreate_deed (ht : MayTurn s o p) (v : ℤ) : Deed s o (binarySemaphoreCreate s p v) := by
  unfold binarySemaphoreCreate
  split
  · exact (Still.refl s).sysret ht _
  · refine Still.sysret ?_ ht _
    exact ⟨fun _ => .refl _, rfl, ⟨rfl, rfl, rfl⟩⟩

theorem enqueue_still (s : St N K) (p : Fin N) (id : SemId) : Still s (enqueue s p id) := by
  refine ⟨fun q => ?_, rfl, ⟨rfl, rfl, rfl⟩⟩
  simp only [enqueue, St.log_ptable, St.write_ptable]
  refine alike_write ?_ q
  exact ⟨rfl, rfl, rfl, rfl, rfl⟩

theorem downLoop_deed (h : Still s s₁) (ht : MayTurn s o p) (hl : (s.ptable p).state.life = .active) (id : SemId) :
    Deed s o (downLoop s₁ c p id) := by
  unfold downLoop
  split
  · split
    · unfold semTake
      refine Still.sysret ?_ ht 0
      refine h.trans ⟨fun q => ?_, rfl, ⟨rfl, rfl, rfl⟩⟩
      simp only [St.log_ptable, St.write_ptable]
      refine alike_write ?_ q
      exact ⟨rfl, rfl, rfl, rfl, rfl⟩
    · have hq : Still s (if (s₁.ptable p).semQueuePos = 0 then enqueue s₁ p id else s₁) := by
        split
        · exact h.trans (enqueue_still s₁ p id)
        · exact h
      have hw := hq.write (m := p) (f := fun x => { x with waitingForSemaphore := some id }) ⟨rfl, rfl, rfl, rfl, rfl⟩
      exact hw.sleep ht ((hw.alike p).life.trans hl) c _ _ rfl
  · exact h.sysret ht _

theorem down_deed (ht : MayTurn s o p) (hl : (s.ptable p).state.life = .active) (id : SemId) :
    Deed s o (binarySemaphoreDown s c p id) := by
  have hlog : Still s (s.log (.call (s.who p) id)) := ⟨fun _ => .refl _, rfl, ⟨rfl, rfl, rfl⟩⟩
  unfold binarySemaphoreDown
  dsimp only
  split
  · exact downLoop_deed (hlog.trans (enqueue_still _ p id)) ht hl id
  · exact downLoop_deed hlog ht hl id

theorem pgdir_up (t : Table N) (p : Fin N) (id : SemId) (o : Option (Fin N)) (q : Fin N) :
    ((upSlot t p id).writeAt o Proc.wakeFirst q).pgdir = (t q).pgdir := by
  have h1 : (upSlot t p id q).pgdir = (t q).pgdir := by
    unfold upSlot
    split <;> rfl
  cases o with
  | none => exact h1
  | some f =>
    by_cases hq : q = f
    · subst hq
      simp only [Table.writeAt, Table.write_self, Proc.wakeFirst]
      exact h1
    · simp only [Table.writeAt, Table.write_of_ne _ hq]
      exact h1

theorem up_deed (ht : MayTurn s o p) (id : SemId) : Deed s o (binarySemaphoreUp s p id) := by
  unfold binarySemaphoreUp
  split
  · refine Still.sysret ?_ ht _
    refine ⟨fun q => ?_, rfl, ⟨rfl, rfl, rfl⟩⟩
    have h := (up_slot s.ptable p id (upFirst s.ptable p id) q).1
    exact ⟨h.life, h.pid, h.parent, h.isthread, pgdir_up s.ptable p id _ q⟩
  · exact (Still.refl s).sysret ht _

/-- which page directory `wait` frees is seen in the pids and the page directories -/
theorem freedPgdir_congr {t t' : Table N} (h : ∀ q, Alike (t q) (t' q)) (X : ℕ) : freedPgdir t' X = freedPgdir t X := by
  unfold freedPgdir
  simp only [fun q => (h q).pid, fun q => (h q).pgdir]

/-- **`wait`.** One round frees the slots of the pid it found, or does nothing that a slot shows. -/
theorem waitLoop_deed (h : Still s s₁) (ht : MayTurn s o p) (hl : (s.ptable p).state.life = .active)
    (hw : p ∈ waiter s o) (hf : waitFound s₁.ptable p = waitFound s.ptable p) : Deed s o (waitLoop s₁ c p) := by
  unfold waitLoop
  dsimp only
  rw [hf]
  split
  · rename_i hX
    refine .reap _ p (waitFound s.ptable p) hw hX rfl ?_ ?_ ?_ h.globals.initproc h.globals.nextPgdir ?_
    · intro q hq
      have hq₁ : (s₁.ptable q).pid = waitFound s.ptable p := (h.alike q).pid.trans hq
      simp only [St.sysret_ptable, reap, hq₁, if_true]
      exact ⟨rfl, rfl, rfl, (h.alike q).isthread⟩
    · intro q hq
      have hq₁ : (s₁.ptable q).pid ≠ waitFound s.ptable p := (h.alike q).pid ▸ hq
      simp only [St.sysret_ptable, reap, hq₁, if_false]
      exact h.alike q
    · intro q
      simp only [St.sysret_pc, h.pc]
      by_cases hqp : q = p
      · subst hqp
        rw [update_self]
        exact .inr (ht.idle rfl)
      · exact .inl (update_of_ne hqp _ _)
    · rw [← freedPgdir_congr h.alike]
      show s₁.freed ++ _ = _
      rw [h.globals.freed]
  · split
    · exact h.sysret ht _
    · exact h.sleep ht ((h.alike p).life.trans hl) c _ _ rfl

/-- the caller's slot becomes a zombie, and everything else is as it was -/
theorem Still.retire {s₂ s' : St N K} (h : Still s s₂) (he : Enters s o p)
    (hr : (∀ m, s.mainOf p = some m → (s.ptable m).threadnum ≠ 1) → p ∈ retiring s o)
    (hlast : ∀ m, s.mainOf p = some m → (s.ptable m).threadnum ≠ 1)
    (hp : s'.ptable p = { s₂.ptable p with state := .zombie })
    (hother : ∀ q, q ≠ p → Alike (s₂.ptable q) (s'.ptable q)) (hpc : s'.pc = s₂.pc)
    (hglob : SameGlobals s₂ s') : Deed s o s' := by
  refine .retire s' p he (hr hlast) hlast ?_ ?_ ?_ ?_ ?_ (fun q hq => (h.alike q).trans (hother q hq)) (hpc.trans h.pc)
    (h.globals.trans hglob)
  · rw [hp]
  · rw [hp]
    exact (h.alike p).pid
  · rw [hp]
    exact (h.alike p).parent
  · rw [hp]
    exact (h.alike p).isthread
  · rw [hp]
    exact (h.alike p).pgdir

/-- **`thread_exit`.** It leaves through `exit`, or the slot of its caller is a zombie. -/
theorem threadExit_deed (he : Enters s o p)
    (hr : (∀ m, s.mainOf p = some m → (s.ptable m).threadnum ≠ 1) → p ∈ retiring s o) (v : ℕ) :
    Deed s o (threadExit s c p v) := by
  have ht : MayTurn s o p := ⟨by rw [he.1]; rfl, fun _ => he⟩
  unfold threadExit
  dsimp only
  split
  · rename_i hthread
    split
    · refine Still.exit (Still.writeAt (Still.refl s) ?_) ht
      exact fun _ => ⟨rfl, rfl, rfl, rfl, rfl⟩
    · rename_i hcount
      have hlast : ∀ m, s.mainOf p = some m → (s.ptable m).threadnum ≠ 1 := by
        intro m hm
        rw [St.mainOf, if_pos hthread] at hm
        simpa [parentThreadnum, hm] using hcount
      have h₂ : Still s ((s.write p fun x => { x with retVal := v }).writeAt (s.ptable p).parent
          fun m => { m with threadnum := m.threadnum - 1 }) := by
        refine Still.writeAt (Still.write (Still.refl s) ?_) ?_
        · exact ⟨rfl, rfl, rfl, rfl, rfl⟩
        · exact fun _ => ⟨rfl, rfl, rfl, rfl, rfl⟩
      generalize (s.write p fun x => { x with retVal := v }).writeAt (s.ptable p).parent
        (fun m => { m with threadnum := m.threadnum - 1 }) = s₂ at h₂ ⊢
      split
      · -- a wakeup does not change the zombie
        refine h₂.retire he hr hlast ?_ ?_ rfl ⟨rfl, rfl, rfl⟩
        · simp [wakeup1, Proc.wake]
        · intro q hq
          simp only [St.leave_ptable, St.write_ptable, wakeup1, Table.write_of_ne _ hq]
          exact .wake _ _
      · refine h₂.retire he hr hlast ?_ ?_ rfl ⟨rfl, rfl, rfl⟩
        · simp
        · intro q hq
          simp only [St.leave_ptable, St.write_ptable, Table.write_of_ne _ hq]
          exact .refl _
  · rename_i hthread
    split
    · refine Still.exit (Still.write (Still.refl s) ?_) ht
      exact ⟨rfl, rfl, rfl, rfl, rfl⟩
    · rename_i hcount
      have hlast : ∀ m, s.mainOf p = some m → (s.ptable m).threadnum ≠ 1 := by
        intro m hm
        rw [St.mainOf, if_neg hthread] at hm
        cases hm
        exact hcount
      have h₂ : Still s (s.write p fun x => { x with threadnum := x.threadnum - 1 }) := by
        refine Still.write (Still.refl s) ?_
        exact ⟨rfl, rfl, rfl, rfl, rfl⟩
      refine h₂.retire he hr hlast ?_ ?_ rfl ⟨rfl, rfl, rfl⟩
      · simp
      · intro q hq
        simp only [St.leave_ptable, St.write_ptable, Table.write_of_ne _ hq]
        exact .refl _

theorem syscall_deed (hc : s.curproc c = some p) (hl : (s.ptable p).state.life = .active) (hu : s.pc p = .user)
    (hk : (s.ptable p).killed = false) (f : Syscall) : Deed s (.call c f) (syscall s c p f) := by
  have he : Enters s (.call c f) p := ⟨hu, c, hc, .inl ⟨f, rfl⟩⟩
  have ht : MayTurn s (.call c f) p := ⟨by rw [hu]; rfl, fun _ => he⟩
  cases f with
  | fork => exact allocproc_deed he _
  | threadCreate => exact allocproc_deed he _
  | exit => exact (Still.refl s).exit ht
  | wait =>
    refine waitLoop_deed (Still.refl s) ht hl ?_ rfl
    simp [waiter, hc, hu, hk]
  | kill pid => exact kill_deed ht pid
  | threadExit v =>
    refine threadExit_deed he (fun hlast => ?_) v
    simp only [retiring, hc, Option.mem_def, Option.filter_eq_some_iff]
    exact ⟨trivial, by simpa [hu, hk] using hlast⟩
  | threadJoin tid => exact threadJoin_deed ht hl tid
  | semCreate v => exact semCreate_deed ht v
  | semDown id => exact down_deed ht hl id
  | semUp id => exact up_deed ht id

theorem kernelStep_deed (hc : s.curproc c = some p) (hl : (s.ptable p).state.life = .active) (ok : Bool) :
    Deed s (.exec c ok) (kernelStep s c p ok (s.pc p)) := by
  cases hpc : s.pc p with
  | make st np => exact .make c p np st ok rfl hc hpc
  | exitClose => exact .exit c p ok rfl hc hpc
  | downSleep id =>
    refine downLoop_deed (Still.refl s) ⟨by rw [hpc]; rfl, fun hu => ?_⟩ hl id
    rw [hpc] at hu
    cases hu
  | user | waitSleep | joinSleep | panicked => exact (Still.refl s).deed

theorem stepOn_deed (hc : s.curproc c = some p) (hl : (s.ptable p).state.life = .active) (hoc : o.cpu = some c) :
    Deed s o (stepOn s c p o) := by
  cases o with
  | dispatch c' q => cases hoc
  | wakeDev n => cases hoc
  | preempt c' =>
    simp only [stepOn]
    split
    · refine .calm _ (fun q => ?_) (fun _ => .inl rfl) ⟨rfl, rfl, rfl⟩
      simp only [St.leave_ptable, St.write_ptable]
      refine alike_write ?_ q
      exact ⟨hl.symm, rfl, rfl, rfl, rfl⟩
    · exact (Still.refl s).deed
  | trap c' fault =>
    obtain rfl : c' = c := Option.some.inj hoc
    simp only [stepOn]
    split
    · rename_i hu
      have he : Enters s (.trap c' fault) p := ⟨hu, c', hc, .inr ⟨fault, rfl⟩⟩
      have hstill : Still s (if fault = true then s.write p fun x => { x with killed := true } else s) := by
        split
        · refine Still.write (Still.refl s) ?_
          exact ⟨rfl, rfl, rfl, rfl, rfl⟩
        · exact .refl s
      generalize (if fault = true then s.write p fun x => { x with killed := true } else s) = s₁ at hstill ⊢
      split
      · exact hstill.exit ⟨by rw [hu]; rfl, fun _ => he⟩
      · exact hstill.deed
    · exact (Still.refl s).deed
  | call c' f =>
    obtain rfl : c' = c := Option.some.inj hoc
    simp only [stepOn]
    split
    · rename_i hu
      have he : Enters s (.call c' f) p := ⟨hu, c', hc, .inl ⟨f, rfl⟩⟩
      split
      · exact (Still.refl s).exit ⟨by rw [hu]; rfl, fun _ => he⟩
      · rename_i hk
        exact syscall_deed hc hl hu (by simpa using hk) f
    · exact (Still.refl s).deed
  | exec c' ok =>
    obtain rfl : c' = c := Option.some.inj hoc
    exact kernelStep_deed hc hl ok
  | sleepDev c' n =>
    simp only [stepOn]
    split
    · -- the process stays where it is in the code
      refine .calm _ (alike_sleep hl c _ _) (fun q => .inl ?_) ⟨rfl, rfl, rfl⟩
      show update s.pc p (s.pc p) q = s.pc q
      rw [update_eq_self]
    · exact (Still.refl s).deed

theorem dispatched_still (hp : (s.ptable p).state = .runnable) : Still s (dispatched s c p) := by
  refine ⟨fun q => ?_, rfl, ⟨rfl, rfl, rfl⟩⟩
  simp only [dispatched, St.write_ptable]
  refine alike_write ?_ q
  refine ⟨?_, rfl, rfl, rfl, rfl⟩
  rw [hp]
  rfl

/-- **What a step is.** -/
theorem step_deed (h : OnCpu s) (o : Op N K) : Deed s o (step s o) := by
  refine step_cases (P := Deed s o) (Still.refl s).deed ?_ ?_ ?_
  · intro c p ho hc hr
    have hstill := dispatched_still (c := c) hr
    have hl : (s.ptable p).state.life = .active := by rw [hr]; rfl
    unfold resume
    split
    · rename_i hw
      have hpc : s.pc p = .waitSleep := hw
      have hturn : MayTurn s o p := by
        refine ⟨by rw [hpc]; rfl, fun hu => ?_⟩
        rw [hpc] at hu
        cases hu
      refine waitLoop_deed hstill hturn hl ?_ (waitFound_dispatched hr)
      rw [ho]
      simp [waiter, hc, hr, hpc]
    · rename_i hj
      have hpc : s.pc p = .joinSleep := hj
      refine hstill.sysret ⟨by rw [hpc]; rfl, fun hu => ?_⟩ 0
      rw [hpc] at hu
      cases hu
    · exact hstill.deed
  · intro n _
    exact .calm _ (fun q => .wake _ _) (fun _ => .inl rfl) ⟨rfl, rfl, rfl⟩
  · intro c p hoc hc
    have hl : (s.ptable p).state.life = .active := ProcState.life_active.2 (.inr (.inr (h.running c p hc)))
    exact stepOn_deed hc hl hoc

end Functions

end Xv6Threads.Kernel
