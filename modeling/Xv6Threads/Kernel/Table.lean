/-
The process table (`ptable` of proc.c) and the loops that run over it with `ptable.lock` held.

A slot is a `struct proc`; the table is a function from slot numbers `Fin N` (the code has N = NPROC = 64), and every
loop of the source runs over the slots in increasing order. A pointer to a slot is its number, a null pointer is `none`.
The fields of the trap frame, the saved context, the open files, the name and the size of the address space are not
read by these loops and are left out. Counters and positions are unbounded integers.

Functions, under the names of the source:
- `wakeup1`: every slot SLEEPING on a channel becomes RUNNABLE.
- `dropThread`, `dropMain`, `exitSlot`, `exitLoop`, `exitSection`: the part of `exit` that runs under `ptable.lock`.
- `waitFind`, `havekids`, `reap`: the scan of `wait` and its loop that frees the slots of the pid it found.
- `kill`, `joinFind`: the searches of `kill` and `thread_join`.
- `upSlot`, `upFirst`: the loop of `binary_semaphore_up`.

Results: what the section of `exit` does to one slot (`exitSlot_spec`, `exitFold_spec`, `exitSection_visited`).
-/
import Xv6Threads.Core.Runs

namespace Xv6Threads.Kernel

/-! ## Slots -/

/-- `enum procstate` -/
inductive ProcState where
  | unused | embryo | sleeping | runnable | running | zombie
  deriving DecidableEq, Repr

/-- an index into `semtable.binary_semaphores` -/
abbrev SemId := Fin 128

/-- what a process sleeps on: a slot of the table (`wait`, `thread_join`), a semaphore, or any other kernel object -/
inductive Chan (N : ℕ) where
  | null
  | proc (p : Fin N)
  | sem (id : SemId)
  | dev (n : ℕ)
  deriving DecidableEq

/-- `struct proc`; `pgdir` is the handle of a page directory, `kstack` tells whether the slot owns a kernel stack,
`waitingForSemaphore = none` is the −1 of the source, and `uid` is a ghost: which use of the slot this is -/
structure Proc (N : ℕ) where
  pgdir : ℕ
  kstack : Bool
  state : ProcState
  pid : ℕ
  parent : Option (Fin N)
  chan : Chan N
  killed : Bool
  isthread : Bool
  isjoined : Bool
  threadId : ℤ
  threadnum : ℤ
  waitingForSemaphore : Option SemId
  semQueuePos : ℤ
  retVal : ℕ
  uid : ℕ

/-- `ptable.proc` -/
abbrev Table (N : ℕ) := Fin N → Proc N

/-- the slot holds a process that runs or will run again -/
def ProcState.Active (st : ProcState) : Prop :=
  st = .sleeping ∨ st = .runnable ∨ st = .running

instance : DecidablePred ProcState.Active := fun st => by unfold ProcState.Active; infer_instance

variable {N : ℕ}

/-- a slot pointer used as a sleep channel -/
def Chan.ofSlot : Option (Fin N) → Chan N
  | none => .null
  | some p => .proc p

/-- a store into one slot -/
def Table.write (t : Table N) (p : Fin N) (f : Proc N → Proc N) : Table N :=
  Function.update t p (f (t p))

/-- a store through a slot pointer; the null pointer is never followed in a state the machine reaches -/
def Table.writeAt (t : Table N) (p : Option (Fin N)) (f : Proc N → Proc N) : Table N :=
  match p with
  | none => t
  | some p => t.write p f

@[simp] theorem Table.write_self (t : Table N) (p : Fin N) (f : Proc N → Proc N) : t.write p f p = f (t p) :=
  Function.update_self ..

theorem Table.write_of_ne (t : Table N) {p q : Fin N} (h : q ≠ p) (f : Proc N → Proc N) : t.write p f q = t q :=
  Function.update_of_ne h ..

section Stores

variable {R : Proc N → Proc N → Prop} {t : Table N} {f : Proc N → Proc N}

/-- a store relates every slot to what it was, if it does so with the slot it goes to -/
theorem Table.write_rel (hrefl : ∀ x, R x x) {m : Fin N} (h : R (t m) (f (t m))) (q : Fin N) : R (t q) (t.write m f q) := by
  by_cases hq : q = m
  · subst hq
    rwa [Table.write_self]
  · rw [Table.write_of_ne t hq]
    exact hrefl _

theorem Table.writeAt_rel (hrefl : ∀ x, R x x) {m : Option (Fin N)} (h : ∀ x, R x (f x)) (q : Fin N) :
    R (t q) (t.writeAt m f q) := by
  cases m with
  | none => exact hrefl _
  | some m => exact Table.write_rel hrefl (h _) q

end Stores

/-! ## wakeup1 -/

/-- `wakeup1` on one slot -/
def Proc.wake (chan : Chan N) (x : Proc N) : Proc N :=
  if x.state = .sleeping ∧ x.chan = chan then { x with state := .runnable } else x

def wakeup1 (t : Table N) (chan : Chan N) : Table N :=
  fun p => (t p).wake chan

/-! ## exit -/

/-- a thread of the main slot `m` is gone: `if(m->threadnum) m->threadnum--; if(!m->threadnum) wakeup1(m->parent)` -/
def dropThread (t : Table N) (m : Fin N) : Table N :=
  let t := if (t m).threadnum ≠ 0 then t.write m fun x => { x with threadnum := x.threadnum - 1 } else t
  if (t m).threadnum = 0 then wakeup1 t (.ofSlot (t m).parent) else t

/-- the main slot `p` itself is gone; this decrement is not guarded -/
def dropMain (t : Table N) (p : Fin N) : Table N :=
  let t := t.write p fun x => { x with threadnum := x.threadnum - 1 }
  if (t p).threadnum = 0 then wakeup1 t (.ofSlot (t p).parent) else t

/-- the body of the loop of `exit` at slot `p` -/
def exitSlot (initproc proc : Fin N) (t : Table N) (p : Fin N) : Table N :=
  if (t p).pid = (t proc).pid ∧ (t p).state ≠ .zombie then
    let t := t.write p fun x => { x with state := .zombie }
    if (t p).isthread then
      match (t p).parent with
      | none => t
      | some m => dropThread t m
    else dropMain t p
  else if (t p).parent = some proc ∧ (t p).isthread = false then
    let t := t.write p fun x => { x with parent := some initproc }
    if (t p).state = .zombie then wakeup1 t (.proc initproc) else t
  else t

def exitLoop (initproc proc : Fin N) (t : Table N) : Table N :=
  (List.finRange N).foldl (exitSlot initproc proc) t

/-- `exit` from `acquire(&ptable.lock)` to `sched` -/
def exitSection (initproc proc : Fin N) (t : Table N) : Table N :=
  let t := wakeup1 t (.ofSlot (t proc).parent)
  let t := exitLoop initproc proc t
  t.write proc fun x => { x with state := .zombie }

/-! ## wait, kill, thread_join -/

/-- the test of the scan of `wait`: a child whose main slot and threads have all exited -/
def Reapable (proc : Fin N) (x : Proc N) : Prop :=
  x.parent = some proc ∧ x.state = .zombie ∧ x.isthread = false ∧ x.threadnum = 0

instance (proc : Fin N) : DecidablePred (Reapable proc) := fun x => by unfold Reapable; infer_instance

/-- the slot at which the scan of `wait` stops -/
def waitFind (t : Table N) (proc : Fin N) : Option (Fin N) :=
  (List.finRange N).find? fun p => Reapable proc (t p)

def havekids (t : Table N) (proc : Fin N) : Bool :=
  (List.finRange N).any fun p => (t p).parent = some proc

/-- the loop of `wait` that frees the slots of the pid it found -/
def reap (t : Table N) (found : ℕ) : Table N :=
  fun p =>
    if (t p).pid = found then
      { t p with kstack := false, state := .unused, pid := 0, parent := none, killed := false }
    else t p

/-- the page directory `wait` frees: the one of the first slot with the pid -/
def freedPgdir (t : Table N) (found : ℕ) : Option ℕ :=
  ((List.finRange N).find? fun p => (t p).pid = found).map fun p => (t p).pgdir

/-- the slot `kill` finds -/
def killFind (t : Table N) (pid : ℤ) : Option (Fin N) :=
  (List.finRange N).find? fun p => ((t p).pid : ℤ) = pid

def Proc.kill (x : Proc N) : Proc N :=
  { x with killed := true, state := if x.state = .sleeping then .runnable else x.state }

/-- the slot `thread_join` finds -/
def joinFind (t : Table N) (proc : Fin N) (threadId : ℤ) : Option (Fin N) :=
  (List.finRange N).find? fun p =>
    (t p).pid = (t proc).pid ∧ (t p).isthread = true ∧ (t p).threadId = threadId ∧ p ≠ proc

/-! ## binary_semaphore_up -/

/-- the loop of `binary_semaphore_up` decrements the position of every other process registered with the semaphore -/
def upSlot (t : Table N) (proc : Fin N) (id : SemId) : Table N :=
  fun p =>
    if p ≠ proc ∧ (t p).waitingForSemaphore = some id then { t p with semQueuePos := (t p).semQueuePos - 1 } else t p

/-- the last slot of the loop whose position became 0 (`first` of the source) -/
def upFirst (t : Table N) (proc : Fin N) (id : SemId) : Option (Fin N) :=
  ((List.finRange N).filter fun p =>
    p ≠ proc ∧ (t p).waitingForSemaphore = some id ∧ (t p).semQueuePos - 1 = 0).getLast?

def Proc.wakeFirst (x : Proc N) : Proc N :=
  { x with state := if x.state = .sleeping then .runnable else x.state }

/-! ## What the loop of exit does to a slot -/

/-- the fields no loop over the table writes -/
structure SameProcess (x y : Proc N) : Prop where
  pid : y.pid = x.pid
  isthread : y.isthread = x.isthread
  uid : y.uid = x.uid
  waitingForSemaphore : y.waitingForSemaphore = x.waitingForSemaphore
  semQueuePos : y.semQueuePos = x.semQueuePos

/-- a slot that the loop passes by: it may be woken, and a slot of the dying pid may lose counts -/
structure PassedBy (X : ℕ) (x y : Proc N) : Prop extends SameProcess x y where
  parent : y.parent = x.parent
  state : y.state = x.state ∨ (x.state = .sleeping ∧ y.state = .runnable)
  threadnum : x.pid ≠ X → y.threadnum = x.threadnum

/-- a slot that the loop has visited: one of the dying pid is a zombie, and a child of the exiting process that is not
one of its threads belongs to init -/
structure Visited (initproc proc : Fin N) (X : ℕ) (x y : Proc N) : Prop extends SameProcess x y where
  dead : x.pid = X → y.state = .zombie
  state : x.pid ≠ X → y.state = x.state ∨ (x.state = .sleeping ∧ y.state = .runnable)
  parent : y.parent = x.parent ∨
    (x.parent = some proc ∧ x.isthread = false ∧ (x.pid ≠ X ∨ x.state = .zombie) ∧ y.parent = some initproc)
  threadnum : x.pid ≠ X → y.threadnum = x.threadnum
  adopted : x.parent = some proc → x.isthread = false → x.pid ≠ X ∨ x.state = .zombie → y.parent = some initproc

section ExitLoop

variable {initproc proc : Fin N} {X : ℕ} {x y z : Proc N}

theorem PassedBy.refl (X : ℕ) (x : Proc N) : PassedBy X x x :=
  ⟨⟨rfl, rfl, rfl, rfl, rfl⟩, rfl, Or.inl rfl, fun _ => rfl⟩

theorem PassedBy.wake (X : ℕ) (x : Proc N) (chan : Chan N) : PassedBy X x (x.wake chan) := by
  unfold Proc.wake
  split
  · rename_i h
    exact ⟨⟨rfl, rfl, rfl, rfl, rfl⟩, rfl, Or.inr ⟨h.1, rfl⟩, fun _ => rfl⟩
  · exact .refl X x

theorem PassedBy.trans (h : PassedBy X x y) (h' : PassedBy X y z) : PassedBy X x z := by
  refine ⟨⟨h'.pid.trans h.pid, h'.isthread.trans h.isthread, h'.uid.trans h.uid,
    h'.waitingForSemaphore.trans h.waitingForSemaphore, h'.semQueuePos.trans h.semQueuePos⟩,
    h'.parent.trans h.parent, ?_, ?_⟩
  · have := h.state
    have := h'.state
    grind
  · intro hx
    rw [h'.threadnum (h.pid ▸ hx), h.threadnum hx]

theorem PassedBy.zombie_iff (h : PassedBy X x y) : y.state = .zombie ↔ x.state = .zombie := by
  have := h.state
  grind

theorem PassedBy.visited (h : PassedBy X x y) (h' : Visited initproc proc X y z) : Visited initproc proc X x z := by
  have hz := h.zombie_iff
  refine ⟨⟨h'.pid.trans h.pid, h'.isthread.trans h.isthread, h'.uid.trans h.uid,
    h'.waitingForSemaphore.trans h.waitingForSemaphore, h'.semQueuePos.trans h.semQueuePos⟩,
    fun hx => h'.dead (h.pid.trans hx), ?_, ?_, ?_, ?_⟩
  · have := h.state
    have := h'.state
    have := h.pid
    grind
  · rw [← h.parent, ← h.isthread, ← h.pid, ← hz]
    exact h'.parent
  · intro hx
    rw [h'.threadnum (h.pid ▸ hx), h.threadnum hx]
  · rw [← h.parent, ← h.isthread, ← h.pid, ← hz]
    exact h'.adopted

theorem Visited.passedBy (h : Visited initproc proc X x y) (h' : PassedBy X y z) : Visited initproc proc X x z := by
  refine ⟨⟨h'.pid.trans h.pid, h'.isthread.trans h.isthread, h'.uid.trans h.uid,
    h'.waitingForSemaphore.trans h.waitingForSemaphore, h'.semQueuePos.trans h.semQueuePos⟩,
    fun hx => h'.zombie_iff.2 (h.dead hx), ?_, ?_, ?_, ?_⟩
  · have := h.state
    have := h'.state
    grind
  · rw [h'.parent]
    exact h.parent
  · intro hx
    rw [h'.threadnum (h.pid ▸ hx), h.threadnum hx]
  · rw [h'.parent]
    exact h.adopted

variable {t : Table N}

/-- a change of the count of a slot of the dying pid passes every slot by -/
theorem passedBy_write_threadnum {m : Fin N} (hm : (t m).pid = X) (n : ℤ) (q : Fin N) :
    PassedBy X (t q) (t.write m (fun x => { x with threadnum := n }) q) := by
  by_cases hq : q = m
  · subst hq
    rw [Table.write_self]
    exact ⟨⟨rfl, rfl, rfl, rfl, rfl⟩, rfl, Or.inl rfl, fun h => absurd hm h⟩
  · rw [Table.write_of_ne t hq]
    exact .refl X _

theorem dropThread_passedBy {m : Fin N} (hm : (t m).pid = X) (q : Fin N) : PassedBy X (t q) (dropThread t m q) := by
  have h1 : PassedBy X (t q)
      ((if (t m).threadnum ≠ 0 then t.write m fun x => { x with threadnum := x.threadnum - 1 } else t) q) := by
    split
    · exact passedBy_write_threadnum hm _ q
    · exact .refl X _
  unfold dropThread
  generalize (if (t m).threadnum ≠ 0 then t.write m fun x => { x with threadnum := x.threadnum - 1 } else t) = t' at *
  split
  · exact h1.trans (.wake X _ _)
  · exact h1

theorem dropMain_passedBy {p : Fin N} (hp : (t p).pid = X) (q : Fin N) : PassedBy X (t q) (dropMain t p q) := by
  have h1 := passedBy_write_threadnum hp ((t p).threadnum - 1) q
  unfold dropMain
  split
  · exact h1.trans (.wake X _ _)
  · exact h1

/-- the threads that are about to die have their main slot in the same process -/
def ParentsWithin (t : Table N) (X : ℕ) : Prop :=
  ∀ q m, (t q).pid = X → (t q).state ≠ .zombie → (t q).isthread = true → (t q).parent = some m → (t m).pid = X

/-- the loop body turns slot `p` of the dying pid into a zombie, then drops its count -/
theorem exitSlot_dying {p : Fin N} (h : (t p).pid = (t proc).pid ∧ (t p).state ≠ .zombie) :
    exitSlot initproc proc t p =
      let t' := t.write p fun x => { x with state := .zombie }
      if (t p).isthread then
        match (t p).parent with
        | none => t'
        | some m => dropThread t' m
      else dropMain t' p := by
  unfold exitSlot
  rw [if_pos h]
  simp only [Table.write_self]

theorem visited_write_zombie (initproc proc : Fin N) {p : Fin N} (hp : (t p).pid = X) (hz : (t p).state ≠ .zombie) :
    Visited initproc proc X (t p) (t.write p (fun x => { x with state := .zombie }) p) := by
  rw [Table.write_self]
  exact ⟨⟨rfl, rfl, rfl, rfl, rfl⟩, fun _ => rfl, fun h => absurd hp h, Or.inl rfl, fun _ => rfl,
    fun _ _ h => absurd (h.resolve_left (not_not.2 hp)) hz⟩

/-- the pids do not change while a slot dies -/
theorem write_zombie_pid (p q : Fin N) : (t.write p (fun x => { x with state := .zombie }) q).pid = (t q).pid := by
  by_cases hq : q = p
  · subst hq
    rw [Table.write_self]
  · rw [Table.write_of_ne t hq]

theorem exitSlot_spec (initproc proc : Fin N) (hpar : ParentsWithin t (t proc).pid) (p : Fin N) :
    Visited initproc proc (t proc).pid (t p) (exitSlot initproc proc t p p) ∧
      ∀ q, q ≠ p → PassedBy (t proc).pid (t q) (exitSlot initproc proc t p q) := by
  by_cases hd : (t p).pid = (t proc).pid ∧ (t p).state ≠ .zombie
  · -- a slot of the dying process
    have hv := visited_write_zombie initproc proc hd.1 hd.2
    have ho : ∀ q, q ≠ p → t.write p (fun x => { x with state := .zombie }) q = t q := fun q hq => t.write_of_ne hq _
    have hpid := fun q => write_zombie_pid (t := t) p q
    rw [exitSlot_dying hd]
    dsimp only
    split
    · rename_i hthread
      split
      · exact ⟨hv, fun q hq => ho q hq ▸ .refl _ _⟩
      · rename_i m hm
        have hmp := (hpid m).trans (hpar p m hd.1 hd.2 hthread hm)
        exact ⟨hv.passedBy (dropThread_passedBy hmp p), fun q hq => ho q hq ▸ dropThread_passedBy hmp q⟩
    · have hmp := (hpid p).trans hd.1
      exact ⟨hv.passedBy (dropMain_passedBy hmp p), fun q hq => ho q hq ▸ dropMain_passedBy hmp q⟩
  · -- a slot that stays, or is a zombie already
    have hdead : (t p).pid = (t proc).pid → (t p).state = .zombie := by
      intro h
      by_contra hz
      exact hd ⟨h, hz⟩
    unfold exitSlot
    rw [if_neg hd]
    split
    · rename_i hc
      have hv : Visited initproc proc (t proc).pid (t p)
          (t.write p (fun x => { x with parent := some initproc }) p) := by
        rw [Table.write_self]
        refine ⟨⟨rfl, rfl, rfl, rfl, rfl⟩, hdead, fun _ => Or.inl rfl, Or.inr ⟨hc.1, hc.2, ?_, rfl⟩, fun _ => rfl,
          fun _ _ _ => rfl⟩
        by_cases h : (t p).pid = (t proc).pid
        · exact Or.inr (hdead h)
        · exact Or.inl h
      have ho : ∀ q, q ≠ p → t.write p (fun x => { x with parent := some initproc }) q = t q :=
        fun q hq => t.write_of_ne hq _
      dsimp only
      split
      · exact ⟨hv.passedBy (.wake _ _ _), fun q hq => ho q hq ▸ .wake _ _ _⟩
      · exact ⟨hv, fun q hq => ho q hq ▸ .refl _ _⟩
    · rename_i hc
      exact ⟨⟨⟨rfl, rfl, rfl, rfl, rfl⟩, hdead, fun _ => Or.inl rfl, Or.inl rfl, fun _ => rfl,
        fun h1 h2 _ => absurd ⟨h1, h2⟩ hc⟩, fun q _ => .refl _ _⟩

theorem ParentsWithin.frame (initproc proc : Fin N) {t' : Table N} (h : ParentsWithin t X)
    (hs : ∀ q, PassedBy X (t q) (t' q) ∨ Visited initproc proc X (t q) (t' q)) : ParentsWithin t' X := by
  have hpid : ∀ q, (t' q).pid = (t q).pid := fun q => (hs q).elim (·.pid) (·.pid)
  intro q m hq hz hthread hm
  rw [hpid] at hq ⊢
  rcases hs q with hp | hv
  · exact h q m hq (fun hc => hz (hp.zombie_iff.2 hc)) (hp.isthread ▸ hthread) (hp.parent ▸ hm)
  · exact absurd (hv.dead hq) hz

/-- **The loop of `exit`.** It visits every slot of the list once and passes every other slot by. -/
theorem exitFold_spec (initproc : Fin N) {slots : List (Fin N)} (hnd : slots.Nodup) (hX : (t proc).pid = X)
    (hpar : ParentsWithin t X) :
    (∀ q ∈ slots, Visited initproc proc X (t q) (slots.foldl (exitSlot initproc proc) t q)) ∧
      ∀ q, q ∉ slots → PassedBy X (t q) (slots.foldl (exitSlot initproc proc) t q) := by
  induction slots generalizing t with
  | nil => exact ⟨nofun, fun q _ => .refl X _⟩
  | cons p slots ih =>
    obtain ⟨hp, hnd⟩ := List.nodup_cons.1 hnd
    subst hX
    obtain ⟨hself, hother⟩ := exitSlot_spec initproc proc hpar p
    have hs : ∀ q, PassedBy (t proc).pid (t q) (exitSlot initproc proc t p q) ∨
        Visited initproc proc (t proc).pid (t q) (exitSlot initproc proc t p q) := by
      intro q
      by_cases hq : q = p
      · exact Or.inr (hq ▸ hself)
      · exact Or.inl (hother q hq)
    have hX : (exitSlot initproc proc t p proc).pid = (t proc).pid := (hs proc).elim (·.pid) (·.pid)
    obtain ⟨ih1, ih2⟩ := ih hnd hX (hpar.frame initproc proc hs)
    refine ⟨fun q hq => ?_, fun q hq => ?_⟩
    · by_cases hqp : q = p
      · subst hqp
        exact hself.passedBy (ih2 q hp)
      · exact (hother q hqp).visited (ih1 q ((List.mem_cons.1 hq).resolve_left hqp))
    · rw [List.mem_cons, not_or] at hq
      exact (hother q hq.1).trans (ih2 q hq.2)

/-- **`exit` under the lock.** Every slot of the exiting process's pid is a zombie afterwards. -/
theorem exitSection_visited (initproc : Fin N) (hpar : ParentsWithin t (t proc).pid) (q : Fin N) :
    Visited initproc proc (t proc).pid (t q) (exitSection initproc proc t q) := by
  have hw : ∀ q, PassedBy (t proc).pid (t q) (wakeup1 t (.ofSlot (t proc).parent) q) := fun q => .wake _ _ _
  have hloop := (exitFold_spec initproc (List.nodup_finRange N) ((hw proc).pid)
    (hpar.frame initproc proc fun q => Or.inl (hw q))).1
  have hv : ∀ q, Visited initproc proc (t proc).pid (t q)
      (exitLoop initproc proc (wakeup1 t (.ofSlot (t proc).parent)) q) :=
    fun q => (hw q).visited (hloop q (List.mem_finRange q))
  unfold exitSection
  by_cases hq : q = proc
  · subst hq
    rw [Table.write_self]
    exact ⟨⟨(hv q).pid, (hv q).isthread, (hv q).uid, (hv q).waitingForSemaphore, (hv q).semQueuePos⟩, fun _ => rfl,
      fun h => absurd rfl h, (hv q).parent, (hv q).threadnum, (hv q).adopted⟩
  · rw [Table.write_of_ne _ hq]
    exact hv q

end ExitLoop

end Xv6Threads.Kernel
