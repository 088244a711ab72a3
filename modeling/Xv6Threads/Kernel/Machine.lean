/-
The kernel of proc.c as a machine: N process slots, K CPUs, any interleaving.

A step (`Op`) is one locked section of the source, or one store the source makes to a slot without holding
`ptable.lock`. A section that sleeps while it holds `ptable.lock` (`wait`, `thread_join`) continues in the very step
that dispatches the process again, because the scheduler hands the lock over with the CPU; a process woken inside
`binary_semaphore_down` takes the semaphore's lock again first, so its retest is a step of its own (`Pc.downSleep`).
A timer interrupt may take the CPU between any two steps (`Op.preempt`), in kernel mode too, wherever no lock is held.

What the source does outside these sections is one step each: the calls of `allocproc`, `fork` and `thread_create`
write the new slot one field at a time (`Making`), and `exit` closes files between `thread_exit`'s release of the lock
and its own acquire (`Pc.exitClose`), where it can also sleep on a device.

`hist` is a ghost: the semaphore calls in the order of their locked sections. A process is named there by its slot and
the use of the slot (`Who`), so a reused slot is another process.
-/
import Xv6Threads.Kernel.Table

namespace Xv6Threads.Kernel

open Function

/-! ## States -/

/-- `struct b_semaphore` -/
structure BSem where
  value : ℤ
  created : Bool
  waiting : ℤ
  deriving DecidableEq

/-- the two callers of `allocproc` that run as system calls -/
inductive Maker where
  | fork | threadCreate
  deriving DecidableEq

/-- the next store of a process that is making a new slot: the tail of `allocproc`, then that of its caller -/
inductive Making where
  | kstack (f : Maker)
  | queuePos (f : Maker)
  | threadnum (f : Maker)
  | waitingFor (f : Maker)
  | forkPgdir | forkParent | forkThreadId | forkIsthread | forkIsjoined | forkRun
  | tcPid | tcPgdir | tcParent | tcCount | tcIsthread | tcIsjoined | tcThreadId | tcRun
  deriving DecidableEq

/-- where a process stands in the kernel; `exitClose` is `exit` before it takes `ptable.lock` -/
inductive Pc (N : ℕ) where
  | user
  | make (st : Making) (np : Fin N)
  | exitClose
  | waitSleep
  | joinSleep
  | downSleep (id : SemId)
  | panicked
  deriving DecidableEq

/-- a process: its slot and the use of that slot -/
abbrev Who (N : ℕ) := Fin N × ℕ

/-- what the semaphore calls did: `create` returned `id`; `down` was called, queued its caller, returned 0; `up`
returned 0 -/
inductive Ev (N : ℕ) where
  | create (id : SemId) (v : ℤ)
  | call (w : Who N) (id : SemId)
  | queued (w : Who N) (id : SemId)
  | down (w : Who N) (id : SemId)
  | up (w : Who N) (id : SemId)
  deriving DecidableEq

/-- `eax` is the result of a process's last system call, `freed` the page directories given to `freevm` -/
structure St (N K : ℕ) where
  ptable : Table N
  pc : Fin N → Pc N
  eax : Fin N → ℤ
  curproc : Fin K → Option (Fin N)
  nextpid : ℕ
  initproc : Fin N
  semtable : SemId → BSem
  nextPgdir : ℕ
  freed : List ℕ
  hist : List (Ev N)

/-- the system calls of this kernel that touch the process table or a binary semaphore -/
inductive Syscall where
  | fork
  | threadCreate
  | exit
  | wait
  | kill (pid : ℤ)
  | threadExit (v : ℕ)
  | threadJoin (threadId : ℤ)
  | semCreate (v : ℤ)
  | semDown (id : SemId)
  | semUp (id : SemId)
  deriving DecidableEq

/-- `dispatch`: the scheduler of CPU `c` switches to `p`; `preempt`: the timer tick; `trap`: any other interrupt or a
fault in user mode; `call`: a system call; `exec`: the next step of the process on `c`, whose allocation succeeds if
`ok`; `sleepDev`, `wakeDev`: sleep and wakeup on any other kernel object -/
inductive Op (N K : ℕ) where
  | dispatch (c : Fin K) (p : Fin N)
  | preempt (c : Fin K)
  | trap (c : Fin K) (fault : Bool)
  | call (c : Fin K) (f : Syscall)
  | exec (c : Fin K) (ok : Bool)
  | sleepDev (c : Fin K) (n : ℕ)
  | wakeDev (n : ℕ)
  deriving DecidableEq

variable {N K : ℕ}

/-! ## Stores -/

namespace St

@[simps]
def write (s : St N K) (p : Fin N) (f : Proc N → Proc N) : St N K :=
  { s with ptable := s.ptable.write p f }

/-- a store through a slot pointer -/
@[simps]
def writeAt (s : St N K) (p : Option (Fin N)) (f : Proc N → Proc N) : St N K :=
  { s with ptable := s.ptable.writeAt p f }

@[simps]
def goto (s : St N K) (p : Fin N) (c : Pc N) : St N K :=
  { s with pc := update s.pc p c }

/-- return from a system call with result `v` -/
@[simps]
def sysret (s : St N K) (p : Fin N) (v : ℤ) : St N K :=
  { s with pc := update s.pc p .user, eax := update s.eax p v }

/-- `sched`: CPU `c` goes back to its scheduler -/
@[simps]
def leave (s : St N K) (c : Fin K) : St N K :=
  { s with curproc := update s.curproc c none }

def sleep (s : St N K) (c : Fin K) (p : Fin N) (chan : Chan N) (pc : Pc N) : St N K :=
  ((s.write p fun x => { x with chan := chan, state := .sleeping }).goto p pc).leave c

@[simps]
def log (s : St N K) (e : Ev N) : St N K :=
  { s with hist := s.hist ++ [e] }

def who (s : St N K) (p : Fin N) : Who N := (p, (s.ptable p).uid)

/-- the main slot of the process that slot `p` belongs to, as `fork` and `thread_create` compute it -/
def mainOf (s : St N K) (p : Fin N) : Option (Fin N) :=
  if (s.ptable p).isthread then (s.ptable p).parent else some p

end St

/-! ## allocproc, fork, thread_create -/

/-- the first UNUSED slot -/
def findUnused (t : Table N) : Option (Fin N) :=
  (List.finRange N).find? fun p => (t p).state = .unused

/-- `allocproc` up to its release of `ptable.lock` -/
def allocproc (s : St N K) (p : Fin N) (f : Maker) : St N K :=
  match findUnused s.ptable with
  | none => s.sysret p (-1)
  | some np =>
    { ((s.write np fun x => { x with state := .embryo, pid := s.nextpid, uid := s.nextpid }).goto p
        (.make (.kstack f) np)) with nextpid := s.nextpid + 1 }

/-- the next store of process `p` into the slot `np` it is making -/
def makeStep (s : St N K) (p np : Fin N) (ok : Bool) : Making → St N K
  -- allocproc, after its release
  | .kstack f =>
    if ok then (s.write np fun x => { x with kstack := true }).goto p (.make (.queuePos f) np)
    else (s.write np fun x => { x with kstack := false, state := .unused }).sysret p (-1)
  | .queuePos f => (s.write np fun x => { x with semQueuePos := 0 }).goto p (.make (.threadnum f) np)
  | .threadnum f => (s.write np fun x => { x with threadnum := 1 }).goto p (.make (.waitingFor f) np)
  | .waitingFor f =>
    (s.write np fun x => { x with waitingForSemaphore := none }).goto p
      (.make (match f with | .fork => .forkPgdir | .threadCreate => .tcPid) np)
  -- fork; the copy of the address space gets a new page directory
  | .forkPgdir =>
    if ok then
      { ((s.write np fun x => { x with pgdir := s.nextPgdir }).goto p (.make .forkParent np)) with
        nextPgdir := s.nextPgdir + 1 }
    else (s.write np fun x => { x with pgdir := 0, kstack := false, state := .unused }).sysret p (-1)
  | .forkParent => (s.write np fun x => { x with parent := s.mainOf p }).goto p (.make .forkThreadId np)
  | .forkThreadId => (s.write np fun x => { x with threadId := 0 }).goto p (.make .forkIsthread np)
  | .forkIsthread => (s.write np fun x => { x with isthread := false }).goto p (.make .forkIsjoined np)
  | .forkIsjoined => (s.write np fun x => { x with isjoined := false }).goto p (.make .forkRun np)
  | .forkRun => ((s.write np fun x => { x with state := .runnable }).goto np .user).sysret p (s.ptable np).pid
  -- thread_create
  | .tcPid => (s.write np fun x => { x with pid := (s.ptable p).pid }).goto p (.make .tcPgdir np)
  | .tcPgdir => (s.write np fun x => { x with pgdir := (s.ptable p).pgdir }).goto p (.make .tcParent np)
  | .tcParent => (s.write np fun x => { x with parent := s.mainOf p }).goto p (.make .tcCount np)
  | .tcCount =>
    (s.writeAt (s.ptable np).parent fun x => { x with threadnum := x.threadnum + 1 }).goto p (.make .tcIsthread np)
  | .tcIsthread => (s.write np fun x => { x with isthread := true }).goto p (.make .tcIsjoined np)
  | .tcIsjoined => (s.write np fun x => { x with isjoined := false }).goto p (.make .tcThreadId np)
  | .tcThreadId =>
    let s := s.writeAt (s.ptable np).parent fun x => { x with threadId := x.threadId + 1 }
    let tid := match (s.ptable np).parent with
      | none => (s.ptable np).threadId
      | some m => (s.ptable m).threadId
    (s.write np fun x => { x with threadId := tid }).goto p (.make .tcRun np)
  | .tcRun => ((s.write np fun x => { x with state := .runnable }).goto np .user).sysret p (s.ptable np).threadId

/-! ## exit, thread_exit, wait, thread_join, kill -/

/-- `exit` is called: init panics, anyone else starts closing files -/
def exit (s : St N K) (p : Fin N) : St N K :=
  if p = s.initproc then s.goto p .panicked else s.goto p .exitClose

/-- `exit` from its acquire of `ptable.lock` on -/
def exitLocked (s : St N K) (c : Fin K) (p : Fin N) : St N K :=
  { s with ptable := exitSection s.initproc p s.ptable }.leave c

/-- `proc->parent->threadnum` -/
def parentThreadnum (s : St N K) (p : Fin N) : ℤ :=
  match (s.ptable p).parent with
  | none => 0
  | some m => (s.ptable m).threadnum

def threadExit (s : St N K) (c : Fin K) (p : Fin N) (v : ℕ) : St N K :=
  let x := s.ptable p
  if x.isthread then
    if parentThreadnum s p = 1 then
      exit (s.writeAt x.parent fun m => { m with threadnum := m.threadnum - 1 }) p
    else
      let s := s.write p fun x => { x with retVal := v }
      let s := s.writeAt x.parent fun m => { m with threadnum := m.threadnum - 1 }
      let s := s.write p fun x => { x with state := .zombie }
      (if (s.ptable p).isjoined then { s with ptable := wakeup1 s.ptable (.proc p) } else s).leave c
  else if x.threadnum = 1 then
    exit (s.write p fun x => { x with threadnum := x.threadnum - 1 }) p
  else
    (s.write p fun x => { x with threadnum := x.threadnum - 1, state := .zombie }).leave c

/-- `found` of `wait`: the pid of the first child that can be reaped, 0 if there is none -/
def waitFound (t : Table N) (p : Fin N) : ℕ :=
  match waitFind t p with
  | none => 0
  | some q => (t q).pid

/-- one round of `wait`, with `ptable.lock` held -/
def waitLoop (s : St N K) (c : Fin K) (p : Fin N) : St N K :=
  let found := waitFound s.ptable p
  if found ≠ 0 then
    { s with ptable := reap s.ptable found, freed := s.freed ++ (freedPgdir s.ptable found).toList }.sysret p found
  else if havekids s.ptable p = false ∨ (s.ptable p).killed = true then s.sysret p (-1)
  else s.sleep c p (.proc p) .waitSleep

def threadJoin (s : St N K) (c : Fin K) (p : Fin N) (threadId : ℤ) : St N K :=
  match joinFind s.ptable p threadId with
  | none => s.sysret p (-1)
  | some t =>
    if (s.ptable t).isjoined then s.sysret p (-2)
    else if (s.ptable t).state = .zombie then s.sysret p 0
    else (s.write t fun x => { x with isjoined := true }).sleep c p (.proc t) .joinSleep

def kill (s : St N K) (p : Fin N) (pid : ℤ) : St N K :=
  match killFind s.ptable pid with
  | none => s.sysret p (-1)
  | some q => (s.write q Proc.kill).sysret p 0

/-! ## binary semaphores -/

def binarySemaphoreCreate (s : St N K) (p : Fin N) (v : ℤ) : St N K :=
  match (List.finRange 128).find? fun id => (s.semtable id).created = false with
  | none => s.sysret p (-1)
  | some id =>
    ({ s with semtable := update s.semtable id { s.semtable id with created := true, value := v } }.log
      (.create id v)).sysret p id

/-- `p->sem_queue_pos = ++(sem->waiting)` -/
def enqueue (s : St N K) (p : Fin N) (id : SemId) : St N K :=
  let w := (s.semtable id).waiting + 1
  ({ s with semtable := update s.semtable id { s.semtable id with waiting := w } }.write p
    fun x => { x with semQueuePos := w }).log (.queued (s.who p) id)

/-- `binary_semaphore_down` takes the value and returns 0 -/
def semTake (s : St N K) (p : Fin N) (id : SemId) : St N K :=
  (({ s with semtable := update s.semtable id { s.semtable id with value := 0 } }.write p
    fun x => { x with waitingForSemaphore := none }).log (.down (s.who p) id)).sysret p 0

/-- `binary_semaphore_down` registers its caller and puts it to sleep -/
def semSleep (s : St N K) (c : Fin K) (p : Fin N) (id : SemId) : St N K :=
  (s.write p fun x => { x with waitingForSemaphore := some id }).sleep c p (.sem id) (.downSleep id)

/-- one round of the loop of `binary_semaphore_down` -/
def downLoop (s : St N K) (c : Fin K) (p : Fin N) (id : SemId) : St N K :=
  if (s.semtable id).created then
    if (s.semtable id).value ≠ 0 ∧ (s.ptable p).semQueuePos = 0 then semTake s p id
    else semSleep (if (s.ptable p).semQueuePos = 0 then enqueue s p id else s) c p id
  else s.sysret p (-1)

def binarySemaphoreDown (s : St N K) (c : Fin K) (p : Fin N) (id : SemId) : St N K :=
  let s := s.log (.call (s.who p) id)
  let s := if (s.semtable id).waiting ≠ 0 then enqueue s p id else s
  downLoop s c p id

def binarySemaphoreUp (s : St N K) (p : Fin N) (id : SemId) : St N K :=
  if (s.semtable id).created then
    let first := upFirst s.ptable p id
    let w := (s.semtable id).waiting
    let s := { s with
      ptable := (upSlot s.ptable p id).writeAt first Proc.wakeFirst
      semtable := update s.semtable id
        { s.semtable id with waiting := if 0 < w then w - 1 else w, value := 1 } }
    (s.log (.up (s.who p) id)).sysret p 0
  else s.sysret p (-1)

/-! ## The machine -/

def syscall (s : St N K) (c : Fin K) (p : Fin N) : Syscall → St N K
  | .fork => allocproc s p .fork
  | .threadCreate => allocproc s p .threadCreate
  | .exit => exit s p
  | .wait => waitLoop s c p
  | .kill pid => kill s p pid
  | .threadExit v => threadExit s c p v
  | .threadJoin tid => threadJoin s c p tid
  | .semCreate v => binarySemaphoreCreate s p v
  | .semDown id => binarySemaphoreDown s c p id
  | .semUp id => binarySemaphoreUp s p id

/-- a step taken inside the kernel by the process on CPU `c`; `wait` and `thread_join` continue when dispatched -/
def kernelStep (s : St N K) (c : Fin K) (p : Fin N) (ok : Bool) : Pc N → St N K
  | .make st np => makeStep s p np ok st
  | .exitClose => exitLocked s c p
  | .downSleep id => downLoop s c p id
  | .user | .waitSleep | .joinSleep | .panicked => s

/-- the scheduler has switched to `p`; `sleep` resets the channel -/
def dispatched (s : St N K) (c : Fin K) (p : Fin N) : St N K :=
  { s with curproc := update s.curproc c (some p) }.write p
    fun x => { x with state := .running, chan := .null }

/-- what a process that slept with `ptable.lock` does before it releases the lock -/
def resume (s : St N K) (c : Fin K) (p : Fin N) : St N K :=
  match s.pc p with
  | .waitSleep => waitLoop s c p
  | .joinSleep => s.sysret p 0
  | _ => s

/-- the steps of the process that CPU `c` runs -/
def stepOn (s : St N K) (c : Fin K) (p : Fin N) : Op N K → St N K
  | .preempt _ =>
    if (s.ptable p).state = .running ∧ s.pc p ≠ .panicked then
      (s.write p fun x => { x with state := .runnable }).leave c
    else s
  | .trap _ fault =>
    if s.pc p = .user then
      let s := if fault then s.write p fun x => { x with killed := true } else s
      if (s.ptable p).killed then exit s p else s
    else s
  | .call _ f =>
    if s.pc p = .user then
      if (s.ptable p).killed then exit s p else syscall s c p f
    else s
  | .exec _ ok => kernelStep s c p ok (s.pc p)
  | .sleepDev _ n =>
    if s.pc p = .user ∨ s.pc p = .exitClose then s.sleep c p (.dev n) (s.pc p) else s
  | .dispatch _ _ | .wakeDev _ => s

/-- the CPU on which an operation of a running process takes place -/
def Op.cpu : Op N K → Option (Fin K)
  | .preempt c | .trap c _ | .call c _ | .exec c _ | .sleepDev c _ => some c
  | .dispatch _ _ | .wakeDev _ => none

def step (s : St N K) : Op N K → St N K
  | .dispatch c p =>
    if s.curproc c = none ∧ (s.ptable p).state = .runnable then resume (dispatched s c p) c p else s
  | .wakeDev n => { s with ptable := wakeup1 s.ptable (.dev n) }
  | o =>
    match o.cpu.bind fun c => (s.curproc c).map (c, ·) with
    | none => s
    | some (c, p) => stepOn s c p o

/-- **What a step is.** It changes nothing, dispatches a process, wakes the sleepers of a device, or is a step of the
process that some CPU runs. -/
theorem step_cases {s : St N K} {o : Op N K} {P : St N K → Prop} (hstay : P s)
    (hdispatch : ∀ c p, o = .dispatch c p → s.curproc c = none → (s.ptable p).state = .runnable →
      P (resume (dispatched s c p) c p))
    (hwake : ∀ n, o = .wakeDev n → P { s with ptable := wakeup1 s.ptable (.dev n) })
    (hon : ∀ c p, o.cpu = some c → s.curproc c = some p → P (stepOn s c p o)) : P (step s o) := by
  have hcpu : ∀ c, o.cpu = some c → P (match o.cpu.bind fun c => (s.curproc c).map (c, ·) with
      | none => s
      | some (c, p) => stepOn s c p o) := by
    intro c hc
    rw [hc]
    cases hp : s.curproc c with
    | none => simpa [hp] using hstay
    | some p => simpa [hp] using hon c p hc hp
  cases o with
  | dispatch c p =>
    simp only [step]
    split
    · rename_i h
      exact hdispatch c p rfl h.1 h.2
    · exact hstay
  | wakeDev n => exact hwake n rfl
  | preempt c => exact hcpu c rfl
  | trap c fault => exact hcpu c rfl
  | call c f => exact hcpu c rfl
  | exec c ok => exact hcpu c rfl
  | sleepDev c n => exact hcpu c rfl

/-- a slot of the zero-initialised table -/
def freeSlot : Proc N :=
  { pgdir := 0, kstack := false, state := .unused, pid := 0, parent := none, chan := .null, killed := false,
    isthread := false, isjoined := false, threadId := 0, threadnum := 0, waitingForSemaphore := some 0,
    semQueuePos := 0, retVal := 0, uid := 0 }

/-- the machine after `userinit`: init in the first slot, every other slot and every semaphore zero -/
def boot (N K : ℕ) [NeZero N] : St N K where
  ptable := update (fun _ => freeSlot) 0
    { freeSlot with pgdir := 1, kstack := true, state := .runnable, pid := 1, threadnum := 1,
                    waitingForSemaphore := none, uid := 1 }
  pc := fun _ => .user
  eax := fun _ => 0
  curproc := fun _ => none
  nextpid := 2
  initproc := 0
  semtable := fun _ => ⟨0, false, 0⟩
  nextPgdir := 2
  freed := []
  hist := []

end Xv6Threads.Kernel
