/-
The blocking system calls with every point at which a `kill` can arrive.

In `Kernel.Machine` a system call tests `killed` and does its locked section in one step. Here the two are apart. A process
enters one of seven calls (`Blocker`) when the test of `killed` in `trap` has passed, and takes the call's lock later.
`wait` and `thread_join` then run with `ptable.lock`, which `kill` needs too. The other loops run under a lock of their own:
`sys_sleep` under `tickslock`, `pipewrite` and `piperead` under the pipe's, `consoleread` under `input.lock`. They test
`killed`, and `sleep` takes `ptable.lock` only after that (`Stage.tested`), so a `kill` on another CPU fits in between.
`binary_semaphore_down` does not test `killed` at all.

A process that holds one of these locks has interrupts off and is not preempted. The data the loops test is here: the
tick count, the counters of each pipe, the console's input. The bytes that go through a pipe, and the inode lock that
`consoleread` gives up meanwhile, are not.
- `Blocking.step`: the steps of the calls, of the interrupts, and the kernel's own.
- `BlockedIn`: a process is in one of the seven calls, in `sleep`.
-/
import Xv6Threads.Kernel.Marks

namespace Xv6Threads.Kernel

open Xv6Threads.Core Function

variable {N K : ℕ}

/-! ## Devices -/

/-- the fields of `struct pipe` that its loops test -/
structure PipeEnds where
  nread : UInt32
  nwrite : UInt32
  readopen : Bool
  writeopen : Bool

/-- `ticks`, the pipes by number, and `input` of console.c -/
structure Devices where
  ticks : UInt32
  pipe : ℕ → PipeEnds
  buf : ℕ → UInt8
  r : UInt32
  w : UInt32
  e : UInt32

/-- `tickslock`, `input.lock`, the lock of a pipe -/
inductive DevLock where
  | ticks
  | input
  | pipe (i : ℕ)
  deriving DecidableEq

/-- the blocking system calls; a pipe is given by its number, and the `n` of `sleep` is compared with an unsigned -/
inductive Blocker where
  | wait
  | threadJoin (tid : ℤ)
  | semDown (id : SemId)
  | sleep (n : UInt32)
  | pipewrite (i : ℕ) (n : ℤ)
  | piperead (i : ℕ) (n : ℤ)
  | consoleread (n : ℤ)
  deriving DecidableEq

/-- the loops that wait for a device, with their variables: `ticks0` and `n`; the bytes written and `n`; `n`; `target` and
`n` -/
inductive Loop where
  | sleep (ticks0 n : UInt32)
  | pipewrite (i k : ℕ) (n : ℤ)
  | piperead (i : ℕ) (n : ℤ)
  | consoleread (target n : ℤ)
  deriving DecidableEq

/-- where a process is in such a call: past the test of `killed` in `trap`; at the test of its loop, with the lock; about
to call `sleep`, with the lock; in `sleep` -/
inductive Stage where
  | none
  | entered (f : Blocker)
  | loop (l : Loop)
  | tested (l : Loop)
  | asleep (l : Loop)
  deriving DecidableEq

def Loop.lock : Loop → DevLock
  | .sleep .. => .ticks
  | .pipewrite i _ _ | .piperead i _ => .pipe i
  | .consoleread .. => .input

/-- `&ticks`, `&input.r`, and `&p->nread`, `&p->nwrite` of each pipe -/
def ticksChan : ℕ := 0
def inputChan : ℕ := 1
def nreadChan (i : ℕ) : ℕ := 2 * i + 2
def nwriteChan (i : ℕ) : ℕ := 2 * i + 3

def Loop.chan : Loop → ℕ
  | .sleep .. => ticksChan
  | .pipewrite i _ _ => nwriteChan i
  | .piperead i _ => nreadChan i
  | .consoleread .. => inputChan

/-- with one of these locks held -/
def Stage.locked : Stage → Bool
  | .loop _ | .tested _ => true
  | _ => false

/-! ## The machine -/

structure Blocking (N K : ℕ) where
  st : St N K
  dev : Devices
  held : DevLock → Option (Fin N)
  stage : Fin N → Stage

/-- `kernel`: a step of `Kernel.Machine`; `enter`: the process on CPU `c` makes one of the calls; `go`: its next step in
it; `tick`, `key`: the interrupts of the timer and the keyboard; `close`: an end of a pipe is closed -/
inductive BOp (N K : ℕ) where
  | kernel (o : Op N K)
  | enter (c : Fin K) (f : Blocker)
  | go (c : Fin K)
  | tick
  | key (ch : UInt8)
  | close (i : ℕ) (writable : Bool)

namespace Blocking

def setStage (m : Blocking N K) (p : Fin N) (e : Stage) : Blocking N K :=
  { m with stage := update m.stage p e }

def wakeup (m : Blocking N K) (n : ℕ) : Blocking N K :=
  { m with st := { m.st with ptable := wakeup1 m.st.ptable (.dev n) } }

/-- `acquire` by process `p`, which spins while the lock is held -/
def acquire (m : Blocking N K) (p : Fin N) (l : Loop) : Blocking N K :=
  if m.held l.lock = none then { m.setStage p (.loop l) with held := update m.held l.lock (some p) } else m

/-- `release`, and return from the call -/
def ret (m : Blocking N K) (p : Fin N) (l : Loop) (v : ℤ) : Blocking N K :=
  { m.setStage p .none with st := m.st.sysret p v, held := update m.held l.lock none }

/-- `sleep(chan, lk)` -/
def sleep (m : Blocking N K) (c : Fin K) (p : Fin N) (l : Loop) : Blocking N K :=
  { m.setStage p (.asleep l) with
    st := m.st.sleep c p (.dev l.chan) (m.st.pc p)
    held := update m.held l.lock none }

def setPipe (m : Blocking N K) (i : ℕ) (e : PipeEnds) : Blocking N K :=
  { m with dev := { m.dev with pipe := update m.dev.pipe i e } }

/-- `proc->killed` -/
def killed (m : Blocking N K) (p : Fin N) : Bool := (m.st.ptable p).killed

/-- one round of a loop, with its lock held -/
def loopStep (m : Blocking N K) (p : Fin N) : Loop → Blocking N K
  | .sleep ticks0 n =>
    if m.dev.ticks - ticks0 < n then
      if m.killed p then m.ret p (.sleep ticks0 n) (-1) else m.setStage p (.tested (.sleep ticks0 n))
    else m.ret p (.sleep ticks0 n) 0
  | .pipewrite i k n =>
    let e := m.dev.pipe i
    if (k : ℤ) < n then
      if e.nwrite = e.nread + 512 then
        if e.readopen = false ∨ m.killed p = true then m.ret p (.pipewrite i k n) (-1)
        else (m.wakeup (nreadChan i)).setStage p (.tested (.pipewrite i k n))
      else (m.setPipe i { e with nwrite := e.nwrite + 1 }).setStage p (.loop (.pipewrite i (k + 1) n))
    else (m.wakeup (nreadChan i)).ret p (.pipewrite i k n) n
  | .piperead i n =>
    let e := m.dev.pipe i
    if e.nread = e.nwrite ∧ e.writeopen = true then
      if m.killed p then m.ret p (.piperead i n) (-1) else m.setStage p (.tested (.piperead i n))
    else
      -- the copying loop reads until the pipe is empty or `n` bytes are read
      let k := min n.toNat (e.nwrite - e.nread).toNat
      ((m.setPipe i { e with nread := e.nread + UInt32.ofNat k }).wakeup (nwriteChan i)).ret p (.piperead i n) k
  | .consoleread target n =>
    if 0 < n then
      if m.dev.r = m.dev.w then
        if m.killed p then m.ret p (.consoleread target n) (-1) else m.setStage p (.tested (.consoleread target n))
      else
        let c := m.dev.buf (m.dev.r.toNat % 128)
        let next := { m with dev := { m.dev with r := m.dev.r + 1 } }
        if c = 4 then
          -- end of file: kept for the next call if this one has read something
          (if n < target then m else next).ret p (.consoleread target n) (target - n)
        else if c = 10 then next.ret p (.consoleread target n) (target - (n - 1))
        else next.setStage p (.loop (.consoleread target (n - 1)))
    else m.ret p (.consoleread target n) (target - n)

/-- what a process that has entered a call does next -/
def enteredStep (m : Blocking N K) (c : Fin K) (p : Fin N) : Blocker → Blocking N K
  | .wait => { m.setStage p .none with st := waitLoop m.st c p }
  | .threadJoin tid => { m.setStage p .none with st := threadJoin m.st c p tid }
  | .semDown id => { m.setStage p .none with st := binarySemaphoreDown m.st c p id }
  | .sleep n => m.acquire p (.sleep m.dev.ticks n)
  | .pipewrite i n => m.acquire p (.pipewrite i 0 n)
  | .piperead i n => m.acquire p (.piperead i n)
  | .consoleread n => m.acquire p (.consoleread n n)

def goStep (m : Blocking N K) (c : Fin K) (p : Fin N) : Stage → Blocking N K
  | .none => m
  | .entered f => m.enteredStep c p f
  | .loop l => m.loopStep p l
  | .tested l => m.sleep c p l
  | .asleep l => m.acquire p l

/-- which steps of the kernel a process may take where it is: these calls have steps of their own here, and a process
with a lock held is not preempted -/
def allowed (m : Blocking N K) (o : Op N K) : Bool :=
  match o with
  | .dispatch _ _ | .wakeDev _ => true
  | .preempt c => (m.st.curproc c).all fun p => !(m.stage p).locked
  | .trap c _ | .exec c _ | .sleepDev c _ => (m.st.curproc c).all fun p => m.stage p == .none
  | .call c f => (m.st.curproc c).all fun p => m.stage p == .none &&
    match f with
    | .wait | .threadJoin _ | .semDown _ => false
    | _ => true

/-- `^U` of `consoleintr`: back to the start of the line -/
def killLine (d : Devices) : ℕ → Devices
  | 0 => d
  | k + 1 => if d.e ≠ d.w ∧ d.buf ((d.e - 1).toNat % 128) ≠ 10 then killLine { d with e := d.e - 1 } k else d

/-- one character in `consoleintr`, and whether a line is complete -/
def consoleintr (d : Devices) (c : UInt8) : Devices × Bool :=
  if c = 16 then (d, false)
  else if c = 21 then (killLine d (d.e - d.w).toNat, false)
  else if c = 8 ∨ c = 127 then (if d.e ≠ d.w then { d with e := d.e - 1 } else d, false)
  else if c ≠ 0 ∧ d.e - d.r < 128 then
    let c := if c = 13 then 10 else c
    let d := { d with buf := update d.buf (d.e.toNat % 128) c, e := d.e + 1 }
    if c = 10 ∨ c = 4 ∨ d.e = d.r + 128 then ({ d with w := d.e }, true) else (d, false)
  else (d, false)

def step (m : Blocking N K) : BOp N K → Blocking N K
  | .kernel o =>
    if m.allowed o then { m with st := Kernel.step m.st o, stage := started m.st o m.stage .none } else m
  | .enter c f =>
    match (m.st.curproc c).filter fun p => m.st.pc p = .user ∧ m.stage p = .none with
    | none => m
    | some p => if m.killed p then { m with st := exit m.st p } else m.setStage p (.entered f)
  | .go c =>
    match m.st.curproc c with
    | none => m
    | some p => m.goStep c p (m.stage p)
  | .tick =>
    if m.held .ticks = none then
      { m with dev := { m.dev with ticks := m.dev.ticks + 1 } }.wakeup ticksChan
    else m
  | .key ch =>
    if m.held .input = none then
      let x := consoleintr m.dev ch
      if x.2 then { m with dev := x.1 }.wakeup inputChan else { m with dev := x.1 }
    else m
  | .close i writable =>
    if m.held (.pipe i) = none then
      if writable then (m.setPipe i { m.dev.pipe i with writeopen := false }).wakeup (nreadChan i)
      else (m.setPipe i { m.dev.pipe i with readopen := false }).wakeup (nwriteChan i)
    else m

/-- no pipe has been used yet, and nothing has been typed -/
def boot (N K : ℕ) [NeZero N] : Blocking N K where
  st := Kernel.boot N K
  dev := ⟨0, fun _ => ⟨0, 0, true, true⟩, fun _ => 0, 0, 0, 0⟩
  held := fun _ => none
  stage := fun _ => .none

end Blocking

/-- in `sleep` of `wait`, `thread_join` or `binary_semaphore_down` -/
def Pc.blocked : Pc N → Bool
  | .waitSleep | .joinSleep | .downSleep _ => true
  | _ => false

/-- in `sleep` of one of the loops that wait for a device -/
def Stage.blocked : Stage → Bool
  | .asleep _ => true
  | _ => false

/-- the process in slot `p` is in `sleep` inside one of the seven calls -/
def BlockedIn (m : Blocking N K) (p : Fin N) : Prop := (m.st.pc p).blocked = true ∨ (m.stage p).blocked = true

instance decidableBlockedIn (m : Blocking N K) (p : Fin N) : Decidable (BlockedIn m p) := instDecidableOr

end Xv6Threads.Kernel
