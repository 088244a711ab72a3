/-
What a joiner gets: the value given to `thread_exit` and the word that `thread_join` was to leave it in.

`thread_join(tid, r)` is called with a pointer into user memory. When it finds the thread a ZOMBIE it assigns
`ret_val = &(t->ret_val)`: that moves its own parameter to the slot and stores nothing through it. When it sleeps first it
does not touch `ret_val` at all. So no word of user memory is ever written.

User memory is added to the machine here: one word for every address of every page directory. A process in user mode may
store (`MemOp.store`), and `fork` copies the memory of its caller. Every address is taken as valid.
- `kernelStep_mem`: apart from the copy that `fork` makes, no step of the kernel changes a word.
- `join_returns_value`: after a `thread_join` that returned 0, the word at `r` is the thread's value if and only if it was
  before.
- `value_lost`: both orders of `thread_exit` and `thread_join`.
-/
import Xv6Threads.Kernel.JoinSteps

namespace Xv6Threads.Kernel

open Xv6Threads.Core Function

variable {N K : ℕ}

/-! ## User memory -/

/-- what the variable `ret_val` of `thread_join` points to: a user address, or the field of a slot -/
inductive RetPtr (N : ℕ) where
  | user (r : ℕ)
  | slot (t : Fin N)
  deriving DecidableEq

/-- `mem`: the words of user memory by page directory and address; `retVal`: the variable of that name in the last
`thread_join` of a process. The rest is a ghost: the second argument of that call and the thread it named, and the value
that a thread gave to `thread_exit`. -/
structure Memory (N K : ℕ) where
  st : St N K
  mem : ℕ → ℕ → ℕ
  retVal : Fin N → RetPtr N
  arg : Fin N → ℕ
  target : Fin N → Option (Who N)
  exitVal : Who N → Option ℕ

/-- a step of the kernel, where a call of `thread_join` has the pointer `r`; or a store of the process on CPU `c` -/
inductive MemOp (N K : ℕ) where
  | kernel (o : Op N K) (r : ℕ)
  | store (c : Fin K) (r v : ℕ)

/-- the page directory that `fork` copies in this step -/
def copying (s : St N K) : Op N K → Option ℕ
  | .exec c true => match storing s (.exec c true) with
    | some (p, .forkPgdir, _) => some (s.ptable p).pgdir
    | _ => none
  | _ => none

/-- the value that the process of this step gives to `thread_exit`, if it is not the last thread -/
def retiringWith (s : St N K) : Op N K → Option (Fin N × ℕ)
  | .call c (.threadExit v) => (retiring s (.call c (.threadExit v))).map (·, v)
  | _ => none

/-- `thread_join` finds the thread a ZOMBIE that nobody joined, and returns 0 at once -/
def joinsZombieNow (s : St N K) (t : Fin N) : Bool :=
  (s.ptable t).isjoined = false ∧ (s.ptable t).state = .zombie

def Memory.kernelStep (m : Memory N K) (o : Op N K) (r : ℕ) : Memory N K where
  st := step m.st o
  mem := match copying m.st o with
    | none => m.mem
    | some pgdir => update m.mem m.st.nextPgdir (m.mem pgdir)
  retVal := match joining m.st o with
    | none => m.retVal
    | some (p, t) => update m.retVal p (if joinsZombieNow m.st t then .slot t else .user r)
  arg := match joining m.st o with
    | none => m.arg
    | some (p, _) => update m.arg p r
  target := match joining m.st o with
    | none => m.target
    | some (p, t) => update m.target p (some (m.st.who t))
  exitVal := match retiringWith m.st o with
    | none => m.exitVal
    | some (p, v) => update m.exitVal (m.st.who p) (some v)

/-- the process in user mode on a CPU -/
def inUser (s : St N K) (c : Fin K) : Option (Fin N) := (s.curproc c).filter fun p => s.pc p = .user

def Memory.step (m : Memory N K) : MemOp N K → Memory N K
  | .kernel o r => m.kernelStep o r
  | .store c r v => match inUser m.st c with
    | none => m
    | some p =>
      let pgdir := (m.st.ptable p).pgdir
      { m with mem := update m.mem pgdir (update (m.mem pgdir) r v) }

def memoryBoot (N K : ℕ) [NeZero N] : Memory N K where
  st := boot N K
  mem := fun _ _ => 0
  retVal := fun _ => .user 0
  arg := fun _ => 0
  target := fun _ => none
  exitVal := fun _ => none

/-- the word at a user address of a process -/
def Memory.word (m : Memory N K) (p : Fin N) (r : ℕ) : ℕ := m.mem (m.st.ptable p).pgdir r

/-- the process whose `thread_join` returns 0 in this step, the thread it named and its pointer -/
def joined (m : Memory N K) (o : Op N K) (r : ℕ) : Option (Fin N × Who N × ℕ) :=
  match o with
  | .dispatch c q =>
    if m.st.curproc c = none ∧ (m.st.ptable q).state = .runnable ∧ m.st.pc q = .joinSleep then
      (m.target q).map (q, ·, m.arg q)
    else none
  | o => (joining m.st o).bind fun x => if joinsZombieNow m.st x.2 then some (x.1, m.st.who x.2, r) else none

/-! ## No word is written -/

section Step

variable {m : Memory N K} {o : Op N K} {p q : Fin N} {r : ℕ}

/-- only a store of `fork` copies memory -/
theorem kernelStep_mem (h : copying m.st o = none) : (m.kernelStep o r).mem = m.mem := by
  simp only [Memory.kernelStep, h]

/-- a joiner that is dispatched returns 0, in the address space it slept in -/
theorem dispatch_joined {c : Fin K} (hc : m.st.curproc c = none) (hr : (m.st.ptable q).state = .runnable)
    (hpc : m.st.pc q = .joinSleep) :
    (step m.st (.dispatch c q)).eax q = 0 ∧ ((step m.st (.dispatch c q)).ptable q).pgdir = (m.st.ptable q).pgdir := by
  have hres : step m.st (.dispatch c q) = (dispatched m.st c q).sysret q 0 := by
    have hpc' : (dispatched m.st c q).pc q = .joinSleep := hpc
    simp only [step, hc, hr, and_self, if_true, resume, hpc']
  rw [hres]
  exact ⟨update_self .., by simp [dispatched]⟩

/-- and so does one that finds a ZOMBIE -/
theorem zombie_joined {t : Fin N} (hj : joining m.st o = some (p, t)) (hz : joinsZombieNow m.st t = true) :
    (step m.st o).eax p = 0 ∧ (step m.st o).ptable = m.st.ptable ∧ copying m.st o = none := by
  cases o with
  | call c f =>
    cases f with
    | threadJoin tid =>
      simp only [joining, Option.bind_eq_some_iff, Option.ite_none_right_eq_some, Option.map_eq_some_iff] at hj
      obtain ⟨p', hc, ⟨hu, hk⟩, t', hf, he⟩ := hj
      cases he
      obtain ⟨hun, hzombie⟩ : (m.st.ptable t).isjoined = false ∧ (m.st.ptable t).state = .zombie := by
        simpa [joinsZombieNow] using hz
      have hstep : step m.st (.call c (.threadJoin tid)) = m.st.sysret p 0 := by
        simp [step, Op.cpu, hc, stepOn, hu, hk, syscall, threadJoin, hf, hun, hzombie]
      rw [hstep]
      exact ⟨update_self .., rfl, rfl⟩
    | _ => cases hj
  | _ => cases hj

end Step

/-- **What `thread_join` leaves at its pointer.** In every state, when a `thread_join` that named thread `w` returns 0 and
`w` gave `v` to `thread_exit`, the word at the pointer is `v` afterwards if and only if it was before. -/
theorem join_returns_value (m : Memory N K) (o : Op N K) (r : ℕ) (p : Fin N) (w : Who N) (r' v : ℕ)
    (hj : joined m o r = some (p, w, r')) (_ : m.exitVal w = some v) :
    (m.step (.kernel o r)).st.eax p = 0 ∧ ((m.step (.kernel o r)).word p r' = v ↔ m.word p r' = v) := by
  have hsame : (step m.st o).eax p = 0 ∧ ((step m.st o).ptable p).pgdir = (m.st.ptable p).pgdir ∧
      copying m.st o = none := by
    unfold joined at hj
    split at hj
    · rename_i c q
      simp only [Option.ite_none_right_eq_some, Option.map_eq_some_iff] at hj
      obtain ⟨⟨hc, hr, hpc⟩, _, _, he⟩ := hj
      cases he
      obtain ⟨heax, hpg⟩ := dispatch_joined hc hr hpc
      exact ⟨heax, hpg, rfl⟩
    · simp only [Option.bind_eq_some_iff, Option.ite_none_right_eq_some] at hj
      obtain ⟨⟨p', t⟩, hjoin, hz, he⟩ := hj
      cases he
      obtain ⟨heax, htable, hcopy⟩ := zombie_joined hjoin hz
      exact ⟨heax, by rw [htable], hcopy⟩
  obtain ⟨heax, hpg, hcopy⟩ := hsame
  have hword : (m.step (.kernel o r)).word p r' = m.word p r' := by
    have hmem : (m.step (.kernel o r)).mem = m.mem := kernelStep_mem hcopy
    have hpg' : ((m.step (.kernel o r)).st.ptable p).pgdir = (m.st.ptable p).pgdir := hpg
    rw [Memory.word, Memory.word, hmem, hpg']
  rw [hword]
  exact ⟨heax, Iff.rfl⟩

/-- kernel steps without a pointer -/
def plain (ops : List (Op 64 1)) : List (MemOp 64 1) := ops.map fun o => .kernel o 0

/-- init forks a child, and the child makes a thread -/
def makesThread : List (Op 64 1) := List.flatten
  [[.dispatch 0 0, .call 0 .fork], List.replicate 10 (.exec 0 true), [.preempt 0, .dispatch 0 1, .call 0 .threadCreate],
    List.replicate 12 (.exec 0 true)]

/-- the child stores 7 at address 100 and calls `thread_join(1, 100)`; the thread calls `thread_exit(7)` -/
def joinThenExit : List (MemOp 64 1) :=
  plain makesThread ++ [.store 0 100 7, .kernel (.call 0 (.threadJoin 1)) 100] ++
    plain [.dispatch 0 2, .call 0 (.threadExit 7)]

/-- the theorem at that run: the word is 7, because the child had put it there -/
theorem join_returns_own_word :
    ((run Memory.step (memoryBoot 64 1) joinThenExit).step (.kernel (.dispatch 0 1) 0)).word 1 100 = 7 := by
  have h := join_returns_value (run Memory.step (memoryBoot 64 1) joinThenExit) (.dispatch 0 1) 0 1 (2, 3) 100 7
    (by decide +kernel) (by decide +kernel)
  exact h.2.2 (by decide +kernel)

/-- `thread_exit(7)` after the call of `thread_join(1, 100)`, which sleeps; nobody has stored at 100 -/
def exitAfterJoin : List (MemOp 64 1) :=
  plain makesThread ++ [.kernel (.call 0 (.threadJoin 1)) 100] ++ plain [.dispatch 0 2, .call 0 (.threadExit 7)]

/-- `thread_exit(7)` before the call of `thread_join(1, 100)`, which finds the ZOMBIE -/
def exitBeforeJoin : List (MemOp 64 1) :=
  plain makesThread ++ plain [.preempt 0, .dispatch 0 2, .call 0 (.threadExit 7), .dispatch 0 1]

/-- **The exit value does not reach the joiner.** In both orders `thread_join(1, 100)` returns 0 and the word at 100 is 0,
not 7. After the second one `ret_val` points to the field of the slot, which holds the value. -/
theorem value_lost :
    let m := run Memory.step (memoryBoot 64 1) exitAfterJoin
    let m' := m.step (.kernel (.dispatch 0 1) 0)
    let n := run Memory.step (memoryBoot 64 1) exitBeforeJoin
    let n' := n.step (.kernel (.call 0 (.threadJoin 1)) 100)
    (joined m (.dispatch 0 1) 0 = some (1, (2, 3), 100) ∧ m.exitVal (2, 3) = some 7 ∧ m'.st.eax 1 = 0 ∧
      m'.word 1 100 = 0) ∧
    (joined n (.call 0 (.threadJoin 1)) 100 = some (1, (2, 3), 100) ∧ n.exitVal (2, 3) = some 7 ∧ n'.st.eax 1 = 0 ∧
      n'.word 1 100 = 0 ∧ n'.retVal 1 = .slot 2 ∧ (n'.st.ptable 2).retVal = 7) := by
  decide +kernel

end Xv6Threads.Kernel
