/-
Pipes (pipe.c), at the granularity of single statements under the pipe's lock.

Any number of processes call `pipewrite`, `piperead` and `pipeclose` on one pipe. A step is one statement of the process that
holds the lock, an acquire of the free lock, or a `kill`, which sets a process's flag and wakes it up at any time, also
while it holds the lock. `sleep(chan, &p->lock)` gives up the lock and goes to sleep in one step, `wakeup(chan)` wakes all
sleepers of the channel in one step. The bytes a writer stores come from the step, since user memory may change while it
sleeps. A process is inside a call only through a descriptor that keeps its end open, so the last descriptor of an end is
closed when nobody is inside a call on that end.

The counters have 32 bits and wrap; `stored` and `fetched` record the bytes that went in and out, and `fresh` whether a
writer has stored something in its call since it last called `wakeup(&p->nread)`.

- `PipeSound`: who holds the lock, who sleeps where, and what the holder of the lock has found out.
- `Ring`: the buffered bytes are the ones stored and not yet fetched.
- `pipe_fifo`: the contract of the pipe. `Kernel.PipeWakeup` is about who sleeps.
-/
import Xv6Threads.Core.Ring
import Xv6Threads.Core.Runs

namespace Xv6Threads.Kernel

open Xv6Threads.Core Function

variable {N : ℕ}

/-! ## States -/

def PIPESIZE : ℕ := 512

/-- the channels `&p->nread` and `&p->nwrite` -/
inductive PipeChan where
  | nread
  | nwrite
  deriving DecidableEq

/-- where a process stands in `pipewrite`, `piperead` or `pipeclose`; `i` counts bytes and `n` is the caller's argument -/
inductive PipePc where
  | out
  /-- `pipewrite` at the tests of its two loops -/
  | wLoop (i : ℕ) (n : ℤ)
  /-- the buffer is full: `wakeup(&p->nread)`, then `sleep(&p->nwrite, &p->lock)`, then in `sleep` without the lock -/
  | wWake (i : ℕ) (n : ℤ)
  | wSleep (i : ℕ) (n : ℤ)
  | wWoken (i : ℕ) (n : ℤ)
  /-- the last `wakeup(&p->nread)` -/
  | wEnd (n : ℤ)
  /-- `release` and `return v` -/
  | wRet (v : ℤ)
  /-- `piperead` at the test of its first loop -/
  | rLoop (n : ℤ)
  | rSleep (n : ℤ)
  | rWoken (n : ℤ)
  /-- the copying loop -/
  | rCopy (i : ℕ) (n : ℤ)
  | rEnd (i : ℕ) (n : ℤ)
  | rRet (n v : ℤ)
  /-- `pipeclose`: the store, the wakeup, the release -/
  | cOpen (writable : Bool)
  | cWake (writable : Bool)
  | cRet
  deriving DecidableEq

/-- the call that a process is in -/
inductive PipeCall where
  | none
  | pipewrite
  | piperead
  | pipeclose
  deriving DecidableEq

def PipePc.call : PipePc → PipeCall
  | .out => .none
  | .wLoop .. | .wWake .. | .wSleep .. | .wWoken .. | .wEnd _ | .wRet _ => .pipewrite
  | .rLoop _ | .rSleep _ | .rWoken _ | .rCopy .. | .rEnd .. | .rRet .. => .piperead
  | .cOpen _ | .cWake _ | .cRet => .pipeclose

/-- the call that the write end, or the read end, is for -/
def endCall (writable : Bool) : PipeCall := if writable then .pipewrite else .piperead

/-- with the lock held -/
def PipePc.locked : PipePc → Bool
  | .out | .wWoken .. | .rWoken _ => false
  | _ => true

structure Pipe (N : ℕ) where
  data : ℕ → UInt8
  nread : UInt32
  nwrite : UInt32
  readopen : Bool
  writeopen : Bool
  lock : Option (Fin N)
  freed : Bool
  asleep : Fin N → Option PipeChan
  killed : Fin N → Bool
  pc : Fin N → PipePc
  stored : List UInt8
  fetched : List UInt8
  fresh : Fin N → Bool

/-- a call of `pipewrite`, `piperead` or `pipeclose`, which starts by acquiring the lock; the next statement of a process,
with the byte at `addr[i]` should it store one; `kill` -/
inductive PipeOp (N : ℕ) where
  | pipewrite (p : Fin N) (n : ℤ)
  | piperead (p : Fin N) (n : ℤ)
  | pipeclose (p : Fin N) (writable : Bool)
  | go (p : Fin N) (c : UInt8)
  | kill (p : Fin N)
  deriving DecidableEq

namespace Pipe

/-- after `pipealloc` -/
def alloc (data : ℕ → UInt8) : Pipe N where
  data := data
  nread := 0
  nwrite := 0
  readopen := true
  writeopen := true
  lock := none
  freed := false
  asleep := fun _ => none
  killed := fun _ => false
  pc := fun _ => .out
  stored := []
  fetched := []
  fresh := fun _ => false

/-! ## Statements -/

/-- `p->nwrite == p->nread + PIPESIZE` -/
def full (m : Pipe N) : Prop := m.nwrite = m.nread + 512

instance decidableFull (m : Pipe N) : Decidable m.full := instDecidableEqUInt32 ..

def isOpen (m : Pipe N) (writable : Bool) : Bool := if writable then m.writeopen else m.readopen

def goto (m : Pipe N) (p : Fin N) (e : PipePc) : Pipe N := { m with pc := update m.pc p e }

def acquire (m : Pipe N) (p : Fin N) (e : PipePc) : Pipe N :=
  if m.lock = none ∧ m.freed = false then { m.goto p e with lock := some p } else m

def release (m : Pipe N) (p : Fin N) : Pipe N := { m.goto p .out with lock := none }

/-- everyone who sleeps on the channel becomes RUNNABLE -/
def wakeup (m : Pipe N) (ch : PipeChan) : Pipe N :=
  { m with asleep := fun q => if m.asleep q = some ch then none else m.asleep q }

def sleep (m : Pipe N) (p : Fin N) (ch : PipeChan) (e : PipePc) : Pipe N :=
  { m.goto p e with asleep := update m.asleep p (some ch), lock := none }

/-- `p->data[p->nwrite++ % PIPESIZE] = addr[i]` -/
def store (m : Pipe N) (p : Fin N) (c : UInt8) : Pipe N :=
  { m with
    data := update m.data (m.nwrite.toNat % PIPESIZE) c
    nwrite := m.nwrite + 1
    stored := m.stored ++ [c]
    fresh := update m.fresh p true }

/-- `addr[i] = p->data[p->nread++ % PIPESIZE]` -/
def fetch (m : Pipe N) : Pipe N :=
  { m with
    nread := m.nread + 1
    fetched := m.fetched ++ [m.data (m.nread.toNat % PIPESIZE)] }

/-- `wakeup(&p->nread)` by a writer -/
def wakeReaders (m : Pipe N) (p : Fin N) : Pipe N :=
  { m.wakeup .nread with fresh := update m.fresh p false }

/-- the next statement of process `p` -/
def exec (m : Pipe N) (p : Fin N) (c : UInt8) : PipePc → Pipe N
  | .out => m
  | .wLoop i n =>
    if (i : ℤ) < n then
      if m.full then
        if m.readopen = false ∨ m.killed p = true then m.goto p (.wRet (-1)) else m.goto p (.wWake i n)
      else (m.store p c).goto p (.wLoop (i + 1) n)
    else m.goto p (.wEnd n)
  | .wWake i n => (m.wakeReaders p).goto p (.wSleep i n)
  | .wSleep i n => m.sleep p .nwrite (.wWoken i n)
  | .wWoken i n => m.acquire p (.wLoop i n)
  | .wEnd n => (m.wakeReaders p).goto p (.wRet n)
  | .wRet _ => { m.release p with fresh := update m.fresh p false }
  | .rLoop n =>
    if m.nread = m.nwrite ∧ m.writeopen = true then
      if m.killed p = true then m.goto p (.rRet n (-1)) else m.goto p (.rSleep n)
    else m.goto p (.rCopy 0 n)
  | .rSleep n => m.sleep p .nread (.rWoken n)
  | .rWoken n => m.acquire p (.rLoop n)
  | .rCopy i n =>
    if (i : ℤ) < n ∧ m.nread ≠ m.nwrite then m.fetch.goto p (.rCopy (i + 1) n) else m.goto p (.rEnd i n)
  | .rEnd i n => (m.wakeup .nwrite).goto p (.rRet n i)
  | .rRet _ _ => m.release p
  | .cOpen true => { m with writeopen := false }.goto p (.cWake true)
  | .cOpen false => { m with readopen := false }.goto p (.cWake false)
  | .cWake writable => (m.wakeup (if writable then .nread else .nwrite)).goto p .cRet
  | .cRet => { m.release p with freed := !m.readopen && !m.writeopen }

def step (m : Pipe N) : PipeOp N → Pipe N
  | .pipewrite p n => if m.pc p = .out ∧ m.writeopen = true then m.acquire p (.wLoop 0 n) else m
  | .piperead p n => if m.pc p = .out ∧ m.readopen = true then m.acquire p (.rLoop n) else m
  | .pipeclose p writable =>
    if m.pc p = .out ∧ m.isOpen writable = true ∧ ∀ q, (m.pc q).call ≠ endCall writable then m.acquire p (.cOpen writable)
    else m
  | .go p c => if m.asleep p = none then m.exec p c (m.pc p) else m
  | .kill p => { m with killed := update m.killed p true, asleep := update m.asleep p none }

end Pipe

/-! ## The lock, the sleepers and the open ends -/

/-- what the holder of the lock has found out and cannot have changed since -/
def Tested (m : Pipe N) : PipePc → Prop
  | .wWake _ _ | .wSleep _ _ => m.full ∧ m.readopen = true
  | .rSleep _ => m.nread = m.nwrite ∧ m.writeopen = true
  | .rCopy i _ => i = 0 → m.nread ≠ m.nwrite ∨ m.writeopen = false
  | .rEnd i n => 0 < n → i = 0 → m.nread = m.nwrite ∧ m.writeopen = false
  | .rRet n v => 0 < n → v = 0 → m.nread = m.nwrite ∧ m.writeopen = false
  | _ => True

/-- a sleeper on the channel is inside `sleep` -/
def Sleeps : PipeChan → PipePc → Prop
  | .nread, .rWoken _ => True
  | .nwrite, .wWoken _ _ => True
  | _, _ => False

structure PipeSound (m : Pipe N) : Prop where
  owner : ∀ p, (m.pc p).locked = true ↔ m.lock = some p
  sleeper : ∀ p ch, m.asleep p = some ch → Sleeps ch (m.pc p)
  inside : ∀ p w, (m.pc p).call = endCall w → m.isOpen w = true
  closer : ∀ p w, m.pc p = .cOpen w → ∀ q, (m.pc q).call ≠ endCall w
  tested : ∀ p, Tested m (m.pc p)

section PipeSound

variable {m m' : Pipe N} {p : Fin N}

theorem tested_of_not_locked {e : PipePc} (h : e.locked = false) : Tested m e := by
  cases e with
  | out | wWoken | rWoken => trivial
  | wLoop | wWake | wSleep | wEnd | wRet | rLoop | rSleep | rCopy | rEnd | rRet | cOpen | cWake | cRet => cases h

theorem PipeSound.others (h : PipeSound m) (hl : m.lock = some p ∨ m.lock = none) (q : Fin N) (hq : q ≠ p) :
    (m.pc q).locked = false := by
  rw [Bool.eq_false_iff]
  intro hlocked
  have hlock := (h.owner q).1 hlocked
  rcases hl with hl | hl
  · rw [hl] at hlock
    exact hq (Option.some.inj hlock).symm
  · rw [hl] at hlock
    cases hlock

/-- **One process moves.** It has the lock, or takes it when it is free; the others are outside or asleep. -/
theorem PipeSound.move (h : PipeSound m) {e : PipePc} (hl : m.lock = some p ∨ m.lock = none)
    (hpc : m'.pc = update m.pc p e) (hlock : m'.lock = if e.locked then some p else none)
    (hsleep : ∀ q, q ≠ p → m'.asleep q = m.asleep q ∨ m'.asleep q = none)
    (hself : ∀ ch, m'.asleep p = some ch → Sleeps ch e)
    (hopen : ∀ w q, (update m.pc p e q).call = endCall w → m'.isOpen w = true)
    (hclose : ∀ w, e = .cOpen w → ∀ q, (m.pc q).call ≠ endCall w) (htest : Tested m' e) : PipeSound m' := by
  have hothers := h.others hl
  have hp : m'.pc p = e := by rw [hpc, update_self]
  have hq : ∀ q, q ≠ p → m'.pc q = m.pc q := by
    intro q hq
    rw [hpc, update_of_ne hq]
  refine ⟨?_, ?_, ?_, ?_, ?_⟩
  · intro q
    by_cases hqp : q = p
    · subst hqp
      rw [hp, hlock]
      cases e.locked <;> simp
    · rw [hq q hqp, hothers q hqp, hlock]
      cases e.locked
      · simp
      · simpa using fun hpq => hqp hpq.symm
  · intro q ch hch
    by_cases hqp : q = p
    · subst hqp
      rw [hp]
      exact hself ch hch
    · rw [hq q hqp]
      rcases hsleep q hqp with hs | hs
      · exact h.sleeper q ch (hs.symm.trans hch)
      · rw [hs] at hch
        cases hch
  · intro q w hu
    rw [hpc] at hu
    exact hopen w q hu
  · intro q w hcl r
    by_cases hqp : q = p
    · subst hqp
      rw [hp] at hcl
      by_cases hrp : r = q
      · subst hrp
        rw [hp, hcl]
        cases w <;> simp [PipePc.call, endCall]
      · rw [hq r hrp]
        exact hclose w hcl r
    · rw [hq q hqp] at hcl
      have := hothers q hqp
      rw [hcl] at this
      cases this
  · intro q
    by_cases hqp : q = p
    · subst hqp
      rw [hp]
      exact htest
    · rw [hq q hqp]
      exact tested_of_not_locked (hothers q hqp)

theorem PipeSound.awake (h : PipeSound m) (hl : (m.pc p).locked = true) : m.asleep p = none := by
  cases ha : m.asleep p with
  | none => rfl
  | some ch =>
    have hs := h.sleeper p ch ha
    cases ch <;> cases hpc : m.pc p <;> simp_all [Sleeps, PipePc.locked]

theorem PipeSound.open_of_call (h : PipeSound m) {e : PipePc} (hopen : ∀ w q, (m.pc q).call = endCall w → m'.isOpen w = m.isOpen w)
    (he : e.call = (m.pc p).call ∨ e.call = .none) (w : Bool) (q : Fin N)
    (hq : (update m.pc p e q).call = endCall w) : m'.isOpen w = true := by
  have hbefore : (m.pc q).call = endCall w := by
    by_cases hqp : q = p
    · subst hqp
      rw [update_self] at hq
      rcases he with he | he
      · exact he.symm.trans hq
      · rw [he] at hq
        cases w <;> cases hq
    · rwa [update_of_ne hqp] at hq
  rw [hopen w q hbefore]
  exact h.inside q w hbefore

/-- the holder of the lock goes on in its call and keeps it -/
theorem PipeSound.goOn (h : PipeSound m) {e : PipePc} (hl : (m.pc p).locked = true) (hpc : m'.pc = update m.pc p e)
    (hlock : m'.lock = m.lock) (he : e.locked = true) (hcall : e.call = (m.pc p).call)
    (hsleep : ∀ q, m'.asleep q = m.asleep q ∨ m'.asleep q = none)
    (hopen : ∀ w q, (m.pc q).call = endCall w → m'.isOpen w = m.isOpen w) (hclose : ∀ w, e ≠ .cOpen w)
    (htest : Tested m' e) : PipeSound m' := by
  have hown := (h.owner p).1 hl
  refine h.move (.inl hown) hpc ?_ (fun q _ => hsleep q) ?_ (h.open_of_call hopen (.inl hcall))
    (fun w hw => absurd hw (hclose w)) htest
  · rw [hlock, hown, he]
    rfl
  · intro ch hch
    rcases hsleep p with hs | hs
    · rw [hs, h.awake hl] at hch
      cases hch
    · rw [hs] at hch
      cases hch

/-- the holder of the lock gives it up, and returns or goes to sleep -/
theorem PipeSound.letGo (h : PipeSound m) {e : PipePc} (hl : (m.pc p).locked = true) (hpc : m'.pc = update m.pc p e)
    (hlock : m'.lock = none) (he : e.locked = false) (hcall : e.call = (m.pc p).call ∨ e.call = .none)
    (hsleep : ∀ q, q ≠ p → m'.asleep q = m.asleep q) (hself : ∀ ch, m'.asleep p = some ch → Sleeps ch e)
    (hopen : ∀ w, m'.isOpen w = m.isOpen w) : PipeSound m' := by
  have hown := (h.owner p).1 hl
  refine h.move (.inl hown) hpc ?_ (fun q hq => .inl (hsleep q hq)) hself (h.open_of_call (fun w _ _ => hopen w) hcall) ?_
    (tested_of_not_locked he)
  · rw [hlock, he]
    rfl
  · intro w hw
    rw [hw] at he
    cases he

/-- the holder of the lock returns -/
theorem PipeSound.returns (h : PipeSound m) (hl : (m.pc p).locked = true) (hpc : m'.pc = update m.pc p .out)
    (hlock : m'.lock = none) (hsleep : m'.asleep = m.asleep) (hopen : ∀ w, m'.isOpen w = m.isOpen w) : PipeSound m' := by
  refine h.letGo hl hpc hlock rfl (.inr rfl) (fun q _ => congrFun hsleep q) ?_ hopen
  intro ch hch
  rw [hsleep, h.awake hl] at hch
  cases hch

/-- a process takes the free lock -/
theorem PipeSound.acquire (h : PipeSound m) {e : PipePc} (ha : m.asleep p = none) (he : e.locked = true)
    (hopen : ∀ w, e.call = endCall w → m.isOpen w = true) (hclose : ∀ w, e = .cOpen w → ∀ q, (m.pc q).call ≠ endCall w)
    (htest : Tested m e) : PipeSound (m.acquire p e) := by
  unfold Pipe.acquire
  split
  · rename_i hfree
    refine h.move (.inr hfree.1) rfl ?_ (fun _ _ => .inl rfl) ?_ ?_ hclose ?_
    · rw [he]
      rfl
    · intro ch hch
      change m.asleep p = some ch at hch
      rw [ha] at hch
      cases hch
    · intro w q hq
      change m.isOpen w = true
      by_cases hqp : q = p
      · subst hqp
        rw [update_self] at hq
        exact hopen w hq
      · rw [update_of_ne hqp] at hq
        exact h.inside q w hq
    · cases e <;> exact htest
  · exact h

theorem wakeup_asleep (m : Pipe N) (ch : PipeChan) (q : Fin N) :
    (m.wakeup ch).asleep q = m.asleep q ∨ (m.wakeup ch).asleep q = none := by
  unfold Pipe.wakeup
  dsimp only
  split
  · exact .inr rfl
  · exact .inl rfl

/-- what the holder finds out on its way -/
theorem goto_sound (h : PipeSound m) {e : PipePc} (hl : (m.pc p).locked = true) (he : e.locked = true)
    (hcall : e.call = (m.pc p).call) (hclose : ∀ w, e ≠ .cOpen w) (htest : Tested m e) : PipeSound (m.goto p e) := by
  refine h.goOn hl rfl rfl he hcall (fun _ => .inl rfl) (fun _ _ _ => rfl) hclose ?_
  cases e <;> exact htest

/-- **One statement** of a process that is not asleep. -/
theorem pipeExec_sound (h : PipeSound m) (ha : m.asleep p = none) (c : UInt8) : PipeSound (m.exec p c (m.pc p)) := by
  have htest := h.tested p
  cases hpc : m.pc p with
  | out => exact h
  | wLoop i n =>
    have hl : (m.pc p).locked = true := by rw [hpc]; rfl
    have hcall : (m.pc p).call = .pipewrite := by rw [hpc]; rfl
    simp only [Pipe.exec]
    split
    · split
      · rename_i hfull
        split
        · exact goto_sound h hl rfl hcall.symm (fun _ => by simp) trivial
        · rename_i hgo
          push Not at hgo
          exact goto_sound h hl rfl hcall.symm (fun _ => by simp) ⟨hfull, by simpa using hgo.1⟩
      · exact h.goOn hl rfl rfl rfl hcall.symm (fun _ => .inl rfl) (fun _ _ _ => rfl) (fun _ => by simp) trivial
    · exact goto_sound h hl rfl hcall.symm (fun _ => by simp) trivial
  | wWake i n =>
    have hl : (m.pc p).locked = true := by rw [hpc]; rfl
    have hcall : (m.pc p).call = .pipewrite := by rw [hpc]; rfl
    rw [hpc] at htest
    exact h.goOn hl rfl rfl rfl hcall.symm (wakeup_asleep m .nread) (fun _ _ _ => rfl) (fun _ => by simp) htest
  | wSleep i n =>
    have hl : (m.pc p).locked = true := by rw [hpc]; rfl
    have hcall : (m.pc p).call = .pipewrite := by rw [hpc]; rfl
    refine h.letGo hl rfl rfl rfl (.inl hcall.symm) (fun q hq => update_of_ne hq _ _) ?_ fun _ => rfl
    intro ch hch
    simp only [Pipe.exec, Pipe.sleep, update_self, Option.some.injEq] at hch
    subst hch
    trivial
  | wWoken i n =>
    refine h.acquire ha rfl ?_ (fun _ he => by cases he) trivial
    intro w hw
    exact h.inside p w (by rw [hpc]; exact hw)
  | wEnd n =>
    have hl : (m.pc p).locked = true := by rw [hpc]; rfl
    have hcall : (m.pc p).call = .pipewrite := by rw [hpc]; rfl
    exact h.goOn hl rfl rfl rfl hcall.symm (wakeup_asleep m .nread) (fun _ _ _ => rfl) (fun _ => by simp) trivial
  | wRet v =>
    have hl : (m.pc p).locked = true := by rw [hpc]; rfl
    exact h.returns hl rfl rfl rfl fun _ => rfl
  | rLoop n =>
    have hl : (m.pc p).locked = true := by rw [hpc]; rfl
    have hcall : (m.pc p).call = .piperead := by rw [hpc]; rfl
    simp only [Pipe.exec]
    split
    · rename_i hempty
      split
      · refine goto_sound h hl rfl hcall.symm (fun _ => by simp) ?_
        intro _ hv
        cases hv
      · exact goto_sound h hl rfl hcall.symm (fun _ => by simp) hempty
    · rename_i hdata
      refine goto_sound h hl rfl hcall.symm (fun _ => by simp) fun _ => ?_
      by_cases hnw : m.nread = m.nwrite
      · exact .inr (by simpa [hnw] using hdata)
      · exact .inl hnw
  | rSleep n =>
    have hl : (m.pc p).locked = true := by rw [hpc]; rfl
    have hcall : (m.pc p).call = .piperead := by rw [hpc]; rfl
    refine h.letGo hl rfl rfl rfl (.inl hcall.symm) (fun q hq => update_of_ne hq _ _) ?_ fun _ => rfl
    intro ch hch
    simp only [Pipe.exec, Pipe.sleep, update_self, Option.some.injEq] at hch
    subst hch
    trivial
  | rWoken n =>
    refine h.acquire ha rfl ?_ (fun _ he => by cases he) trivial
    intro w hw
    exact h.inside p w (by rw [hpc]; exact hw)
  | rCopy i n =>
    have hl : (m.pc p).locked = true := by rw [hpc]; rfl
    have hcall : (m.pc p).call = .piperead := by rw [hpc]; rfl
    rw [hpc] at htest
    simp only [Pipe.exec]
    split
    · refine h.goOn hl rfl rfl rfl hcall.symm (fun _ => .inl rfl) (fun _ _ _ => rfl) (fun _ => by simp) ?_
      intro hi
      cases hi
    · rename_i hend
      refine goto_sound h hl rfl hcall.symm (fun _ => by simp) ?_
      intro hn hi
      -- the loop ended before its first byte, so the buffer is empty
      have hempty : m.nread = m.nwrite := by
        by_contra hne
        exact hend ⟨by rw [hi]; exact hn, hne⟩
      exact ⟨hempty, (htest hi).resolve_left fun hne => hne hempty⟩
  | rEnd i n =>
    have hl : (m.pc p).locked = true := by rw [hpc]; rfl
    have hcall : (m.pc p).call = .piperead := by rw [hpc]; rfl
    rw [hpc] at htest
    refine h.goOn hl rfl rfl rfl hcall.symm (wakeup_asleep m .nwrite) (fun _ _ _ => rfl) (fun _ => by simp) ?_
    intro hn hi
    exact htest hn (by exact_mod_cast hi)
  | rRet n v =>
    have hl : (m.pc p).locked = true := by rw [hpc]; rfl
    exact h.returns hl rfl rfl rfl fun _ => rfl
  | cOpen w =>
    have hl : (m.pc p).locked = true := by rw [hpc]; rfl
    have hcall : (m.pc p).call = .pipeclose := by rw [hpc]; rfl
    have hnobody := h.closer p w hpc
    cases w with
    | true =>
      refine h.goOn hl rfl rfl rfl hcall.symm (fun _ => .inl rfl) ?_ (fun _ => by simp) trivial
      intro w q hq
      cases w with
      | true => exact absurd hq (hnobody q)
      | false => rfl
    | false =>
      refine h.goOn hl rfl rfl rfl hcall.symm (fun _ => .inl rfl) ?_ (fun _ => by simp) trivial
      intro w q hq
      cases w with
      | true => rfl
      | false => exact absurd hq (hnobody q)
  | cWake w =>
    have hl : (m.pc p).locked = true := by rw [hpc]; rfl
    have hcall : (m.pc p).call = .pipeclose := by rw [hpc]; rfl
    exact h.goOn hl rfl rfl rfl hcall.symm (wakeup_asleep m _) (fun _ _ _ => rfl) (fun _ => by simp) trivial
  | cRet =>
    have hl : (m.pc p).locked = true := by rw [hpc]; rfl
    exact h.returns hl rfl rfl rfl fun _ => rfl

theorem pipeStep_sound (h : PipeSound m) (o : PipeOp N) : PipeSound (m.step o) := by
  have hout : ∀ p, m.pc p = .out → m.asleep p = none := by
    intro p hp
    cases ha : m.asleep p with
    | none => rfl
    | some ch =>
      have hs := h.sleeper p ch ha
      rw [hp] at hs
      cases ch <;> cases hs
  cases o with
  | pipewrite p n =>
    simp only [Pipe.step]
    split
    · rename_i hin
      refine h.acquire (hout p hin.1) rfl ?_ (fun _ he => by cases he) trivial
      intro w hw
      cases w with
      | true => exact hin.2
      | false => cases hw
    · exact h
  | piperead p n =>
    simp only [Pipe.step]
    split
    · rename_i hin
      refine h.acquire (hout p hin.1) rfl ?_ (fun _ he => by cases he) trivial
      intro w hw
      cases w with
      | true => cases hw
      | false => exact hin.2
    · exact h
  | pipeclose p writable =>
    simp only [Pipe.step]
    split
    · rename_i hin
      refine h.acquire (hout p hin.1) rfl ?_ ?_ trivial
      · intro w hw
        cases w <;> cases hw
      · intro w hw
        cases hw
        exact hin.2.2
    · exact h
  | go p c =>
    simp only [Pipe.step]
    split
    · rename_i ha
      exact pipeExec_sound h ha c
    · exact h
  | kill p =>
    refine ⟨h.owner, ?_, h.inside, h.closer, ?_⟩
    · intro q ch hch
      by_cases hqp : q = p
      · subst hqp
        simp [Pipe.step] at hch
      · exact h.sleeper q ch ((update_of_ne hqp _ _).symm.trans hch)
    · intro q
      have := h.tested q
      change Tested _ (m.pc q)
      cases hpc : m.pc q <;> rw [hpc] at this <;> exact this

theorem alloc_sound (data : ℕ → UInt8) : PipeSound (Pipe.alloc data : Pipe N) := by
  refine ⟨fun p => ?_, ?_, ?_, ?_, fun _ => trivial⟩
  · simp [Pipe.alloc, PipePc.locked]
  · intro p ch h
    cases h
  · intro p w h
    cases w <;> cases h
  · intro p w h
    cases h

end PipeSound

/-! ## The buffer -/

/-- the counters are those of the bytes stored and fetched, modulo 2^32, and the cells hold the bytes in between -/
structure Ring (m : Pipe N) (queue : List UInt8) : Prop where
  order : m.stored = m.fetched ++ queue
  room : queue.length ≤ PIPESIZE
  cells : RingHolds PIPESIZE m.data m.fetched.length queue
  nread : m.nread.toNat = m.fetched.length % 2 ^ 32
  nwrite : m.nwrite.toNat = m.stored.length % 2 ^ 32

section Ring

variable {m m' : Pipe N} {p : Fin N} {queue : List UInt8}

theorem Ring.length (h : Ring m queue) : m.stored.length = m.fetched.length + queue.length := by
  rw [h.order, List.length_append]

theorem toNat_succ {x : UInt32} {n : ℕ} (h : x.toNat = n % 2 ^ 32) : (x + 1).toNat = (n + 1) % 2 ^ 32 := by
  rw [UInt32.toNat_add, h]
  simp

theorem mod_pipesize (n : ℕ) : n % 2 ^ 32 % PIPESIZE = n % PIPESIZE := Nat.mod_mod_of_dvd n ⟨2 ^ 23, rfl⟩

/-- the test for an empty buffer -/
theorem Ring.empty_iff (h : Ring m queue) : m.nread = m.nwrite ↔ queue = [] := by
  have hroom : queue.length ≤ 512 := h.room
  rw [← UInt32.toNat_inj, h.nread, h.nwrite, mod_eq_iff (by rw [h.length]; omega) (by rw [h.length]; omega), h.length]
  simp

/-- the test for a full buffer -/
theorem Ring.full_iff (h : Ring m queue) : m.full ↔ queue.length = PIPESIZE := by
  have hroom : queue.length ≤ 512 := h.room
  have hadd : (m.nread + 512).toNat = (m.fetched.length + 512) % 2 ^ 32 := by
    rw [UInt32.toNat_add, h.nread]
    simp
  unfold Pipe.full
  rw [← UInt32.toNat_inj, h.nwrite, hadd, h.length, mod_eq_iff (by omega) (by omega), PIPESIZE]
  omega

/-- `nwrite - nread`, modulo 2^32, is the number of buffered bytes -/
theorem Ring.distance (h : Ring m queue) : (m.nwrite - m.nread).toNat = queue.length := by
  have hroom : queue.length ≤ 512 := h.room
  rw [UInt32.toNat_sub, h.nread, h.nwrite, h.length]
  omega

theorem Ring.store (h : Ring m queue) (hroom : ¬ m.full) (c : UInt8) : Ring (m.store p c) (queue ++ [c]) := by
  have hlt : queue.length < PIPESIZE := by
    rw [h.full_iff] at hroom
    exact lt_of_le_of_ne h.room hroom
  refine ⟨?_, ?_, ?_, h.nread, ?_⟩
  · simp only [Pipe.store]
    rw [h.order, List.append_assoc]
  · rw [List.length_append]
    exact hlt
  · have hidx : m.nwrite.toNat % PIPESIZE = (m.fetched.length + queue.length) % PIPESIZE := by
      rw [h.nwrite, mod_pipesize, h.length]
    simp only [Pipe.store]
    rw [hidx]
    exact h.cells.push hlt c
  · simp only [Pipe.store, List.length_append, List.length_singleton]
    exact toNat_succ h.nwrite

theorem Ring.fetch (h : Ring m queue) (hdata : m.nread ≠ m.nwrite) : Ring m.fetch queue.tail := by
  cases hq : queue with
  | nil => exact absurd (h.empty_iff.2 hq) hdata
  | cons c rest =>
    rw [hq] at h
    obtain ⟨hc, hrest⟩ := h.cells.pop
    have hbyte : m.data (m.nread.toNat % PIPESIZE) = c := by
      rw [h.nread, mod_pipesize]
      exact hc
    refine ⟨?_, ?_, ?_, ?_, h.nwrite⟩
    · simp only [Pipe.fetch, hbyte]
      rw [h.order]
      simp
    · exact (Nat.le_succ _).trans h.room
    · simp only [Pipe.fetch, List.length_append, List.length_singleton]
      exact hrest
    · simp only [Pipe.fetch, List.length_append, List.length_singleton]
      exact toNat_succ h.nread

/-- a step that leaves the buffer alone -/
theorem Ring.same (h : Ring m queue) (hs : m'.stored = m.stored) (hf : m'.fetched = m.fetched) (hd : m'.data = m.data)
    (hr : m'.nread = m.nread) (hw : m'.nwrite = m.nwrite) : Ring m' queue := by
  refine ⟨?_, h.room, ?_, ?_, ?_⟩
  · rw [hs, hf, h.order]
  · rw [hd, hf]
    exact h.cells
  · rw [hr, hf, h.nread]
  · rw [hw, hs, h.nwrite]

theorem acquire_ring (h : Ring m queue) (e : PipePc) : Ring (m.acquire p e) queue := by
  unfold Pipe.acquire
  split
  · exact h.same rfl rfl rfl rfl rfl
  · exact h

theorem exec_ring (h : Ring m queue) (c : UInt8) (e : PipePc) : ∃ q, Ring (m.exec p c e) q := by
  cases e with
  | out => exact ⟨queue, h⟩
  | wLoop i n =>
    simp only [Pipe.exec]
    split
    · split
      · split
        · exact ⟨queue, h.same rfl rfl rfl rfl rfl⟩
        · exact ⟨queue, h.same rfl rfl rfl rfl rfl⟩
      · rename_i hroom
        exact ⟨_, (h.store (p := p) hroom c).same rfl rfl rfl rfl rfl⟩
    · exact ⟨queue, h.same rfl rfl rfl rfl rfl⟩
  | rLoop n =>
    simp only [Pipe.exec]
    split
    · split
      · exact ⟨queue, h.same rfl rfl rfl rfl rfl⟩
      · exact ⟨queue, h.same rfl rfl rfl rfl rfl⟩
    · exact ⟨queue, h.same rfl rfl rfl rfl rfl⟩
  | rCopy i n =>
    simp only [Pipe.exec]
    split
    · rename_i hdata
      exact ⟨_, (h.fetch hdata.2).same rfl rfl rfl rfl rfl⟩
    · exact ⟨queue, h.same rfl rfl rfl rfl rfl⟩
  | wWoken | rWoken => exact ⟨queue, acquire_ring h _⟩
  | cOpen w =>
    cases w <;> exact ⟨queue, h.same rfl rfl rfl rfl rfl⟩
  | wWake | wSleep | wEnd | wRet | rSleep | rEnd | rRet | cWake | cRet => exact ⟨queue, h.same rfl rfl rfl rfl rfl⟩

theorem step_ring (h : Ring m queue) (o : PipeOp N) : ∃ q, Ring (m.step o) q := by
  cases o with
  | go p c =>
    simp only [Pipe.step]
    split
    · exact exec_ring h c _
    · exact ⟨queue, h⟩
  | kill p => exact ⟨queue, h.same rfl rfl rfl rfl rfl⟩
  | pipewrite | piperead | pipeclose =>
    simp only [Pipe.step]
    split
    · exact ⟨queue, acquire_ring h _⟩
    · exact ⟨queue, h⟩

theorem alloc_ring (data : ℕ → UInt8) : Ring (Pipe.alloc data : Pipe N) [] :=
  ⟨rfl, Nat.zero_le _, RingHolds.nil, rfl, rfl⟩

end Ring

/-- **A pipe delivers bytes in order, without loss or duplication**, in every run by any number of readers and writers:
`nwrite - nread` modulo 2^32 is at most PIPESIZE; the bytes fetched are a prefix of the bytes stored, and the rest are
the buffered ones; and when `piperead` with `n > 0` is about to return 0, the write end is closed and the buffer is empty. -/
theorem pipe_fifo (data : ℕ → UInt8) (ops : List (PipeOp N)) :
    let m : Pipe N := run Pipe.step (.alloc data) ops
    (m.nwrite - m.nread).toNat ≤ PIPESIZE ∧
      m.stored = m.fetched ++
        (List.range (m.nwrite - m.nread).toNat).map (fun i => m.data ((m.nread + UInt32.ofNat i).toNat % PIPESIZE)) ∧
      ∀ p n, m.pc p = .rRet n 0 → 0 < n → m.writeopen = false ∧ m.nread = m.nwrite := by
  intro m
  have hinv : PipeSound m ∧ ∃ q, Ring m q := by
    refine run_inv (I := fun m => PipeSound m ∧ ∃ q, Ring m q) ?_ ⟨alloc_sound data, [], alloc_ring data⟩ ops
    intro m o h
    obtain ⟨hs, q, hq⟩ := h
    exact ⟨pipeStep_sound hs o, step_ring hq o⟩
  obtain ⟨hs, queue, hq⟩ := hinv
  have hroom : queue.length ≤ 512 := hq.room
  refine ⟨by rw [hq.distance]; exact hq.room, ?_, ?_⟩
  · have hbuffered : queue = (List.range queue.length).map fun i =>
        m.data ((m.nread + UInt32.ofNat i).toNat % PIPESIZE) := by
      apply List.ext_getElem?
      intro i
      by_cases hi : i < queue.length
      · have hcell := hq.cells i _ (List.getElem?_eq_getElem hi)
        have hidx : (m.nread + UInt32.ofNat i).toNat % PIPESIZE = (m.fetched.length + i) % PIPESIZE := by
          rw [UInt32.toNat_add, hq.nread, ← mod_pipesize (m.fetched.length + i), UInt32.toNat_ofNat']
          congr 1
          omega
        rw [List.getElem?_eq_getElem hi, List.getElem?_map, List.getElem?_range hi, Option.map_some, hidx, hcell]
      · simp [hi]
    rw [hq.distance, ← hbuffered]
    exact hq.order
  · intro p n hp hn
    have ht := hs.tested p
    rw [hp] at ht
    exact (ht hn rfl).symm

end Xv6Threads.Kernel
