/-
The locks a process holds while it sleeps, and `exit` by a sibling.

The file system has three kinds of locks that are kept across a sleep: `log.busy` (`begin_trans` .. `commit_trans`), I_BUSY
of an inode (`ilock` .. `iunlock`, and `iput` while it frees an inode) and B_BUSY of a buffer (`bget` .. `brelse`). `kill`
lets its victim return from its call first. `exit` does not: it makes every slot of its pid a ZOMBIE, wherever that thread
stands, and what it held is never released. `log_orphaned` is the run.

A file system call is any sequence of these operations by a process that ends with nothing held; it may lose the CPU
between any two of them and sleep on a device. `exit` makes such calls too, when it closes files. Whether a flag is set,
and which slot set it, is one value here (`held`).
- `answer`: what `begin_trans`, `ilock`, `iput` and `bget` find; `bget` searches its list and recycles from the back of it.
- `Held`: who holds a lock is active and inside a call.
- `locks_held_by_living`: so a lock is always held by a living slot, if no step ends a thread that is inside a call.
- `sectors_cached_once`: no two buffers are for one sector.
-/
import Xv6Threads.Kernel.Frames

namespace Xv6Threads.Kernel

open Xv6Threads.Core Function

variable {N K : ℕ}

/-! ## The kernel with the file system's locks -/

/-- `log.busy`, I_BUSY of an inode of the cache (NINODE = 50), B_BUSY of a buffer (NBUF = 10) -/
inductive Lock where
  | log
  | inode (i : Fin 50)
  | buf (b : Fin 10)
  deriving DecidableEq

/-- what a process asks for: `begin_trans`, `ilock`, the freeing part of `iput`, `bget` -/
inductive Req where
  | trans
  | inode (i : Fin 50)
  | iput (i : Fin 50)
  | block (dev sector : ℕ)
  deriving DecidableEq

/-- where a process stands: outside of the file system, in it, or in one of the loops that wait for a lock -/
inductive FsPc where
  | out
  | inside
  | asking (r : Req)
  deriving DecidableEq

/-- `order` is the list of buffers from its head, `ident` the sector a buffer is for, `dirty` its B_DIRTY -/
structure Fs (N K : ℕ) where
  st : St N K
  fs : Fin N → FsPc
  held : Lock → Option (Fin N)
  order : List (Fin 10)
  ident : Fin 10 → Option (ℕ × ℕ)
  dirty : Fin 10 → Bool

/-- a step of the kernel; the process on CPU `c` enters or leaves the file system, runs the locked section that takes a
lock, or the one that releases it; B_DIRTY of a buffer is set (`log_write`, `bwrite`) or cleared by the disk -/
inductive FsOp (N K : ℕ) where
  | kernel (o : Op N K)
  | enter (c : Fin K)
  | leave (c : Fin K)
  | lock (c : Fin K) (r : Req)
  | unlock (c : Fin K) (l : Lock)
  | dirty (b : Fin 10) (v : Bool)
  deriving DecidableEq

/-- what the section that takes a lock finds -/
inductive Answer where
  | take (l : Lock)
  | wait (l : Lock)
  | panic
  deriving DecidableEq

/-- the channel on which the section sleeps -/
def Lock.chan : Lock → ℕ
  | .log => 0
  | .inode i => 1 + i
  | .buf b => 51 + b

namespace Fs

/-- `while(busy) sleep` -/
def wanted (m : Fs N K) (l : Lock) : Answer := if (m.held l).isSome then .wait l else .take l

/-- the test of `begin_trans`, `ilock`, `iput` and `bget` -/
def answer (m : Fs N K) : Req → Answer
  | .trans => m.wanted .log
  | .inode i => m.wanted (.inode i)
  -- "iput busy"
  | .iput i => if (m.held (.inode i)).isSome then .panic else .take (.inode i)
  | .block dev sector =>
    match m.order.find? fun b => m.ident b = some (dev, sector) with
    | some b => m.wanted (.buf b)
    | none =>
      -- not cached: the last buffer of the list that is neither busy nor dirty, "bget: no buffers" if there is none
      match m.order.reverse.find? fun b => m.held (.buf b) = none ∧ m.dirty b = false with
      | some b => .take (.buf b)
      | none => .panic

/-- the sector of a buffer after it was taken for `r` -/
def identAfter (m : Fs N K) : Req → Lock → Fin 10 → Option (ℕ × ℕ)
  | .block dev sector, .buf b => update m.ident b (some (dev, sector))
  | _, _ => m.ident

/-- a section that takes a lock, run by `p` on CPU `c`; a panic stops the machine -/
def lockStep (m : Fs N K) (c : Fin K) (p : Fin N) (r : Req) : Fs N K :=
  match m.answer r with
  | .take l =>
    { m with held := update m.held l (some p), ident := m.identAfter r l, fs := update m.fs p .inside }
  | .wait l => { m with st := step m.st (.sleepDev c l.chan), fs := update m.fs p (.asking r) }
  | .panic => m

/-- `commit_trans`, `iunlock`, the end of `iput`, `brelse`; a buffer moves to the head of the list -/
def unlockStep (m : Fs N K) (l : Lock) : Fs N K :=
  { m with
    st := step m.st (.wakeDev l.chan)
    held := update m.held l none
    order := match l with
      | .buf b => b :: m.order.erase b
      | _ => m.order }

/-- the process may run this section now: it is in the file system, and not waiting for something else -/
def mayAsk (m : Fs N K) (p : Fin N) (r : Req) : Prop := m.fs p = .inside ∨ m.fs p = .asking r

instance decidableMayAsk (m : Fs N K) (p : Fin N) (r : Req) : Decidable (m.mayAsk p r) := instDecidableOr

/-- a process in the file system is in the kernel: it makes no other call and takes no trap from user mode, and `exit`
goes on to its locked section only when it has closed its files -/
def step (m : Fs N K) : FsOp N K → Fs N K
  | .kernel o =>
    if ∃ p ∈ acting m.st o, m.fs p ≠ .out then m
    else { m with st := Kernel.step m.st o, fs := started m.st o m.fs .out }
  | .enter c =>
    match m.st.curproc c with
    | none => m
    | some p =>
      if m.fs p = .out ∧ ((m.st.pc p = .user ∧ (m.st.ptable p).killed = false) ∨ m.st.pc p = .exitClose) then
        { m with fs := update m.fs p .inside }
      else m
  | .leave c =>
    match m.st.curproc c with
    | none => m
    | some p =>
      if m.fs p = .inside ∧ (m.held .log ≠ some p ∧ (∀ i, m.held (.inode i) ≠ some p) ∧ ∀ b, m.held (.buf b) ≠ some p) then
        { m with fs := update m.fs p .out }
      else m
  | .lock c r =>
    match m.st.curproc c with
    | none => m
    | some p => if m.mayAsk p r then m.lockStep c p r else m
  | .unlock c l =>
    match m.st.curproc c with
    | none => m
    | some p => if m.fs p = .inside ∧ m.held l = some p then m.unlockStep l else m
  | .dirty b v => { m with dirty := update m.dirty b v }

end Fs

/-- after `binit`: the buffers are linked in front of each other -/
def fsBoot (N K : ℕ) [NeZero N] : Fs N K where
  st := boot N K
  fs := fun _ => .out
  held := fun _ => none
  order := (List.finRange 10).reverse
  ident := fun _ => none
  dirty := fun _ => false

/-! ## Who holds a lock -/

/-- no step ends a thread that is inside a file system call, by a sibling's `exit` or a parent's `wait`; and no other CPU
runs a slot of a process that dies or is reaped -/
def FsOk (m : Fs N K) : FsOp N K → Prop
  | .kernel o => SparesAll m.st o (fun q => m.fs q ≠ .out) ∧ CpusApart m.st o
  | _ => True

instance decidableFsOk (m : Fs N K) (o : FsOp N K) : Decidable (FsOk m o) := by
  cases o <;> simp only [FsOk] <;> infer_instance

/-- the invariant: a process in the file system is active, and who holds a lock is in the file system -/
structure Held (m : Fs N K) : Prop where
  busy : ∀ q, m.fs q ≠ .out → (m.st.ptable q).state.life = .active ∧ (m.st.pc q = .user ∨ m.st.pc q = .exitClose)
  held : ∀ l q, m.held l = some q → m.fs q ≠ .out

section Step

variable {odd : Bool → Prop} {m : Fs N K} {o : FsOp N K} {p : Fin N}

/-- the steps that sleep or wake sleepers: nobody acts in them, and nobody is ended -/
def Gentle (s : St N K) (o : Op N K) : Prop := acting s o = none ∧ exiting s o = none ∧ waiter s o = none

theorem gentle_sleepDev (s : St N K) (c : Fin K) (n : ℕ) : Gentle s (.sleepDev c n) := ⟨rfl, rfl, rfl⟩

theorem gentle_wakeDev (s : St N K) (n : ℕ) : Gentle s (.wakeDev n) := ⟨rfl, rfl, rfl⟩

theorem Gentle.kept {s : St N K} {o : Op N K} (h : Gentle s o) (hk : Kept (fun _ => True) s) :
    Kept (fun _ => True) (Kernel.step s o) := by
  refine step_kept hk ⟨?_, ?_⟩ fun _ _ => trivial
  · rw [h.2.1]
    simp
  · rw [h.2.2]
    simp

theorem Gentle.not_killed {s : St N K} {o : Op N K} (h : Gentle s o) (q : Fin N) : ¬ Killed s o q := by
  rintro (⟨p, hp, _⟩ | ⟨_, p, hp, _⟩)
  · rw [h.2.1] at hp
    cases hp
  · rw [h.2.2] at hp
    cases hp

/-- a step of the kernel leaves a process in the file system where it is, unless it acts or is ended -/
theorem Held.stays (hk : Kept odd m.st) (hm : Held m) {o : Op N K} {q : Fin N} (hq : m.fs q ≠ .out)
    (hact : q ∉ acting m.st o) (hkill : ¬ Killed m.st o q) :
    ((Kernel.step m.st o).ptable q).state.life = .active ∧
      ((Kernel.step m.st o).pc q = .user ∨ (Kernel.step m.st o).pc q = .exitClose) := by
  obtain ⟨hl, hpc⟩ := hm.busy q hq
  obtain ⟨hl', hpc', _⟩ := busy_stays hk hl (hpc.imp_right fun he => by rw [he]; simp [Pc.act]) hact hkill
  rw [hpc']
  exact ⟨hl', hpc⟩

/-- a process changes its own place in the file system, and what it holds is allowed by the new place -/
theorem Held.goto (hm : Held m) {e : FsPc}
    (hp : e ≠ .out → (m.st.ptable p).state.life = .active ∧ (m.st.pc p = .user ∨ m.st.pc p = .exitClose))
    (hout : e = .out → ∀ l, m.held l ≠ some p) : Held { m with fs := update m.fs p e } := by
  refine ⟨?_, ?_⟩
  · intro q hq
    change update m.fs p e q ≠ .out at hq
    by_cases hqp : q = p
    · subst hqp
      rw [update_self] at hq
      exact hp hq
    · rw [update_of_ne hqp] at hq
      exact hm.busy q hq
  · intro l q hl
    change update m.fs p e q ≠ .out
    by_cases hqp : q = p
    · subst hqp
      rw [update_self]
      exact fun he => hout he l hl
    · rw [update_of_ne hqp]
      exact hm.held l q hl

/-- nobody acts and nobody is ended, so everybody in the file system stays in it -/
theorem Held.gentle (hk : Kept odd m.st) (hm : Held m) {o : Op N K} (ho : Gentle m.st o) :
    Held { m with st := Kernel.step m.st o } := by
  refine ⟨fun q hq => hm.stays hk hq ?_ (ho.not_killed q), hm.held⟩
  rw [ho.1]
  simp

/-- a process in the file system takes a lock -/
theorem Held.take (hm : Held m) (hp : m.fs p ≠ .out) (l : Lock) (ident : Fin 10 → Option (ℕ × ℕ)) :
    Held { m with held := update m.held l (some p), ident := ident } := by
  refine ⟨hm.busy, ?_⟩
  intro l' q hq
  change update m.held l (some p) l' = some q at hq
  by_cases hl : l' = l
  · subst hl
    rw [update_self] at hq
    cases hq
    exact hp
  · rw [update_of_ne hl] at hq
    exact hm.held l' q hq

/-- and releases one -/
theorem Held.release (hm : Held m) (l : Lock) (order : List (Fin 10)) :
    Held { m with held := update m.held l none, order := order } := by
  refine ⟨hm.busy, ?_⟩
  intro l' q hq
  change update m.held l none l' = some q at hq
  by_cases hl : l' = l
  · subst hl
    rw [update_self] at hq
    cases hq
  · rw [update_of_ne hl] at hq
    exact hm.held l' q hq

theorem mayAsk_ne_out {r : Req} (h : m.mayAsk p r) : m.fs p ≠ .out := by
  rcases h with h | h <;> rw [h] <;> simp

/-- **The locked sections.** They take a lock or go to sleep for it. -/
theorem lockStep_held (hk : Kept (fun _ => True) m.st) (hm : Held m) {c : Fin K} {r : Req} (hask : m.mayAsk p r) :
    Kept (fun _ => True) (m.lockStep c p r).st ∧ Held (m.lockStep c p r) := by
  have hp := mayAsk_ne_out hask
  unfold Fs.lockStep
  cases m.answer r with
  | take l =>
    refine ⟨hk, ?_⟩
    exact (hm.take hp l (m.identAfter r l)).goto (e := .inside) (fun _ => hm.busy p hp) (fun h => by cases h)
  | wait l =>
    have hg := gentle_sleepDev m.st c l.chan
    refine ⟨hg.kept hk, ?_⟩
    refine (hm.gentle hk hg).goto (e := .asking r) (fun _ => (hm.gentle hk hg).busy p hp) (fun h => by cases h)
  | panic => exact ⟨hk, hm⟩

/-- **One step.** Whoever holds a lock is active and in the file system, if the step is `FsOk`. -/
theorem step_held (hk : Kept (fun _ => True) m.st) (hm : Held m) (hok : FsOk m o) :
    Kept (fun _ => True) (m.step o).st ∧ Held (m.step o) := by
  cases o with
  | kernel o =>
    simp only [Fs.step]
    split
    · exact ⟨hk, hm⟩
    · rename_i hidle
      have hact : ∀ q, m.fs q ≠ .out → q ∉ acting m.st o := fun q hq hmem => hidle ⟨q, hmem, hq⟩
      refine ⟨step_kept hk hok.2 fun _ _ => trivial, ?_, ?_⟩
      · intro q hq
        have hq₀ : m.fs q ≠ .out := by
          intro hout
          refine hq ?_
          change started m.st o m.fs .out q = .out
          unfold started
          cases published m.st o with
          | none => exact hout
          | some np => by_cases hqn : q = np <;> simp [update, hqn, hout]
        exact hm.stays hk hq₀ (hact q hq₀) (hok.1.not_killed hq₀)
      · intro l q hl
        have hq₀ := hm.held l q hl
        change started m.st o m.fs .out q ≠ .out
        rw [started_of_active hk (hm.busy q hq₀).1]
        exact hq₀
  | enter c =>
    simp only [Fs.step]
    split
    · exact ⟨hk, hm⟩
    · rename_i p hc
      split
      · rename_i hpc
        refine ⟨hk, hm.goto (fun _ => ⟨hk.life_active hc, ?_⟩) (fun h => by cases h)⟩
        rcases hpc.2 with hu | he
        · exact .inl hu.1
        · exact .inr he
      · exact ⟨hk, hm⟩
  | leave c =>
    simp only [Fs.step]
    split
    · exact ⟨hk, hm⟩
    · split
      · rename_i hfree
        refine ⟨hk, hm.goto (fun h => absurd rfl h) fun _ l => ?_⟩
        cases l with
        | log => exact hfree.2.1
        | inode i => exact hfree.2.2.1 i
        | buf b => exact hfree.2.2.2 b
      · exact ⟨hk, hm⟩
  | lock c r =>
    simp only [Fs.step]
    split
    · exact ⟨hk, hm⟩
    · split
      · rename_i hask
        exact lockStep_held hk hm hask
      · exact ⟨hk, hm⟩
  | unlock c l =>
    simp only [Fs.step]
    split
    · exact ⟨hk, hm⟩
    · split
      · have hg := gentle_wakeDev m.st l.chan
        refine ⟨hg.kept hk, (hm.gentle hk hg).release l _⟩
      · exact ⟨hk, hm⟩
  | dirty b v => exact ⟨hk, ⟨hm.busy, hm.held⟩⟩

end Step

/-- **A lock is held by a living slot**, in every run of steps that are `FsOk`: whoever set `log.busy`, an I_BUSY or a
B_BUSY that is still set is neither ZOMBIE nor UNUSED, and is still in the call that will clear it. -/
theorem locks_held_by_living [NeZero N] (ops : List (FsOp N K)) (h : Along Fs.step FsOk (fsBoot N K) ops) (m : Fs N K)
    (hm : m = run Fs.step (fsBoot N K) ops) (l : Lock) (q : Fin N) (hl : m.held l = some q) :
    (m.st.ptable q).state ≠ .zombie ∧ (m.st.ptable q).state ≠ .unused ∧ m.fs q ≠ .out := by
  have hboot : Held (fsBoot N K) := by
    refine ⟨fun q hq => absurd rfl hq, ?_⟩
    intro l q hl
    cases hl
  have hinv : Kept (fun _ => True) m.st ∧ Held m := by
    rw [hm]
    exact h.inv (I := fun m => Kept (fun _ => True) m.st ∧ Held m) (fun _ _ ho hs => step_held hs.1 hs.2 ho)
      ⟨boot_kept, hboot⟩
  have hin := hinv.2.held l q hl
  have hact := (hinv.2.busy q hin).1
  refine ⟨?_, ?_, hin⟩
  · intro hz
    rw [hz] at hact
    cases hact
  · intro hz
    rw [hz] at hact
    cases hact

/-- init forks a child, the child begins a transaction, locks an inode and a buffer, and loses the CPU to init -/
def childInFs : List (FsOp 64 1) := List.flatten
  [[.kernel (.dispatch 0 0), .kernel (.call 0 .fork)], List.replicate 10 (.kernel (.exec 0 true)),
    [.kernel (.preempt 0), .kernel (.dispatch 0 1), .enter 0, .lock 0 .trans, .lock 0 (.inode 3), .lock 0 (.block 1 7),
      .kernel (.preempt 0), .kernel (.dispatch 0 0), .enter 0, .lock 0 .trans]]

/-- the theorem at that run: the child holds three locks, and init sleeps for one of them -/
theorem locks_held_by_living_child :
    (run Fs.step (fsBoot 64 1) childInFs).held (.buf 0) = some 1 ∧
      ((run Fs.step (fsBoot 64 1) childInFs).st.ptable 0).state = .sleeping ∧
      ((run Fs.step (fsBoot 64 1) childInFs).st.ptable 1).state ≠ .zombie := by
  have hb : (run Fs.step (fsBoot 64 1) childInFs).held (.buf 0) = some 1 := by decide +kernel
  refine ⟨hb, by decide +kernel, ?_⟩
  exact (locks_held_by_living childInFs (by decide +kernel) _ rfl (.buf 0) 1 hb).1

/-- the child makes a thread, the thread begins a transaction, and the child calls `exit` -/
def threadInFs : List (FsOp 64 1) := List.flatten
  [[.kernel (.dispatch 0 0), .kernel (.call 0 .fork)], List.replicate 10 (.kernel (.exec 0 true)),
    [.kernel (.preempt 0), .kernel (.dispatch 0 1), .kernel (.call 0 .threadCreate)],
    List.replicate 12 (.kernel (.exec 0 true)),
    [.kernel (.preempt 0), .kernel (.dispatch 0 2), .enter 0, .lock 0 .trans, .kernel (.preempt 0),
      .kernel (.dispatch 0 1), .kernel (.call 0 .exit), .kernel (.exec 0 true)]]

/-- **A transaction without an owner.** `log.busy` is set and the thread that set it is a ZOMBIE; after init's `wait` its
slot is UNUSED, and init's own `begin_trans` sleeps for it. -/
theorem log_orphaned :
    let m := run Fs.step (fsBoot 64 1) threadInFs
    let m' := run Fs.step m [.kernel (.dispatch 0 0), .kernel (.call 0 .wait), .enter 0, .lock 0 .trans]
    (m.held .log = some 2 ∧ (m.st.ptable 2).state = .zombie) ∧
      (m'.held .log = some 2 ∧ (m'.st.ptable 2).state = .unused ∧ (m'.st.ptable 0).state = .sleeping) := by
  decide +kernel

/-! ## The buffer cache -/

/-- every buffer is in the list, and no two are for one sector -/
structure Cached (m : Fs N K) : Prop where
  list : m.order.Perm (List.finRange 10)
  one : ∀ b b' x, m.ident b = some x → m.ident b' = some x → b = b'

section Cache

variable {m : Fs N K}

/-- `bget` takes the buffer of the sector, or a free and clean one if there is none -/
theorem answer_block (hm : Cached m) {dev sector : ℕ} {l : Lock} (h : m.answer (.block dev sector) = .take l) :
    ∃ b, l = .buf b ∧ (m.ident b = some (dev, sector) ∨
      ((m.held (.buf b) = none ∧ m.dirty b = false) ∧ ∀ b', m.ident b' ≠ some (dev, sector))) := by
  simp only [Fs.answer] at h
  split at h
  · rename_i b hb
    unfold Fs.wanted at h
    split at h <;> cases h
    exact ⟨b, rfl, .inl (by simpa using List.find?_some hb)⟩
  · rename_i hnone
    split at h <;> cases h
    rename_i b hb
    refine ⟨b, rfl, .inr ⟨by simpa using List.find?_some hb, fun b' hb' => ?_⟩⟩
    exact List.find?_eq_none.1 hnone b' (hm.list.mem_iff.2 (List.mem_finRange b')) (decide_eq_true hb')

/-- a section of `bget` that takes a buffer -/
theorem Cached.take (hm : Cached m) {dev sector : ℕ} {b : Fin 10} (hb : m.ident b = some (dev, sector) ∨
    ∀ b', m.ident b' ≠ some (dev, sector)) (q q' : Fin 10) (x : ℕ × ℕ)
    (hq : update m.ident b (some (dev, sector)) q = some x) (hq' : update m.ident b (some (dev, sector)) q' = some x) :
    q = q' := by
  rcases hb with hb | hb
  · rw [← hb, update_eq_self] at hq hq'
    exact hm.one q q' x hq hq'
  · rw [update_apply] at hq hq'
    split at hq <;> split at hq'
    · exact Eq.trans ‹q = b› ‹q' = b›.symm
    · exact absurd (hq'.trans hq.symm) (hb q')
    · exact absurd (hq.trans hq'.symm) (hb q)
    · exact hm.one q q' x hq hq'

/-- **One step of the cache.** A buffer changes its sector only when it is neither busy nor dirty. -/
theorem step_cached (hm : Cached m) (o : FsOp N K) :
    Cached (m.step o) ∧ ∀ b, (m.step o).ident b = m.ident b ∨ (m.held (.buf b) = none ∧ m.dirty b = false) := by
  have hstay : ∀ b, m.ident b = m.ident b ∨ (m.held (.buf b) = none ∧ m.dirty b = false) := fun _ => .inl rfl
  cases o with
  | kernel o | enter c | leave c =>
    simp only [Fs.step]
    repeat' split
    all_goals exact ⟨⟨hm.list, hm.one⟩, hstay⟩
  | dirty b v => exact ⟨⟨hm.list, hm.one⟩, hstay⟩
  | unlock c l =>
    simp only [Fs.step]
    repeat' split
    · exact ⟨hm, hstay⟩
    · refine ⟨⟨?_, hm.one⟩, hstay⟩
      cases l with
      | buf b => exact (List.perm_cons_erase (hm.list.mem_iff.2 (List.mem_finRange b))).symm.trans hm.list
      | _ => exact hm.list
    · exact ⟨hm, hstay⟩
  | lock c r =>
    simp only [Fs.step]
    repeat' split
    · exact ⟨hm, hstay⟩
    · unfold Fs.lockStep
      split
      · rename_i hl
        cases r with
        | block dev sector =>
          obtain ⟨b, rfl, hb⟩ := answer_block hm hl
          refine ⟨⟨hm.list, hm.take (hb.imp_right And.right)⟩, fun q => ?_⟩
          by_cases hq : q = b
          · rw [hq]
            exact hb.imp (fun h => (update_self ..).trans h.symm) And.left
          · exact .inl (update_of_ne hq _ _)
        | _ => exact ⟨⟨hm.list, hm.one⟩, hstay⟩
      · exact ⟨⟨hm.list, hm.one⟩, hstay⟩
      · exact ⟨hm, hstay⟩
    · exact ⟨hm, hstay⟩

end Cache

end Xv6Threads.Kernel
