/-
The user-level counting semaphore of semaphore.c: a counter `value`, a lock `s1` and a gate `s2`, both kernel binary
semaphores. The two binary semaphores are 0/1 cells here: `down` is enabled only at 1, `up` stores 1.

Every statement of `semaphore_down` and `semaphore_up` is one step; any number of threads (any finite type `T`) run
them in any interleaving and call them as often as they like. A thread that stands at a statement it cannot run yet (a
`binary_semaphore_down` on a cell that is 0) stays there. The C `int` counter is an unbounded integer.

The abstract level is the atomic counting semaphore of `Core.Counting`: the executed `value--` and `value++`, in
order, are its operations (`hist`).

Results:
- `SemInv`: the lock is a token (in `s1`, or with one thread), and so is the gate while `value` is positive.
- `SemInv.exec`: every statement keeps it; `SemInv.call`: so does entering either function.
- `semaphore_refines_counting`: the executed decrements and increments are a legal history of the atomic counting
  semaphore, `value` is its value, no `binary_semaphore_up(s2)` runs while `s2` is 1, and the gate is open when
  `value` is positive and nobody is past the first statement of either function.
-/
import Xv6Threads.Core.Runs
import Xv6Threads.Core.Tally
import Xv6Threads.Core.Counting

namespace Xv6Threads.Semaphore

open Xv6Threads.Core Function

/-! ## Model -/

/-- `binary_semaphore_down` on a 0/1 cell: enabled only at 1 -/
def binarySemaphoreDown (c : ℤ) : Option ℤ := if c = 1 then some 0 else none

/-- `binary_semaphore_up` on a 0/1 cell -/
def binarySemaphoreUp (_c : ℤ) : ℤ := 1

/-- `struct semaphore` (less its name), with the history of executed `value--` and `value++` -/
structure Sem where
  value : ℤ
  s1 : ℤ
  s2 : ℤ
  hist : List CountOp
deriving DecidableEq, Repr

/-- `semaphore_create`: the lock is free, and the gate is open unless the initial value is below 1 -/
def semaphoreCreate (initial_semaphore_value : ℤ) : Sem :=
  let min := if initial_semaphore_value < 1 then initial_semaphore_value else 1
  { value := initial_semaphore_value, s1 := 1, s2 := min, hist := [] }

/-- the statements of `semaphore_down`; a thread's control point names the one it runs next -/
inductive DownPc where
  | takeGate
  | takeLock
  | decr
  | test
  | giveGate
  | giveLock
deriving DecidableEq, Repr

/-- the statements of `semaphore_up` -/
inductive UpPc where
  | takeLock
  | incr
  | test
  | giveGate
  | giveLock
deriving DecidableEq, Repr

/-- where a thread is with respect to one semaphore -/
inductive SemPc where
  | out
  | down (c : DownPc)
  | up (c : UpPc)
deriving DecidableEq, Repr

/-- one statement of `semaphore_down`: the semaphore after it and the next control point; `none` if it blocks -/
def semaphoreDown (sem : Sem) : DownPc → Option (Sem × SemPc)
  | .takeGate => (binarySemaphoreDown sem.s2).map fun c => ({ sem with s2 := c }, .down .takeLock)
  | .takeLock => (binarySemaphoreDown sem.s1).map fun c => ({ sem with s1 := c }, .down .decr)
  | .decr => some ({ sem with value := sem.value - 1, hist := sem.hist ++ [.down] }, .down .test)
  | .test => some (sem, if sem.value > 0 then .down .giveGate else .down .giveLock)
  | .giveGate => some ({ sem with s2 := binarySemaphoreUp sem.s2 }, .down .giveLock)
  | .giveLock => some ({ sem with s1 := binarySemaphoreUp sem.s1 }, .out)

/-- one statement of `semaphore_up` -/
def semaphoreUp (sem : Sem) : UpPc → Option (Sem × SemPc)
  | .takeLock => (binarySemaphoreDown sem.s1).map fun c => ({ sem with s1 := c }, .up .incr)
  | .incr => some ({ sem with value := sem.value + 1, hist := sem.hist ++ [.up] }, .up .test)
  | .test => some (sem, if sem.value = 1 then .up .giveGate else .up .giveLock)
  | .giveGate => some ({ sem with s2 := binarySemaphoreUp sem.s2 }, .up .giveLock)
  | .giveLock => some ({ sem with s1 := binarySemaphoreUp sem.s1 }, .out)

/-- the next statement of a thread inside the semaphore's code -/
def semExec (sem : Sem) : SemPc → Option (Sem × SemPc)
  | .out => none
  | .down c => semaphoreDown sem c
  | .up c => semaphoreUp sem c

/-- the first statement of each function -/
def entry : CountOp → SemPc
  | .down => .down .takeGate
  | .up => .up .takeLock

/-- one semaphore and its threads -/
structure St (T : Type) where
  sem : Sem
  pc : T → SemPc

inductive Op (T : Type) where
  | call (t : T) (f : CountOp)
  | exec (t : T)
deriving DecidableEq, Repr

variable {T : Type} [DecidableEq T]

def step (s : St T) : Op T → St T
  | .call t f => if s.pc t = .out then { s with pc := update s.pc t (entry f) } else s
  | .exec t =>
    match semExec s.sem (s.pc t) with
    | none => s
    | some (m, c) => { sem := m, pc := update s.pc t c }

def init (k : ℤ) : St T := { sem := semaphoreCreate k, pc := fun _ => .out }

/-! ## The invariant -/

/-- 1 between taking the lock `s1` and giving it back -/
def locking : SemPc → ℤ
  | .down .decr | .down .test | .down .giveGate | .down .giveLock => 1
  | .up .incr | .up .test | .up .giveGate | .up .giveLock => 1
  | _ => 0

/-- 1 where a thread carries the gate: it took `s2` and has not decremented yet, or it is about to open it again -/
def gating (value : ℤ) : SemPc → ℤ
  | .down .takeLock | .down .decr | .down .giveGate | .up .giveGate => 1
  | .down .test => if value > 0 then 1 else 0
  | .up .test => if value = 1 then 1 else 0
  | _ => 0

theorem locking_nonneg (c : SemPc) : 0 ≤ locking c := by
  unfold locking; split <;> simp

theorem gating_nonneg (v : ℤ) (c : SemPc) : 0 ≤ gating v c := by
  unfold gating; split <;> (try split_ifs) <;> simp

/-- outside the lock the gate weight does not depend on `value` -/
theorem gating_of_unlocked {c : SemPc} (h : locking c = 0) (v v' : ℤ) : gating v c = gating v' c := by
  cases c with
  | out => rfl
  | down c => cases c <;> simp_all [locking, gating]
  | up c => cases c <;> simp_all [locking, gating]

/-- what holds between statements: the lock token, the gate token, and the history of the counter -/
structure SemInv [Fintype T] (k : ℤ) (m : Sem) (pc : T → SemPc) : Prop where
  lock_nonneg : 0 ≤ m.s1
  lock : m.s1 + tally locking pc = 1
  gate_nonneg : 0 ≤ m.s2
  gate : m.s2 + tally (gating m.value) pc = if m.value > 0 then 1 else 0
  nonneg : 0 ≤ m.value
  legal : Legal k m.hist m.value

variable [Fintype T] {k : ℤ} {m m' : Sem} {pc : T → SemPc} {t : T} {c : SemPc}

omit [DecidableEq T] in
theorem seminv_init {k : ℤ} (hk : 0 ≤ k) : SemInv k (semaphoreCreate k) (fun _ : T => SemPc.out) := by
  have h1 : tally locking (fun _ : T => SemPc.out) = 0 := tally_eq_zero fun _ => rfl
  have h2 : tally (gating k) (fun _ : T => SemPc.out) = 0 := tally_eq_zero fun _ => rfl
  refine ⟨by simp [semaphoreCreate], ?_, ?_, ?_, hk, legal_nil k⟩
  · simp [semaphoreCreate, h1]
  · simp only [semaphoreCreate]; split_ifs <;> omega
  · simp only [semaphoreCreate, h2]; split_ifs <;> omega

/-- with the lock in hand, no other thread is inside it -/
theorem SemInv.others_unlocked (h : SemInv k m pc) (ht : locking (pc t) = 1) : ∀ i, i ≠ t → locking (pc i) = 0 := by
  have hl := h.lock
  rw [tally_split locking pc t, ht] at hl
  have := others_nonneg locking_nonneg pc t
  have := h.lock_nonneg
  exact others_eq_zero locking_nonneg (by omega)

/-- **One move of one thread.** The invariant survives when the thread's weights balance the cells, `value` changes
only with the lock in hand, and the history stays legal. -/
theorem SemInv.move (h : SemInv k m pc) (hval : m'.value = m.value ∨ locking (pc t) = 1)
    (hlock : m'.s1 + locking c = m.s1 + locking (pc t)) (hs1 : 0 ≤ m'.s1) (hs2 : 0 ≤ m'.s2)
    (hgate : m'.s2 + gating m'.value c + (if m.value > 0 then 1 else 0) =
      m.s2 + gating m.value (pc t) + (if m'.value > 0 then 1 else 0))
    (hnn : 0 ≤ m'.value) (hleg : Legal k m'.hist m'.value) : SemInv k m' (update pc t c) := by
  have hl := h.lock
  have hg := h.gate
  rw [tally_split locking pc t] at hl
  rw [tally_split (gating m.value) pc t] at hg
  have hrest : others (gating m'.value) pc t = others (gating m.value) pc t := by
    rcases hval with hv | hv
    · rw [hv]
    · exact others_congr fun i hi => gating_of_unlocked (h.others_unlocked hv i hi) _ _
  refine ⟨hs1, ?_, hs2, ?_, hnn, hleg⟩
  · rw [tally_update]; omega
  · rw [tally_update, hrest]; omega

/-- a thread that carries the gate: it is closed, `value` is positive, and nobody else carries it -/
theorem SemInv.carried (h : SemInv k m pc) (ht : gating m.value (pc t) = 1) : m.s2 = 0 ∧ m.value > 0 := by
  have hg := h.gate
  rw [tally_split (gating m.value) pc t, ht] at hg
  have := others_nonneg (gating_nonneg m.value) pc t
  have := h.gate_nonneg
  split_ifs at hg with hv <;> omega

/-- a thread inside the lock: it is taken -/
theorem SemInv.locked (h : SemInv k m pc) (ht : locking (pc t) = 1) : m.s1 = 0 := by
  have hl := h.lock
  rw [tally_split locking pc t, ht] at hl
  have := others_nonneg locking_nonneg pc t
  have := h.lock_nonneg
  omega

theorem SemInv.call (h : SemInv k m pc) (ht : pc t = .out) (f : CountOp) :
    SemInv k m (update pc t (entry f)) := by
  cases f <;> exact h.move (Or.inl rfl) (by simp [ht, entry, locking]) h.lock_nonneg h.gate_nonneg
    (by simp [ht, entry, gating]) h.nonneg h.legal

theorem binarySemaphoreDown_some {c c' : ℤ} (h : binarySemaphoreDown c = some c') : c = 1 ∧ c' = 0 := by
  simp only [binarySemaphoreDown, Option.ite_none_right_eq_some, Option.some.injEq] at h
  exact ⟨h.1, h.2.symm⟩

theorem SemInv.semaphoreDown (h : SemInv k m pc) {d : DownPc} (ht : pc t = .down d)
    (he : semaphoreDown m d = some (m', c)) : SemInv k m' (update pc t c) := by
  have h1 := h.lock_nonneg
  have h2 := h.gate_nonneg
  have hv := h.nonneg
  cases d with
  | takeGate =>
    obtain ⟨x, hx, he⟩ := Option.map_eq_some_iff.1 he
    obtain ⟨h21, rfl⟩ := binarySemaphoreDown_some hx
    cases he
    exact h.move (Or.inl rfl) (by simp [ht, locking]) h1 le_rfl (by simp [ht, gating, h21]) hv h.legal
  | takeLock =>
    obtain ⟨x, hx, he⟩ := Option.map_eq_some_iff.1 he
    obtain ⟨h11, rfl⟩ := binarySemaphoreDown_some hx
    cases he
    exact h.move (Or.inl rfl) (by simp [ht, locking, h11]) le_rfl h2 (by simp [ht, gating]) hv h.legal
  | decr =>
    cases he
    -- the thread carries the gate, so the counter is positive: the atomic `down` is enabled
    obtain ⟨h20, hpos⟩ := h.carried (t := t) (by simp [ht, gating])
    refine h.move (Or.inr (by simp [ht, locking])) (by simp [ht, locking]) h1 h2 ?_ ?_ (h.legal.down hpos)
    · simp only [ht, gating, h20, if_pos hpos]; split_ifs <;> omega
    · simp only; omega
  | test =>
    cases he
    refine h.move (Or.inl rfl) ?_ h1 h2 ?_ hv h.legal
    · split_ifs <;> simp [ht, locking]
    · split_ifs with hp <;> simp [ht, gating, hp]
  | giveGate =>
    cases he
    obtain ⟨h20, hpos⟩ := h.carried (t := t) (by simp [ht, gating])
    exact h.move (Or.inl rfl) (by simp [ht, locking]) h1 (by simp [binarySemaphoreUp])
      (by simp [ht, gating, binarySemaphoreUp, h20]) hv h.legal
  | giveLock =>
    cases he
    have h10 := h.locked (t := t) (by simp [ht, locking])
    exact h.move (Or.inl rfl) (by simp [ht, locking, binarySemaphoreUp, h10]) (by simp [binarySemaphoreUp]) h2
      (by simp [ht, gating]) hv h.legal

theorem SemInv.semaphoreUp (h : SemInv k m pc) {u : UpPc} (ht : pc t = .up u)
    (he : semaphoreUp m u = some (m', c)) : SemInv k m' (update pc t c) := by
  have h1 := h.lock_nonneg
  have h2 := h.gate_nonneg
  have hv := h.nonneg
  cases u with
  | takeLock =>
    obtain ⟨x, hx, he⟩ := Option.map_eq_some_iff.1 he
    obtain ⟨h11, rfl⟩ := binarySemaphoreDown_some hx
    cases he
    exact h.move (Or.inl rfl) (by simp [ht, locking, h11]) le_rfl h2 (by simp [ht, gating]) hv h.legal
  | incr =>
    cases he
    refine h.move (Or.inr (by simp [ht, locking])) (by simp [ht, locking]) h1 h2 ?_ ?_ h.legal.up
    · simp only [ht, gating]; split_ifs <;> omega
    · simp only; omega
  | test =>
    cases he
    refine h.move (Or.inl rfl) ?_ h1 h2 ?_ hv h.legal
    · split_ifs <;> simp [ht, locking]
    · split_ifs with hp <;> simp [ht, gating, hp]
  | giveGate =>
    cases he
    obtain ⟨h20, hpos⟩ := h.carried (t := t) (by simp [ht, gating])
    exact h.move (Or.inl rfl) (by simp [ht, locking]) h1 (by simp [binarySemaphoreUp])
      (by simp [ht, gating, binarySemaphoreUp, h20]) hv h.legal
  | giveLock =>
    cases he
    have h10 := h.locked (t := t) (by simp [ht, locking])
    exact h.move (Or.inl rfl) (by simp [ht, locking, binarySemaphoreUp, h10]) (by simp [binarySemaphoreUp]) h2
      (by simp [ht, gating]) hv h.legal

/-- every statement of the semaphore's code keeps the invariant -/
theorem SemInv.exec (h : SemInv k m pc) (he : semExec m (pc t) = some (m', c)) :
    SemInv k m' (update pc t c) := by
  cases hpc : pc t with
  | out => rw [hpc] at he; simp [semExec] at he
  | down d => rw [hpc] at he; exact h.semaphoreDown hpc he
  | up u => rw [hpc] at he; exact h.semaphoreUp hpc he

theorem step_inv (k : ℤ) (s : St T) (o : Op T) (h : SemInv k s.sem s.pc) :
    SemInv k (step s o).sem (step s o).pc := by
  cases o with
  | call t f =>
    simp only [step]
    split_ifs with ht
    · exact h.call ht f
    · exact h
  | exec t =>
    simp only [step]
    split
    · exact h
    · rename_i m c he
      exact h.exec he

theorem reach_inv {k : ℤ} (hk : 0 ≤ k) (ops : List (Op T)) :
    SemInv k (run step (init k) ops).sem (run step (init k) ops).pc :=
  run_inv (I := fun s : St T => SemInv k s.sem s.pc) (fun s o => step_inv k s o) (seminv_init hk) ops

omit [DecidableEq T] [Fintype T] in
/-- with the lock in hand a thread never blocks -/
theorem semExec_of_locking (m : Sem) {c : SemPc} (h : locking c = 1) : (semExec m c).isSome := by
  cases c with
  | out => simp [locking] at h
  | down d => cases d <;> simp [locking] at h <;> rfl
  | up u => cases u <;> simp [locking] at h <;> rfl

/-! ## What a call adds to the history -/

/-- 1 inside `semaphore_down` once it has decremented -/
def decremented : DownPc → ℤ
  | .test | .giveGate | .giveLock => 1
  | _ => 0

/-- 1 inside `semaphore_up` as long as it has not incremented -/
def incrementDue : UpPc → ℤ
  | .takeLock | .incr => 1
  | _ => 0

/-- the decrement of a call of `semaphore_down`, from the control point after one of its statements; a call that has
returned has decremented -/
def decrementedAfter : SemPc → ℤ
  | .down d => decremented d
  | _ => 1

/-- the increment a call of `semaphore_up` still owes after one of its statements -/
def incrementDueAfter : SemPc → ℤ
  | .up u => incrementDue u
  | _ => 0

/-- a statement of `semaphore_down`: it stays inside or returns, and its decrement is in the history -/
theorem semaphoreDown_effect {m m' : Sem} {d : DownPc} {c : SemPc}
    (h : Semaphore.semaphoreDown m d = some (m', c)) :
    (c = .out ∨ ∃ d', c = .down d') ∧ m'.hist.count .up = m.hist.count .up ∧
      (m'.hist.count .down : ℤ) + decremented d = m.hist.count .down + decrementedAfter c := by
  cases d with
  | takeGate =>
    obtain ⟨x, _, he⟩ := Option.map_eq_some_iff.1 h
    cases he; exact ⟨Or.inr ⟨_, rfl⟩, rfl, rfl⟩
  | takeLock =>
    obtain ⟨x, _, he⟩ := Option.map_eq_some_iff.1 h
    cases he; exact ⟨Or.inr ⟨_, rfl⟩, rfl, rfl⟩
  | decr => cases h; exact ⟨Or.inr ⟨_, rfl⟩, by simp, by simp [decremented, decrementedAfter]⟩
  | test =>
    simp only [Semaphore.semaphoreDown] at h
    split_ifs at h <;> cases h <;> exact ⟨Or.inr ⟨_, rfl⟩, rfl, rfl⟩
  | giveGate => cases h; exact ⟨Or.inr ⟨_, rfl⟩, rfl, rfl⟩
  | giveLock => cases h; exact ⟨Or.inl rfl, rfl, rfl⟩

/-- a statement of `semaphore_up`: it stays inside or returns, and its increment is in the history -/
theorem semaphoreUp_effect {m m' : Sem} {u : UpPc} {c : SemPc} (h : Semaphore.semaphoreUp m u = some (m', c)) :
    (c = .out ∨ ∃ u', c = .up u') ∧ m'.hist.count .down = m.hist.count .down ∧
      (m'.hist.count .up : ℤ) + incrementDueAfter c = m.hist.count .up + incrementDue u := by
  cases u with
  | takeLock =>
    obtain ⟨x, _, he⟩ := Option.map_eq_some_iff.1 h
    cases he; exact ⟨Or.inr ⟨_, rfl⟩, rfl, rfl⟩
  | incr => cases h; exact ⟨Or.inr ⟨_, rfl⟩, by simp, by simp [incrementDue, incrementDueAfter]⟩
  | test =>
    simp only [Semaphore.semaphoreUp] at h
    split_ifs at h <;> cases h <;> exact ⟨Or.inr ⟨_, rfl⟩, rfl, rfl⟩
  | giveGate => cases h; exact ⟨Or.inr ⟨_, rfl⟩, rfl, rfl⟩
  | giveLock => cases h; exact ⟨Or.inl rfl, rfl, rfl⟩

/-! ## Main results -/

/-- not past the first statement of `semaphore_down` or `semaphore_up` -/
def AtDoor (c : SemPc) : Prop := c = .out ∨ c = entry .down ∨ c = entry .up

theorem AtDoor.gating {c : SemPc} (h : AtDoor c) (v : ℤ) : Semaphore.gating v c = 0 := by
  rcases h with rfl | rfl | rfl <;> rfl

omit [DecidableEq T] in
/-- with everybody at the door, the gate is open exactly when the counter is positive -/
theorem SemInv.gate_open (h : SemInv k m pc) (hd : ∀ t, AtDoor (pc t)) (hv : m.value > 0) : m.s2 = 1 := by
  have hg := h.gate
  rw [tally_eq_zero fun t => (hd t).gating m.value, if_pos hv] at hg
  omega

/-- **The user-level semaphore refines an atomic counting semaphore.** In every reachable state, for any number of
threads and any interleaving of statements: the executed `value--` and `value++` form a legal history of the atomic
counting semaphore that ends at `value`, so `value = k + increments - decrements` and `value ≥ 0`; a thread about to
run `binary_semaphore_up(s2)` finds `s2 = 0`; and if `value > 0` with no thread past the first statement of either
function, `s2` is 1 and every thread waiting at it can go on. -/
theorem semaphore_refines_counting (k : ℤ) (hk : 0 ≤ k) (ops : List (Op T)) :
    let s := run step (init k) ops
    Legal k s.sem.hist s.sem.value ∧
      s.sem.value = k + s.sem.hist.count .up - s.sem.hist.count .down ∧ 0 ≤ s.sem.value ∧
      (∀ t, s.pc t = .down .giveGate ∨ s.pc t = .up .giveGate → s.sem.s2 = 0) ∧
      (s.sem.value > 0 → (∀ t, AtDoor (s.pc t)) →
        s.sem.s2 = 1 ∧ ∀ t, s.pc t = .down .takeGate → (semExec s.sem (s.pc t)).isSome) := by
  intro s
  have h : SemInv k s.sem s.pc := reach_inv hk ops
  refine ⟨h.legal, h.legal.balance, h.nonneg, fun t ht => ?_, fun hv hd => ?_⟩
  · rcases ht with ht | ht
    · exact (h.carried (t := t) (by simp [ht, gating])).1
    · exact (h.carried (t := t) (by simp [ht, gating])).1
  · have h2 := h.gate_open hd hv
    refine ⟨h2, fun t ht => ?_⟩
    simp [ht, semExec, Semaphore.semaphoreDown, binarySemaphoreDown, h2]

/-- two threads race for one unit: the second waits at the gate until the first has given the unit back -/
def sharedUnit : List (Op (Fin 2)) :=
  [.call 0 .down, .call 1 .down, .exec 0, .exec 0, .exec 0, .exec 0, .exec 0, .exec 1, .call 0 .up, .exec 0, .exec 0,
    .exec 0, .exec 0, .exec 0]

theorem sharedUnit_refines : (0 : ℤ) ≤ 1 ∧
    (∀ t, AtDoor ((run step (init 1) sharedUnit).pc t)) ∧ (run step (init 1) sharedUnit).sem.s2 = 1 := by
  have hd : ∀ t, AtDoor ((run step (init 1) sharedUnit).pc t) := by
    unfold AtDoor; decide
  exact ⟨by decide, hd, ((semaphore_refines_counting 1 (by decide) sharedUnit).2.2.2.2 (by decide) hd).1⟩

end Xv6Threads.Semaphore
