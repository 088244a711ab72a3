/-
The bounded buffer of boundedbuffer.c: a ring of `BUFFER_SIZE` slots with indices `start` and `end`, a mutex, and two
user-level counting semaphores, `empty` (free slots) and `full` (stored elements).

`BB_put` and `BB_pop` run statement by statement, and so do the `semaphore_down` and `semaphore_up` inside them
(`Semaphore.semaphoreDown`, `Semaphore.semaphoreUp`); the binary semaphores are 0/1 cells. Any number of threads call
`BB_put` and `BB_pop` in any order and interleaving. The elements are of any type with a null value `0`.

History variables record the mutex sections in order: `puts` (slot written, element), `pops` (slot read, item), and
`rets` (number of the section, item) for the calls of `BB_pop` that have returned.

Each semaphore, seen alone, runs the machine of `User.Semaphore` (`emptyPc`, `fullPc` project a thread's control
point), so `SemInv` carries over to both. The rest is counting: threads between two statements are tallied by weight.
- `Counts`: both semaphores, the mutex token, and the four counters balanced with the mutex sections.
- `Counts.move`: one move of one thread keeps it when the thread's weights balance what it changed.
- `Counts.room`, `Counts.stock`: what is stored or reserved fits in the ring, and what is claimed has been put.
The ring itself and the results are in `User.BoundedBufferFifo`.
-/
import Xv6Threads.User.Semaphore

namespace Xv6Threads.BoundedBuffer

open Xv6Threads.Core Xv6Threads.Semaphore Function

/-! ## Model -/

/-- `struct BB` (less its name), with the histories of the mutex sections -/
structure BB (α : Type) where
  bufferSize : ℕ
  mutex : ℤ
  empty : Sem
  full : Sem
  start : ℕ
  end_ : ℕ
  elements : ℕ → α
  /-- (slot, element) of each write, in order -/
  puts : List (ℕ × α)
  /-- (slot, item) of each read, in order -/
  pops : List (ℕ × α)
  /-- (number of its mutex section, item) of each `BB_pop` that has returned -/
  rets : List (ℕ × α)

/-- `BB_create` -/
def bbCreate (α : Type) [Zero α] (max_capacity : ℕ) : BB α :=
  { bufferSize := max_capacity, mutex := 1, empty := semaphoreCreate max_capacity, full := semaphoreCreate 0,
    start := 0, end_ := 0, elements := fun _ => 0, puts := [], pops := [], rets := [] }

/-- the statements of `BB_put` -/
inductive PutPc where
  | empty (c : DownPc)
  | lock
  | write
  | incr
  | wrap
  | unlock
  | full (c : UpPc)
deriving DecidableEq, Repr

/-- the statements of `BB_pop`; after the read, `i` is the local variable `item` with the number of the section -/
inductive PopPc (α : Type) where
  | full (c : DownPc)
  | lock
  | read
  | clear (i : ℕ × α)
  | incr (i : ℕ × α)
  | wrap (i : ℕ × α)
  | unlock (i : ℕ × α)
  | empty (i : ℕ × α) (c : UpPc)
deriving DecidableEq, Repr

inductive Pc (α : Type) where
  | out
  | put (element : α) (c : PutPc)
  | pop (c : PopPc α)
deriving DecidableEq, Repr

variable {α : Type}

/-- after a statement of `semaphore_down(bb->empty)`: still inside it, or on to the mutex -/
def afterEmptyDown (element : α) : SemPc → Pc α
  | .down c => .put element (.empty c)
  | _ => .put element .lock

/-- after a statement of `semaphore_up(bb->full)`: still inside it, or `BB_put` returns -/
def afterFullUp (element : α) : SemPc → Pc α
  | .up c => .put element (.full c)
  | _ => .out

/-- after a statement of `semaphore_down(bb->full)` -/
def afterFullDown : SemPc → Pc α
  | .down c => .pop (.full c)
  | _ => .pop .lock

/-- after a statement of `semaphore_up(bb->empty)`: still inside it, or `BB_pop` returns -/
def afterEmptyUp (i : ℕ × α) : SemPc → Pc α
  | .up c => .pop (.empty i c)
  | _ => .out

/-- one statement of `BB_put`; `none` if it blocks -/
def bbPut (bb : BB α) (element : α) : PutPc → Option (BB α × Pc α)
  | .empty c => (semaphoreDown bb.empty c).map fun r => ({ bb with empty := r.1 }, afterEmptyDown element r.2)
  | .lock => (binarySemaphoreDown bb.mutex).map fun v => ({ bb with mutex := v }, .put element .write)
  | .write =>
    some ({ bb with elements := update bb.elements bb.end_ element
                    puts := bb.puts ++ [(bb.end_, element)] }, .put element .incr)
  | .incr => some ({ bb with end_ := bb.end_ + 1 }, .put element .wrap)
  | .wrap => some ({ bb with end_ := bb.end_ % bb.bufferSize }, .put element .unlock)
  | .unlock => some ({ bb with mutex := binarySemaphoreUp bb.mutex }, .put element (.full .takeLock))
  | .full c => (semaphoreUp bb.full c).map fun r => ({ bb with full := r.1 }, afterFullUp element r.2)

/-- one statement of `BB_pop`; `none` if it blocks -/
def bbPop [Zero α] (bb : BB α) : PopPc α → Option (BB α × Pc α)
  | .full c => (semaphoreDown bb.full c).map fun r => ({ bb with full := r.1 }, afterFullDown r.2)
  | .lock => (binarySemaphoreDown bb.mutex).map fun v => ({ bb with mutex := v }, .pop .read)
  | .read =>
    let item := bb.elements bb.start
    some ({ bb with pops := bb.pops ++ [(bb.start, item)] }, .pop (.clear (bb.pops.length, item)))
  | .clear i => some ({ bb with elements := update bb.elements bb.start 0 }, .pop (.incr i))
  | .incr i => some ({ bb with start := bb.start + 1 }, .pop (.wrap i))
  | .wrap i => some ({ bb with start := bb.start % bb.bufferSize }, .pop (.unlock i))
  | .unlock i => some ({ bb with mutex := binarySemaphoreUp bb.mutex }, .pop (.empty i .takeLock))
  | .empty i c =>
    (semaphoreUp bb.empty c).map fun r =>
      ({ bb with empty := r.1, rets := if r.2 = .out then bb.rets ++ [i] else bb.rets }, afterEmptyUp i r.2)

/-- the next statement of a thread inside the buffer's code -/
def bbExec [Zero α] (bb : BB α) : Pc α → Option (BB α × Pc α)
  | .out => none
  | .put element c => bbPut bb element c
  | .pop c => bbPop bb c

structure St (T α : Type) where
  bb : BB α
  pc : T → Pc α

inductive Op (T α : Type) where
  | put (t : T) (element : α)
  | pop (t : T)
  | exec (t : T)
deriving DecidableEq, Repr

variable {T : Type} [DecidableEq T]

def step [Zero α] (s : St T α) : Op T α → St T α
  | .put t element =>
    match s.pc t with
    | .out => { s with pc := update s.pc t (.put element (.empty .takeGate)) }
    | _ => s
  | .pop t =>
    match s.pc t with
    | .out => { s with pc := update s.pc t (.pop (.full .takeGate)) }
    | _ => s
  | .exec t =>
    match bbExec s.bb (s.pc t) with
    | none => s
    | some (bb, c) => { bb := bb, pc := update s.pc t c }

def init [Zero α] (N : ℕ) : St T α := { bb := bbCreate α N, pc := fun _ => .out }

/-! ## Where the threads are -/

/-- a thread's control point as the semaphore `empty` sees it -/
def emptyPc : Pc α → SemPc
  | .put _ (.empty c) => .down c
  | .pop (.empty _ c) => .up c
  | _ => .out

/-- a thread's control point as the semaphore `full` sees it -/
def fullPc : Pc α → SemPc
  | .put _ (.full c) => .up c
  | .pop (.full c) => .down c
  | _ => .out

/-- 1 inside the mutex -/
def inMutex : Pc α → ℤ
  | .put _ .write | .put _ .incr | .put _ .wrap | .put _ .unlock => 1
  | .pop .read | .pop (.clear _) | .pop (.incr _) | .pop (.wrap _) | .pop (.unlock _) => 1
  | _ => 0

/-- 1 where a put has decremented `empty->value` and not written yet -/
def reserving : Pc α → ℤ
  | .put _ (.empty d) => decremented d
  | .put _ .lock | .put _ .write => 1
  | _ => 0

/-- 1 where a put has written and not incremented `full->value` yet -/
def publishing : Pc α → ℤ
  | .put _ .incr | .put _ .wrap | .put _ .unlock => 1
  | .put _ (.full u) => incrementDue u
  | _ => 0

/-- 1 where a pop has decremented `full->value` and not read yet -/
def claiming : Pc α → ℤ
  | .pop (.full d) => decremented d
  | .pop .lock | .pop .read => 1
  | _ => 0

/-- 1 where a pop has read and not incremented `empty->value` yet -/
def freeing : Pc α → ℤ
  | .pop (.clear _) | .pop (.incr _) | .pop (.wrap _) | .pop (.unlock _) => 1
  | .pop (.empty _ u) => incrementDue u
  | _ => 0

/-- 1 where `end` lags behind the writes -/
def endBehind : Pc α → ℤ
  | .put _ .incr | .put _ .wrap => 1
  | _ => 0

/-- 1 where `end` has been incremented and not reduced yet -/
def endRaised : Pc α → ℤ
  | .put _ .wrap => 1
  | _ => 0

/-- 1 where `start` lags behind the reads -/
def startBehind : Pc α → ℤ
  | .pop (.clear _) | .pop (.incr _) | .pop (.wrap _) => 1
  | _ => 0

/-- 1 where `start` has been incremented and not reduced yet -/
def startRaised : Pc α → ℤ
  | .pop (.wrap _) => 1
  | _ => 0

/-- the local variable `item` of a `BB_pop` past its read, with the number of its section -/
def holding : Pc α → Option (ℕ × α)
  | .pop (.clear i) | .pop (.incr i) | .pop (.wrap i) | .pop (.unlock i) | .pop (.empty i _) => some i
  | _ => none

/-! ## Counting: semaphores, mutex and calls in flight -/

/-- the two semaphores, the mutex token, and the balance of the four counters with the mutex sections -/
structure Counts [Fintype T] (N : ℕ) (bb : BB α) (pc : T → Pc α) : Prop where
  emptyInv : SemInv N bb.empty (emptyPc ∘ pc)
  fullInv : SemInv 0 bb.full (fullPc ∘ pc)
  mutex_nonneg : 0 ≤ bb.mutex
  mutex : bb.mutex + tally inMutex pc = 1
  reserved : (bb.empty.hist.count .down : ℤ) = bb.puts.length + tally reserving pc
  published : (bb.full.hist.count .up : ℤ) + tally publishing pc = bb.puts.length
  claimed : (bb.full.hist.count .down : ℤ) = bb.pops.length + tally claiming pc
  freed : (bb.empty.hist.count .up : ℤ) + tally freeing pc = bb.pops.length

variable [Fintype T] {N : ℕ} {bb bb' : BB α} {pc : T → Pc α} {t : T} {c : Pc α}

/-- **One move of one thread** keeps the counts when its weights balance what it changed. -/
theorem Counts.move (h : Counts N bb pc) (hE : SemInv N bb'.empty (update (emptyPc ∘ pc) t (emptyPc c)))
    (hF : SemInv 0 bb'.full (update (fullPc ∘ pc) t (fullPc c))) (hm0 : 0 ≤ bb'.mutex)
    (hm : bb'.mutex + inMutex c = bb.mutex + inMutex (pc t))
    (hr : (bb'.empty.hist.count .down : ℤ) + bb.puts.length + reserving (pc t) =
      bb.empty.hist.count .down + bb'.puts.length + reserving c)
    (hp : (bb'.full.hist.count .up : ℤ) + publishing c + bb.puts.length =
      bb.full.hist.count .up + publishing (pc t) + bb'.puts.length)
    (hc : (bb'.full.hist.count .down : ℤ) + bb.pops.length + claiming (pc t) =
      bb.full.hist.count .down + bb'.pops.length + claiming c)
    (hf : (bb'.empty.hist.count .up : ℤ) + freeing c + bb.pops.length =
      bb.empty.hist.count .up + freeing (pc t) + bb'.pops.length) :
    Counts N bb' (update pc t c) := by
  have h1 := h.mutex
  have h2 := h.reserved
  have h3 := h.published
  have h4 := h.claimed
  have h5 := h.freed
  rw [tally_split inMutex pc t] at h1
  rw [tally_split reserving pc t] at h2
  rw [tally_split publishing pc t] at h3
  rw [tally_split claiming pc t] at h4
  rw [tally_split freeing pc t] at h5
  refine ⟨?_, ?_, hm0, ?_, ?_, ?_, ?_, ?_⟩
  · rw [comp_update]; exact hE
  · rw [comp_update]; exact hF
  all_goals rw [tally_update]; omega

/-- a statement of `semaphore_down(bb->empty)` inside `BB_put` -/
theorem Counts.emptyDown (h : Counts N bb pc) {x : α} {d : DownPc} (ht : pc t = .put x (.empty d)) {m : Sem} {c : SemPc}
    (he : semaphoreDown bb.empty d = some (m, c)) :
    Counts N { bb with empty := m } (update pc t (afterEmptyDown x c)) := by
  obtain ⟨hc, hup, hdown⟩ := semaphoreDown_effect he
  have hE : SemInv N m (update (emptyPc ∘ pc) t c) :=
    h.emptyInv.exec (by simp only [comp_apply, ht]; exact he)
  have hF : (fullPc ∘ pc) t = .out := by simp [ht, fullPc]
  have hpc : emptyPc (afterEmptyDown x c) = c ∧ fullPc (afterEmptyDown x c) = .out ∧
      inMutex (afterEmptyDown x c) = 0 ∧ reserving (afterEmptyDown x c) = decrementedAfter c ∧
      publishing (afterEmptyDown x c) = 0 ∧ claiming (afterEmptyDown x c) = 0 ∧ freeing (afterEmptyDown x c) = 0 := by
    rcases hc with rfl | ⟨d', rfl⟩ <;> exact ⟨rfl, rfl, rfl, rfl, rfl, rfl, rfl⟩
  obtain ⟨p1, p2, p3, p4, p5, p6, p7⟩ := hpc
  refine h.move (by rw [p1]; exact hE) ?_ h.mutex_nonneg ?_ ?_ ?_ ?_ ?_
  · rw [p2, ← hF, update_eq_self]; exact h.fullInv
  · rw [p3, ht]; rfl
  · rw [p4, ht]; simp only [reserving]; omega
  · rw [p5, ht]; rfl
  · rw [p6, ht]; rfl
  · rw [p7, ht]; simp only [hup]; rfl

/-- a statement of `semaphore_up(bb->empty)` inside `BB_pop` -/
theorem Counts.emptyUp (h : Counts N bb pc) {i : ℕ × α} {u : UpPc} (ht : pc t = .pop (.empty i u)) {m : Sem} {c : SemPc}
    (he : semaphoreUp bb.empty u = some (m, c)) (rets : List (ℕ × α)) :
    Counts N { bb with empty := m, rets := rets } (update pc t (afterEmptyUp i c)) := by
  obtain ⟨hc, hdown, hup⟩ := semaphoreUp_effect he
  have hE : SemInv N m (update (emptyPc ∘ pc) t c) :=
    h.emptyInv.exec (by simp only [comp_apply, ht]; exact he)
  have hF : (fullPc ∘ pc) t = .out := by simp [ht, fullPc]
  have hpc : emptyPc (afterEmptyUp i c) = c ∧ fullPc (afterEmptyUp i c) = .out ∧ inMutex (afterEmptyUp i c) = 0 ∧
      reserving (afterEmptyUp i c) = 0 ∧ publishing (afterEmptyUp i c) = 0 ∧ claiming (afterEmptyUp i c) = 0 ∧
      freeing (afterEmptyUp i c) = incrementDueAfter c := by
    rcases hc with rfl | ⟨d', rfl⟩ <;> exact ⟨rfl, rfl, rfl, rfl, rfl, rfl, rfl⟩
  obtain ⟨p1, p2, p3, p4, p5, p6, p7⟩ := hpc
  refine h.move (by rw [p1]; exact hE) ?_ h.mutex_nonneg ?_ ?_ ?_ ?_ ?_
  · rw [p2, ← hF, update_eq_self]; exact h.fullInv
  · rw [p3, ht]; rfl
  · rw [p4, ht]; simp only [hdown]; rfl
  · rw [p5, ht]; rfl
  · rw [p6, ht]; rfl
  · rw [p7, ht]; simp only [freeing]; omega

/-- a statement of `semaphore_down(bb->full)` inside `BB_pop` -/
theorem Counts.fullDown (h : Counts N bb pc) {d : DownPc} (ht : pc t = .pop (.full d)) {m : Sem} {c : SemPc}
    (he : semaphoreDown bb.full d = some (m, c)) :
    Counts N { bb with full := m } (update pc t (afterFullDown c)) := by
  obtain ⟨hc, hup, hdown⟩ := semaphoreDown_effect he
  have hF : SemInv 0 m (update (fullPc ∘ pc) t c) :=
    h.fullInv.exec (by simp only [comp_apply, ht]; exact he)
  have hE : (emptyPc ∘ pc) t = .out := by simp [ht, emptyPc]
  have hpc : emptyPc (afterFullDown (α := α) c) = .out ∧ fullPc (afterFullDown (α := α) c) = c ∧
      inMutex (afterFullDown (α := α) c) = 0 ∧ reserving (afterFullDown (α := α) c) = 0 ∧
      publishing (afterFullDown (α := α) c) = 0 ∧ claiming (afterFullDown (α := α) c) = decrementedAfter c ∧
      freeing (afterFullDown (α := α) c) = 0 := by
    rcases hc with rfl | ⟨d', rfl⟩ <;> exact ⟨rfl, rfl, rfl, rfl, rfl, rfl, rfl⟩
  obtain ⟨p1, p2, p3, p4, p5, p6, p7⟩ := hpc
  refine h.move ?_ (by rw [p2]; exact hF) h.mutex_nonneg ?_ ?_ ?_ ?_ ?_
  · rw [p1, ← hE, update_eq_self]; exact h.emptyInv
  · rw [p3, ht]; rfl
  · rw [p4, ht]; rfl
  · rw [p5, ht]; simp only [hup]; rfl
  · rw [p6, ht]; simp only [claiming]; omega
  · rw [p7, ht]; rfl

/-- a statement of `semaphore_up(bb->full)` inside `BB_put` -/
theorem Counts.fullUp (h : Counts N bb pc) {x : α} {u : UpPc} (ht : pc t = .put x (.full u)) {m : Sem} {c : SemPc}
    (he : semaphoreUp bb.full u = some (m, c)) :
    Counts N { bb with full := m } (update pc t (afterFullUp x c)) := by
  obtain ⟨hc, hdown, hup⟩ := semaphoreUp_effect he
  have hF : SemInv 0 m (update (fullPc ∘ pc) t c) :=
    h.fullInv.exec (by simp only [comp_apply, ht]; exact he)
  have hE : (emptyPc ∘ pc) t = .out := by simp [ht, emptyPc]
  have hpc : emptyPc (afterFullUp x c) = .out ∧ fullPc (afterFullUp x c) = c ∧ inMutex (afterFullUp x c) = 0 ∧
      reserving (afterFullUp x c) = 0 ∧ publishing (afterFullUp x c) = incrementDueAfter c ∧
      claiming (afterFullUp x c) = 0 ∧ freeing (afterFullUp x c) = 0 := by
    rcases hc with rfl | ⟨d', rfl⟩ <;> exact ⟨rfl, rfl, rfl, rfl, rfl, rfl, rfl⟩
  obtain ⟨p1, p2, p3, p4, p5, p6, p7⟩ := hpc
  refine h.move ?_ (by rw [p2]; exact hF) h.mutex_nonneg ?_ ?_ ?_ ?_ ?_
  · rw [p1, ← hE, update_eq_self]; exact h.emptyInv
  · rw [p3, ht]; rfl
  · rw [p4, ht]; rfl
  · rw [p5, ht]; simp only [publishing]; omega
  · rw [p6, ht]; simp only [hdown]; rfl
  · rw [p7, ht]; rfl

/-- a statement that touches neither semaphore -/
theorem Counts.stay (h : Counts N bb pc) (he : bb'.empty = bb.empty) (hf : bb'.full = bb.full)
    (hE : emptyPc c = emptyPc (pc t)) (hF : fullPc c = fullPc (pc t)) (hm0 : 0 ≤ bb'.mutex)
    (hm : bb'.mutex + inMutex c = bb.mutex + inMutex (pc t))
    (hr : (bb.puts.length : ℤ) + reserving (pc t) = bb'.puts.length + reserving c)
    (hp : publishing c + bb.puts.length = publishing (pc t) + bb'.puts.length)
    (hc : (bb.pops.length : ℤ) + claiming (pc t) = bb'.pops.length + claiming c)
    (hfr : freeing c + bb.pops.length = freeing (pc t) + bb'.pops.length) :
    Counts N bb' (update pc t c) := by
  refine h.move ?_ ?_ hm0 hm ?_ ?_ ?_ ?_
  · rw [he, hE, ← comp_apply (f := emptyPc), update_eq_self]; exact h.emptyInv
  · rw [hf, hF, ← comp_apply (f := fullPc), update_eq_self]; exact h.fullInv
  all_goals simp only [he, hf]; omega

omit [DecidableEq T] in
/-- free slots: what is stored, reserved or not freed yet fits in the ring -/
theorem Counts.room (h : Counts N bb pc) :
    (bb.puts.length : ℤ) + tally reserving pc + tally freeing pc ≤ N + bb.pops.length := by
  have h1 := h.reserved
  have h2 := h.freed
  have h3 := h.emptyInv.legal.balance
  have h4 := h.emptyInv.nonneg
  omega

omit [DecidableEq T] in
/-- stored elements: what is popped or claimed, or not published yet, has been put -/
theorem Counts.stock (h : Counts N bb pc) :
    (bb.pops.length : ℤ) + tally claiming pc + tally publishing pc ≤ bb.puts.length := by
  have h1 := h.claimed
  have h2 := h.published
  have h3 := h.fullInv.legal.balance
  have h4 := h.fullInv.nonneg
  omega

/-- inside the mutex a thread is alone: a weight bounded by `inMutex` counts that thread only -/
theorem Counts.alone (h : Counts N bb pc) (ht : inMutex (pc t) = 1) {w : Pc α → ℤ}
    (hw : ∀ c, 0 ≤ w c ∧ w c ≤ inMutex c) : others w pc t = 0 := by
  have hm := h.mutex
  rw [tally_split inMutex pc t, ht] at hm
  have := h.mutex_nonneg
  have := others_nonneg (fun c => (hw c).1) pc t
  have := others_mono (fun c => (hw c).2) pc t
  omega

theorem Counts.tally_alone (h : Counts N bb pc) (ht : inMutex (pc t) = 1) {w : Pc α → ℤ}
    (hw : ∀ c, 0 ≤ w c ∧ w c ≤ inMutex c) : tally w pc = w (pc t) := by
  rw [tally_split w pc t, h.alone ht hw, add_zero]

theorem inMutex_nonneg (c : Pc α) : 0 ≤ inMutex c := by
  unfold inMutex; split <;> simp

theorem decremented_nonneg (d : DownPc) : 0 ≤ decremented d := by cases d <;> simp [decremented]

theorem incrementDue_nonneg (u : UpPc) : 0 ≤ incrementDue u := by cases u <;> simp [incrementDue]

theorem reserving_nonneg (c : Pc α) : 0 ≤ reserving c := by
  unfold reserving; split <;> simp [decremented_nonneg]

theorem publishing_nonneg (c : Pc α) : 0 ≤ publishing c := by
  unfold publishing; split <;> simp [incrementDue_nonneg]

theorem claiming_nonneg (c : Pc α) : 0 ≤ claiming c := by
  unfold claiming; split <;> simp [decremented_nonneg]

theorem freeing_nonneg (c : Pc α) : 0 ≤ freeing c := by
  unfold freeing; split <;> simp [incrementDue_nonneg]

theorem endBehind_bounds (c : Pc α) : 0 ≤ endBehind c ∧ endBehind c ≤ inMutex c := by
  unfold endBehind; split <;> first | exact ⟨zero_le_one, le_rfl⟩ | exact ⟨le_rfl, inMutex_nonneg _⟩

theorem endRaised_bounds (c : Pc α) : 0 ≤ endRaised c ∧ endRaised c ≤ inMutex c := by
  unfold endRaised; split <;> first | exact ⟨zero_le_one, le_rfl⟩ | exact ⟨le_rfl, inMutex_nonneg _⟩

theorem startBehind_bounds (c : Pc α) : 0 ≤ startBehind c ∧ startBehind c ≤ inMutex c := by
  unfold startBehind; split <;> first | exact ⟨zero_le_one, le_rfl⟩ | exact ⟨le_rfl, inMutex_nonneg _⟩

theorem startRaised_bounds (c : Pc α) : 0 ≤ startRaised c ∧ startRaised c ≤ inMutex c := by
  unfold startRaised; split <;> first | exact ⟨zero_le_one, le_rfl⟩ | exact ⟨le_rfl, inMutex_nonneg _⟩

end Xv6Threads.BoundedBuffer
