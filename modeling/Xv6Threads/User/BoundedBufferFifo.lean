/-
The ring of boundedbuffer.c, and what `BB_put` and `BB_pop` guarantee. Model and counting are in `User.BoundedBuffer`.

- `Ring`: `end` and `start` are the numbers of puts and pops modulo the size (up to the two statements that move them),
  and the slots between them hold the unpopped elements in order.
- `inv_step`: every statement of every thread keeps `Counts` and `Ring`.
- `Returns`: a call of `BB_pop` returns what it read in its own mutex section, each section once.
- `bounded_buffer_fifo`: pops are a prefix of puts; a put writes a slot with no unpopped element; a pop reads a slot
  with an element that has been put.
- `bounded_buffer_accounting`: with all threads outside or at the first gate, `full->value` and `empty->value` are
  exact; and while a pop is blocked with an element stored, or a put with a slot free, some thread can move.
-/
import Xv6Threads.Core.Ring
import Xv6Threads.User.BoundedBuffer

namespace Xv6Threads.BoundedBuffer

open Xv6Threads.Core Xv6Threads.Semaphore Function

variable {α T : Type} [DecidableEq T] [Fintype T] {N : ℕ} {bb bb' : BB α} {pc : T → Pc α} {t : T} {c : Pc α}

/-! ## The ring -/

/-- the indices follow the mutex sections, and the slots between them hold the unpopped elements in order -/
structure Ring (N : ℕ) (bb : BB α) (pc : T → Pc α) : Prop where
  size : bb.bufferSize = N
  endIdx : (bb.end_ : ℤ) = (bb.puts.length - tally endBehind pc) % N + tally endRaised pc
  startIdx : (bb.start : ℤ) = (bb.pops.length - tally startBehind pc) % N + tally startRaised pc
  slots : ∀ j e, bb.puts[j]? = some e → e.1 = j % N
  content : ∀ j e, bb.pops.length ≤ j → bb.puts[j]? = some e → bb.elements (j % N) = e.2
  order : bb.pops = bb.puts.take bb.pops.length

/-- a statement that touches no index and no slot -/
theorem Ring.stay (h : Ring N bb pc) (hs : bb'.bufferSize = bb.bufferSize) (he : bb'.end_ = bb.end_)
    (hst : bb'.start = bb.start) (hel : bb'.elements = bb.elements) (hpu : bb'.puts = bb.puts)
    (hpo : bb'.pops = bb.pops) (h1 : endBehind c = endBehind (pc t)) (h2 : endRaised c = endRaised (pc t))
    (h3 : startBehind c = startBehind (pc t)) (h4 : startRaised c = startRaised (pc t)) :
    Ring N bb' (update pc t c) := by
  refine ⟨hs.trans h.size, ?_, ?_, ?_, ?_, ?_⟩
  · rw [tally_update_of_eq h1, tally_update_of_eq h2, he, hpu]; exact h.endIdx
  · rw [tally_update_of_eq h3, tally_update_of_eq h4, hst, hpo]; exact h.startIdx
  · rw [hpu]; exact h.slots
  · rw [hpu, hpo, hel]; exact h.content
  · rw [hpu, hpo]; exact h.order

/-- both halves of the invariant -/
structure Inv (N : ℕ) (bb : BB α) (pc : T → Pc α) : Prop where
  counts : Counts N bb pc
  ring : Ring N bb pc

/-- at the write, `end` is the number of puts modulo the size, and that slot is not in use -/
theorem Inv.end_at_write (h : Inv N bb pc) {x : α} (ht : pc t = .put x .write) :
    bb.end_ = bb.puts.length % N ∧ bb.puts.length < bb.pops.length + N := by
  have hm : inMutex (pc t) = 1 := by rw [ht]; rfl
  have h1 := h.ring.endIdx
  rw [h.counts.tally_alone hm endBehind_bounds, h.counts.tally_alone hm endRaised_bounds, ht] at h1
  simp only [endBehind, endRaised, add_zero, sub_zero] at h1
  have h2 := h.counts.room
  have h3 := le_tally reserving_nonneg pc t
  have h4 := tally_nonneg freeing_nonneg pc
  rw [ht] at h3
  simp only [reserving] at h3
  exact ⟨by exact_mod_cast h1, by omega⟩

/-- at the read, `start` is the number of pops modulo the size, and there is an element to read -/
theorem Inv.start_at_read (h : Inv N bb pc) (ht : pc t = .pop .read) :
    bb.start = bb.pops.length % N ∧ bb.pops.length < bb.puts.length := by
  have hm : inMutex (pc t) = 1 := by rw [ht]; rfl
  have h1 := h.ring.startIdx
  rw [h.counts.tally_alone hm startBehind_bounds, h.counts.tally_alone hm startRaised_bounds, ht] at h1
  simp only [startBehind, startRaised, add_zero, sub_zero] at h1
  have h2 := h.counts.stock
  have h3 := le_tally claiming_nonneg pc t
  have h4 := tally_nonneg publishing_nonneg pc
  rw [ht] at h3
  simp only [claiming] at h3
  exact ⟨by exact_mod_cast h1, by omega⟩

/-- at the clear, `start` is the slot just read, and no unpopped element is in it -/
theorem Inv.start_at_clear (h : Inv N bb pc) {i : ℕ × α} (ht : pc t = .pop (.clear i)) :
    1 ≤ bb.pops.length ∧ bb.start = (bb.pops.length - 1) % N ∧ bb.puts.length + 1 ≤ bb.pops.length + N := by
  have hm : inMutex (pc t) = 1 := by rw [ht]; rfl
  have h1 := h.ring.startIdx
  rw [h.counts.tally_alone hm startBehind_bounds, h.counts.tally_alone hm startRaised_bounds, ht] at h1
  simp only [startBehind, startRaised, add_zero] at h1
  have h2 := h.counts.room
  have h3 := le_tally freeing_nonneg pc t
  have h4 := tally_nonneg reserving_nonneg pc
  have h5 := h.counts.freed
  rw [ht] at h3
  simp only [freeing] at h3
  have hQ : 1 ≤ bb.pops.length := by omega
  refine ⟨hQ, ?_, by omega⟩
  zify [hQ]
  exact h1

/-! ## Statements inside the mutex -/

theorem getElem?_snoc {β : Type*} {l : List β} {a e : β} {j : ℕ} (h : (l ++ [a])[j]? = some e) :
    l[j]? = some e ∧ j < l.length ∨ j = l.length ∧ e = a := by
  rcases lt_trichotomy j l.length with hj | rfl | hj
  · rw [List.getElem?_append_left hj] at h; exact Or.inl ⟨h, hj⟩
  · rw [List.getElem?_concat_length] at h; exact Or.inr ⟨rfl, (Option.some.inj h).symm⟩
  · rw [List.getElem?_eq_none (by simp; omega)] at h; cases h

theorem Inv.write (h : Inv N bb pc) {x : α} (ht : pc t = .put x .write) :
    Inv N { bb with elements := update bb.elements bb.end_ x, puts := bb.puts ++ [(bb.end_, x)] }
      (update pc t (.put x .incr)) := by
  obtain ⟨hend, hroom⟩ := h.end_at_write ht
  have hstock : bb.pops.length ≤ bb.puts.length := by
    have := h.counts.stock
    have := tally_nonneg claiming_nonneg pc
    have := tally_nonneg publishing_nonneg pc
    omega
  refine ⟨?_, h.ring.size, ?_, ?_, ?_, ?_, ?_⟩
  · refine h.counts.stay rfl rfl ?_ ?_ h.counts.mutex_nonneg ?_ ?_ ?_ ?_ ?_
    all_goals rw [ht]
    all_goals simp [emptyPc, fullPc, inMutex, reserving, publishing, claiming, freeing, add_comm]
  · have h1 := h.ring.endIdx
    rw [tally_split endBehind pc t, tally_split endRaised pc t, ht] at h1
    rw [tally_update, tally_update]
    simp only [endBehind, endRaised, List.length_append, List.length_singleton, Nat.cast_add, Nat.cast_one] at h1 ⊢
    rw [h1]; congr 2; ring
  · rw [tally_update_of_eq (by rw [ht]; rfl), tally_update_of_eq (by rw [ht]; rfl)]
    exact h.ring.startIdx
  · intro j e hj
    rcases getElem?_snoc hj with ⟨hj, _⟩ | ⟨rfl, rfl⟩
    · exact h.ring.slots j e hj
    · exact hend
  · intro j e hQ hj
    simp only at hQ ⊢
    rcases getElem?_snoc hj with ⟨hj, hlt⟩ | ⟨rfl, rfl⟩
    · -- an unpopped element is less than one turn behind, so its slot is not the one written
      rw [update_of_ne (by rw [hend]; exact mod_ne_of_lt hlt (by omega))]
      exact h.ring.content j e hQ hj
    · rw [← hend, update_self]
  · show bb.pops = (bb.puts ++ [(bb.end_, x)]).take bb.pops.length
    rw [List.take_append_of_le_length hstock]
    exact h.ring.order

theorem Inv.endIncr (h : Inv N bb pc) {x : α} (ht : pc t = .put x .incr) :
    Inv N { bb with end_ := bb.end_ + 1 } (update pc t (.put x .wrap)) := by
  refine ⟨?_, h.ring.size, ?_, ?_, h.ring.slots, h.ring.content, h.ring.order⟩
  · refine h.counts.stay rfl rfl ?_ ?_ h.counts.mutex_nonneg ?_ ?_ ?_ ?_ ?_
    all_goals rw [ht]
    all_goals simp [emptyPc, fullPc, inMutex, reserving, publishing, claiming, freeing]
  · have h1 := h.ring.endIdx
    rw [tally_split endBehind pc t, tally_split endRaised pc t, ht] at h1
    rw [tally_update, tally_update]
    simp only [endBehind, endRaised, Nat.cast_add, Nat.cast_one] at h1 ⊢
    omega
  · rw [tally_update_of_eq (by rw [ht]; rfl), tally_update_of_eq (by rw [ht]; rfl)]
    exact h.ring.startIdx

theorem Inv.endWrap (h : Inv N bb pc) {x : α} (ht : pc t = .put x .wrap) :
    Inv N { bb with end_ := bb.end_ % bb.bufferSize } (update pc t (.put x .unlock)) := by
  have hm : inMutex (pc t) = 1 := by rw [ht]; rfl
  refine ⟨?_, h.ring.size, ?_, ?_, h.ring.slots, h.ring.content, h.ring.order⟩
  · refine h.counts.stay rfl rfl ?_ ?_ h.counts.mutex_nonneg ?_ ?_ ?_ ?_ ?_
    all_goals rw [ht]
    all_goals simp [emptyPc, fullPc, inMutex, reserving, publishing, claiming, freeing]
  · have h1 := h.ring.endIdx
    rw [h.counts.tally_alone hm endBehind_bounds, h.counts.tally_alone hm endRaised_bounds, ht] at h1
    rw [tally_update, tally_update, h.counts.alone hm endBehind_bounds, h.counts.alone hm endRaised_bounds]
    simp only [endBehind, endRaised, h.ring.size, Int.natCast_mod, add_zero, sub_zero] at h1 ⊢
    rw [h1, Int.emod_add_emod, sub_add_cancel]
  · rw [tally_update_of_eq (by rw [ht]; rfl), tally_update_of_eq (by rw [ht]; rfl)]
    exact h.ring.startIdx

theorem Inv.read (h : Inv N bb pc) (ht : pc t = .pop .read) :
    Inv N { bb with pops := bb.pops ++ [(bb.start, bb.elements bb.start)] }
      (update pc t (.pop (.clear (bb.pops.length, bb.elements bb.start)))) := by
  obtain ⟨hstart, hlt⟩ := h.start_at_read ht
  obtain ⟨e, he⟩ : ∃ e, bb.puts[bb.pops.length]? = some e := ⟨_, List.getElem?_eq_getElem hlt⟩
  -- the slot read is the oldest unpopped put
  have hread : (bb.start, bb.elements bb.start) = e := by
    have h1 := h.ring.slots _ e he
    have h2 := h.ring.content _ e le_rfl he
    rw [← hstart] at h1 h2
    rw [← h1, h1, h2, ← h1]
  refine ⟨?_, h.ring.size, ?_, ?_, h.ring.slots, ?_, ?_⟩
  · refine h.counts.stay rfl rfl ?_ ?_ h.counts.mutex_nonneg ?_ ?_ ?_ ?_ ?_
    all_goals rw [ht]
    all_goals simp [emptyPc, fullPc, inMutex, reserving, publishing, claiming, freeing, add_comm]
  · rw [tally_update_of_eq (by rw [ht]; rfl), tally_update_of_eq (by rw [ht]; rfl)]
    exact h.ring.endIdx
  · have h1 := h.ring.startIdx
    rw [tally_split startBehind pc t, tally_split startRaised pc t, ht] at h1
    rw [tally_update, tally_update]
    simp only [startBehind, startRaised, List.length_append, List.length_singleton, Nat.cast_add, Nat.cast_one] at h1 ⊢
    rw [h1]; congr 2; ring
  · intro j e' hQ hj
    simp only [List.length_append, List.length_singleton] at hQ
    exact h.ring.content j e' (by omega) hj
  · simp only [List.length_append, List.length_singleton]
    rw [List.take_add_one, he, ← h.ring.order, hread]
    rfl

theorem Inv.clear [Zero α] (h : Inv N bb pc) {i : ℕ × α} (ht : pc t = .pop (.clear i)) :
    Inv N { bb with elements := update bb.elements bb.start 0 } (update pc t (.pop (.incr i))) := by
  obtain ⟨hQ1, hstart, hroom⟩ := h.start_at_clear ht
  refine ⟨?_, h.ring.size, ?_, ?_, h.ring.slots, ?_, h.ring.order⟩
  · refine h.counts.stay rfl rfl ?_ ?_ h.counts.mutex_nonneg ?_ ?_ ?_ ?_ ?_
    all_goals rw [ht]
    all_goals simp [emptyPc, fullPc, inMutex, reserving, publishing, claiming, freeing]
  · rw [tally_update_of_eq (by rw [ht]; rfl), tally_update_of_eq (by rw [ht]; rfl)]
    exact h.ring.endIdx
  · rw [tally_update_of_eq (by rw [ht]; rfl), tally_update_of_eq (by rw [ht]; rfl)]
    exact h.ring.startIdx
  · intro j e hQ hj
    simp only at hQ ⊢
    have hlt : j < bb.puts.length := (List.getElem?_eq_some_iff.1 hj).1
    rw [update_of_ne (by rw [hstart]; exact (mod_ne_of_lt (by omega) (by omega)).symm)]
    exact h.ring.content j e hQ hj

theorem Inv.startIncr (h : Inv N bb pc) {i : ℕ × α} (ht : pc t = .pop (.incr i)) :
    Inv N { bb with start := bb.start + 1 } (update pc t (.pop (.wrap i))) := by
  refine ⟨?_, h.ring.size, ?_, ?_, h.ring.slots, h.ring.content, h.ring.order⟩
  · refine h.counts.stay rfl rfl ?_ ?_ h.counts.mutex_nonneg ?_ ?_ ?_ ?_ ?_
    all_goals rw [ht]
    all_goals simp [emptyPc, fullPc, inMutex, reserving, publishing, claiming, freeing]
  · rw [tally_update_of_eq (by rw [ht]; rfl), tally_update_of_eq (by rw [ht]; rfl)]
    exact h.ring.endIdx
  · have h1 := h.ring.startIdx
    rw [tally_split startBehind pc t, tally_split startRaised pc t, ht] at h1
    rw [tally_update, tally_update]
    simp only [startBehind, startRaised, Nat.cast_add, Nat.cast_one] at h1 ⊢
    omega

theorem Inv.startWrap (h : Inv N bb pc) {i : ℕ × α} (ht : pc t = .pop (.wrap i)) :
    Inv N { bb with start := bb.start % bb.bufferSize } (update pc t (.pop (.unlock i))) := by
  have hm : inMutex (pc t) = 1 := by rw [ht]; rfl
  refine ⟨?_, h.ring.size, ?_, ?_, h.ring.slots, h.ring.content, h.ring.order⟩
  · refine h.counts.stay rfl rfl ?_ ?_ h.counts.mutex_nonneg ?_ ?_ ?_ ?_ ?_
    all_goals rw [ht]
    all_goals simp [emptyPc, fullPc, inMutex, reserving, publishing, claiming, freeing]
  · rw [tally_update_of_eq (by rw [ht]; rfl), tally_update_of_eq (by rw [ht]; rfl)]
    exact h.ring.endIdx
  · have h1 := h.ring.startIdx
    rw [h.counts.tally_alone hm startBehind_bounds, h.counts.tally_alone hm startRaised_bounds, ht] at h1
    rw [tally_update, tally_update, h.counts.alone hm startBehind_bounds, h.counts.alone hm startRaised_bounds]
    simp only [startBehind, startRaised, h.ring.size, Int.natCast_mod, add_zero, sub_zero] at h1 ⊢
    rw [h1, Int.emod_add_emod, sub_add_cancel]

/-! ## Statements outside the mutex -/

theorem Inv.putCall (h : Inv N bb pc) (ht : pc t = .out) (x : α) :
    Inv N bb (update pc t (.put x (.empty .takeGate))) := by
  have hE : SemInv N bb.empty (update (emptyPc ∘ pc) t (entry .down)) :=
    h.counts.emptyInv.call (by simp [ht, emptyPc]) .down
  have hF : (fullPc ∘ pc) t = .out := by simp [ht, fullPc]
  refine ⟨?_, h.ring.stay rfl rfl rfl rfl rfl rfl ?_ ?_ ?_ ?_⟩
  · refine h.counts.move hE ?_ h.counts.mutex_nonneg ?_ ?_ ?_ ?_ ?_
    · show SemInv 0 bb.full (update (fullPc ∘ pc) t .out)
      rw [← hF, update_eq_self]; exact h.counts.fullInv
    all_goals rw [ht]; rfl
  all_goals rw [ht]; rfl

theorem Inv.popCall (h : Inv N bb pc) (ht : pc t = .out) : Inv N bb (update pc t (.pop (.full .takeGate))) := by
  have hF : SemInv 0 bb.full (update (fullPc ∘ pc) t (entry .down)) :=
    h.counts.fullInv.call (by simp [ht, fullPc]) .down
  have hE : (emptyPc ∘ pc) t = .out := by simp [ht, emptyPc]
  refine ⟨?_, h.ring.stay rfl rfl rfl rfl rfl rfl ?_ ?_ ?_ ?_⟩
  · refine h.counts.move ?_ hF h.counts.mutex_nonneg ?_ ?_ ?_ ?_ ?_
    · show SemInv N bb.empty (update (emptyPc ∘ pc) t .out)
      rw [← hE, update_eq_self]; exact h.counts.emptyInv
    all_goals rw [ht]; rfl
  all_goals rw [ht]; rfl

/-- taking the mutex, from either function -/
theorem Inv.lock (h : Inv N bb pc) {v : ℤ} (hv : binarySemaphoreDown bb.mutex = some v)
    (ht : (∃ x, pc t = .put x .lock ∧ c = .put x .write) ∨ pc t = .pop .lock ∧ c = .pop .read) :
    Inv N { bb with mutex := v } (update pc t c) := by
  obtain ⟨hm, rfl⟩ := binarySemaphoreDown_some hv
  rcases ht with ⟨x, ht, rfl⟩ | ⟨ht, rfl⟩
  · refine ⟨h.counts.stay rfl rfl ?_ ?_ le_rfl ?_ ?_ ?_ ?_ ?_, h.ring.stay rfl rfl rfl rfl rfl rfl ?_ ?_ ?_ ?_⟩
    all_goals rw [ht]
    all_goals simp [emptyPc, fullPc, inMutex, reserving, publishing, claiming, freeing, hm, endBehind, endRaised,
      startBehind, startRaised]
  · refine ⟨h.counts.stay rfl rfl ?_ ?_ le_rfl ?_ ?_ ?_ ?_ ?_, h.ring.stay rfl rfl rfl rfl rfl rfl ?_ ?_ ?_ ?_⟩
    all_goals rw [ht]
    all_goals simp [emptyPc, fullPc, inMutex, reserving, publishing, claiming, freeing, hm, endBehind, endRaised,
      startBehind, startRaised]

/-- a thread inside the mutex: it is taken -/
theorem Counts.mutex_taken (h : Counts N bb pc) (ht : inMutex (pc t) = 1) : bb.mutex = 0 := by
  have hm := h.mutex
  rw [tally_split inMutex pc t, ht] at hm
  have := h.mutex_nonneg
  have := others_nonneg inMutex_nonneg pc t
  omega

theorem Inv.putUnlock (h : Inv N bb pc) {x : α} (ht : pc t = .put x .unlock) :
    Inv N { bb with mutex := binarySemaphoreUp bb.mutex } (update pc t (.put x (.full .takeLock))) := by
  have hm := h.counts.mutex_taken (t := t) (by rw [ht]; rfl)
  have hF : SemInv 0 bb.full (update (fullPc ∘ pc) t (entry .up)) :=
    h.counts.fullInv.call (by simp [ht, fullPc]) .up
  have hE : (emptyPc ∘ pc) t = .out := by simp [ht, emptyPc]
  refine ⟨?_, h.ring.stay rfl rfl rfl rfl rfl rfl ?_ ?_ ?_ ?_⟩
  · refine h.counts.move ?_ hF zero_le_one ?_ ?_ ?_ ?_ ?_
    · show SemInv N bb.empty (update (emptyPc ∘ pc) t .out)
      rw [← hE, update_eq_self]; exact h.counts.emptyInv
    · rw [ht, hm]; rfl
    all_goals rw [ht]; rfl
  all_goals rw [ht]; rfl

theorem Inv.popUnlock (h : Inv N bb pc) {i : ℕ × α} (ht : pc t = .pop (.unlock i)) :
    Inv N { bb with mutex := binarySemaphoreUp bb.mutex } (update pc t (.pop (.empty i .takeLock))) := by
  have hm := h.counts.mutex_taken (t := t) (by rw [ht]; rfl)
  have hE : SemInv N bb.empty (update (emptyPc ∘ pc) t (entry .up)) :=
    h.counts.emptyInv.call (by simp [ht, emptyPc]) .up
  have hF : (fullPc ∘ pc) t = .out := by simp [ht, fullPc]
  refine ⟨?_, h.ring.stay rfl rfl rfl rfl rfl rfl ?_ ?_ ?_ ?_⟩
  · refine h.counts.move hE ?_ zero_le_one ?_ ?_ ?_ ?_ ?_
    · show SemInv 0 bb.full (update (fullPc ∘ pc) t .out)
      rw [← hF, update_eq_self]; exact h.counts.fullInv
    · rw [ht, hm]; rfl
    all_goals rw [ht]; rfl
  all_goals rw [ht]; rfl

theorem Inv.putStep (h : Inv N bb pc) {x : α} {d : PutPc} (ht : pc t = .put x d) (he : bbPut bb x d = some (bb', c)) :
    Inv N bb' (update pc t c) := by
  cases d with
  | empty d =>
    obtain ⟨⟨m, c'⟩, hr, he⟩ := Option.map_eq_some_iff.1 he
    cases he
    refine ⟨h.counts.emptyDown ht hr, h.ring.stay rfl rfl rfl rfl rfl rfl ?_ ?_ ?_ ?_⟩
    all_goals rw [ht]; rcases (semaphoreDown_effect hr).1 with rfl | ⟨d', rfl⟩ <;> rfl
  | lock =>
    obtain ⟨v, hv, he⟩ := Option.map_eq_some_iff.1 he
    cases he
    exact h.lock hv (Or.inl ⟨x, ht, rfl⟩)
  | write => cases he; exact h.write ht
  | incr => cases he; exact h.endIncr ht
  | wrap => cases he; exact h.endWrap ht
  | unlock => cases he; exact h.putUnlock ht
  | full u =>
    obtain ⟨⟨m, c'⟩, hr, he⟩ := Option.map_eq_some_iff.1 he
    cases he
    refine ⟨h.counts.fullUp ht hr, h.ring.stay rfl rfl rfl rfl rfl rfl ?_ ?_ ?_ ?_⟩
    all_goals rw [ht]; rcases (semaphoreUp_effect hr).1 with rfl | ⟨u', rfl⟩ <;> rfl

variable [Zero α]

theorem Inv.popStep (h : Inv N bb pc) {d : PopPc α} (ht : pc t = .pop d) (he : bbPop bb d = some (bb', c)) :
    Inv N bb' (update pc t c) := by
  cases d with
  | full d =>
    obtain ⟨⟨m, c'⟩, hr, he⟩ := Option.map_eq_some_iff.1 he
    cases he
    refine ⟨h.counts.fullDown ht hr, h.ring.stay rfl rfl rfl rfl rfl rfl ?_ ?_ ?_ ?_⟩
    all_goals rw [ht]; rcases (semaphoreDown_effect hr).1 with rfl | ⟨d', rfl⟩ <;> rfl
  | lock =>
    obtain ⟨v, hv, he⟩ := Option.map_eq_some_iff.1 he
    cases he
    exact h.lock hv (Or.inr ⟨ht, rfl⟩)
  | read => cases he; exact h.read ht
  | clear i => cases he; exact h.clear ht
  | incr i => cases he; exact h.startIncr ht
  | wrap i => cases he; exact h.startWrap ht
  | unlock i => cases he; exact h.popUnlock ht
  | empty i u =>
    obtain ⟨⟨m, c'⟩, hr, he⟩ := Option.map_eq_some_iff.1 he
    cases he
    refine ⟨h.counts.emptyUp ht hr _, h.ring.stay rfl rfl rfl rfl rfl rfl ?_ ?_ ?_ ?_⟩
    all_goals rw [ht]; rcases (semaphoreUp_effect hr).1 with rfl | ⟨u', rfl⟩ <;> rfl

/-- every statement of every thread keeps the invariant -/
theorem Inv.exec (h : Inv N bb pc) (he : bbExec bb (pc t) = some (bb', c)) : Inv N bb' (update pc t c) := by
  cases ht : pc t with
  | out => rw [ht] at he; simp [bbExec] at he
  | put x d => rw [ht] at he; exact h.putStep ht he
  | pop d => rw [ht] at he; exact h.popStep ht he

theorem inv_step (s : St T α) (o : Op T α) (h : Inv N s.bb s.pc) : Inv N (step s o).bb (step s o).pc := by
  cases o with
  | put t x =>
    simp only [step]
    split
    · rename_i ht; exact h.putCall ht x
    · exact h
  | pop t =>
    simp only [step]
    split
    · rename_i ht; exact h.popCall ht
    · exact h
  | exec t =>
    simp only [step]
    split
    · exact h
    · rename_i bb' c he
      exact h.exec he

omit [DecidableEq T] in
theorem inv_init (N : ℕ) : Inv N (init N : St T α).bb (init N : St T α).pc := by
  refine ⟨⟨seminv_init (by omega), seminv_init le_rfl, by simp [init, bbCreate], ?_, ?_, ?_, ?_, ?_⟩,
    ⟨rfl, ?_, ?_, by simp [init, bbCreate], by simp [init, bbCreate], by simp [init, bbCreate]⟩⟩
  all_goals simp [init, bbCreate, semaphoreCreate, tally, inMutex, reserving, publishing, claiming, freeing, endBehind,
    endRaised, startBehind, startRaised]

theorem reach_inv (N : ℕ) (ops : List (Op T α)) :
    Inv N (run step (init N) ops).bb (run step (init N) ops).pc :=
  run_inv (I := fun s : St T α => Inv N s.bb s.pc) (fun s o => inv_step s o) (inv_init N) ops

/-! ## What `BB_pop` returns -/

/-- a `BB_pop` past its read holds the item of its section, and the returned items are those of their sections -/
structure Returns (bb : BB α) (pc : T → Pc α) : Prop where
  held : ∀ t i, holding (pc t) = some i → (bb.pops.map Prod.snd)[i.1]? = some i.2
  held_inj : ∀ t t' i i', holding (pc t) = some i → holding (pc t') = some i' → i.1 = i'.1 → t = t'
  ret : ∀ r ∈ bb.rets, (bb.pops.map Prod.snd)[r.1]? = some r.2
  once : (bb.rets.map Prod.fst).Nodup
  pending : ∀ t i, holding (pc t) = some i → i.1 ∉ bb.rets.map Prod.fst

/-- a statement reads an item, or returns the one it holds, or does neither -/
theorem bbExec_items {c₀ : Pc α} (he : bbExec bb c₀ = some (bb', c)) :
    bb'.pops = bb.pops ∧ bb'.rets = bb.rets ∧ holding c = holding c₀ ∨
      (∃ e, bb'.pops = bb.pops ++ [e] ∧ bb'.rets = bb.rets ∧ holding c = some (bb.pops.length, e.2)) ∨
      ∃ i, bb'.pops = bb.pops ∧ bb'.rets = bb.rets ++ [i] ∧ holding c₀ = some i ∧ holding c = none := by
  cases c₀ with
  | out => simp [bbExec] at he
  | put x d =>
    left
    cases d with
    | empty d =>
      obtain ⟨⟨m, c'⟩, hr, he⟩ := Option.map_eq_some_iff.1 he
      cases he
      rcases (semaphoreDown_effect hr).1 with rfl | ⟨d', rfl⟩ <;> exact ⟨rfl, rfl, rfl⟩
    | lock => obtain ⟨v, _, he⟩ := Option.map_eq_some_iff.1 he; cases he; exact ⟨rfl, rfl, rfl⟩
    | write => cases he; exact ⟨rfl, rfl, rfl⟩
    | incr => cases he; exact ⟨rfl, rfl, rfl⟩
    | wrap => cases he; exact ⟨rfl, rfl, rfl⟩
    | unlock => cases he; exact ⟨rfl, rfl, rfl⟩
    | full u =>
      obtain ⟨⟨m, c'⟩, hr, he⟩ := Option.map_eq_some_iff.1 he
      cases he
      rcases (semaphoreUp_effect hr).1 with rfl | ⟨d', rfl⟩ <;> exact ⟨rfl, rfl, rfl⟩
  | pop d =>
    cases d with
    | full d =>
      obtain ⟨⟨m, c'⟩, hr, he⟩ := Option.map_eq_some_iff.1 he
      cases he
      rcases (semaphoreDown_effect hr).1 with rfl | ⟨d', rfl⟩ <;> exact Or.inl ⟨rfl, rfl, rfl⟩
    | lock => obtain ⟨v, _, he⟩ := Option.map_eq_some_iff.1 he; cases he; exact Or.inl ⟨rfl, rfl, rfl⟩
    | read => cases he; exact Or.inr (Or.inl ⟨_, rfl, rfl, rfl⟩)
    | clear i => cases he; exact Or.inl ⟨rfl, rfl, rfl⟩
    | incr i => cases he; exact Or.inl ⟨rfl, rfl, rfl⟩
    | wrap i => cases he; exact Or.inl ⟨rfl, rfl, rfl⟩
    | unlock i => cases he; exact Or.inl ⟨rfl, rfl, rfl⟩
    | empty i u =>
      obtain ⟨⟨m, c'⟩, hr, he⟩ := Option.map_eq_some_iff.1 he
      cases he
      rcases (semaphoreUp_effect hr).1 with rfl | ⟨d', rfl⟩
      · exact Or.inr (Or.inr ⟨i, rfl, rfl, rfl, rfl⟩)
      · exact Or.inl ⟨rfl, rfl, rfl⟩

omit [Fintype T] [Zero α] in
/-- a move that keeps the held item, the reads and the returns -/
theorem Returns.stay (h : Returns bb pc) (h1 : bb'.pops = bb.pops) (h2 : bb'.rets = bb.rets)
    (h3 : holding c = holding (pc t)) : Returns bb' (update pc t c) := by
  have hh : ∀ t', holding (update pc t c t') = holding (pc t') := by
    intro t'
    by_cases ht : t' = t
    · subst ht; rw [update_self, h3]
    · rw [update_of_ne ht]
  refine ⟨?_, ?_, by rw [h1, h2]; exact h.ret, by rw [h2]; exact h.once, ?_⟩
  · intro t' i hi; rw [hh] at hi; rw [h1]; exact h.held t' i hi
  · intro t₁ t₂ i i' hi hi'; rw [hh] at hi hi'; exact h.held_inj t₁ t₂ i i' hi hi'
  · intro t' i hi; rw [hh] at hi; rw [h2]; exact h.pending t' i hi

omit [Fintype T] in
theorem Returns.exec (h : Returns bb pc) (he : bbExec bb (pc t) = some (bb', c)) :
    Returns bb' (update pc t c) := by
  have lt_of_held : ∀ {j : ℕ} {x : α}, (bb.pops.map Prod.snd)[j]? = some x → j < bb.pops.length := by
    intro j x hj; simpa using (List.getElem?_eq_some_iff.1 hj).1
  rcases bbExec_items he with ⟨h1, h2, h3⟩ | ⟨e, h1, h2, h3⟩ | ⟨i, h1, h2, h3, h4⟩
  · exact h.stay h1 h2 h3
  · -- a read: the new item has the number of the new section, larger than all before
    have hold : ∀ {j : ℕ} {x : α}, (bb.pops.map Prod.snd)[j]? = some x → (bb'.pops.map Prod.snd)[j]? = some x := by
      intro j x hj
      rw [h1, List.map_append, List.getElem?_append_left (by simpa using lt_of_held hj)]
      exact hj
    have hnew : ∀ t' i, holding (update pc t c t') = some i →
        t' = t ∧ i = (bb.pops.length, e.2) ∨ t' ≠ t ∧ holding (pc t') = some i := by
      intro t' i hi
      by_cases ht : t' = t
      · subst ht; rw [update_self, h3] at hi; exact Or.inl ⟨rfl, (Option.some.inj hi).symm⟩
      · rw [update_of_ne ht] at hi; exact Or.inr ⟨ht, hi⟩
    refine ⟨?_, ?_, ?_, by rw [h2]; exact h.once, ?_⟩
    · intro t' i hi
      rcases hnew t' i hi with ⟨-, rfl⟩ | ⟨-, hi⟩
      · rw [h1]; simp
      · exact hold (h.held t' i hi)
    · intro t₁ t₂ i i' hi hi' hii
      rcases hnew t₁ i hi with ⟨ht₁, hi₁⟩ | ⟨-, hi₁⟩ <;> rcases hnew t₂ i' hi' with ⟨ht₂, hi₂⟩ | ⟨-, hi₂⟩
      · rw [ht₁, ht₂]
      · have := lt_of_held (h.held t₂ i' hi₂); rw [hi₁] at hii; simp only at hii; omega
      · have := lt_of_held (h.held t₁ i hi₁); rw [hi₂] at hii; simp only at hii; omega
      · exact h.held_inj t₁ t₂ i i' hi₁ hi₂ hii
    · intro r hr; rw [h2] at hr; exact hold (h.ret r hr)
    · intro t' i hi hm
      rw [h2] at hm
      rcases hnew t' i hi with ⟨-, rfl⟩ | ⟨-, hi⟩
      · obtain ⟨r, hr, hrj⟩ := List.mem_map.1 hm
        have := lt_of_held (h.ret r hr)
        simp only at hrj; omega
      · exact h.pending t' i hi hm
  · -- a return: the item leaves the thread and joins the returned ones
    have hnew : ∀ t' i', holding (update pc t c t') = some i' → t' ≠ t ∧ holding (pc t') = some i' := by
      intro t' i' hi
      by_cases ht : t' = t
      · subst ht; rw [update_self, h4] at hi; cases hi
      · rw [update_of_ne ht] at hi; exact ⟨ht, hi⟩
    refine ⟨?_, ?_, ?_, ?_, ?_⟩
    · intro t' i' hi; rw [h1]; exact h.held t' i' (hnew t' i' hi).2
    · intro t₁ t₂ i₁ i₂ hi hi'; exact h.held_inj t₁ t₂ i₁ i₂ (hnew t₁ i₁ hi).2 (hnew t₂ i₂ hi').2
    · intro r hr
      rw [h2] at hr
      rw [h1]
      rcases List.mem_append.1 hr with hr | hr
      · exact h.ret r hr
      · rw [List.mem_singleton] at hr; subst hr; exact h.held t r h3
    · rw [h2, List.map_append]
      exact List.Nodup.append h.once (List.nodup_singleton _) (by simpa using h.pending t i h3)
    · intro t' i' hi hm
      obtain ⟨hne, hi⟩ := hnew t' i' hi
      rw [h2, List.map_append, List.mem_append] at hm
      rcases hm with hm | hm
      · exact h.pending t' i' hi hm
      · simp only [List.map_cons, List.map_nil, List.mem_singleton] at hm
        exact hne (h.held_inj t' t i' i hi h3 hm)

omit [Fintype T] in
theorem returns_step (s : St T α) (o : Op T α) (h : Returns s.bb s.pc) : Returns (step s o).bb (step s o).pc := by
  cases o with
  | put t x =>
    simp only [step]
    split
    · rename_i ht; exact h.stay rfl rfl (by rw [ht]; rfl)
    · exact h
  | pop t =>
    simp only [step]
    split
    · rename_i ht; exact h.stay rfl rfl (by rw [ht]; rfl)
    · exact h
  | exec t =>
    simp only [step]
    split
    · exact h
    · rename_i bb' c he
      exact h.exec he

omit [Fintype T] in
theorem reach_returns (N : ℕ) (ops : List (Op T α)) :
    Returns (run step (init N) ops).bb (run step (init N) ops).pc := by
  refine run_inv (I := fun s : St T α => Returns s.bb s.pc) (fun s o => returns_step s o) ?_ ops
  constructor <;> simp [init, bbCreate, holding]

/-! ## Main results -/

/-- slot `i` holds an element that was put there and has not been popped -/
def HoldsUnpopped (bb : BB α) (i : ℕ) : Prop := ∃ j e, bb.pops.length ≤ j ∧ bb.puts[j]? = some (i, e)

/-- **The bounded buffer is a linearizable FIFO.** For every capacity, any number of threads and any interleaving of
statements, in every reachable state: the items popped, in the order of the mutex sections, are a prefix of the
elements put, in the order of theirs; every `BB_pop` that has returned gave back the item of its own section, and no
two the same section; a thread about to write finds no unpopped element in its slot; and a thread about to read finds
in its slot the oldest element that has been put and not popped. Both slots are inside the array. -/
theorem bounded_buffer_fifo (N : ℕ) (hN : 1 ≤ N) (ops : List (Op T α)) :
    let s := run step (init N) ops
    s.bb.pops.map Prod.snd <+: s.bb.puts.map Prod.snd ∧
      (∀ r ∈ s.bb.rets, (s.bb.pops.map Prod.snd)[r.1]? = some r.2) ∧ (s.bb.rets.map Prod.fst).Nodup ∧
      (∀ t x, s.pc t = .put x .write → s.bb.end_ < N ∧ ¬ HoldsUnpopped s.bb s.bb.end_) ∧
      (∀ t, s.pc t = .pop .read →
        s.bb.start < N ∧ s.bb.puts[s.bb.pops.length]? = some (s.bb.start, s.bb.elements s.bb.start)) := by
  intro s
  have h : Inv N s.bb s.pc := reach_inv N ops
  have hr : Returns s.bb s.pc := reach_returns N ops
  refine ⟨?_, hr.ret, hr.once, ?_, ?_⟩
  · rw [h.ring.order]
    exact (List.take_prefix _ _).map _
  · intro t x ht
    obtain ⟨hend, hroom⟩ := h.end_at_write ht
    refine ⟨hend ▸ Nat.mod_lt _ hN, ?_⟩
    rintro ⟨j, e, hj, hje⟩
    have hlt : j < s.bb.puts.length := (List.getElem?_eq_some_iff.1 hje).1
    have hslot := h.ring.slots j _ hje
    rw [hend] at hslot
    exact mod_ne_of_lt hlt (by omega) hslot.symm
  · intro t ht
    obtain ⟨hstart, hlt⟩ := h.start_at_read ht
    refine ⟨hstart ▸ Nat.mod_lt _ hN, ?_⟩
    obtain ⟨e, he⟩ : ∃ e, s.bb.puts[s.bb.pops.length]? = some e := ⟨_, List.getElem?_eq_getElem hlt⟩
    have h1 := h.ring.slots _ e he
    have h2 := h.ring.content _ e le_rfl he
    rw [← hstart] at h1 h2
    rw [he, h2, ← h1]

/-- one producer and one consumer on a buffer of one slot; the second put waits until the first item is popped -/
def handover : List (Op (Fin 2) ℕ) :=
  [Op.put 0 7] ++ List.replicate 15 (Op.exec 0) ++ [Op.put 0 8, Op.exec 0, Op.pop 1] ++ List.replicate 16 (Op.exec 1) ++
    List.replicate 6 (Op.exec 0)

theorem handover_fifo : 1 ≤ 1 ∧ (run step (init 1) handover).pc 0 = .put 8 .write ∧
    ¬ HoldsUnpopped (run step (init 1) handover).bb (run step (init 1) handover).bb.end_ ∧
    (run step (init 1) handover).bb.rets = [(0, 7)] := by
  have hw : (run step (init 1) handover).pc 0 = .put 8 .write := by decide
  exact ⟨le_rfl, hw, ((bounded_buffer_fifo 1 le_rfl handover).2.2.2.1 0 8 hw).2, by decide⟩

/-- outside `BB_put` and `BB_pop`, or waiting at the first gate of the first `semaphore_down` -/
def Quiet (c : Pc α) : Prop := c = .out ∨ (∃ x, c = .put x (.empty .takeGate)) ∨ c = .pop (.full .takeGate)

/-- the number of stored elements: put and not popped -/
def stored (bb : BB α) : ℕ := bb.puts.length - bb.pops.length

omit [DecidableEq T] [Zero α] in
/-- with every thread quiet, the two counters are the numbers of stored elements and of free slots -/
theorem Inv.quiet (h : Inv N bb pc) (hq : ∀ t, Quiet (pc t)) :
    bb.full.value = stored bb ∧ bb.empty.value = N - stored bb := by
  have zero : ∀ w : Pc α → ℤ, w .out = 0 → (∀ x, w (.put x (.empty .takeGate)) = 0) → w (.pop (.full .takeGate)) = 0 →
      tally w pc = 0 := by
    intro w h1 h2 h3
    refine tally_eq_zero fun t => ?_
    rcases hq t with ht | ⟨x, ht⟩ | ht <;> rw [ht]
    exacts [h1, h2 x, h3]
  have r := h.counts.reserved
  have p := h.counts.published
  have c := h.counts.claimed
  have f := h.counts.freed
  rw [zero reserving rfl (fun _ => rfl) rfl] at r
  rw [zero publishing rfl (fun _ => rfl) rfl] at p
  rw [zero claiming rfl (fun _ => rfl) rfl] at c
  rw [zero freeing rfl (fun _ => rfl) rfl] at f
  have hE := h.counts.emptyInv.legal.balance
  have hF := h.counts.fullInv.legal.balance
  have hle := h.counts.fullInv.nonneg
  unfold stored
  omega

/-- inside the lock of either semaphore, or inside the mutex, a thread never blocks -/
theorem bbExec_of_locking (bb : BB α) {c : Pc α}
    (h : locking (emptyPc c) = 1 ∨ locking (fullPc c) = 1 ∨ inMutex c = 1) : (bbExec bb c).isSome := by
  cases c with
  | out => simp [emptyPc, fullPc, locking, inMutex] at h
  | put x d =>
    cases d with
    | empty d =>
      have := semExec_of_locking bb.empty (by simpa [emptyPc, fullPc, inMutex, locking] using h)
      simpa [bbExec, bbPut, semExec] using this
    | full u =>
      have := semExec_of_locking bb.full (by simpa [emptyPc, fullPc, inMutex, locking] using h)
      simpa [bbExec, bbPut, semExec] using this
    | lock => simp [emptyPc, fullPc, locking, inMutex] at h
    | _ => rfl
  | pop d =>
    cases d with
    | full d =>
      have := semExec_of_locking bb.full (by simpa [emptyPc, fullPc, inMutex, locking] using h)
      simpa [bbExec, bbPop, semExec] using this
    | empty i u =>
      have := semExec_of_locking bb.empty (by simpa [emptyPc, fullPc, inMutex, locking] using h)
      simpa [bbExec, bbPop, semExec] using this
    | lock => simp [emptyPc, fullPc, locking, inMutex] at h
    | _ => rfl

omit [DecidableEq T] in
/-- if no thread can move, the locks and the mutex are free, so every thread is quiet -/
theorem Inv.quiet_of_stuck (h : Inv N bb pc) (hs : ∀ t, bbExec bb (pc t) = none) : ∀ t, Quiet (pc t) := by
  have hno : ∀ t, ¬ (locking (emptyPc (pc t)) = 1 ∨ locking (fullPc (pc t)) = 1 ∨ inMutex (pc t) = 1) := by
    intro t ht
    have := bbExec_of_locking bb ht
    rw [hs t] at this
    simp at this
  have hlock : ∀ c, locking c = 0 ∨ locking c = 1 := by
    intro c; unfold locking; split <;> simp
  have hmut : ∀ c : Pc α, inMutex c = 0 ∨ inMutex c = 1 := by
    intro c; unfold inMutex; split <;> simp
  have h1 : bb.empty.s1 = 1 := by
    have h0 : tally locking (emptyPc ∘ pc) = 0 :=
      tally_eq_zero fun t => (hlock _).resolve_right fun e => hno t (Or.inl e)
    simpa [h0] using h.counts.emptyInv.lock
  have h2 : bb.full.s1 = 1 := by
    have h0 : tally locking (fullPc ∘ pc) = 0 :=
      tally_eq_zero fun t => (hlock _).resolve_right fun e => hno t (Or.inr (Or.inl e))
    simpa [h0] using h.counts.fullInv.lock
  have h3 : bb.mutex = 1 := by
    have h0 : tally inMutex pc = 0 := tally_eq_zero fun t => (hmut _).resolve_right fun e => hno t (Or.inr (Or.inr e))
    simpa [h0] using h.counts.mutex
  intro t
  have hst := hs t
  cases hc : pc t with
  | out => exact Or.inl rfl
  | put x d =>
    rw [hc] at hst
    cases d with
    | empty d =>
      cases d with
      | takeGate => exact Or.inr (Or.inl ⟨x, rfl⟩)
      | _ => simp [bbExec, bbPut, semaphoreDown, binarySemaphoreDown, h1] at hst
    | full u => cases u <;> simp [bbExec, bbPut, semaphoreUp, binarySemaphoreDown, h2] at hst
    | _ => simp [bbExec, bbPut, binarySemaphoreDown, h3] at hst
  | pop d =>
    rw [hc] at hst
    cases d with
    | full d =>
      cases d with
      | takeGate => exact Or.inr (Or.inr rfl)
      | _ => simp [bbExec, bbPop, semaphoreDown, binarySemaphoreDown, h2] at hst
    | empty i u => cases u <;> simp [bbExec, bbPop, semaphoreUp, binarySemaphoreDown, h1] at hst
    | _ => simp [bbExec, bbPop, binarySemaphoreDown, h3] at hst

omit [Zero α] in
/-- a quiet thread is at the door of both semaphores -/
theorem Quiet.atDoor {c : Pc α} (h : Quiet c) : AtDoor (emptyPc c) ∧ AtDoor (fullPc c) := by
  rcases h with rfl | ⟨x, rfl⟩ | rfl
  · exact ⟨Or.inl rfl, Or.inl rfl⟩
  · exact ⟨Or.inr (Or.inl rfl), Or.inl rfl⟩
  · exact ⟨Or.inl rfl, Or.inr (Or.inl rfl)⟩

/-- **Accounting, and no stuck state.** In every reachable state: if every thread is outside `BB_put` and `BB_pop` or
still at the first gate, `full->value` is the number of stored elements and `empty->value` is the number of free
slots; and if some thread is blocked inside `BB_pop` while an element is stored, or inside `BB_put` while a slot is
free, then some thread's next statement is enabled. -/
theorem bounded_buffer_accounting (N : ℕ) (ops : List (Op T α)) :
    let s := run step (init N) ops
    ((∀ t, Quiet (s.pc t)) → s.bb.full.value = stored s.bb ∧ s.bb.empty.value = N - stored s.bb) ∧
      ∀ t, bbExec s.bb (s.pc t) = none →
        ((∃ d, s.pc t = .pop d) ∧ 0 < stored s.bb ∨ (∃ x d, s.pc t = .put x d) ∧ stored s.bb < N) →
        ∃ t', (bbExec s.bb (s.pc t')).isSome := by
  intro s
  have h : Inv N s.bb s.pc := reach_inv N ops
  refine ⟨h.quiet, fun t _ hblock => ?_⟩
  by_contra hno
  have hs : ∀ t, bbExec s.bb (s.pc t) = none := by
    intro t'
    by_contra hne
    exact hno ⟨t', Option.isSome_iff_ne_none.2 hne⟩
  have hq := h.quiet_of_stuck hs
  obtain ⟨hfull, hempty⟩ := h.quiet hq
  -- the counter the thread waits for is positive, so its gate is open: contradiction
  rcases hblock with ⟨⟨d, hd⟩, hpos⟩ | ⟨⟨x, d, hd⟩, hroom⟩
  · have h2 := h.counts.fullInv.gate_open (fun t' => (hq t').atDoor.2) (by omega)
    rcases hq t with e | ⟨y, e⟩ | e
    · rw [hd] at e; cases e
    · rw [hd] at e; cases e
    · have := hs t
      rw [e] at this
      simp [bbExec, bbPop, semaphoreDown, binarySemaphoreDown, h2] at this
  · have h2 := h.counts.emptyInv.gate_open (fun t' => (hq t').atDoor.1) (by omega)
    rcases hq t with e | ⟨y, e⟩ | e
    · rw [hd] at e; cases e
    · have := hs t
      rw [e] at this
      simp [bbExec, bbPut, semaphoreDown, binarySemaphoreDown, h2] at this
    · rw [hd] at e; cases e

/-- a buffer of one slot with one element: the next put waits at its gate, and a pop can still move -/
def waitingPut : List (Op (Fin 2) ℕ) := [Op.put 0 7] ++ List.replicate 15 (Op.exec 0) ++ [Op.put 0 8, Op.pop 1]

theorem waitingPut_accounting : (∀ t, Quiet ((run step (init 1) waitingPut).pc t)) ∧
    (run step (init 1) waitingPut).bb.full.value = 1 := by
  have hq : ∀ t, Quiet ((run step (init 1) waitingPut).pc t) := by
    intro t
    match t with
    | 0 => exact Or.inr (Or.inl ⟨8, by decide⟩)
    | 1 => exact Or.inr (Or.inr (by decide))
  exact ⟨hq, ((bounded_buffer_accounting 1 waitingPut).1 hq).1⟩

end Xv6Threads.BoundedBuffer
