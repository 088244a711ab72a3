/-
The queue of a binary semaphore: `waiting` in the semaphore, `sem_queue_pos` in the slots of the waiting processes.

The queue of `id` is the set of slots with `waiting_for_semaphore = id` and a positive position (`Queued`). It is in
order (`Lined`) if its positions are 1, …, waiting, each once, and every queued slot holds a process that is inside
`binary_semaphore_down`. The calls of `down` and `up` keep it so. What breaks it is `exit`: the loop over the table makes
a zombie of every slot with the exiting pid, also of one that is queued, and nobody corrects the semaphore.

Results:
- `down_cases`, `downLoop_cases`, `up_slot_spec`: what the sections of `down` and `up` do.
- `step_lined`: every step keeps the queues in order, if no `exit` hits a queued slot.
- `queue_survives`: so in every state of a run of such steps, `waiting` is the number of live waiters.
- `waiter_dies`: a run in which it is not, because a waiting thread dies with its process.
-/
import Xv6Threads.Core.Ranks
import Xv6Threads.Kernel.SemaphoreSteps

namespace Xv6Threads.Kernel

open Xv6Threads.Core Function

variable {N K : ℕ}

/-! ## The sections of binary_semaphore_down and binary_semaphore_up -/

section Sections

variable {s : St N K} {c : Fin K} {p q : Fin N} {id : SemId}

/-- one round of `down`: it is refused, takes the value, joins the queue, or goes back to sleep -/
theorem downLoop_cases (s : St N K) (c : Fin K) (p : Fin N) (id : SemId) :
    ((s.semtable id).created = false ∧ downLoop s c p id = s.sysret p (-1)) ∨
    ((s.semtable id).created = true ∧ (s.semtable id).value ≠ 0 ∧ (s.ptable p).semQueuePos = 0 ∧
      downLoop s c p id = semTake s p id) ∨
    ((s.semtable id).created = true ∧ (s.semtable id).value = 0 ∧ (s.ptable p).semQueuePos = 0 ∧
      downLoop s c p id = semSleep (enqueue s p id) c p id) ∨
    ((s.semtable id).created = true ∧ (s.ptable p).semQueuePos ≠ 0 ∧ downLoop s c p id = semSleep s c p id) := by
  unfold downLoop
  cases hc : (s.semtable id).created
  · simp
  by_cases hp : (s.ptable p).semQueuePos = 0
  · by_cases hv : (s.semtable id).value = 0
    · simp [hv, hp]
    · simp [hv, hp]
  · simp [hp]

/-- the call of `down`: a caller that finds others waiting joins the queue without looking at the value -/
theorem down_cases (hn : 0 ≤ (s.semtable id).waiting)
    (hf : (s.semtable id).created = false → (s.semtable id).waiting = 0) (c : Fin K) (p : Fin N) :
    ((s.semtable id).created = false ∧
      binarySemaphoreDown s c p id = (s.log (.call (s.who p) id)).sysret p (-1)) ∨
    ((s.semtable id).created = true ∧ (s.semtable id).waiting = 0 ∧ (s.semtable id).value ≠ 0 ∧
      (s.ptable p).semQueuePos = 0 ∧ binarySemaphoreDown s c p id = semTake (s.log (.call (s.who p) id)) p id) ∨
    ((s.semtable id).created = true ∧
      ((s.semtable id).waiting ≠ 0 ∨ (s.semtable id).value = 0 ∧ (s.ptable p).semQueuePos = 0) ∧
      binarySemaphoreDown s c p id = semSleep (enqueue (s.log (.call (s.who p) id)) p id) c p id) ∨
    ((s.semtable id).created = true ∧ (s.semtable id).waiting = 0 ∧ (s.ptable p).semQueuePos ≠ 0 ∧
      binarySemaphoreDown s c p id = semSleep (s.log (.call (s.who p) id)) c p id) := by
  by_cases hw : (s.semtable id).waiting = 0
  · have he : binarySemaphoreDown s c p id = downLoop (s.log (.call (s.who p) id)) c p id := by
      simp [binarySemaphoreDown, hw]
    rw [he]
    rcases downLoop_cases (s.log (.call (s.who p) id)) c p id with h | h | h | h
    · exact Or.inl h
    · exact Or.inr (Or.inl ⟨h.1, hw, h.2⟩)
    · exact Or.inr (Or.inr (Or.inl ⟨h.1, Or.inr ⟨h.2.1, h.2.2.1⟩, h.2.2.2⟩))
    · exact Or.inr (Or.inr (Or.inr ⟨h.1, hw, h.2⟩))
  · -- the new position is positive, so the first round of the loop neither takes the value nor queues again
    have hc : (s.semtable id).created = true := by
      by_contra h
      exact hw (hf (Bool.eq_false_iff.2 h))
    have hpos : ((enqueue (s.log (.call (s.who p) id)) p id).ptable p).semQueuePos ≠ 0 := by
      simp [enqueue]
      omega
    refine Or.inr (Or.inr (Or.inl ⟨hc, Or.inl hw, ?_⟩))
    simp only [binarySemaphoreDown, St.log_semtable, if_pos hw, downLoop, hpos, and_false, if_false]
    simp [enqueue, hc]

theorem semSleep_self (s : St N K) (c : Fin K) (p : Fin N) (id : SemId) :
    (semSleep s c p id).ptable p =
      { s.ptable p with waitingForSemaphore := some id, chan := .sem id, state := .sleeping } := by
  simp [semSleep, St.sleep]

/-- a process that went to sleep in `down` is inside it -/
theorem semSleep_inDown (s : St N K) (c : Fin K) (p : Fin N) (id : SemId) : InDown (semSleep s c p id) id p := by
  refine ⟨?_, by simp [semSleep, St.sleep]⟩
  rw [semSleep_self]
  exact Or.inl rfl

/-- only process `p` moved -/
def Others (p : Fin N) (s s' : St N K) : Prop := ∀ q, q ≠ p → s'.ptable q = s.ptable q ∧ s'.pc q = s.pc q

theorem Others.trans {s₁ s' : St N K} (h : Others p s s₁) (h' : Others p s₁ s') : Others p s s' :=
  fun q hq => ⟨(h' q hq).1.trans (h q hq).1, (h' q hq).2.trans (h q hq).2⟩

theorem others_sysret (s : St N K) (p : Fin N) (v : ℤ) : Others p s (s.sysret p v) :=
  fun q hq => ⟨rfl, by simp [hq]⟩

theorem others_semTake (s : St N K) (p : Fin N) (id : SemId) : Others p s (semTake s p id) :=
  fun q hq => ⟨by simp [semTake, Table.write_of_ne _ hq], by simp [semTake, hq]⟩

theorem others_enqueue (s : St N K) (p : Fin N) (id : SemId) : Others p s (enqueue s p id) :=
  fun q hq => ⟨by simp [enqueue, Table.write_of_ne _ hq], rfl⟩

theorem others_semSleep (s : St N K) (c : Fin K) (p : Fin N) (id : SemId) : Others p s (semSleep s c p id) :=
  fun q hq => ⟨by simp [semSleep, St.sleep, Table.write_of_ne _ hq], by simp [semSleep, St.sleep, hq]⟩

theorem others_create (s : St N K) (p : Fin N) (v : ℤ) : Others p s (binarySemaphoreCreate s p v) := by
  unfold binarySemaphoreCreate
  split <;> exact fun q hq => ⟨rfl, by simp [hq]⟩

theorem Others.inDown {s' : St N K} (h : Others p s s') (hq : q ≠ p) : InDown s' id q ↔ InDown s id q := by
  unfold InDown
  rw [(h q hq).1, (h q hq).2]

/-- what `binary_semaphore_up` does to a slot: a registered process other than the caller moves up one place -/
structure Upped (proc : Fin N) (id : SemId) (q : Fin N) (x y : Proc N) : Prop where
  active : y.state.Active ↔ x.state.Active
  sleeping : y.state = .sleeping → x.state = .sleeping
  embryo : y.state = .embryo ↔ x.state = .embryo
  uid : y.uid = x.uid
  waitingFor : y.waitingForSemaphore = x.waitingForSemaphore
  pos : y.semQueuePos = if q ≠ proc ∧ x.waitingForSemaphore = some id then x.semQueuePos - 1 else x.semQueuePos

theorem upSlot_upped (t : Table N) (p : Fin N) (id : SemId) (q : Fin N) : Upped p id q (t q) (upSlot t p id q) := by
  unfold upSlot
  split
  · rename_i h
    exact ⟨Iff.rfl, fun hs => hs, Iff.rfl, rfl, rfl, by rw [if_pos h]⟩
  · rename_i h
    exact ⟨Iff.rfl, fun hs => hs, Iff.rfl, rfl, rfl, by rw [if_neg h]⟩

theorem Upped.wakeFirst {x y : Proc N} (h : Upped p id q x y) : Upped p id q x y.wakeFirst := by
  unfold Proc.wakeFirst
  by_cases hs : y.state = .sleeping
  · have hx := h.sleeping hs
    exact ⟨by simp [hs, hx, ProcState.Active], by simp [hs], by simp [hs, hx], h.uid, h.waitingFor, h.pos⟩
  · simpa [hs] using h

theorem up_slot_spec (t : Table N) (p : Fin N) (id : SemId) (o : Option (Fin N)) (q : Fin N) :
    Upped p id q (t q) ((upSlot t p id).writeAt o Proc.wakeFirst q) := by
  have h := upSlot_upped t p id q
  cases o with
  | none => exact h
  | some f =>
    by_cases hq : q = f
    · subst hq
      simp only [Table.writeAt, Table.write_self]
      exact h.wakeFirst
    · simpa only [Table.writeAt, Table.write_of_ne _ hq] using h

/-- the state after a successful `up` -/
structure UpDone (s s' : St N K) (p : Fin N) (id : SemId) : Prop where
  slot : ∀ q, Upped p id q (s.ptable q) (s'.ptable q)
  woken : ∀ q ∈ upFirst s.ptable p id, (s'.ptable q).state ≠ .sleeping
  pc : s'.pc = update s.pc p .user
  semtable : s'.semtable = update s.semtable id { s.semtable id with
    waiting := if 0 < (s.semtable id).waiting then (s.semtable id).waiting - 1 else (s.semtable id).waiting, value := 1 }
  hist : s'.hist = s.hist ++ [.up (s.who p) id]

theorem up_cases (s : St N K) (p : Fin N) (id : SemId) :
    ((s.semtable id).created = false ∧ binarySemaphoreUp s p id = s.sysret p (-1)) ∨
    ((s.semtable id).created = true ∧ UpDone s (binarySemaphoreUp s p id) p id) := by
  cases hc : (s.semtable id).created
  · exact Or.inl ⟨rfl, by simp [binarySemaphoreUp, hc]⟩
  · refine Or.inr ⟨rfl, ?_⟩
    unfold binarySemaphoreUp
    rw [if_pos hc]
    refine ⟨fun q => up_slot_spec _ p id _ q, fun q hq => ?_, rfl, rfl, ?_⟩
    · rw [Option.mem_def] at hq
      simp only [St.sysret_ptable, St.log_ptable, hq, Table.writeAt, Table.write_self, Proc.wakeFirst]
      by_cases hs : (upSlot s.ptable p id q).state = .sleeping <;> simp [hs]
    · simp only [St.sysret_hist, St.log_hist, St.who, (up_slot_spec s.ptable p id _ p).uid]

end Sections

/-! ## Queues in order -/

/-- slot `q` has a place in the queue of semaphore `id` -/
def Queued (s : St N K) (id : SemId) (q : Fin N) : Prop :=
  (s.ptable q).waitingForSemaphore = some id ∧ 0 < (s.ptable q).semQueuePos

instance (s : St N K) (id : SemId) : DecidablePred (Queued s id) := fun q => by
  unfold Queued
  infer_instance

structure Lined (s : St N K) : Prop where
  queued : ∀ q, 0 < (s.ptable q).semQueuePos → ∃ id, InDown s id q ∧ (s.ptable q).waitingForSemaphore = some id
  ranks : ∀ id, Ranks (Queued s id) (fun q => (s.ptable q).semQueuePos) (s.semtable id).waiting
  fresh : ∀ id, (s.semtable id).created = false → (s.semtable id).waiting = 0

section Lined

variable {s s' : St N K} {c : Fin K} {p q : Fin N} {id : SemId}

/-- outside `down` there is no place in a queue -/
theorem Lined.pos_le (h : Lined s) (hp : (s.pc p).Out) : (s.ptable p).semQueuePos ≤ 0 := by
  by_contra hpos
  obtain ⟨id, hd, _⟩ := h.queued p (not_le.1 hpos)
  exact hp id hd.2

/-- the places, and the processes that have them, are the same -/
theorem Lined.same (h : Lined s) (hs : ∀ q, 0 < (s.ptable q).semQueuePos → CalmSlot (s.ptable q) (s'.ptable q) ∧
      s'.pc q = s.pc q)
    (hb : ∀ q, 0 < (s'.ptable q).semQueuePos → 0 < (s.ptable q).semQueuePos)
    (ht : ∀ id, (s'.semtable id).waiting = (s.semtable id).waiting)
    (hc : ∀ id, (s'.semtable id).created = false → (s.semtable id).created = false) : Lined s' := by
  refine ⟨fun q hq => ?_, fun id => ?_, fun id hid => ?_⟩
  · obtain ⟨id, hd, hw⟩ := h.queued q (hb q hq)
    obtain ⟨hcalm, hpc⟩ := hs q (hb q hq)
    exact ⟨id, hd.calm hpc hcalm, hcalm.waitingFor.trans hw⟩
  · rw [ht]
    refine (h.ranks id).congr (fun q => ?_) fun q hq => (hs q hq.2).1.pos
    constructor
    · rintro ⟨hw, hpos⟩
      have hcalm := (hs q (hb q hpos)).1
      exact ⟨hcalm.waitingFor.symm.trans hw, hb q hpos⟩
    · rintro ⟨hw, hpos⟩
      have hcalm := (hs q hpos).1
      exact ⟨hcalm.waitingFor.trans hw, hcalm.pos.symm ▸ hpos⟩
  · rw [ht]
    exact h.fresh id (hc id hid)

/-- a step that passes the semaphores by leaves the queues as they are, if it spares whoever is queued -/
theorem Lined.aside {spared : Fin N → Prop} (h : Lined s) (ha : Aside spared s s')
    (hs : ∀ q, 0 < (s.ptable q).semQueuePos → spared q) : Lined s' := by
  have hin : ∀ q, 0 < (s.ptable q).semQueuePos → CalmSlot (s.ptable q) (s'.ptable q) ∧ s'.pc q = s.pc q := by
    intro q hq
    rcases ha.slot q with ⟨hpc, hcalm⟩ | ho
    · exact ⟨hcalm, hpc⟩
    · obtain ⟨id, hd, _⟩ := h.queued q hq
      exact absurd hd (ho.before (hs q hq) id)
  refine h.same hin (fun q hq => ?_) (fun id => by rw [ha.semtable]) fun id => by rw [ha.semtable]; exact fun h => h
  rcases ha.slot q with ⟨_, hcalm⟩ | ho
  · rwa [← hcalm.pos]
  · rcases ho.pos with he | he <;> omega

/-- a process that has no place moves and gets none -/
theorem Lined.own (h : Lined s) (ho : Others p s s') (hp : (s.ptable p).semQueuePos ≤ 0)
    (hp' : (s'.ptable p).semQueuePos ≤ 0) (ht : ∀ id, (s'.semtable id).waiting = (s.semtable id).waiting)
    (hc : ∀ id, (s'.semtable id).created = false → (s.semtable id).created = false) : Lined s' := by
  refine h.same (fun q hq => ?_) (fun q hq => ?_) ht hc
  · have hqp : q ≠ p := by
      rintro rfl
      omega
    rw [(ho q hqp).1]
    exact ⟨.refl _, (ho q hqp).2⟩
  · have hqp : q ≠ p := by
      rintro rfl
      omega
    rwa [← (ho q hqp).1]

/-- a process that has no place joins the queue of `id` at its end -/
theorem Lined.join (h : Lined s) (hp : (s.ptable p).semQueuePos ≤ 0) (hc : (s.semtable id).created = true) :
    Lined (semSleep (enqueue s p id) c p id) := by
  have ho : Others p s (semSleep (enqueue s p id) c p id) := (others_enqueue s p id).trans (others_semSleep _ c p id)
  have hself : ((semSleep (enqueue s p id) c p id).ptable p).semQueuePos = (s.semtable id).waiting + 1 := by
    simp [semSleep_self, enqueue]
  have hwait : ((semSleep (enqueue s p id) c p id).ptable p).waitingForSemaphore = some id := by
    simp [semSleep_self]
  have hsem : (semSleep (enqueue s p id) c p id).semtable =
      update s.semtable id { s.semtable id with waiting := (s.semtable id).waiting + 1 } := rfl
  -- everybody else is queued as before
  have hq : ∀ i q, q ≠ p → (Queued (semSleep (enqueue s p id) c p id) i q ↔ Queued s i q) := by
    intro i q hqp
    unfold Queued
    rw [(ho q hqp).1]
  have hpq : ∀ i, ¬ Queued s i p := fun i hq => by
    have := hq.2
    omega
  refine ⟨fun q hpos => ?_, fun i => ?_, fun i hi => ?_⟩
  · by_cases hqp : q = p
    · subst hqp
      exact ⟨id, semSleep_inDown _ c q id, hwait⟩
    · rw [(ho q hqp).1] at hpos ⊢
      obtain ⟨i, hd, hw⟩ := h.queued q hpos
      exact ⟨i, (ho.inDown hqp).2 hd, hw⟩
  · have hn := (h.ranks id).nonneg
    by_cases hi : i = id
    · subst hi
      rw [hsem, update_self]
      refine (h.ranks i).enqueue (fun q => ?_) (fun q hqp => by rw [(ho q hqp).1]) (hpq i) hself
      by_cases hqp : q = p
      · subst hqp
        exact iff_of_true ⟨hwait, by omega⟩ (Or.inr rfl)
      · simp only [hq i q hqp, hqp, or_false]
    · rw [hsem, update_of_ne hi]
      have hpi : ¬ Queued (semSleep (enqueue s p id) c p id) i p := by
        rintro ⟨hw, _⟩
        rw [hwait] at hw
        exact hi (Option.some.inj hw).symm
      refine (h.ranks i).congr (fun q => ?_) fun q hqs => ?_
      · by_cases hqp : q = p
        · subst hqp
          exact iff_of_false hpi (hpq i)
        · exact hq i q hqp
      · have hqp : q ≠ p := by
          rintro rfl
          exact hpq i hqs
        rw [(ho q hqp).1]
  · rw [hsem] at hi ⊢
    by_cases hid : i = id
    · subst hid
      simp [hc] at hi
    · simp only [update_of_ne hid] at hi ⊢
      exact h.fresh i hi

/-- a process that goes back to sleep in `down(id)` keeps its place or has none -/
theorem Lined.sleep (h : Lined s) (hp : (s.ptable p).semQueuePos ≤ 0 ∨ s.pc p = .downSleep id) :
    Lined (semSleep s c p id) := by
  by_cases hpos : (s.ptable p).semQueuePos ≤ 0
  · exact h.own (others_semSleep s c p id) hpos (by simpa [semSleep_self] using hpos) (fun _ => rfl) fun _ h => h
  · have hpc := hp.resolve_left hpos
    obtain ⟨i, hd, hw⟩ := h.queued p (not_le.1 hpos)
    obtain rfl : i = id := by
      have := hd.2.symm.trans hpc
      injection this
    have ho := others_semSleep s c p i
    -- the slot sleeps again; nothing else about it changes
    refine ⟨fun q hq => ?_, fun i' => ?_, fun i' => h.fresh i'⟩
    · by_cases hqp : q = p
      · subst hqp
        exact ⟨i, semSleep_inDown s c q i, by simp [semSleep_self]⟩
      · rw [(ho q hqp).1] at hq ⊢
        obtain ⟨i', hd', hw'⟩ := h.queued q hq
        exact ⟨i', (ho.inDown hqp).2 hd', hw'⟩
    · refine (h.ranks i').congr (fun q => ?_) fun q _ => ?_
      · by_cases hqp : q = p
        · subst hqp
          simp [Queued, semSleep_self, hw]
        · simp [Queued, (ho q hqp).1]
      · by_cases hqp : q = p
        · subst hqp
          simp [semSleep_self]
        · rw [(ho q hqp).1]

theorem Lined.up (h : Lined s) (hu : s.pc p = .user) (hd : UpDone s s' p id) : Lined s' := by
  have hout := h.pos_le (p := p) (by simp [hu, Pc.Out])
  have hpc : s'.pc = s.pc := by
    rw [hd.pc, ← hu, update_eq_self]
  have hin : ∀ i q, InDown s i q → InDown s' i q := fun i q hq => ⟨(hd.slot q).active.2 hq.1, by rw [hpc, hq.2]⟩
  -- nobody gets a place, and the caller has none
  have hle : ∀ q, (s'.ptable q).semQueuePos ≤ (s.ptable q).semQueuePos := by
    intro q
    rw [(hd.slot q).pos]
    split <;> omega
  refine ⟨fun q hq => ?_, fun i => ?_, fun i hi => ?_⟩
  · obtain ⟨i, hq', hw⟩ := h.queued q (hq.trans_le (hle q))
    exact ⟨i, hin i q hq', (hd.slot q).waitingFor.trans hw⟩
  · by_cases hi : i = id
    · subst hi
      have hmem : ∀ q, Queued s i q → (s'.ptable q).semQueuePos = (s.ptable q).semQueuePos - 1 := by
        rintro q ⟨hw, hpos⟩
        have hqp : q ≠ p := by
          rintro rfl
          omega
        rw [(hd.slot q).pos, if_pos ⟨hqp, hw⟩]
      rw [hd.semtable, update_self]
      refine (h.ranks i).shift (fun q => ?_) hmem
      constructor
      · rintro ⟨hw, hpos⟩
        have hq : Queued s i q := ⟨(hd.slot q).waitingFor.symm.trans hw, hpos.trans_le (hle q)⟩
        have := hmem q hq
        exact ⟨hq, by omega⟩
      · rintro ⟨hq, h1⟩
        have := hmem q hq
        exact ⟨(hd.slot q).waitingFor.trans hq.1, by omega⟩
    · rw [hd.semtable, update_of_ne hi]
      have hsame : ∀ q, (s.ptable q).waitingForSemaphore = some i →
          (s'.ptable q).semQueuePos = (s.ptable q).semQueuePos := by
        intro q hw
        rw [(hd.slot q).pos, if_neg]
        rintro ⟨_, hw'⟩
        exact hi (Option.some.inj (hw.symm.trans hw'))
      refine (h.ranks i).congr (fun q => ?_) fun q hq => hsame q hq.1
      unfold Queued
      rw [(hd.slot q).waitingFor]
      exact and_congr_right fun hw => by rw [hsame q hw]
  · rw [hd.semtable] at hi ⊢
    by_cases hid : i = id
    · subst hid
      simp only [update_self] at hi ⊢
      simp [h.fresh i hi]
    · simp only [update_of_ne hid] at hi ⊢
      exact h.fresh i hi

theorem Lined.create (h : Lined s) (hu : s.pc p = .user) (v : ℤ) : Lined (binarySemaphoreCreate s p v) := by
  have hp := h.pos_le (p := p) (by simp [hu, Pc.Out])
  have hptable : (binarySemaphoreCreate s p v).ptable = s.ptable := by
    unfold binarySemaphoreCreate
    split <;> rfl
  refine h.own (others_create s p v) hp (by rwa [hptable]) (fun id => ?_) fun id => ?_ <;>
  · unfold binarySemaphoreCreate
    split
    · simp
    · rename_i i _
      by_cases hi : id = i
      · subst hi
        simp
      · simp [hi]

/-- only the history changed -/
theorem Lined.log (h : Lined s) (e : Ev N) : Lined (s.log e) := ⟨h.queued, h.ranks, h.fresh⟩

theorem Lined.take (h : Lined s) (hp : (s.ptable p).semQueuePos = 0) : Lined (semTake s p id) := by
  refine h.own (others_semTake s p id) hp.le (by simp [semTake, hp]) (fun i => ?_) fun i => ?_ <;>
  · by_cases hi : i = id
    · subst hi
      simp [semTake]
    · simp [semTake, hi]

theorem Lined.sysret (h : Lined s) (hp : (s.ptable p).semQueuePos ≤ 0) (v : ℤ) : Lined (s.sysret p v) :=
  h.own (others_sysret s p v) hp hp (fun _ => rfl) fun _ h => h

theorem Lined.down (h : Lined s) (hu : s.pc p = .user) (id : SemId) : Lined (binarySemaphoreDown s c p id) := by
  have hp := h.pos_le (p := p) (by simp [hu, Pc.Out])
  have hl := h.log (.call (s.who p) id)
  rcases down_cases (h.ranks id).nonneg (h.fresh id) c p with
    ⟨_, he⟩ | ⟨_, _, _, h0, he⟩ | ⟨hc, _, he⟩ | ⟨_, _, _, he⟩ <;> rw [he]
  · exact hl.sysret hp _
  · exact hl.take h0
  · exact hl.join hp hc
  · exact hl.sleep (Or.inl hp)

theorem Lined.retest (h : Lined s) (hpc : s.pc p = .downSleep id) : Lined (downLoop s c p id) := by
  rcases downLoop_cases s c p id with ⟨hc, he⟩ | ⟨_, _, h0, he⟩ | ⟨hc, _, h0, he⟩ | ⟨_, _, he⟩ <;> rw [he]
  · refine h.sysret ?_ _
    by_contra hpos
    -- a queued process waits for a semaphore with a queue, and an uncreated one has none
    obtain ⟨i, hd, hw⟩ := h.queued p (not_le.1 hpos)
    obtain rfl : i = id := by
      have := hd.2.symm.trans hpc
      injection this
    have hr := h.ranks i
    rw [h.fresh i hc] at hr
    exact hr.not_mem p ⟨hw, not_le.1 hpos⟩
  · exact h.take h0
  · exact h.join h0.le hc
  · exact h.sleep (Or.inr hpc)

theorem SemCall.lined {f : SemCall} (h : Lined s) (hat : f.At (s.pc p)) : Lined (f.run s c p) := by
  cases f with
  | create v => exact h.create hat v
  | down id => exact h.down hat id
  | retest id => exact h.retest hat
  | up id =>
    rcases up_cases s p id with ⟨_, he⟩ | ⟨_, hd⟩
    · rw [SemCall.run, he]
      exact h.sysret (h.pos_le (by simp [show s.pc p = .user from hat, Pc.Out])) _
    · exact h.up hat hd

end Lined

/-! ## Runs -/

/-- no `exit` of another slot of its pid ends a queued process in this step -/
def QueuedSpared (s : St N K) (o : Op N K) : Prop := ∀ q, 0 < (s.ptable q).semQueuePos → Spared s o q

instance (s : St N K) (o : Op N K) : Decidable (QueuedSpared s o) := by
  unfold QueuedSpared
  infer_instance

theorem step_lined {odd : Bool → Prop} {s : St N K} {o : Op N K} (hk : Kept odd s) (h : Lined s)
    (hs : QueuedSpared s o) : Lined (step s o) := by
  cases hsem : semCall s o with
  | none => exact h.aside (step_aside hk hsem) hs
  | some x =>
    obtain ⟨c, p, f⟩ := x
    obtain ⟨_, hat, he⟩ := step_of_semCall hsem
    rw [he]
    exact f.lined h hat

theorem boot_lined [NeZero N] : Lined (boot N K) := by
  have hpos : ∀ q, ((boot N K).ptable q).semQueuePos = 0 := by
    intro q
    by_cases hq : q = 0 <;> simp [boot, freeSlot, hq]
  refine ⟨fun q hq => ?_, fun id => .empty (fun q hq => ?_) _, fun _ _ => rfl⟩
  · rw [hpos] at hq
    exact absurd hq (lt_irrefl 0)
  · have := hq.2
    rw [hpos] at this
    exact absurd this (lt_irrefl 0)

/-- in any state reached by permitted steps the kernel's invariant and the queues are in order -/
theorem reach_lined [NeZero N] {ops : List (Op N K)}
    (h : Along step (fun s o => CpusApart s o ∧ QueuedSpared s o) (boot N K) ops) :
    Kept (fun _ => True) (run step (boot N K) ops) ∧ Lined (run step (boot N K) ops) :=
  h.inv (I := fun s => Kept (fun _ => True) s ∧ Lined s)
    (fun _ _ ho hs => ⟨step_kept hs.1 ho.1 fun _ _ => trivial, step_lined hs.1 hs.2 ho.2⟩) ⟨boot_kept, boot_lined⟩

/-- a live slot, registered with semaphore `id`, with a place in its queue -/
def Waits (s : St N K) (id : SemId) (q : Fin N) : Prop :=
  (s.ptable q).state ≠ .zombie ∧ (s.ptable q).state ≠ .unused ∧ Queued s id q

instance (s : St N K) (id : SemId) : DecidablePred (Waits s id) := fun q => by
  unfold Waits
  infer_instance

theorem Lined.waits_iff {s : St N K} (h : Lined s) (id : SemId) (q : Fin N) : Waits s id q ↔ Queued s id q := by
  refine ⟨fun hw => hw.2.2, fun hq => ?_⟩
  obtain ⟨_, hd, _⟩ := h.queued q hq.2
  rcases hd.1 with hs | hs | hs <;> exact ⟨by simp [hs], by simp [hs], hq⟩

/-- **The queue survives.** In every state of a run in which no `exit` ends a queued process, `waiting` is the number of
live processes queued for the semaphore, and their positions are 1, …, waiting, each once. -/
theorem queue_survives [NeZero N] (ops : List (Op N K))
    (h : Along step (fun s o => CpusApart s o ∧ QueuedSpared s o) (boot N K) ops) (id : SemId) :
    let s := run step (boot N K) ops
    (s.semtable id).waiting = ((Finset.univ.filter (Waits s id)).card : ℤ) ∧
      (∀ q, Waits s id q → 1 ≤ (s.ptable q).semQueuePos ∧ (s.ptable q).semQueuePos ≤ (s.semtable id).waiting) ∧
      ∀ k, 1 ≤ k → k ≤ (s.semtable id).waiting → ∃! q, Waits s id q ∧ (s.ptable q).semQueuePos = k := by
  intro s
  obtain ⟨_, hl⟩ := reach_lined h
  have hr : Ranks (Waits s id) (fun q => (s.ptable q).semQueuePos) (s.semtable id).waiting :=
    (hl.ranks id).congr (fun q => hl.waits_iff id q) fun _ _ => rfl
  refine ⟨hr.card.symm, hr.bound, fun k h1 hk => ?_⟩
  obtain ⟨q, hq, hqk⟩ := hr.surj k h1 hk
  exact ⟨q, ⟨hq, hqk⟩, fun q' hq' => hr.inj q' q hq'.1 hq (hq'.2.trans hqk.symm)⟩

/-- init creates a semaphore with value 0 and forks; the child calls `down` and queues -/
def childWaits : List (Op 64 1) :=
  [Op.dispatch 0 0, Op.call 0 (.semCreate 0), Op.call 0 .fork] ++ List.replicate 10 (Op.exec 0 true) ++
    [Op.preempt 0, Op.dispatch 0 1, Op.call 0 (.semDown 0)]

theorem childWaits_survives :
    let s := run step (boot 64 1) childWaits
    (s.semtable 0).waiting = 1 ∧ ∃! q, Waits s 0 q ∧ (s.ptable q).semQueuePos = 1 := by
  intro s
  have h : Along step (fun s o => CpusApart s o ∧ QueuedSpared s o) (boot 64 1) childWaits := by decide +kernel
  have hw : (s.semtable 0).waiting = 1 := by decide +kernel
  exact ⟨hw, (queue_survives childWaits h 0).2.2 1 le_rfl hw.ge⟩

/-- init creates a semaphore with value 0 and forks; the child makes a thread, the thread calls `down` and queues, and
the child exits -/
def threadWaits : List (Op 64 1) :=
  [Op.dispatch 0 0, Op.call 0 (.semCreate 0), Op.call 0 .fork] ++ List.replicate 10 (Op.exec 0 true) ++
    [Op.preempt 0, Op.dispatch 0 1, Op.call 0 .threadCreate] ++ List.replicate 12 (Op.exec 0 true) ++
    [Op.preempt 0, Op.dispatch 0 2, Op.call 0 (.semDown 0), Op.dispatch 0 1, Op.call 0 .exit, Op.exec 0 true]

/-- **The queue does not survive the death of a waiter.** One process still counts as waiting, and none waits. -/
theorem waiter_dies :
    let s := run step (boot 64 1) threadWaits
    (s.semtable 0).created = true ∧ (s.semtable 0).waiting = 1 ∧ (Finset.univ.filter (Waits s 0)).card = 0 := by
  decide +kernel

end Xv6Threads.Kernel
