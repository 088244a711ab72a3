/-
When a binary semaphore serves its waiters in order.

A process that queues in `binary_semaphore_down(id)` gets the place after everyone who waits, and every `up` moves all of
them up by one; so the places are the order of arrival. What can overtake is a newcomer that finds the queue drained,
`waiting = 0`, while the process that `up` woke has not run yet: the newcomer takes the value, or takes place 1 and the
woken process queues again behind it. So the premise is that of `no_lost_wakeup`, and that no `down(id)` is called at such
a moment (`DownClear`).

The order is read off the history (`Core.Precedence`): `queued P` is the moment a place was given, `call Q` the call and
`down Q` its return with 0.

Results:
- `Served`: at most one process is at position 0, and the value is there for it.
- `Ordered`: the invariant that ties the history to the places; `step_ordered`: every permitted step keeps both.
- `served_in_order`: in every run of permitted steps, whoever queued before another's call returns before it.
- `newcomer_overtakes`: a run in which a newcomer returns first.
-/
import Xv6Threads.Core.Precedence
import Xv6Threads.Kernel.SemaphoreWakeup

namespace Xv6Threads.Kernel

open Xv6Threads.Core

variable {N K : ℕ}

/-! ## The premise -/

/-- the step is no `down(id)` that finds nobody waiting while a process that was woken in `down(id)` has not run -/
def DownClear (id : SemId) (s : St N K) (o : Op N K) : Prop :=
  ∀ x ∈ semCall s o, x.2.2 = .down id → (s.semtable id).waiting = 0 →
    ∀ q, (s.ptable q).state.Active → s.pc q = .downSleep id → (s.ptable q).semQueuePos ≠ 0

def FifoOk (id : SemId) (s : St N K) (o : Op N K) : Prop := WakeupOk id s o ∧ DownClear id s o

instance (id : SemId) (s : St N K) (o : Op N K) : Decidable (FifoOk id s o) := by
  unfold FifoOk DownClear
  infer_instance

/-! ## The order of arrival -/

/-- `P` was given a place in the queue of `id` and has not returned from that `down` -/
def InLine (id : SemId) (P : Who N) (hist : List (Ev N)) : Prop := Pending (.queued P id) (.down P id) hist

/-- `Q` called `down(id)` after `P` had a place, and neither has returned -/
def After (id : SemId) (P Q : Who N) (hist : List (Ev N)) : Prop :=
  Behind (.queued P id) (.call Q id) (.down P id) (.down Q id) hist

/-- whenever `Q` called `down(id)` after `P` had a place, `P` returned first -/
def InOrder (id : SemId) (P Q : Who N) (hist : List (Ev N)) : Prop :=
  NoOvertake (.queued P id) (.call Q id) (.down P id) (.down Q id) hist

/-- the new history has nothing new about semaphore `id` -/
structure Unseen (id : SemId) (hist hist' : List (Ev N)) : Prop where
  inLine : ∀ P, InLine id P hist' → InLine id P hist
  after : ∀ P Q, After id P Q hist' → After id P Q hist
  inOrder : (∀ P Q, InOrder id P Q hist) → ∀ P Q, InOrder id P Q hist'

section Order

variable {id : SemId} {hist hist₁ hist' : List (Ev N)}

theorem Unseen.refl (id : SemId) (hist : List (Ev N)) : Unseen id hist hist :=
  ⟨fun _ h => h, fun _ _ h => h, fun h => h⟩

theorem Unseen.trans (h : Unseen id hist hist₁) (h' : Unseen id hist₁ hist') : Unseen id hist hist' :=
  ⟨fun P hP => h.inLine P (h'.inLine P hP), fun P Q hPQ => h.after P Q (h'.after P Q hPQ),
    fun hf => h'.inOrder (h.inOrder hf)⟩

/-- an event that is neither a call, nor a place given, nor a return of `down(id)` -/
theorem Unseen.snoc {e : Ev N} (hq : ∀ w, e ≠ .queued w id) (hc : ∀ w, e ≠ .call w id) (hd : ∀ w, e ≠ .down w id) :
    Unseen id hist (hist ++ [e]) := by
  refine ⟨fun P hP => ?_, fun P Q hPQ => ?_, fun hf P Q => ?_⟩
  · exact ((pending_snoc.1 hP).resolve_left (hq P)).1
  · exact ((behind_snoc.1 hPQ).resolve_left fun h => hc Q h.1).1
  · exact noOvertake_snoc (hf P Q) fun h => absurd h (hd Q)

end Order

/-! ## The invariants -/

/-- who is at position 0 in `down(id)` is alone there, and the value is there -/
structure Served (id : SemId) (s : St N K) : Prop where
  value : ∀ q, InDown s id q → (s.ptable q).semQueuePos = 0 → (s.semtable id).value ≠ 0
  one : ∀ q r, InDown s id q → InDown s id r → (s.ptable q).semQueuePos = 0 → (s.ptable r).semQueuePos = 0 → q = r

/-- the process that `w` names is inside `down(id)` -/
def Inside (s : St N K) (id : SemId) (w : Who N) : Prop := InDown s id w.1 ∧ (s.ptable w.1).uid = w.2

/-- who has a place is inside `down(id)`, who called later has a later place, and so far everybody was served in order -/
structure Ordered (id : SemId) (s : St N K) : Prop where
  inLine : ∀ P, InLine id P s.hist → Inside s id P
  after : ∀ P Q, After id P Q s.hist → Inside s id Q ∧ (s.ptable P.1).semQueuePos < (s.ptable Q.1).semQueuePos
  inOrder : ∀ P Q, InOrder id P Q s.hist

section Invariants

variable {odd : Bool → Prop} {s s' : St N K} {c : Fin K} {p q : Fin N} {id i : SemId}

theorem After.inLine {P Q : Who N} {hist : List (Ev N)} (h : After id P Q hist) : InLine id P hist := Behind.pending h

/-- nobody left or entered `down(id)`, and everybody inside moved by the same `d` -/
theorem Ordered.frame (h : Ordered id s) (hu : Unseen id s.hist s'.hist) (d : ℤ)
    (hin : ∀ q, InDown s id q → InDown s' id q ∧ (s'.ptable q).uid = (s.ptable q).uid ∧
      (s'.ptable q).semQueuePos = (s.ptable q).semQueuePos - d) : Ordered id s' := by
  have hinside : ∀ w, Inside s id w → Inside s' id w := fun w hw => ⟨(hin w.1 hw.1).1, (hin w.1 hw.1).2.1.trans hw.2⟩
  refine ⟨fun P hP => hinside P (h.inLine P (hu.inLine P hP)), fun P Q hPQ => ?_, hu.inOrder h.inOrder⟩
  have hPQ' := hu.after P Q hPQ
  obtain ⟨hQ, hlt⟩ := h.after P Q hPQ'
  have hP := h.inLine P hPQ'.inLine
  rw [(hin P.1 hP.1).2.2, (hin Q.1 hQ.1).2.2]
  exact ⟨hinside Q hQ, by omega⟩

theorem Served.frame (h : Served id s) (hv : (s'.semtable id).value = (s.semtable id).value)
    (hin : ∀ q, InDown s' id q → (s'.ptable q).semQueuePos = 0 → InDown s id q ∧ (s.ptable q).semQueuePos = 0) :
    Served id s' := by
  refine ⟨fun q hq h0 => ?_, fun q r hq hr hq0 hr0 => ?_⟩
  · obtain ⟨hd, h0'⟩ := hin q hq h0
    rw [hv]
    exact h.value q hd h0'
  · obtain ⟨hd, h0'⟩ := hin q hq hq0
    obtain ⟨hd', h0''⟩ := hin r hr hr0
    exact h.one q r hd hd' h0' h0''

/-- a step of a process that is in `down(id)` neither before nor after -/
theorem Ordered.elsewhere (h : Ordered id s) (ho : Others p s s') (hp : ¬ InDown s id p)
    (hu : Unseen id s.hist s'.hist) : Ordered id s' := by
  refine h.frame hu 0 fun q hq => ?_
  have hqp : q ≠ p := by
    rintro rfl
    exact hp hq
  rw [(ho q hqp).1, sub_zero]
  exact ⟨(ho.inDown hqp).2 hq, rfl, rfl⟩

theorem Served.elsewhere (h : Served id s) (ho : Others p s s') (hp : ¬ InDown s' id p)
    (hv : (s'.semtable id).value = (s.semtable id).value) : Served id s' := by
  refine h.frame hv fun q hq h0 => ?_
  have hqp : q ≠ p := by
    rintro rfl
    exact hp hq
  rw [(ho q hqp).1] at h0
  exact ⟨(ho.inDown hqp).1 hq, h0⟩

/-! `binary_semaphore_down(id)` is called. -/

/-- nobody is inside `down(id)` if nobody is queued and nobody is at position 0 -/
theorem Watched.nobody (h : Watched id s) (hl : Lined s) (hw : (s.semtable id).waiting = 0)
    (hclear : ∀ q, InDown s id q → (s.ptable q).semQueuePos ≠ 0) (q : Fin N) : ¬ InDown s id q := by
  intro hq
  have hr := hl.ranks id
  rw [hw] at hr
  refine hr.not_mem q ⟨(h.registered id q hq).1, ?_⟩
  exact lt_of_le_of_ne (h.nonneg q hq) (hclear q hq).symm

/-- a place inside `down(id)` is at most the last one -/
theorem Watched.pos_le_waiting (h : Watched id s) (hl : Lined s) (hq : InDown s id q) :
    (s.ptable q).semQueuePos ≤ (s.semtable id).waiting := by
  have hn := (hl.ranks id).nonneg
  by_cases h0 : (s.ptable q).semQueuePos = 0
  · omega
  · have := h.nonneg q hq
    exact ((hl.ranks id).bound q ⟨(h.registered id q hq).1, by omega⟩).2

/-- a caller that is refused or served at once, with nobody inside -/
theorem Ordered.alone (h : Ordered id s) (hnone : ∀ q, ¬ InDown s id q) {hist : List (Ev N)} {w : Who N}
    (hcall : hist = s.hist ++ [.call w id] ∨ hist = s.hist ++ [.call w id] ++ [.down w id]) (hh : s'.hist = hist) :
    Ordered id s' := by
  have hline : ∀ P, ¬ InLine id P s.hist := fun P hP => hnone P.1 (h.inLine P hP).1
  have hline' : ∀ P, ¬ InLine id P (s.hist ++ [.call w id]) := fun P hP =>
    (pending_snoc.1 hP).elim (by simp) fun h => hline P h.1
  have hafter' : ∀ P Q, ¬ After id P Q (s.hist ++ [.call w id]) := fun P Q hPQ => hline' P hPQ.inLine
  have horder' : ∀ P Q, InOrder id P Q (s.hist ++ [.call w id]) := fun P Q => noOvertake_snoc (h.inOrder P Q) (by simp)
  rcases hcall with rfl | rfl
  · refine ⟨fun P hP => ?_, fun P Q hPQ => ?_, fun P Q => ?_⟩
    · exact absurd (hh ▸ hP) (hline' P)
    · exact absurd (hh ▸ hPQ) (hafter' P Q)
    · exact hh ▸ horder' P Q
  · refine ⟨fun P hP => ?_, fun P Q hPQ => ?_, fun P Q => ?_⟩
    · rw [hh] at hP
      exact (pending_snoc.1 hP).elim (by simp) fun h => absurd h.1 (hline' P)
    · rw [hh] at hPQ
      exact (behind_snoc.1 hPQ).elim (by simp) fun h => absurd h.1 (hafter' P Q)
    · rw [hh]
      exact noOvertake_snoc (horder' P Q) fun _ => hafter' P Q

/-- a caller that takes the place after everyone inside -/
theorem Ordered.join (h : Ordered id s) (hw : Watched id s) (hl : Lined s) (hp : ¬ InDown s id p) :
    Ordered id (semSleep (enqueue (s.log (.call (s.who p) id)) p id) c p id) := by
  have ho : Others p s (semSleep (enqueue (s.log (.call (s.who p) id)) p id) c p id) :=
    (others_enqueue _ p id).trans (others_semSleep _ c p id)
  have hself : Inside (semSleep (enqueue (s.log (.call (s.who p) id)) p id) c p id) id (s.who p) :=
    ⟨semSleep_inDown _ c p id, by simp [semSleep_self, enqueue, St.who]⟩
  have hpos : ((semSleep (enqueue (s.log (.call (s.who p) id)) p id) c p id).ptable p).semQueuePos =
      (s.semtable id).waiting + 1 := by
    simp [semSleep_self, enqueue]
  have hold : ∀ P, InLine id P s.hist → P.1 ≠ p := by
    rintro P hP rfl
    exact hp (h.inLine P hP).1
  have hin : ∀ P, P.1 ≠ p → Inside s id P →
      Inside (semSleep (enqueue (s.log (.call (s.who p) id)) p id) c p id) id P := by
    intro P hPp hP
    exact ⟨(ho.inDown hPp).2 hP.1, by rw [(ho P.1 hPp).1, hP.2]⟩
  -- the history goes on with the call and the place
  have hhist : (semSleep (enqueue (s.log (.call (s.who p) id)) p id) c p id).hist =
      s.hist ++ [.call (s.who p) id] ++ [.queued (s.who p) id] := rfl
  refine ⟨fun P hP => ?_, fun P Q hPQ => ?_, fun P Q => ?_⟩
  · rw [hhist] at hP
    rcases pending_snoc.1 hP with he | ⟨hP, _⟩
    · cases he
      exact hself
    · have hP' : InLine id P s.hist := ((pending_snoc.1 hP).resolve_left (by simp)).1
      exact hin P (hold P hP') (h.inLine P hP')
  · rw [hhist] at hPQ
    have hPQ' := ((behind_snoc.1 hPQ).resolve_left (by simp)).1
    rcases behind_snoc.1 hPQ' with ⟨he, _, hP⟩ | ⟨hPQ, _, _⟩
    · -- Q is the caller, and everyone in line is ahead of it
      cases he
      have hPp := hold P hP
      have hle := hw.pos_le_waiting hl (h.inLine P hP).1
      refine ⟨hself, ?_⟩
      rw [(ho P.1 hPp).1, show (s.who p).1 = p from rfl, hpos]
      omega
    · obtain ⟨hQ, hlt⟩ := h.after P Q hPQ
      have hQp : Q.1 ≠ p := by
        rintro rfl
        exact hp hQ.1
      rw [(ho P.1 (hold P (After.inLine hPQ))).1, (ho Q.1 hQp).1]
      exact ⟨hin Q hQp hQ, hlt⟩
  · rw [hhist]
    exact noOvertake_snoc (noOvertake_snoc (h.inOrder P Q) (by simp)) (by simp)

/-- the process at position 0 takes the value: nobody inside is ahead of it -/
theorem Ordered.take (h : Ordered id s) (hw : Watched id s) (h0 : (s.ptable p).semQueuePos = 0) :
    Ordered id (semTake s p id) := by
  have ho := others_semTake s p id
  have hhist : (semTake s p id).hist = s.hist ++ [.down (s.who p) id] := rfl
  have hne : ∀ w, Inside s id w → (.down (s.who p) id : Ev N) ≠ .down w id → w.1 ≠ p := by
    rintro ⟨q, u⟩ hq hne rfl
    have hu : (s.ptable q).uid = u := hq.2
    exact hne (by simp [St.who, hu])
  have hin : ∀ w, w.1 ≠ p → Inside s id w → Inside (semTake s p id) id w := by
    intro w hwp hq
    exact ⟨(ho.inDown hwp).2 hq.1, by rw [(ho w.1 hwp).1, hq.2]⟩
  refine ⟨fun P hP => ?_, fun P Q hPQ => ?_, fun P Q => ?_⟩
  · rw [hhist] at hP
    obtain ⟨hP, hPp⟩ := (pending_snoc.1 hP).resolve_left (by simp)
    have hP' := h.inLine P hP
    exact hin P (hne P hP' hPp) hP'
  · rw [hhist] at hPQ
    obtain ⟨hPQ, hPp, hQp⟩ := (behind_snoc.1 hPQ).resolve_left (by simp)
    obtain ⟨hQ, hlt⟩ := h.after P Q hPQ
    have hP := h.inLine P (After.inLine hPQ)
    rw [(ho P.1 (hne P hP hPp)).1, (ho Q.1 (hne Q hQ hQp)).1]
    exact ⟨hin Q (hne Q hQ hQp) hQ, hlt⟩
  · rw [hhist]
    refine noOvertake_snoc (h.inOrder P Q) fun he hPQ => ?_
    cases he
    obtain ⟨_, hlt⟩ := h.after P (s.who p) hPQ
    have hP := h.inLine P (After.inLine hPQ)
    have hn := hw.nonneg P.1 hP.1
    rw [show (s.who p).1 = p from rfl, h0] at hlt
    omega

/-! The steps. -/

theorem aside_ordered {spared : Fin N → Prop} (ha : Aside spared s s') (hs : ∀ i q, InDown s i q → spared q)
    (hv : Served id s) (h : Ordered id s) : Served id s' ∧ Ordered id s' := by
  refine ⟨hv.frame (by rw [ha.semtable]) fun q hq h0 => ?_, h.frame (ha.hist ▸ .refl id s.hist) 0 fun q hq => ?_⟩
  · obtain ⟨hd, hcalm⟩ := ha.of_inDown hq
    exact ⟨hd, hcalm.pos.symm.trans h0⟩
  · obtain ⟨hd, hcalm⟩ := ha.inDown (hs id q hq) hq
    exact ⟨hd, hcalm.uid, by rw [hcalm.pos, sub_zero]⟩

/-- the events of a round of `down(i)` say nothing about another semaphore -/
theorem downLoop_unseen (hi : i ≠ id) (s : St N K) (c : Fin K) (p : Fin N) :
    Unseen id s.hist (downLoop s c p i).hist := by
  rcases downLoop_cases s c p i with ⟨_, he⟩ | ⟨_, _, _, he⟩ | ⟨_, _, _, he⟩ | ⟨_, _, he⟩ <;> rw [he]
  · exact .refl id _
  · exact .snoc (by simp) (by simp) (by simp [hi])
  · exact .snoc (by simp [hi]) (by simp) (by simp)
  · exact .refl id _

theorem others_downLoop (s : St N K) (c : Fin K) (p : Fin N) (i : SemId) : Others p s (downLoop s c p i) := by
  rcases downLoop_cases s c p i with ⟨_, he⟩ | ⟨_, _, _, he⟩ | ⟨_, _, _, he⟩ | ⟨_, _, he⟩ <;> rw [he]
  · exact others_sysret s p _
  · exact others_semTake s p i
  · exact (others_enqueue s p i).trans (others_semSleep _ c p i)
  · exact others_semSleep s c p i

/-- after a round of `down(i)` the process is outside or in `down(i)` -/
theorem downLoop_pc (s : St N K) (c : Fin K) (p : Fin N) (i : SemId) :
    (downLoop s c p i).pc p = .user ∨ (downLoop s c p i).pc p = .downSleep i := by
  rcases downLoop_cases s c p i with ⟨_, he⟩ | ⟨_, _, _, he⟩ | ⟨_, _, _, he⟩ | ⟨_, _, he⟩ <;> rw [he]
  · simp
  · simp [semTake]
  · exact Or.inr (semSleep_inDown _ c p i).2
  · exact Or.inr (semSleep_inDown _ c p i).2

theorem downLoop_value (hi : i ≠ id) (s : St N K) (c : Fin K) (p : Fin N) :
    ((downLoop s c p i).semtable id).value = (s.semtable id).value := by
  rcases downLoop_cases s c p i with ⟨_, he⟩ | ⟨_, _, _, he⟩ | ⟨_, _, _, he⟩ | ⟨_, _, he⟩ <;> rw [he]
  · rfl
  · simp [semTake, hi.symm]
  · simp [semSleep, St.sleep, enqueue, hi.symm]
  · rfl

/-- the call of `down(i)` is a round of its loop after the call and perhaps a place are in the history -/
theorem down_eq (s : St N K) (c : Fin K) (p : Fin N) (i : SemId) :
    ∃ s₁, binarySemaphoreDown s c p i = downLoop s₁ c p i ∧ Others p s s₁ ∧
      ∀ id, i ≠ id → Unseen id s.hist s₁.hist ∧ (s₁.semtable id).value = (s.semtable id).value := by
  have hlog : Others p s (s.log (.call (s.who p) i)) := fun _ _ => ⟨rfl, rfl⟩
  have hcall : ∀ id, i ≠ id → Unseen id s.hist (s.log (.call (s.who p) i)).hist :=
    fun id hi => .snoc (by simp) (by simp [hi]) (by simp)
  unfold binarySemaphoreDown
  dsimp only
  split
  · refine ⟨_, rfl, hlog.trans (others_enqueue _ p i), fun id hi => ⟨?_, by simp [enqueue, hi.symm]⟩⟩
    exact (hcall id hi).trans (.snoc (by simp [hi]) (by simp) (by simp))
  · exact ⟨_, rfl, hlog, fun id hi => ⟨hcall id hi, rfl⟩⟩

/-- a round of `down` on another semaphore -/
theorem round_elsewhere {s₁ : St N K} (hi : i ≠ id) (ho : Others p s s₁) (hu : Unseen id s.hist s₁.hist)
    (hval : (s₁.semtable id).value = (s.semtable id).value) (hp : ¬ InDown s id p) (hv : Served id s)
    (h : Ordered id s) : Served id (downLoop s₁ c p i) ∧ Ordered id (downLoop s₁ c p i) := by
  have ho' := ho.trans (others_downLoop s₁ c p i)
  refine ⟨hv.elsewhere ho' (fun hd => ?_) ((downLoop_value hi s₁ c p).trans hval),
    h.elsewhere ho' hp (hu.trans (downLoop_unseen hi s₁ c p))⟩
  rcases downLoop_pc s₁ c p i with hpc | hpc <;> have he := hpc.symm.trans hd.2
  · cases he
  · injection he with he
    exact hi he

/-- `down(id)` is called while nobody who was woken has yet to run, or while others are queued -/
theorem down_ordered (hw : Watched id s) (hl : Lined s) (hp : (s.ptable p).state.Active) (hu : s.pc p = .user)
    (hclear : (s.semtable id).waiting = 0 → ∀ q, InDown s id q → (s.ptable q).semQueuePos ≠ 0) (hv : Served id s)
    (h : Ordered id s) : Served id (binarySemaphoreDown s c p id) ∧ Ordered id (binarySemaphoreDown s c p id) := by
  have hnot : ¬ InDown s id p := fun hd => by
    rw [hd.2] at hu
    cases hu
  have h0 := (hw.tidy.out p hp (by simp [hu, Pc.Out])).2
  rcases down_cases (hl.ranks id).nonneg (hl.fresh id) c p with
    ⟨hc, he⟩ | ⟨_, hz, _, _, he⟩ | ⟨_, _, he⟩ | ⟨_, _, hne, _⟩
  · -- refused: the semaphore does not exist, so nobody is inside
    have hnone : ∀ q, ¬ InDown s id q := fun q hq => by
      rw [(hw.registered id q hq).2] at hc
      cases hc
    rw [he]
    refine ⟨hv.elsewhere (others_sysret _ p _) (fun hd => ?_) rfl, h.alone hnone (Or.inl rfl) rfl⟩
    simpa using hd.2
  · -- served at once
    have hnone := hw.nobody hl hz (hclear hz)
    have ho : Others p s (semTake (s.log (.call (s.who p) id)) p id) := others_semTake _ p id
    rw [he]
    refine ⟨⟨fun q hq => ?_, fun q r hq => ?_⟩, h.alone hnone (Or.inr rfl) rfl⟩
    all_goals
      by_cases hqp : q = p
      · subst hqp
        have := hq.2
        simp [semTake] at this
      · exact absurd ((ho.inDown hqp).1 hq) (hnone q)
  · -- queued behind everybody
    rw [he]
    have ho : Others p s (semSleep (enqueue (s.log (.call (s.who p) id)) p id) c p id) :=
      (others_enqueue _ p id).trans (others_semSleep _ c p id)
    refine ⟨hv.frame (by simp [semSleep, St.sleep, enqueue]) fun q hq hq0 => ?_, h.join hw hl hnot⟩
    by_cases hqp : q = p
    · subst hqp
      have hn := (hl.ranks id).nonneg
      simp [semSleep_self, enqueue] at hq0
      omega
    · rw [(ho q hqp).1] at hq0
      exact ⟨(ho.inDown hqp).1 hq, hq0⟩
  · exact absurd h0 hne

/-- a process woken in `down(id)` retests -/
theorem retest_ordered (hw : Watched id s) (hd : InDown s id p) (hv : Served id s) (h : Ordered id s) :
    Served id (downLoop s c p id) ∧ Ordered id (downLoop s c p id) := by
  rcases downLoop_cases s c p id with ⟨hc, _⟩ | ⟨_, _, h0, he⟩ | ⟨_, hval, h0, _⟩ | ⟨_, hne, he⟩
  · rw [(hw.registered id p hd).2] at hc
    cases hc
  · -- it takes the value; nobody else is at position 0
    have ho := others_semTake s p id
    have hnone : ∀ q, InDown (semTake s p id) id q → ((semTake s p id).ptable q).semQueuePos ≠ 0 := by
      intro q hq hq0
      by_cases hqp : q = p
      · subst hqp
        have := hq.2
        simp [semTake] at this
      · rw [(ho q hqp).1] at hq0
        exact hqp (hv.one q p ((ho.inDown hqp).1 hq) hd hq0 h0)
    rw [he]
    exact ⟨⟨fun q hq hq0 => absurd hq0 (hnone q hq), fun q r hq _ hq0 _ => absurd hq0 (hnone q hq)⟩, h.take hw h0⟩
  · exact absurd hval (hv.value p hd h0)
  · -- it goes back to sleep with the place it has
    have ho := others_semSleep s c p id
    rw [he]
    refine ⟨hv.frame rfl fun q hq hq0 => ?_, h.frame (.refl id _) 0 fun q hq => ?_⟩ <;> by_cases hqp : q = p
    · subst hqp
      exact ⟨hd, by simpa [semSleep_self] using hq0⟩
    · rw [(ho q hqp).1] at hq0
      exact ⟨(ho.inDown hqp).1 hq, hq0⟩
    · subst hqp
      exact ⟨semSleep_inDown s c q id, by simp [semSleep_self], by simp [semSleep_self]⟩
    · rw [(ho q hqp).1, sub_zero]
      exact ⟨(ho.inDown hqp).2 hq, rfl, rfl⟩

theorem up_ordered (hw : Watched id s) (hl : Lined s) (hu : s.pc p = .user) (hd : UpDone s s' p i) (hv : Served id s)
    (h : Ordered id s) : Served id s' ∧ Ordered id s' := by
  have hpc : s'.pc = s.pc := by
    rw [hd.pc, ← hu, Function.update_eq_self]
  have hin : ∀ q, InDown s' id q ↔ InDown s id q := by
    intro q
    unfold InDown
    rw [(hd.slot q).active, hpc]
  have hunseen : Unseen id s.hist s'.hist := by
    rw [hd.hist]
    exact .snoc (by simp) (by simp) (by simp)
  have hmoved : ∀ q, InDown s id q →
      (s'.ptable q).semQueuePos = (s.ptable q).semQueuePos - if i = id then 1 else 0 := by
    intro q hq
    have hqp : q ≠ p := by
      rintro rfl
      rw [hq.2] at hu
      cases hu
    rw [(hd.slot q).pos, (hw.registered id q hq).1]
    by_cases hi : i = id
    · simp [hi, hqp]
    · simp [hi, Ne.symm hi]
  refine ⟨?_, h.frame hunseen (if i = id then 1 else 0) fun q hq => ⟨(hin q).2 hq, (hd.slot q).uid, hmoved q hq⟩⟩
  by_cases hi : i = id
  · subst hi
    refine ⟨fun q _ _ => by simp [hd.semtable], fun q r hq hr hq0 hr0 => ?_⟩
    -- both were first in the queue
    have hq' := (hin q).1 hq
    have hr' := (hin r).1 hr
    have h1 := hmoved q hq'
    have h2 := hmoved r hr'
    simp only [if_true] at h1 h2
    exact (hl.ranks i).inj q r ⟨(hw.registered i q hq').1, by omega⟩ ⟨(hw.registered i r hr').1, by omega⟩ (by omega)
  · refine hv.frame (by simp [hd.semtable, Ne.symm hi]) fun q hq hq0 => ⟨(hin q).1 hq, ?_⟩
    have := hmoved q ((hin q).1 hq)
    simp only [if_neg hi, sub_zero] at this
    omega

theorem create_ordered (hw : Watched id s) (hu : s.pc p = .user) (v : ℤ) (hv : Served id s) (h : Ordered id s) :
    Served id (binarySemaphoreCreate s p v) ∧ Ordered id (binarySemaphoreCreate s p v) := by
  have ho := others_create s p v
  have hnot : ¬ InDown s id p := fun hd => by
    rw [hd.2] at hu
    cases hu
  have hpc : (binarySemaphoreCreate s p v).pc p = .user := by
    unfold binarySemaphoreCreate
    split <;> simp
  have hnot' : ¬ InDown (binarySemaphoreCreate s p v) id p := fun hd => by
    rw [hd.2] at hpc
    cases hpc
  have hunseen : Unseen id s.hist (binarySemaphoreCreate s p v).hist := by
    unfold binarySemaphoreCreate
    split
    · exact .refl id _
    · exact .snoc (by simp) (by simp) (by simp)
  refine ⟨?_, h.elsewhere ho hnot hunseen⟩
  cases hc : (s.semtable id).created with
  | false =>
    -- nobody is inside a semaphore that did not exist
    have hnone : ∀ q, ¬ InDown (binarySemaphoreCreate s p v) id q := by
      intro q hq
      by_cases hqp : q = p
      · exact hnot' (hqp ▸ hq)
      · rw [(hw.registered id q ((ho.inDown hqp).1 hq)).2] at hc
        cases hc
    exact ⟨fun q hq => absurd hq (hnone q), fun q _ hq => absurd hq (hnone q)⟩
  | true =>
    refine hv.elsewhere ho hnot' ?_
    unfold binarySemaphoreCreate
    split
    · rfl
    · rename_i i hi
      have hfresh : (s.semtable i).created = false := by
        simpa using List.find?_some hi
      have hne : id ≠ i := by
        rintro rfl
        rw [hc] at hfresh
        cases hfresh
      simp [hne]

end Invariants

/-! ## Runs -/

theorem step_ordered {s : St N K} {o : Op N K} {id : SemId} (hg : Guarded id s) (ho : FifoOk id s o)
    (hv : Served id s) (h : Ordered id s) : Served id (step s o) ∧ Ordered id (step s o) := by
  obtain ⟨⟨_, hspared, _, _⟩, hdown⟩ := ho
  cases hsem : semCall s o with
  | none => exact aside_ordered (step_aside hg.kept hsem) (fun _ _ => hspared.inDown) hv h
  | some x =>
    obtain ⟨c, p, f⟩ := x
    obtain ⟨hc, hat, he⟩ := step_of_semCall hsem
    have hp : (s.ptable p).state.Active := Or.inr (Or.inr (hg.kept.cpus.running c p hc))
    rw [he]
    cases f with
    | create v => exact create_ordered hg.watched hat v hv h
    | down i =>
      have hu : s.pc p = .user := hat
      by_cases hi : i = id
      · subst hi
        exact down_ordered hg.watched hg.lined hp hu
          (fun hz q hq => hdown (c, p, .down i) hsem rfl hz q hq.1 hq.2) hv h
      · obtain ⟨s₁, he₁, ho₁, hother⟩ := down_eq s c p i
        obtain ⟨hunseen, hval⟩ := hother id hi
        rw [SemCall.run, he₁]
        refine round_elsewhere hi ho₁ hunseen hval (fun hd => ?_) hv h
        rw [hd.2] at hu
        cases hu
    | retest i =>
      by_cases hi : i = id
      · subst hi
        exact retest_ordered hg.watched ⟨hp, hat⟩ hv h
      · refine round_elsewhere hi (fun _ _ => ⟨rfl, rfl⟩) (.refl id _) rfl (fun hd => hi ?_) hv h
        have := (show s.pc p = .downSleep i from hat).symm.trans hd.2
        injection this
    | up i =>
      rcases up_cases s p i with ⟨_, he⟩ | ⟨_, hd⟩
      · have hu : s.pc p = .user := hat
        rw [SemCall.run, he]
        refine ⟨hv.elsewhere (others_sysret s p _) (fun hd => ?_) rfl,
          h.elsewhere (others_sysret s p _) (fun hd => ?_) (.refl id _)⟩
        · simpa using hd.2
        · rw [hd.2] at hu
          cases hu
      · exact up_ordered hg.watched hg.lined hat hd hv h

theorem boot_ordered [NeZero N] (id : SemId) : Served id (boot N K) ∧ Ordered id (boot N K) :=
  ⟨⟨nofun, nofun⟩, fun _ h => absurd h not_pending_nil, fun _ _ h => absurd (After.inLine h) not_pending_nil,
    fun _ _ => noOvertake_nil⟩

/-- **First come, first served.** In every run of permitted steps: if `P` was given a place in the queue of `id` before
`Q` called `down(id)`, and `Q`'s call returned 0, then `P`'s call had returned before. -/
theorem served_in_order [NeZero N] (ops : List (Op N K)) (id : SemId) (h : Along step (FifoOk id) (boot N K) ops)
    (P Q : Who N) (l₁ l₂ l₃ l₄ : List (Ev N))
    (hhist : (run step (boot N K) ops).hist = l₁ ++ .queued P id :: (l₂ ++ .call Q id :: (l₃ ++ .down Q id :: l₄)))
    (hnext : .down Q id ∉ l₃) : .down P id ∈ l₂ ++ l₃ := by
  have hinv := h.inv (I := fun s => Guarded id s ∧ Served id s ∧ Ordered id s)
    (fun _ _ ho hs => ⟨step_guarded hs.1 ho.1, step_ordered hs.1 ho hs.2.1 hs.2.2⟩) ⟨boot_guarded id, boot_ordered id⟩
  have hmem := hinv.2.2.inOrder P Q l₁ l₂ l₃ l₄ hhist hnext
  simpa using hmem

/-- two children wait in turn, and each is woken by an `up` and returns before the next `up` -/
def bothServed : List (Op 64 1) :=
  twoWait ++ [Op.preempt 0, Op.dispatch 0 1, Op.exec 0 true, Op.preempt 0, Op.dispatch 0 0, Op.call 0 (.semUp 0), Op.preempt 0,
    Op.dispatch 0 2, Op.exec 0 true]

theorem bothServed_in_order :
    ∃ l₁ l₂ l₃ l₄ : List (Ev 64), (run step (boot 64 1) bothServed).hist =
        l₁ ++ .queued (1, 2) 0 :: (l₂ ++ .call (2, 3) 0 :: (l₃ ++ .down (2, 3) 0 :: l₄)) ∧ .down (1, 2) 0 ∈ l₂ ++ l₃ := by
  have h : Along step (FifoOk 0) (boot 64 1) bothServed := by decide +kernel
  have hhist : (run step (boot 64 1) bothServed).hist = [.create 0 0, .call (1, 2) 0] ++ .queued (1, 2) 0 ::
      ([] ++ .call (2, 3) 0 :: ([.queued (2, 3) 0, .up (0, 1) 0, .down (1, 2) 0, .up (0, 1) 0] ++
        .down (2, 3) 0 :: [])) := by decide +kernel
  exact ⟨_, _, _, _, hhist, served_in_order bothServed 0 h (1, 2) (2, 3) _ _ _ _ hhist (by decide)⟩

/-- init creates a semaphore with value 0 and forks; the child calls `down` and sleeps; init calls `up`, and then `down`
before the child runs -/
def newcomer : List (Op 64 1) :=
  [Op.dispatch 0 0, Op.call 0 (.semCreate 0), Op.call 0 .fork] ++ List.replicate 10 (Op.exec 0 true) ++
    [Op.preempt 0, Op.dispatch 0 1, Op.call 0 (.semDown 0), Op.dispatch 0 0, Op.call 0 (.semUp 0), Op.call 0 (.semDown 0)]

/-- **A newcomer overtakes.** The child (slot 1, pid 2) had its place before init (slot 0) called `down`, and init has
returned 0 while the child has not. -/
theorem newcomer_overtakes :
    ∃ l₁ l₂ l₃ l₄ : List (Ev 64), (run step (boot 64 1) newcomer).hist =
        l₁ ++ .queued (1, 2) 0 :: (l₂ ++ .call (0, 1) 0 :: (l₃ ++ .down (0, 1) 0 :: l₄)) ∧
      .down (0, 1) 0 ∉ l₃ ∧ .down (1, 2) 0 ∉ l₂ ++ l₃ ∧ .down (1, 2) 0 ∉ l₄ :=
  ⟨[.create 0 0, .call (1, 2) 0], [.up (0, 1) 0], [], [], by decide +kernel⟩

end Xv6Threads.Kernel
