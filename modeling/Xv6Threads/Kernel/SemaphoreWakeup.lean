/-
When a binary semaphore loses no wakeup.

`binary_semaphore_up` lowers the position of every registered process by one, wakes the one that reaches 0 and sets the
value. The woken process stays registered until it runs. A second `up` before that lowers its position to -1: it then
finds `value` set and a position other than 0, and goes back to sleep for good. So the premise on a run is that no
`up(id)` comes between a wakeup and the retest of the woken process (`UpClear`); and, as the claim is about processes
that live, that no `exit` ends a process inside `down` (`DownSpared`).

A slot being made has the same weakness for a moment: `allocproc` sets its position before its registration, which may
still be the one of the slot's last use (`MakeClear`).

Results:
- `step_watched`: every permitted step keeps the invariant `Watched`.
- `no_lost_wakeup`: in every state of a run of permitted steps, if the value is there and somebody sleeps in `down(id)`,
  somebody else is awake in `down(id)` with position 0.
- `second_up_strands`: two `up`s in a row, and the only waiter sleeps at position -1 with the value there.
-/
import Xv6Threads.Kernel.SemaphoreQueue

namespace Xv6Threads.Kernel

open Xv6Threads.Core Function

variable {N K : ℕ}

/-! ## Premises on a step -/

/-- the place is where a process sleeps in `binary_semaphore_down` -/
def Pc.isDownSleep : Pc N → Bool
  | .downSleep _ => true
  | _ => false

theorem Pc.out_iff {c : Pc N} : c.isDownSleep = false ↔ c.Out := by
  cases c <;> simp [isDownSleep, Out]

instance : DecidablePred (Pc.Out (N := N)) := fun _ => decidable_of_iff _ Pc.out_iff

/-- no `exit` of another slot of its pid ends a process inside `binary_semaphore_down` in this step -/
def DownSpared (s : St N K) (o : Op N K) : Prop :=
  ∀ q, (s.ptable q).state.Active → ¬ (s.pc q).Out → Spared s o q

/-- the step is no `up(id)` that meets a process registered with `id` at position 0: one that was woken and has not run -/
def UpClear (id : SemId) (s : St N K) (o : Op N K) : Prop :=
  ∀ x ∈ semCall s o, x.2.2 = .up id → ∀ q, q ≠ x.2.1 → (s.ptable q).state.Active →
    (s.ptable q).waitingForSemaphore = some id → (s.ptable q).semQueuePos ≠ 0

/-- the step is no `up` that meets a slot in the making that is still registered with its semaphore at position 0 -/
def MakeClear (s : St N K) (o : Op N K) : Prop :=
  ∀ x ∈ semCall s o, ∀ q, (s.ptable q).state = .embryo → ∀ i ∈ (s.ptable q).waitingForSemaphore, x.2.2 = .up i →
    (s.ptable q).semQueuePos ≠ 0

/-- the steps after which no wakeup of semaphore `id` is lost -/
def WakeupOk (id : SemId) (s : St N K) (o : Op N K) : Prop :=
  CpusApart s o ∧ DownSpared s o ∧ MakeClear s o ∧ UpClear id s o

instance (id : SemId) (s : St N K) (o : Op N K) : Decidable (WakeupOk id s o) := by
  unfold WakeupOk DownSpared MakeClear UpClear
  infer_instance

/-! ## The invariant -/

/-- whoever is inside `down` is registered; in `down(id)` nobody is past position 0, who is at 0 is awake, and if the
value is there while others wait, somebody is at 0 -/
structure Watched (id : SemId) (s : St N K) : Prop where
  tidy : Tidy s
  registered : ∀ i q, InDown s i q → (s.ptable q).waitingForSemaphore = some i ∧ (s.semtable i).created = true
  nonneg : ∀ q, InDown s id q → 0 ≤ (s.ptable q).semQueuePos
  awake : ∀ q, InDown s id q → (s.ptable q).semQueuePos = 0 → (s.ptable q).state ≠ .sleeping
  token : (s.semtable id).value ≠ 0 → 0 < (s.semtable id).waiting → ∃ q, InDown s id q ∧ (s.ptable q).semQueuePos = 0

section Watched

variable {odd : Bool → Prop} {s s' : St N K} {c : Fin K} {p q : Fin N} {id i : SemId}

theorem Aside.inDown {spared : Fin N → Prop} (ha : Aside spared s s') (hs : spared q) (h : InDown s i q) :
    InDown s' i q ∧ CalmSlot (s.ptable q) (s'.ptable q) := by
  rcases ha.slot q with ⟨hpc, hcalm⟩ | ho
  · exact ⟨h.calm hpc hcalm, hcalm⟩
  · exact absurd h (ho.before hs i)

theorem Aside.of_inDown {spared : Fin N → Prop} (ha : Aside spared s s') (h : InDown s' i q) :
    InDown s i q ∧ CalmSlot (s.ptable q) (s'.ptable q) := by
  rcases ha.slot q with ⟨hpc, hcalm⟩ | ho
  · exact ⟨h.of_calm hpc hcalm, hcalm⟩
  · exact absurd h (ho.after i)

/-- a step that passes the semaphores by and spares whoever is inside `down` -/
theorem Watched.aside {spared : Fin N → Prop} (h : Watched id s) (ha : Aside spared s s')
    (hs : ∀ i q, InDown s i q → spared q) : Watched id s' := by
  refine ⟨ha.tidy h.tidy, fun i q hq => ?_, fun q hq => ?_, fun q hq h0 => ?_, fun hv hw => ?_⟩
  · obtain ⟨hd, hcalm⟩ := ha.of_inDown hq
    rw [hcalm.waitingFor, ha.semtable]
    exact h.registered i q hd
  · obtain ⟨hd, hcalm⟩ := ha.of_inDown hq
    rw [hcalm.pos]
    exact h.nonneg q hd
  · obtain ⟨hd, hcalm⟩ := ha.of_inDown hq
    rw [hcalm.pos] at h0
    exact fun hsleep => h.awake q hd h0 (hcalm.sleeping hsleep)
  · rw [ha.semtable] at hv hw
    obtain ⟨q, hd, h0⟩ := h.token hv hw
    obtain ⟨hd', hcalm⟩ := ha.inDown (hs id q hd) hd
    exact ⟨q, hd', hcalm.pos.trans h0⟩

/-- nobody is making the slot of an active process -/
theorem Kept.not_made (hk : Kept odd s) (hp : (s.ptable p).state.Active) {r : Fin N} {st : Making}
    (hr : (s.ptable r).state.Active) : s.pc r ≠ .make st p := by
  intro hpc
  have he := (hk.orderly.made r st p (ProcState.life_active.2 hr) (by simp [St.census, hpc, Pc.act])).embryo
  rw [show s.census.life p = .active from ProcState.life_active.2 hp] at he
  cases he

/-- process `p` makes a step of its own: outside `down` it is tidy; inside `down(id)` it has a place -/
theorem Watched.own (h : Watched id s) (hk : Kept odd s) (hp : (s.ptable p).state.Active) (ho : Others p s s')
    (hc : ∀ i, (s.semtable i).created = true → (s'.semtable i).created = true)
    (hmake : ∀ st np, s'.pc p ≠ .make st np)
    (hout : (s'.pc p).Out → (s'.ptable p).waitingForSemaphore = none ∧ (s'.ptable p).semQueuePos = 0)
    (hin : ∀ i, s'.pc p = .downSleep i → (s'.ptable p).waitingForSemaphore = some i ∧ (s'.semtable i).created = true ∧
      (i = id → 0 < (s'.ptable p).semQueuePos))
    (htok : (s'.semtable id).value ≠ 0 → 0 < (s'.semtable id).waiting →
      ∃ q, q ≠ p ∧ InDown s id q ∧ (s.ptable q).semQueuePos = 0) : Watched id s' := by
  refine ⟨⟨fun q ha hq => ?_, fun r st np ha hr => ?_⟩, fun i q hq => ?_, fun q hq => ?_, fun q hq h0 => ?_,
    fun hv hw => ?_⟩
  · by_cases hqp : q = p
    · subst hqp
      exact hout hq
    · rw [(ho q hqp).1] at ha ⊢
      rw [(ho q hqp).2] at hq
      exact h.tidy.out q ha hq
  · have hrp : r ≠ p := by
      rintro rfl
      exact hmake st np hr
    rw [(ho r hrp).1] at ha
    rw [(ho r hrp).2] at hr
    have hnp : np ≠ p := by
      rintro rfl
      exact hk.not_made hp ha hr
    rw [(ho np hnp).1]
    exact h.tidy.made r st np ha hr
  · by_cases hqp : q = p
    · subst hqp
      exact ⟨(hin i hq.2).1, (hin i hq.2).2.1⟩
    · rw [(ho q hqp).1]
      obtain ⟨h1, h2⟩ := h.registered i q ((ho.inDown hqp).1 hq)
      exact ⟨h1, hc i h2⟩
  · by_cases hqp : q = p
    · subst hqp
      exact ((hin id hq.2).2.2 rfl).le
    · rw [(ho q hqp).1]
      exact h.nonneg q ((ho.inDown hqp).1 hq)
  · by_cases hqp : q = p
    · subst hqp
      exact absurd h0 ((hin id hq.2).2.2 rfl).ne'
    · rw [(ho q hqp).1] at h0 ⊢
      exact h.awake q ((ho.inDown hqp).1 hq) h0
  · obtain ⟨q, hqp, hd, h0⟩ := htok hv hw
    exact ⟨q, (ho.inDown hqp).2 hd, by rw [(ho q hqp).1, h0]⟩

/-- the witness of the token is somebody else, if the acting process is not at position 0 in `down(id)` -/
theorem Watched.token_other (h : Watched id s) (hp : s.pc p ≠ .downSleep id ∨ (s.ptable p).semQueuePos ≠ 0)
    (hv : (s.semtable id).value ≠ 0) (hw : 0 < (s.semtable id).waiting) :
    ∃ q, q ≠ p ∧ InDown s id q ∧ (s.ptable q).semQueuePos = 0 := by
  obtain ⟨q, hd, h0⟩ := h.token hv hw
  refine ⟨q, ?_, hd, h0⟩
  rintro rfl
  exact hp.elim (fun hpc => hpc hd.2) fun hpos => hpos h0

/-- only the history changed -/
theorem Watched.log (h : Watched id s) (e : Ev N) : Watched id (s.log e) :=
  ⟨⟨h.tidy.out, h.tidy.made⟩, h.registered, h.nonneg, h.awake, h.token⟩

theorem Kept.log (h : Kept odd s) (e : Ev N) : Kept odd (s.log e) := ⟨⟨h.cpus.running, h.cpus.inj⟩, h.orderly⟩

/-! The sections of `down` and `up`. -/

/-- the value is taken by a process at position 0 -/
theorem Watched.take (h : Watched id s) (hk : Kept odd s) (hp : (s.ptable p).state.Active)
    (h0 : (s.ptable p).semQueuePos = 0) (hpc : s.pc p = .user ∨ s.pc p = .downSleep i) : Watched id (semTake s p i) := by
  refine h.own hk hp (others_semTake s p i) (fun j hj => ?_) (by simp [semTake]) (fun _ => by simp [semTake, h0])
    (by simp [semTake]) fun hv hw => ?_
  · by_cases hji : j = i
    · subst hji
      simpa [semTake] using hj
    · simpa [semTake, hji] using hj
  · by_cases hi : id = i
    · subst hi
      simp [semTake] at hv
    · simp only [semTake, St.sysret_semtable, St.log_semtable, St.write_semtable, update_of_ne hi] at hv hw
      refine h.token_other (Or.inl fun hd => hi ?_) hv hw
      rcases hpc with hu | hu <;> rw [hu] at hd <;> cases hd
      rfl

/-- a process joins the queue: the value is gone, or somebody else is there to take it -/
theorem Watched.join (h : Watched id s) (hk : Kept odd s) (hp : (s.ptable p).state.Active)
    (hn : 0 ≤ (s.semtable i).waiting) (hc : (s.semtable i).created = true)
    (hpc : s.pc p = .user ∨ s.pc p = .downSleep i)
    (htok : (s.semtable i).value = 0 ∨ (s.pc p = .user ∧ 0 < (s.semtable i).waiting)) :
    Watched id (semSleep (enqueue s p i) c p i) := by
  have hpos : ((semSleep (enqueue s p i) c p i).ptable p).semQueuePos = (s.semtable i).waiting + 1 := by
    simp [semSleep_self, enqueue]
  have hsem : (semSleep (enqueue s p i) c p i).semtable =
      update s.semtable i { s.semtable i with waiting := (s.semtable i).waiting + 1 } := rfl
  have hdown : (semSleep (enqueue s p i) c p i).pc p = .downSleep i := (semSleep_inDown _ c p i).2
  have hcreated : ∀ j, (s.semtable j).created = true →
      ((semSleep (enqueue s p i) c p i).semtable j).created = true := by
    intro j hj
    rw [hsem]
    by_cases hji : j = i
    · subst hji
      simpa using hj
    · simpa [hji] using hj
  refine h.own hk hp ((others_enqueue s p i).trans (others_semSleep _ c p i)) hcreated (by simp [hdown])
    (fun hout => absurd hdown (hout i)) (fun j hj => ?_) fun hv hw => ?_
  · rw [hdown] at hj
    cases hj
    exact ⟨by simp [semSleep_self], hcreated i hc, fun _ => by omega⟩
  · rw [hsem] at hv hw
    by_cases hi : id = i
    · subst hi
      simp only [update_self] at hv hw
      obtain ⟨hu, hw⟩ := htok.resolve_left hv
      exact h.token_other (Or.inl (by simp [hu])) hv hw
    · simp only [update_of_ne hi] at hv hw
      refine h.token_other (Or.inl fun hd => hi ?_) hv hw
      rcases hpc with hu | hu <;> rw [hu] at hd <;> cases hd
      rfl

/-- a process with a place goes back to sleep -/
theorem Watched.sleep (h : Watched id s) (hk : Kept odd s) (hd : InDown s i p) (h0 : (s.ptable p).semQueuePos ≠ 0) :
    Watched id (semSleep s c p i) := by
  have hdown : (semSleep s c p i).pc p = .downSleep i := (semSleep_inDown _ c p i).2
  refine h.own hk hd.1 (others_semSleep s c p i) (fun _ hj => hj) (by simp [hdown])
    (fun hout => absurd hdown (hout i)) (fun j hj => ?_) fun hv hw => h.token_other (Or.inr h0) hv hw
  rw [hdown] at hj
  cases hj
  refine ⟨by simp [semSleep_self], (h.registered i p hd).2, fun hi => ?_⟩
  subst hi
  have := h.nonneg p hd
  simp only [semSleep_self]
  omega

theorem Watched.refuse (h : Watched id s) (hk : Kept odd s) (hp : (s.ptable p).state.Active) (hu : s.pc p = .user)
    (v : ℤ) : Watched id (s.sysret p v) := by
  refine h.own hk hp (others_sysret s p v) (fun _ hj => hj) (by simp) (fun _ => ?_) (by simp)
    (h.token_other (Or.inl (by simp [hu])))
  exact h.tidy.out p hp (by simp [hu, Pc.Out])

theorem Watched.down (h : Watched id s) (hk : Kept odd s) (hl : Lined s) (hp : (s.ptable p).state.Active)
    (hu : s.pc p = .user) (i : SemId) : Watched id (binarySemaphoreDown s c p i) := by
  have h0 := (h.tidy.out p hp (by simp [hu, Pc.Out])).2
  have hn := (hl.ranks i).nonneg
  have hw := h.log (.call (s.who p) i)
  have hk' := hk.log (.call (s.who p) i)
  rcases down_cases hn (hl.fresh i) c p with ⟨_, he⟩ | ⟨_, _, _, _, he⟩ | ⟨hc, hj, he⟩ | ⟨_, _, hne, _⟩
  · rw [he]
    exact hw.refuse hk' hp hu _
  · rw [he]
    exact hw.take hk' hp h0 (Or.inl hu)
  · rw [he]
    refine hw.join hk' hp hn hc (Or.inl hu) (hj.symm.imp And.left fun hne => ⟨hu, ?_⟩)
    exact lt_of_le_of_ne hn hne.symm
  · exact absurd h0 hne

theorem Watched.retest (h : Watched id s) (hk : Kept odd s) (hl : Lined s) (hd : InDown s i p) :
    Watched id (downLoop s c p i) := by
  rcases downLoop_cases s c p i with ⟨hc, _⟩ | ⟨_, _, h0, he⟩ | ⟨hc, hv, _, he⟩ | ⟨_, hne, he⟩
  · rw [(h.registered i p hd).2] at hc
    cases hc
  · rw [he]
    exact h.take hk hd.1 h0 (Or.inr hd.2)
  · rw [he]
    exact h.join hk hd.1 (hl.ranks i).nonneg hc (Or.inr hd.2) (Or.inl hv)
  · rw [he]
    exact h.sleep hk hd hne

theorem Watched.create (h : Watched id s) (hk : Kept odd s) (hl : Lined s) (hp : (s.ptable p).state.Active)
    (hu : s.pc p = .user) (v : ℤ) : Watched id (binarySemaphoreCreate s p v) := by
  have hsame : (binarySemaphoreCreate s p v).ptable = s.ptable ∧ (binarySemaphoreCreate s p v).pc p = .user := by
    unfold binarySemaphoreCreate
    split <;> exact ⟨rfl, by simp⟩
  refine h.own hk hp (others_create s p v) (fun j hj => ?_) (by simp [hsame.2]) (fun _ => ?_) (by simp [hsame.2])
    fun hv hw => ?_
  · unfold binarySemaphoreCreate
    split
    · exact hj
    · rename_i i _
      by_cases hji : j = i
      · subst hji
        simp
      · simpa [hji] using hj
  · rw [hsame.1]
    exact h.tidy.out p hp (by simp [hu, Pc.Out])
  · -- a new semaphore has no queue
    unfold binarySemaphoreCreate at hv hw
    split at hv
    · rename_i hnone
      simp only [hnone, St.sysret_semtable] at hw
      exact h.token_other (Or.inl (by simp [hu])) hv hw
    · rename_i i hi
      simp only [hi] at hw
      by_cases hid : id = i
      · subst hid
        have hfresh : (s.semtable id).created = false := by
          simpa using List.find?_some hi
        simp [hl.fresh id hfresh] at hw
      · simp only [St.sysret_semtable, St.log_semtable, update_of_ne hid] at hv hw
        exact h.token_other (Or.inl (by simp [hu])) hv hw

/-- the process that reaches position 0 is the one that `up` wakes -/
theorem upFirst_eq {t : Table N} (hq : q ≠ p ∧ (t q).waitingForSemaphore = some id ∧ (t q).semQueuePos = 1)
    (huniq : ∀ r, (t r).waitingForSemaphore = some id → (t r).semQueuePos = 1 → r = q) : upFirst t p id = some q := by
  have hmem : ∀ r, r ∈ (List.finRange N).filter (fun r =>
      r ≠ p ∧ (t r).waitingForSemaphore = some id ∧ (t r).semQueuePos - 1 = 0) →
      (t r).waitingForSemaphore = some id ∧ (t r).semQueuePos = 1 := by
    intro r hr
    simp only [List.mem_filter, decide_eq_true_eq] at hr
    exact ⟨hr.2.2.1, by omega⟩
  have hqmem : q ∈ (List.finRange N).filter (fun r =>
      r ≠ p ∧ (t r).waitingForSemaphore = some id ∧ (t r).semQueuePos - 1 = 0) := by
    simp [hq.1, hq.2.1, hq.2.2]
  cases h : upFirst t p id with
  | none =>
    rw [upFirst, List.getLast?_eq_none_iff] at h
    rw [h] at hqmem
    cases hqmem
  | some r =>
    obtain ⟨h1, h2⟩ := hmem r (List.mem_of_getLast? h)
    rw [huniq r h1 h2]

theorem Watched.up (h : Watched id s) (hk : Kept odd s) (hl : Lined s) (hu : s.pc p = .user)
    (hd : UpDone s s' p i)
    (hclear : i = id → ∀ q, q ≠ p → (s.ptable q).state.Active → (s.ptable q).waitingForSemaphore = some id →
      (s.ptable q).semQueuePos ≠ 0)
    (hmake : ∀ q, (s.ptable q).state = .embryo → (s.ptable q).waitingForSemaphore = some i →
      (s.ptable q).semQueuePos ≠ 0) : Watched id s' := by
  have hpc : s'.pc = s.pc := by
    rw [hd.pc, ← hu, update_eq_self]
  have hin : ∀ j q, InDown s' j q ↔ InDown s j q := by
    intro j q
    unfold InDown
    rw [(hd.slot q).active, hpc]
  have hne : ∀ j q, InDown s j q → q ≠ p := by
    rintro j q hq rfl
    rw [hq.2] at hu
    cases hu
  -- the positions of the processes in `down(id)`
  have hsame : i ≠ id → ∀ q, InDown s id q → (s'.ptable q).semQueuePos = (s.ptable q).semQueuePos := by
    intro hi q hq
    rw [(hd.slot q).pos, if_neg]
    rintro ⟨_, hw⟩
    rw [(h.registered id q hq).1] at hw
    exact hi (Option.some.inj hw).symm
  have hdown : i = id → ∀ q, InDown s id q → (s'.ptable q).semQueuePos = (s.ptable q).semQueuePos - 1 ∧
      1 ≤ (s.ptable q).semQueuePos := by
    rintro rfl q hq
    have hw := (h.registered i q hq).1
    have h0 := hclear rfl q (hne i q hq) hq.1 hw
    have := h.nonneg q hq
    rw [(hd.slot q).pos, if_pos ⟨hne i q hq, hw⟩]
    exact ⟨rfl, by omega⟩
  refine ⟨⟨fun q ha hq => ?_, fun r st np ha hr => ?_⟩, fun j q hq => ?_, fun q hq => ?_, fun q hq h0 => ?_,
    fun hv hw => ?_⟩
  · obtain ⟨h1, h2⟩ := h.tidy.out q ((hd.slot q).active.1 ha) (hpc ▸ hq)
    rw [(hd.slot q).pos, if_neg (by simp [h1]), (hd.slot q).waitingFor]
    exact ⟨h1, h2⟩
  · have ha' := (hd.slot r).active.1 ha
    have hr' : s.pc r = .make st np := hpc ▸ hr
    obtain ⟨h1, h2⟩ := h.tidy.made r st np ha' hr'
    refine ⟨fun hst => ?_, fun hst => (hd.slot np).waitingFor.trans (h2 hst)⟩
    -- the new slot is not registered with this semaphore, or the premise fails
    have he : (s.ptable np).state.life = .embryo :=
      (hk.orderly.made r st np (ProcState.life_active.2 ha') (by simp [St.census, hr', Pc.act])).embryo
    have hemb : (s.ptable np).state = .embryo := by
      cases hs : (s.ptable np).state <;> simp [hs, ProcState.life] at he
      rfl
    rw [(hd.slot np).pos, if_neg, h1 hst]
    rintro ⟨_, hw⟩
    exact hmake np hemb hw (h1 hst)
  · rw [(hd.slot q).waitingFor]
    obtain ⟨h1, h2⟩ := h.registered j q ((hin j q).1 hq)
    refine ⟨h1, ?_⟩
    rw [hd.semtable]
    by_cases hj : j = i
    · subst hj
      simpa using h2
    · simpa [hj] using h2
  · have hq' := (hin id q).1 hq
    by_cases hi : i = id
    · obtain ⟨h1, h2⟩ := hdown hi q hq'
      omega
    · rw [hsame hi q hq']
      exact h.nonneg q hq'
  · have hq' := (hin id q).1 hq
    by_cases hi : i = id
    · subst hi
      obtain ⟨h1, h2⟩ := hdown rfl q hq'
      have hw := (h.registered i q hq').1
      refine hd.woken q (upFirst_eq ⟨hne i q hq', hw, by omega⟩ fun r hr h1r => ?_)
      exact (hl.ranks i).inj r q ⟨hr, by omega⟩ ⟨hw, by omega⟩ (by omega)
    · rw [hsame hi q hq'] at h0
      exact fun hsleep => h.awake q hq' h0 ((hd.slot q).sleeping hsleep)
  · by_cases hi : i = id
    · -- whoever was first in the queue is at 0 now
      subst hi
      rw [hd.semtable, update_self] at hw
      dsimp only at hw
      obtain ⟨q, ⟨hqw, hqpos⟩, h1⟩ := (hl.ranks i).first (by split at hw <;> omega)
      obtain ⟨j, hq, hqj⟩ := hl.queued q hqpos
      obtain rfl : i = j := Option.some.inj (hqw.symm.trans hqj)
      refine ⟨q, (hin i q).2 hq, ?_⟩
      have := (hdown rfl q hq).1
      omega
    · rw [hd.semtable, update_of_ne (Ne.symm hi)] at hv hw
      obtain ⟨q, hq, h0⟩ := h.token hv hw
      exact ⟨q, (hin id q).2 hq, (hsame hi q hq).trans h0⟩

end Watched

/-! ## Runs -/

theorem DownSpared.inDown {s : St N K} {o : Op N K} (h : DownSpared s o) {i : SemId} {q : Fin N} (hq : InDown s i q) :
    Spared s o q := h q hq.1 fun hout => hout i hq.2

theorem DownSpared.queued {s : St N K} {o : Op N K} (h : DownSpared s o) (hl : Lined s) : QueuedSpared s o := by
  intro q hq
  obtain ⟨i, hd, _⟩ := hl.queued q hq
  exact h.inDown hd

theorem step_watched {odd : Bool → Prop} {s : St N K} {o : Op N K} {id : SemId} (hk : Kept odd s) (hl : Lined s)
    (h : Watched id s) (ho : WakeupOk id s o) : Watched id (step s o) := by
  obtain ⟨_, hspared, hmake, hclear⟩ := ho
  cases hsem : semCall s o with
  | none => exact h.aside (step_aside hk hsem) fun _ _ => hspared.inDown
  | some x =>
    obtain ⟨c, p, f⟩ := x
    obtain ⟨hc, hat, he⟩ := step_of_semCall hsem
    have hp : (s.ptable p).state.Active := Or.inr (Or.inr (hk.cpus.running c p hc))
    rw [he]
    cases f with
    | create v => exact h.create hk hl hp hat v
    | down i => exact h.down hk hl hp hat i
    | retest i => exact h.retest hk hl ⟨hp, hat⟩
    | up i =>
      rcases up_cases s p i with ⟨_, he⟩ | ⟨_, hd⟩
      · rw [SemCall.run, he]
        exact h.refuse hk hp hat _
      · refine h.up hk hl hat hd (fun hi q hq ha hw => ?_) fun q hq hw => ?_
        · exact hclear (c, p, .up i) hsem (by rw [hi]) q hq ha hw
        · exact hmake (c, p, .up i) hsem q hq i hw rfl

theorem boot_watched [NeZero N] (id : SemId) : Watched id (boot N K) := by
  refine ⟨⟨fun q ha _ => ?_, fun _ _ _ _ h => ?_⟩, fun _ _ h => ?_, fun _ h => ?_, fun _ h => ?_, fun _ h => ?_⟩
  · by_cases hq : q = 0
    · subst hq
      simp [boot, freeSlot]
    · simp [boot, freeSlot, hq, ProcState.Active] at ha
  · cases h
  · cases h.2
  · cases h.2
  · cases h.2
  · exact absurd h (lt_irrefl 0)

/-- everything the kernel keeps about semaphore `id` -/
structure Guarded (id : SemId) (s : St N K) : Prop where
  kept : Kept (fun _ => True) s
  lined : Lined s
  watched : Watched id s

theorem step_guarded {s : St N K} {o : Op N K} {id : SemId} (h : Guarded id s) (ho : WakeupOk id s o) :
    Guarded id (step s o) :=
  ⟨step_kept h.kept ho.1 fun _ _ => trivial, step_lined h.kept h.lined (ho.2.1.queued h.lined),
    step_watched h.kept h.lined h.watched ho⟩

theorem boot_guarded [NeZero N] (id : SemId) : Guarded id (boot N K) := ⟨boot_kept, boot_lined, boot_watched id⟩

/-- **No wakeup is lost.** In every state of a run of permitted steps: if the value of `id` is there and a process sleeps
inside `down(id)`, another one is inside `down(id)`, registered, at position 0 and awake, so that it takes the value when
it runs; and no process inside `down(id)` has a negative position. -/
theorem no_lost_wakeup [NeZero N] (ops : List (Op N K)) (id : SemId) (h : Along step (WakeupOk id) (boot N K) ops) :
    let s := run step (boot N K) ops
    ((s.semtable id).value ≠ 0 → ∀ P, InDown s id P → (s.ptable P).state = .sleeping →
      ∃ R, R ≠ P ∧ InDown s id R ∧ (s.ptable R).waitingForSemaphore = some id ∧ (s.ptable R).semQueuePos = 0 ∧
        ((s.ptable R).state = .runnable ∨ (s.ptable R).state = .running)) ∧
      ∀ P, InDown s id P → 0 ≤ (s.ptable P).semQueuePos := by
  intro s
  have hg : Guarded id s := h.inv (I := Guarded id) (fun _ _ ho hs => step_guarded hs ho) (boot_guarded id)
  have hw := hg.watched
  refine ⟨fun hv P hP hsleep => ?_, hw.nonneg⟩
  have hpos : (s.ptable P).semQueuePos ≠ 0 := fun h0 => hw.awake P hP h0 hsleep
  have hreg := (hw.registered id P hP).1
  have hwaiting : 0 < (s.semtable id).waiting := by
    have h0 := hw.nonneg P hP
    have hb := (hg.lined.ranks id).bound P ⟨hreg, by omega⟩
    omega
  obtain ⟨R, hR, h0⟩ := hw.token hv hwaiting
  refine ⟨R, ?_, hR, (hw.registered id R hR).1, h0, hR.1.resolve_left (hw.awake R hR h0)⟩
  rintro rfl
  exact hpos h0

/-- init creates a semaphore with value 0 and forks two children; both call `down` and sleep, and init calls `up` -/
def twoWait : List (Op 64 1) :=
  [Op.dispatch 0 0, Op.call 0 (.semCreate 0), Op.call 0 .fork] ++ List.replicate 10 (Op.exec 0 true) ++
    [Op.call 0 .fork] ++ List.replicate 10 (Op.exec 0 true) ++
    [Op.preempt 0, Op.dispatch 0 1, Op.call 0 (.semDown 0), Op.dispatch 0 2, Op.call 0 (.semDown 0), Op.dispatch 0 0,
      Op.call 0 (.semUp 0)]

theorem twoWait_wakeup :
    let s := run step (boot 64 1) twoWait
    (s.semtable 0).value = 1 ∧ (s.ptable 2).state = .sleeping ∧ InDown s 0 2 ∧
      ∃ R, R ≠ 2 ∧ InDown s 0 R ∧ (s.ptable R).waitingForSemaphore = some 0 ∧ (s.ptable R).semQueuePos = 0 ∧
        ((s.ptable R).state = .runnable ∨ (s.ptable R).state = .running) := by
  intro s
  have h : Along step (WakeupOk 0) (boot 64 1) twoWait := by decide +kernel
  have hv : (s.semtable 0).value = 1 := by decide +kernel
  have hs : (s.ptable 2).state = .sleeping := by decide +kernel
  have hd : InDown s 0 2 := ⟨Or.inl hs, by decide +kernel⟩
  exact ⟨hv, hs, hd, (no_lost_wakeup twoWait 0 h).1 (by rw [hv]; decide) 2 hd hs⟩

/-- init creates a semaphore with value 0 and forks; the child calls `down` and sleeps; init calls `up` twice before the
child runs again -/
def twoUps : List (Op 64 1) :=
  [Op.dispatch 0 0, Op.call 0 (.semCreate 0), Op.call 0 .fork] ++ List.replicate 10 (Op.exec 0 true) ++
    [Op.preempt 0, Op.dispatch 0 1, Op.call 0 (.semDown 0), Op.dispatch 0 0, Op.call 0 (.semUp 0), Op.call 0 (.semUp 0),
      Op.preempt 0, Op.dispatch 0 1, Op.exec 0 true]

/-- **The second `up` strands the waiter.** The value is there, the child sleeps at position -1, and nobody who waits is
RUNNABLE at position 0. -/
theorem second_up_strands :
    let s := run step (boot 64 1) twoUps
    (s.semtable 0).created = true ∧ (s.semtable 0).value = 1 ∧ s.pc 1 = .downSleep 0 ∧
      (s.ptable 1).state = .sleeping ∧ (s.ptable 1).semQueuePos = -1 ∧
      ¬ ∃ R, R ≠ 1 ∧ (s.ptable R).waitingForSemaphore = some 0 ∧ (s.ptable R).state = .runnable ∧
        (s.ptable R).semQueuePos = 0 := by
  decide +kernel

end Xv6Threads.Kernel
