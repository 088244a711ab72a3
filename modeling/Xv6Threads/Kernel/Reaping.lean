/-
What `wait` reaps, over whole runs of the kernel.

`wait` decides by the main slot alone: ZOMBIE, isthread = 0 and threadnum = 0. Two questions, one for each direction:
- is everything it frees dead? Not always: the last thread of a process gives up its count in `thread_exit`, releases
  `ptable.lock`, and only later becomes a zombie in `exit`. `last_thread_reaped` is the run, and
  `wait_frees_only_zombies` says that this is the only way: without such a `thread_exit` every slot freed is a ZOMBIE.
- does it find everything dead? Not always: a main slot that leaves last through `thread_exit` is counted down twice,
  to -1. `main_exit_unreapable` is the run, and `dead_process_reapable` says when it does: if no main slot leaves last
  through `thread_exit`, and no `exit` meets a slot of its process that is still being made.
-/
import Xv6Threads.Kernel.Refinement

namespace Xv6Threads.Kernel

open Xv6Threads.Core

variable {N K : ℕ}

/-! ## Everything `wait` frees is dead -/

/-- in this step `wait` frees the slots of the pid `X` -/
def Reaps (s : St N K) (o : Op N K) (X : ℕ) : Prop := X ≠ 0 ∧ ∃ p ∈ waiter s o, waitFound s.ptable p = X

instance (s : St N K) (o : Op N K) (X : ℕ) : Decidable (Reaps s o X) := by
  unfold Reaps
  infer_instance

section Freed

variable (s : St N K) (c : Fin K) (p : Fin N)

theorem makeStep_freed (np : Fin N) (ok : Bool) (st : Making) : (makeStep s p np ok st).freed = s.freed := by
  cases st <;> simp only [makeStep] <;> first | rfl | (split <;> rfl)

end Freed

/-- a slot of a reaped pid is a zombie, or leaves through `exit` after the last count was given up -/
theorem Kept.reaped_slot {odd : Bool → Prop} {s : St N K} (h : Kept odd s) {p m q : Fin N}
    (hm : Reapable p (s.ptable m)) (hq : (s.ptable q).pid = (s.ptable m).pid) :
    (s.ptable q).state = .zombie ∨ ((s.ptable q).state.Active ∧ s.census.act q = .leaving ∧ odd (s.ptable q).isthread) := by
  have hml : s.census.life m = .zombie := by simp [St.census, hm.2.1, ProcState.life]
  cases hs : (s.ptable q).state with
  | zombie => exact Or.inl rfl
  | unused =>
    have hql : s.census.life q = .free := by simp [St.census, hs, ProcState.life]
    exact absurd hq (h.orderly.free_pid_ne hql (by simp [hml]))
  | embryo =>
    have hql : s.census.life q = .embryo := by simp [St.census, hs, ProcState.life]
    exact absurd hq (h.orderly.reap_no_embryo hml hm.2.2.1 hm.2.2.2 hql)
  | sleeping | runnable | running =>
    have hql : s.census.life q = .active := by simp [St.census, hs, ProcState.life]
    have := h.orderly.reap_leaving hml hm.2.2.1 hm.2.2.2 hql hq
    exact Or.inr ⟨by simp [ProcState.Active], this.1, this.2.1⟩

/-- the last count of a process is given up by its main slot -/
def MainLast (s : St N K) (o : Op N K) : Prop := LastOk (· = false) s o

instance (s : St N K) (o : Op N K) : Decidable (MainLast s o) := by
  unfold MainLast
  infer_instance

/-- if only main slots give up the last count, every slot of a reaped pid is a zombie: the only active one left would be
the main slot, and `wait` found that dead -/
theorem Kept.reaped_zombie {s : St N K} (h : Kept (· = false) s) {o : Op N K} {X : ℕ} (hX : Reaps s o X) {q : Fin N}
    (hq : (s.ptable q).pid = X) : (s.ptable q).state = .zombie := by
  obtain ⟨h0, p, _, rfl⟩ := hX
  obtain ⟨m, hm, hpid⟩ := exists_of_waitFound h0
  rcases h.reaped_slot hm (hq.trans hpid.symm) with hz | ⟨ha, _, ht⟩
  · exact hz
  · obtain ⟨m', hh, _⟩ := h.orderly.home q (ProcState.life_active.2 ha)
    have hml : s.census.life m = .zombie := by
      simp [St.census, hm.2.1, ProcState.life]
    obtain rfl := hh.self ht
    obtain rfl := hh.unique m (Or.inr hml) (hpid.trans hq.symm) hm.2.2.1
    exact hm.2.1

/-- **`wait` frees only the dead, on one CPU.** In every run in which no thread other than the main one calls
`thread_exit` as the last of its process, whenever `wait` frees the slots of a pid, all of them are ZOMBIE. -/
theorem wait_frees_only_zombies [NeZero N] (ops : List (Op N 1)) (h : Along step MainLast (boot N 1) ops) (o : Op N 1)
    (X : ℕ) (hX : Reaps (run step (boot N 1) ops) o X) (q : Fin N)
    (hq : ((run step (boot N 1) ops).ptable q).pid = X) : ((run step (boot N 1) ops).ptable q).state = .zombie := by
  have hk : Kept (· = false) (run step (boot N 1) ops) :=
    h.inv (fun s o ho hs => step_kept hs (cpusApart_one s o) ho) boot_kept
  exact hk.reaped_zombie hX hq

/-- init forks a child, and the child calls `exit` -/
def childExits : List (Op 64 1) :=
  [Op.dispatch 0 0, Op.call 0 .fork] ++ List.replicate 10 (Op.exec 0 true) ++ [Op.preempt 0, Op.dispatch 0 1, Op.call 0 .exit,
    Op.exec 0 true, Op.dispatch 0 0]

theorem childExits_zombie :
    Along step MainLast (boot 64 1) childExits ∧ Reaps (run step (boot 64 1) childExits) (.call 0 .wait) 2 ∧
      ((run step (boot 64 1) childExits).ptable 1).state = .zombie :=
  ⟨by decide +kernel, by decide +kernel,
    wait_frees_only_zombies childExits (by decide +kernel) (.call 0 .wait) 2 (by decide +kernel) 1 (by decide +kernel)⟩

/-- init forks a child, the child makes a thread and leaves, the thread calls `thread_exit` and is preempted in
`exit` -/
def lastThread : List (Op 64 1) :=
  [Op.dispatch 0 0, Op.call 0 .fork] ++ List.replicate 10 (Op.exec 0 true) ++ [Op.preempt 0, Op.dispatch 0 1,
    Op.call 0 .threadCreate] ++ List.replicate 12 (Op.exec 0 true) ++ [Op.call 0 (.threadExit 0), Op.dispatch 0 2,
    Op.call 0 (.threadExit 0), Op.preempt 0, Op.dispatch 0 0]

/-- **A running thread is reaped.** The parent's `wait` finds the main slot ZOMBIE with threadnum 0 and frees the slots
of the pid, one of which is RUNNABLE in the middle of `exit`. -/
theorem last_thread_reaped :
    Reaps (run step (boot 64 1) lastThread) (.call 0 .wait) 2 ∧
      ((run step (boot 64 1) lastThread).ptable 2).pid = 2 ∧
      ((run step (boot 64 1) lastThread).ptable 2).state = .runnable ∧
      (run step (boot 64 1) lastThread).pc 2 = .exitClose ∧
      ((run step (boot 64 1) (lastThread ++ [.call 0 .wait])).ptable 2).state = .unused := by
  decide +kernel

/-! ## Everything dead is found by `wait` -/

/-- the number of slots of the pid `X` that are not zombies -/
def remaining (X : ℕ) (t : Table N) : ℤ := tally (fun x : Proc N => if x.pid = X ∧ x.state ≠ .zombie then 1 else 0) t

/-- `m` is the main slot of every slot of the pid `X` that is not a zombie -/
def MainIs (m : Fin N) (X : ℕ) (t : Table N) : Prop :=
  (t m).pid = X ∧ ∀ q, (t q).pid = X → (t q).state ≠ .zombie →
    ((t q).isthread = true → (t q).parent = some m) ∧ ((t q).isthread = false → q = m)

/-- the count of the main slot is the number of slots to go, or it is zero and the main slot is gone -/
def CountsDown (m : Fin N) (X : ℕ) (t : Table N) : Prop :=
  (t m).threadnum = remaining X t ∨ ((t m).threadnum = 0 ∧ (t m).state = .zombie)

section CountDown

variable {m p proc initproc : Fin N} {X : ℕ} {t t' : Table N}

theorem remaining_congr (h : ∀ q, (t' q).pid = (t q).pid ∧ ((t' q).state = .zombie ↔ (t q).state = .zombie)) :
    remaining X t' = remaining X t := by
  unfold remaining tally
  refine Finset.sum_congr rfl fun q _ => ?_
  simp only [(h q).1, ne_eq, (h q).2]

theorem remaining_passedBy (h : ∀ q, PassedBy X (t q) (t' q)) : remaining X t' = remaining X t :=
  remaining_congr fun q => ⟨(h q).pid, (h q).zombie_iff⟩

/-- a slot that dies is one less to go -/
theorem remaining_zombie (hp : (t p).pid = X) (hz : (t p).state ≠ .zombie) :
    remaining X (t.write p fun x => { x with state := .zombie }) = remaining X t - 1 := by
  unfold remaining Table.write
  rw [tally_update, tally_split _ t p]
  simp [hp, hz]

theorem one_le_remaining (hp : (t p).pid = X) (hz : (t p).state ≠ .zombie) : 1 ≤ remaining X t := by
  have := le_tally (w := fun x : Proc N => if x.pid = X ∧ x.state ≠ .zombie then 1 else 0)
    (fun x => by split <;> decide) t p
  simpa [remaining, hp, hz] using this

theorem wake_threadnum (x : Proc N) (chan : Chan N) : (x.wake chan).threadnum = x.threadnum := by
  unfold Proc.wake
  split <;> rfl

theorem dropThread_threadnum (t : Table N) (m : Fin N) :
    (dropThread t m m).threadnum = if (t m).threadnum ≠ 0 then (t m).threadnum - 1 else 0 := by
  unfold dropThread
  by_cases h : (t m).threadnum = 0
  · simp [h, wakeup1, wake_threadnum]
  · simp only [ne_eq, h, not_false_eq_true, if_true]
    split <;> simp [wakeup1, wake_threadnum]

theorem dropMain_threadnum (t : Table N) (p : Fin N) : (dropMain t p p).threadnum = (t p).threadnum - 1 := by
  unfold dropMain
  split <;> simp [wakeup1, wake_threadnum]

theorem MainIs.parentsWithin (h : MainIs m X t) : ParentsWithin t X := by
  intro q m' hq hz ht hm
  have := (h.2 q hq hz).1 ht
  rw [hm] at this
  cases this
  exact h.1

theorem MainIs.frame (initproc proc : Fin N) (h : MainIs m X t)
    (hs : ∀ q, PassedBy X (t q) (t' q) ∨ Visited initproc proc X (t q) (t' q)) : MainIs m X t' := by
  have hpid : ∀ q, (t' q).pid = (t q).pid := fun q => (hs q).elim (·.pid) (·.pid)
  refine ⟨(hpid m).trans h.1, fun q hq hz => ?_⟩
  rw [hpid] at hq
  rcases hs q with hp | hv
  · rw [hp.isthread, hp.parent]
    exact h.2 q hq fun hc => hz (hp.zombie_iff.2 hc)
  · exact absurd (hv.dead hq) hz

/-- at a slot that does not die the loop of `exit` changes no count -/
theorem exitSlot_stays (initproc : Fin N) (hd : ¬((t p).pid = (t proc).pid ∧ (t p).state ≠ .zombie)) (q : Fin N) :
    (exitSlot initproc proc t p q).threadnum = (t q).threadnum ∧ (exitSlot initproc proc t p q).pid = (t q).pid ∧
      ((exitSlot initproc proc t p q).state = .zombie ↔ (t q).state = .zombie) := by
  have hw : ∀ x : Proc N, ∀ chan, (x.wake chan).threadnum = x.threadnum ∧ (x.wake chan).pid = x.pid ∧
      ((x.wake chan).state = .zombie ↔ x.state = .zombie) := fun x chan =>
    ⟨wake_threadnum x chan, (PassedBy.wake 0 x chan).pid, (PassedBy.wake 0 x chan).zombie_iff⟩
  have h1 : (t.write p (fun x => { x with parent := some initproc }) q).threadnum = (t q).threadnum ∧
      (t.write p (fun x => { x with parent := some initproc }) q).pid = (t q).pid ∧
      ((t.write p (fun x => { x with parent := some initproc }) q).state = .zombie ↔ (t q).state = .zombie) := by
    by_cases hq : q = p
    · subst hq
      simp
    · simp [Table.write_of_ne _ hq]
  unfold exitSlot
  rw [if_neg hd]
  split
  · dsimp only
    split
    · obtain ⟨h2, h3, h4⟩ := hw (t.write p (fun x => { x with parent := some initproc }) q) (.proc initproc)
      exact ⟨h2.trans h1.1, h3.trans h1.2.1, h4.trans h1.2.2⟩
    · exact h1
  · exact ⟨rfl, rfl, Iff.rfl⟩

/-- **One slot of the loop.** A dying slot takes one off the count, unless the count is already given up. -/
theorem exitSlot_countsDown (hX : (t proc).pid = X) (hm : MainIs m X t) (hc : CountsDown m X t) (p : Fin N) :
    CountsDown m X (exitSlot initproc proc t p) := by
  by_cases hd : (t p).pid = (t proc).pid ∧ (t p).state ≠ .zombie
  · have hp : (t p).pid = X := hd.1.trans hX
    let t₁ := t.write p fun x => { x with state := .zombie }
    have hrem : remaining X t₁ = remaining X t - 1 := remaining_zombie hp hd.2
    have hpos := one_le_remaining hp hd.2
    have hn : (t₁ m).threadnum = (t m).threadnum := by
      by_cases hmp : m = p
      · subst hmp
        simp [t₁]
      · simp [t₁, Table.write_of_ne _ hmp]
    have hmX : (t₁ m).pid = X := (write_zombie_pid p m).trans hm.1
    obtain ⟨hthread, hmain⟩ := hm.2 p hp hd.2
    by_cases hi : (t p).isthread = true
    · have he : exitSlot initproc proc t p = dropThread t₁ m := by
        rw [exitSlot_dying hd]
        simp [hi, hthread hi, t₁]
      have hpass := dropThread_passedBy hmX
      rw [he]
      unfold CountsDown
      rw [remaining_passedBy hpass, hrem, dropThread_threadnum, hn]
      rcases hc with hc | ⟨h0, hz⟩
      · left
        rw [if_pos (by omega)]
        omega
      · right
        refine ⟨by simp [h0], (hpass m).zombie_iff.2 ?_⟩
        have hmp : m ≠ p := by
          rintro rfl
          exact hd.2 hz
        simpa [t₁, Table.write_of_ne _ hmp] using hz
    · obtain rfl := hmain (by simpa using hi)
      have he : exitSlot initproc proc t p = dropMain t₁ p := by
        rw [exitSlot_dying hd]
        simp [hi, t₁]
      rw [he]
      unfold CountsDown
      rw [remaining_passedBy (dropMain_passedBy hmX), hrem, dropMain_threadnum, hn]
      rcases hc with hc | ⟨_, hz⟩
      · left
        omega
      · exact absurd hz hd.2
  · have hs := fun q => exitSlot_stays initproc hd q
    unfold CountsDown
    rw [(hs m).1, remaining_congr fun q => (hs q).2, (hs m).2.2]
    exact hc

theorem exitFold_countsDown (initproc : Fin N) (slots : List (Fin N)) (hX : (t proc).pid = X) (hm : MainIs m X t)
    (hc : CountsDown m X t) : CountsDown m X (slots.foldl (exitSlot initproc proc) t) := by
  induction slots generalizing t with
  | nil => exact hc
  | cons p slots ih =>
    obtain ⟨hself, hother⟩ := exitSlot_spec initproc proc (hX ▸ hm.parentsWithin) p
    have hs : ∀ q, PassedBy X (t q) (exitSlot initproc proc t p q) ∨
        Visited initproc proc X (t q) (exitSlot initproc proc t p q) := by
      intro q
      by_cases hq : q = p
      · exact Or.inr (hX ▸ hq ▸ hself)
      · exact Or.inl (hX ▸ hother q hq)
    exact ih (((hs proc).elim (·.pid) (·.pid)).trans hX) (hm.frame initproc proc hs) (exitSlot_countsDown hX hm hc p)

/-- **The count after `exit`.** If it was the number of slots to go, or already given up by the last one, it is 0. -/
theorem exitSection_threadnum (hX : (t proc).pid = X) (hm : MainIs m X t) (hc : CountsDown m X t) :
    (exitSection initproc proc t m).threadnum = 0 := by
  let t₁ := wakeup1 t (.ofSlot (t proc).parent)
  have hw : ∀ q, PassedBy X (t q) (t₁ q) := fun q => .wake _ _ _
  have hm₁ : MainIs m X t₁ := hm.frame initproc proc fun q => Or.inl (hw q)
  have hX₁ : (t₁ proc).pid = X := (hw proc).pid.trans hX
  have hc₁ : CountsDown m X t₁ := by
    unfold CountsDown
    rw [remaining_passedBy hw, (hw m).zombie_iff, show (t₁ m).threadnum = (t m).threadnum from wake_threadnum _ _]
    exact hc
  have hend := exitFold_countsDown initproc (List.finRange N) hX₁ hm₁ hc₁
  have hvis := (exitFold_spec initproc (List.nodup_finRange N) hX₁ hm₁.parentsWithin).1
  have h0 : remaining X (exitLoop initproc proc t₁) = 0 := by
    refine tally_eq_zero fun q => ?_
    have hv := hvis q (List.mem_finRange q)
    refine if_neg fun hc => hc.2 (hv.dead ?_)
    exact hv.pid.symm.trans hc.1
  have hn : (exitLoop initproc proc t₁ m).threadnum = 0 := by
    rcases hend with h | h
    · exact h.trans h0
    · exact h.1
  unfold exitSection
  by_cases hmp : m = proc
  · subst hmp
    simpa using hn
  · simpa [Table.write_of_ne _ hmp] using hn

end CountDown

/-- no slot of the pid `X` is active or being made -/
def Census.Dead (l : Census N) (X : ℕ) : Prop := ∀ q, l.pid q = X → l.life q = .free ∨ l.life q = .zombie

/-- the main slot of a dead process has no count left -/
def Settled (l : Census N) : Prop :=
  ∀ m, l.life m = .zombie → l.isthread m = false → l.Dead (l.pid m) → l.threadnum m = 0

section Settled

variable {odd : Bool → Prop} {dying : Fin N → Prop} {l l' : Census N}

theorem Census.Dead.not_active {X : ℕ} (h : l.Dead X) {q : Fin N} (hq : l.life q = .active) : l.pid q ≠ X := by
  intro he
  rcases h q he with h | h <;> rw [hq] at h <;> cases h

/-- a turn that leaves the zombies of dead processes alone -/
theorem Settled.frame (h : Settled l) (hz : ∀ m, l'.life m = .zombie → l'.isthread m = false → l'.Dead (l'.pid m) →
    l.life m = .zombie ∧ l.isthread m = false ∧ l.Dead (l.pid m) ∧ l'.threadnum m = l.threadnum m) : Settled l' := by
  intro m h1 h2 h3
  obtain ⟨g1, g2, g3, g4⟩ := hz m h1 h2 h3
  exact g4.trans (h m g1 g2 g3)

attribute [local grind] Census.Live
attribute [local grind =] Function.update_apply
attribute [local grind →] Made.embryo

theorem Turn.settled (ht : Turn odd dying l l') (h : Orderly odd l) (hs : Settled l)
    (hd : ∀ p, dying p → (∀ q, l.pid q = l.pid p → l.life q ≠ .embryo) ∧
      ∀ m, l.Live m → l.pid m = l.pid p → l.isthread m = false → l'.threadnum m = 0) : Settled l' := by
  cases ht with
  | alloc r np f hr hi hnp =>
    refine hs.frame fun m h1 h2 h3 => ⟨by grind, by grind, fun q hq => ?_, by grind⟩
    have := h3 q
    grind
  | abort r np st hr hm hj hp =>
    have hmade := h.made r st np hr hm
    have ha := hmade.fresh hj
    refine hs.frame fun m h1 h2 h3 => ⟨by grind, by grind, fun q hq => ?_, by grind⟩
    have := h3 q
    have := ha m
    grind
  | store r np st hr hm hst =>
    have hmade := h.made r st np hr hm
    have hlife := l.store_life r np st
    have hoff := fun q => @Census.store_of_ne _ l r st np q
    refine hs.frame fun m h1 h2 h3 => ?_
    have hmn : m ≠ np := by grind
    refine ⟨by grind, by grind, fun q hq => ?_, by grind⟩
    by_cases hqn : q = np
    · -- the new slot belongs to no process yet, or to its maker's, which is not dead
      subst hqn
      by_cases hj : st.joined = true
      · have := hmade.pid hj
        have := h3 r
        grind
      · exact absurd (hmade.fresh (by simpa using hj) m hq.symm) hmn
    · have := h3 q
      grind
  | count r np m hr hm hp =>
    obtain ⟨m', hh, _⟩ := h.home r hr
    have hmade := h.made r _ np hr hm
    have hmm : m' = m := by
      have := hmade.parent rfl
      rw [hp, hh.mainOf] at this
      exact (Option.some.inj this).symm
    subst hmm
    refine hs.frame fun m h1 h2 h3 => ⟨h1, h2, h3, Census.addThreadnum_of_ne ?_ _⟩
    rintro rfl
    exact h3.not_active hr hh.pid.symm
  | publish r np st hr hm hst =>
    have hmade := h.made r st np hr hm
    refine hs.frame fun m h1 h2 h3 => ⟨by grind, h2, fun q hq => ?_, rfl⟩
    have := h3 q
    grind
  | quit p hp hi => exact hs.frame fun m h1 h2 h3 => ⟨h1, h2, h3, rfl⟩
  | last p m hp hi hm h1 ho =>
    obtain ⟨hh, _⟩ := h.home_of_mainOf hp hm
    refine hs.frame fun m' h1 h2 h3 => ⟨h1, h2, h3, Census.addThreadnum_of_ne ?_ _⟩
    rintro rfl
    exact h3.not_active hp hh.pid.symm
  | retire p m hp hi hm =>
    obtain ⟨hh, hb⟩ := h.home_of_mainOf hp hm
    intro m' h1 h2 h3
    by_cases hpm : l.pid m' = l.pid p
    · -- the last slot of its process: the weight, hence the count, is zero
      have hlive : l.Live m' := by
        by_cases hmp : m' = p
        · exact Or.inl (hmp ▸ hp)
        · exact Or.inr (by simpa [hmp] using h1)
      obtain rfl : m' = m := hh.unique m' hlive hpm h2
      have hw := Census.weight_retire hp hi m'
      have h0 : ((l.addThreadnum m' (-1)).setLife p .zombie).weight (l.pid p) = 0 := by
        refine tally_eq_zero fun q => if_neg fun hc => ?_
        exact h3.not_active hc.1 (hc.2.trans hpm.symm)
      have hcount := hb.of_not_leaving (by simp [hi])
      simp
      omega
    · have hmm : m' ≠ m := fun he => hpm (he ▸ hh.pid)
      have hmp : m' ≠ p := fun he => hpm (he ▸ rfl)
      refine (Census.addThreadnum_of_ne hmm _).trans (hs m' (by simpa [hmp] using h1) h2 fun q hq => ?_)
      have hqp : q ≠ p := fun he => hpm (by rw [← hq, he])
      simpa [hqp] using h3 q hq
  | exit l' p hp hdy he =>
    obtain ⟨hemb, hcount⟩ := hd p hdy
    have hlife := he.life
    intro m h1 h2 h3
    rw [he.isthread] at h2
    rw [he.pid] at h3
    by_cases hpm : l.pid m = l.pid p
    · refine hcount m ?_ hpm h2
      cases hl : l.life m with
      | active => exact Or.inl hl
      | zombie => exact Or.inr hl
      | embryo => exact absurd hl (hemb m hpm)
      | free => exact absurd hpm (h.free_pid_ne hl (by simp [hp]))
    · rw [he.threadnum m hpm]
      refine hs m (by grind) h2 fun q hq => ?_
      have := h3 q (by rw [he.pid, hq])
      grind
  | reap q m hq hi hm ht hn =>
    refine hs.frame fun m' h1 h2 h3 => ⟨by grind, h2, fun q' hq' => ?_, rfl⟩
    have := h3 q'
    grind

end Settled

/-- no slot of a process that dies in this step is still being made -/
def NoneMade (s : St N K) (o : Op N K) : Prop :=
  ∀ p ∈ exiting s o, ∀ q, (s.ptable q).pid = (s.ptable p).pid → (s.ptable q).state ≠ .embryo

/-- the last count of a process is given up by a thread -/
def ThreadLast (s : St N K) (o : Op N K) : Prop := LastOk (· = true) s o

/-- the premise under which a dead process has no count left -/
def CountedOut (s : St N K) (o : Op N K) : Prop := CpusApart s o ∧ ThreadLast s o ∧ NoneMade s o

instance (s : St N K) (o : Op N K) : Decidable (CountedOut s o) := by
  unfold CountedOut ThreadLast NoneMade
  infer_instance

section DeadProcess

variable {s : St N K} {o : Op N K}

theorem exiting_step {p : Fin N} (hp : p ∈ exiting s o) :
    ∃ c, s.curproc c = some p ∧ step s o = exitLocked s c p := by
  cases o with
  | exec c ok =>
    obtain ⟨hc, hpc⟩ := Option.mem_filter_iff.1 hp
    have hc' : s.curproc c = some p := hc
    have hpc' : s.pc p = .exitClose := by simpa using hpc
    exact ⟨c, hc', by simp [step, Op.cpu, hc', stepOn, kernelStep, hpc']⟩
  | _ => cases hp

variable {odd : Bool → Prop} {p m : Fin N}

/-- among slots of which none is being made, the weight of a process is the number of its slots that are not zombies -/
theorem weight_eq_remaining (h : Orderly odd s.census) (hp : s.census.life p = .active)
    (hemb : ∀ q, (s.ptable q).pid = (s.ptable p).pid → (s.ptable q).state ≠ .embryo) :
    s.census.weight (s.ptable p).pid = remaining (s.ptable p).pid s.ptable := by
  unfold Census.weight remaining tally
  refine Finset.sum_congr rfl fun q _ => ?_
  by_cases hq : (s.ptable q).pid = (s.ptable p).pid
  · have hqc : s.census.pid q = (s.ptable p).pid := hq
    have he := hemb q hq
    cases hs : (s.ptable q).state with
    | embryo => exact absurd hs he
    | unused =>
      have hl : s.census.life q = .free := by simp [St.census, hs, ProcState.life]
      exact absurd hq (h.free_pid_ne hl (by simp [hp]))
    | zombie => simp [Census.share, St.census, hs, ProcState.life]
    | sleeping | runnable | running =>
      have hl : s.census.life q = .active := by simp [St.census, hs, ProcState.life]
      have hx : (s.census.act q).extra = 0 := by
        cases ha : s.census.act q with
        | idle => rfl
        | leaving => rfl
        | making st np =>
          -- a counted stage would mean an embryo of the same pid
          have hmade := h.made q st np hl ha
          have hst : st.counted = false := by
            by_contra hc
            have hj : st.joined = true := by cases st <;> first | rfl | exact absurd rfl hc
            have hlife := hmade.embryo
            refine hemb np ((hmade.pid hj).trans hq) ?_
            cases hn : (s.ptable np).state <;> simp [St.census, hn, ProcState.life] at hlife
            rfl
          simp [Act.extra, hst]
      simp [Census.share, hl, hqc, hx, hq, hs]
  · simp [Census.share, St.census, hq]

theorem mainIs_of_home (h : Orderly odd s.census) (hp : s.census.life p = .active) (hh : Home s.census p m)
    (hemb : ∀ q, (s.ptable q).pid = (s.ptable p).pid → (s.ptable q).state ≠ .embryo) :
    MainIs m (s.ptable p).pid s.ptable := by
  refine ⟨hh.pid, fun q hq hz => ?_⟩
  have hl : s.census.life q = .active := by
    cases hs : (s.ptable q).state with
    | embryo => exact absurd hs (hemb q hq)
    | zombie => exact absurd hs hz
    | unused =>
      have hl : s.census.life q = .free := by simp [St.census, hs, ProcState.life]
      exact absurd hq (h.free_pid_ne hl (by simp [hp]))
    | sleeping | runnable | running => simp [St.census, hs, ProcState.life]
  obtain ⟨m', hh', _⟩ := h.home q hl
  obtain rfl := hh.eq hh' hq
  exact ⟨hh'.thread, hh'.self⟩

theorem step_settled (h : Kept (· = true) s) (hs : Settled s.census) (ho : CountedOut s o) :
    Settled (step s o).census := by
  rcases (step_turn h ho.1 ho.2.1).1 with he | ht
  · rwa [he]
  refine ht.settled h.orderly hs fun p hp => ?_
  obtain ⟨c, hc, hstep⟩ := exiting_step hp
  have hl : s.census.life p = .active := ProcState.life_active.2 (Or.inr (Or.inr (h.cpus.running c p hc)))
  have hemb := ho.2.2 p hp
  obtain ⟨m, hh, hb⟩ := h.orderly.home p hl
  refine ⟨fun q hq hq' => ?_, fun m' hm' hpid hthr => ?_⟩
  · cases hn : (s.ptable q).state <;> simp [St.census, hn, ProcState.life] at hq'
    exact hemb q hq hn
  · obtain rfl := hh.unique m' hm' hpid hthr
    rw [hstep]
    refine exitSection_threadnum rfl (mainIs_of_home h.orderly hl hh hemb) ?_
    rcases hb with hb | ⟨h0, hw, _, hodd⟩
    · exact Or.inl (hb.trans (weight_eq_remaining h.orderly hl hemb))
    · -- a thread has given up the last count, so the main slot is gone
      refine Or.inr ⟨h0, ?_⟩
      rcases hh.live with hm | hm
      · have := Census.eq_of_weight_one hl hm hh.pid hw
        subst this
        rw [hh.main] at hodd
        cases hodd
      · cases hn : (s.ptable m').state <;> simp [St.census, hn, ProcState.life] at hm
        rfl

theorem boot_settled [NeZero N] : Settled (boot N K).census := by
  intro m hm
  rw [boot_life] at hm
  split at hm <;> cases hm

/-- a `wait` by `p` returns the pid `X`, with every slot of `X` freed, and does not sleep -/
def WaitReturns (s : St N K) (c : Fin K) (p : Fin N) (X : ℕ) : Prop :=
  X ≠ 0 ∧ (waitLoop s c p).eax p = X ∧ (waitLoop s c p).pc p = .user ∧ (waitLoop s c p).curproc = s.curproc ∧
    ∀ q, (s.ptable q).pid = X → ((waitLoop s c p).ptable q).state = .unused

theorem waitReturns_found {c : Fin K} (h : waitFound s.ptable p ≠ 0) : WaitReturns s c p (waitFound s.ptable p) := by
  simp only [WaitReturns, waitLoop, if_pos h]
  refine ⟨h, by simp, by simp, rfl, fun q hq => ?_⟩
  simp [reap, hq]

/-- the scan of `wait` stops at a child that can be reaped, at the latest at `m` -/
theorem waitFound_of_reapable (hm : Reapable p (s.ptable m)) (hpos : ∀ q, (s.ptable q).state = .zombie → 0 < (s.ptable q).pid) :
    waitFound s.ptable p ≠ 0 ∧
      ((∀ q, q < m → ¬Reapable p (s.ptable q)) → waitFound s.ptable p = (s.ptable m).pid) := by
  have hsome : (waitFind s.ptable p).isSome := by
    rw [waitFind, List.find?_isSome]
    exact ⟨m, List.mem_finRange m, by simpa using hm⟩
  obtain ⟨q, hq⟩ := Option.isSome_iff_exists.1 hsome
  have hf : waitFound s.ptable p = (s.ptable q).pid := by
    simp [waitFound, hq]
  refine ⟨?_, fun hfirst => ?_⟩
  · rw [hf]
    exact (hpos q (waitFind_reapable hq).2.1).ne'
  · obtain ⟨_, i, hi, rfl, hbefore⟩ := List.find?_eq_some_iff_getElem.1 hq
    have hqi : (List.finRange N)[i] = ⟨i, by simpa using hi⟩ := by simp
    rw [hqi] at hf hq
    have hr := waitFind_reapable hq
    rcases lt_trichotomy m ⟨i, by simpa using hi⟩ with hlt | heq | hgt
    · have := hbefore m.val hlt
      simp [hm] at this
    · rw [hf, heq]
    · exact absurd hr (hfirst _ hgt)

end DeadProcess

/-- **A dead process is always reapable.** Take any state reached by steps of which none lets a main slot leave last
through `thread_exit`, runs `exit` over a slot still being made, or kills or reaps a slot that another CPU runs. If some
slot of a pid is in use and all that are in use are ZOMBIE, there is a main slot; it has threadnum 0; and a `wait` by its
parent returns at once with the slots of a dead child freed, of this one unless another child comes first in the
table. -/
theorem dead_process_reapable [NeZero N] (ops : List (Op N K)) (h : Along step CountedOut (boot N K) ops) (s : St N K)
    (hs : run step (boot N K) ops = s) (X : ℕ) (hX : ∃ q, (s.ptable q).pid = X ∧ (s.ptable q).state ≠ .unused)
    (hdead : ∀ q, (s.ptable q).pid = X → (s.ptable q).state ≠ .unused → (s.ptable q).state = .zombie) :
    (∃ m, (s.ptable m).pid = X ∧ (s.ptable m).isthread = false ∧ (s.ptable m).state = .zombie) ∧
      ∀ m, (s.ptable m).pid = X → (s.ptable m).isthread = false → (s.ptable m).state ≠ .unused →
        (s.ptable m).threadnum = 0 ∧ ∀ p c, (s.ptable m).parent = some p →
          (∃ Y, WaitReturns s c p Y) ∧ ((∀ q, q < m → ¬Reapable p (s.ptable q)) → WaitReturns s c p X) := by
  have hinv : Kept (· = true) s ∧ Settled s.census := by
    subst hs
    exact h.inv (I := fun s => Kept (· = true) s ∧ Settled s.census)
      (fun s o ho hk => ⟨step_kept hk.1 ho.1 ho.2.1, step_settled hk.1 hk.2 ho⟩) ⟨boot_kept, boot_settled⟩
  obtain ⟨hk, hset⟩ := hinv
  have hlife : ∀ q, (s.ptable q).state = .zombie → s.census.life q = .zombie := fun q hq => by
    simp [St.census, hq, ProcState.life]
  have hzombie : ∀ q, s.census.life q = .zombie → (s.ptable q).state = .zombie := fun q hq => by
    cases hn : (s.ptable q).state <;> simp [St.census, hn, ProcState.life] at hq
    rfl
  have hpos : ∀ q, (s.ptable q).state = .zombie → 0 < (s.ptable q).pid := fun q hq =>
    hk.orderly.pid_pos q (by simp [hlife q hq])
  obtain ⟨q, hqX, hqu⟩ := hX
  have hqz := hdead q hqX hqu
  refine ⟨?_, fun m hm hthr hmu => ?_⟩
  · obtain ⟨m, hlive, hpid, hthr⟩ := hk.orderly.main q (hlife q hqz)
    refine ⟨m, hpid.trans hqX, hthr, hdead m (hpid.trans hqX) fun hu => ?_⟩
    rcases hlive with hl | hl <;> simp [St.census, hu, ProcState.life] at hl
  · have hmz := hdead m hm hmu
    have hn : (s.ptable m).threadnum = 0 := by
      refine hset m (hlife m hmz) hthr fun q' hq' => ?_
      by_cases hu : (s.ptable q').state = .unused
      · left
        simp [St.census, hu, ProcState.life]
      · exact Or.inr (hlife q' (hdead q' (hq'.trans hm) hu))
    refine ⟨hn, fun p c hp => ?_⟩
    obtain ⟨h0, hfirst⟩ := waitFound_of_reapable ⟨hp, hmz, hthr, hn⟩ hpos
    refine ⟨⟨_, waitReturns_found h0⟩, fun hq => ?_⟩
    rw [← hm, ← hfirst hq]
    exact waitReturns_found h0

/-- the parent of the child that called `exit` gets its pid -/
theorem childExits_reapable :
    Along step CountedOut (boot 64 1) childExits ∧
      (((run step (boot 64 1) childExits).ptable 1).threadnum = 0 ∧
        (∃ Y, WaitReturns (run step (boot 64 1) childExits) 0 0 Y)) := by
  have h : Along step CountedOut (boot 64 1) childExits := by decide +kernel
  have hr := (dead_process_reapable childExits h _ rfl 2 ⟨1, by decide +kernel⟩ (by decide +kernel)).2 1
    (by decide +kernel) (by decide +kernel) (by decide +kernel)
  exact ⟨h, hr.1, (hr.2 0 0 (by decide +kernel)).1⟩

/-- init forks a child, and the child, a process of one thread, calls `thread_exit` -/
def mainExits : List (Op 64 1) :=
  [Op.dispatch 0 0, Op.call 0 .fork] ++ List.replicate 10 (Op.exec 0 true) ++ [Op.preempt 0, Op.dispatch 0 1,
    Op.call 0 (.threadExit 0), Op.exec 0 true, Op.dispatch 0 0]

/-- **A dead process that is never reaped.** `thread_exit` and `exit` both count the main slot down: its process is
dead with threadnum -1, and the parent's `wait` does not find it and goes to sleep. -/
theorem main_exit_unreapable :
    (∀ q, ((run step (boot 64 1) mainExits).ptable q).pid = 2 →
        ((run step (boot 64 1) mainExits).ptable q).state = .zombie) ∧
      ((run step (boot 64 1) mainExits).ptable 1).pid = 2 ∧
      ((run step (boot 64 1) mainExits).ptable 1).isthread = false ∧
      ((run step (boot 64 1) mainExits).ptable 1).threadnum = -1 ∧
      ((run step (boot 64 1) mainExits).ptable 1).parent = some 0 ∧
      ((run step (boot 64 1) (mainExits ++ [.call 0 .wait])).ptable 0).state = .sleeping := by
  decide +kernel

end Xv6Threads.Kernel
