/-
What a step of the kernel does to the processes that sleep in `thread_join`.

The deeds of a step say in which part of its life each slot is. A joiner needs more: who may wake it, and whether the
slot it waits for is still the same thread. `JoinDeed` lists the kinds of steps with that. `kill` and
`binary_semaphore_up` are left out (`Op.stranger`): they wake a process whatever it sleeps on.
- `exitSection_spreads`: `exit` wakes a slot of another process only on the parent of a slot of its own, or on init.
- `step_joinDeed`: every other step is of one of the kinds.
- `step_slot`, `step_joiner`, `joiner_before`: what becomes of a slot and of a joiner, and who is a joiner.
-/
import Xv6Threads.Kernel.Frames

namespace Xv6Threads.Kernel

open Xv6Threads.Core Function

variable {N K : ℕ}

/-! ## Whom the section of exit wakes -/

/-- the channels that `exit` of slot `proc` may wake: the parents of the slots of its process, and init -/
def ExitWakes (t : Table N) (initproc proc : Fin N) (chan : Chan N) : Prop :=
  chan = .proc initproc ∨ ∃ x, (t x).pid = (t proc).pid ∧ chan = .ofSlot (t x).parent

/-- a table in the middle of `exit`, seen from the table at its start -/
structure Spreads (initproc proc : Fin N) (t t' : Table N) : Prop where
  pid : ∀ q, (t' q).pid = (t q).pid
  isthread : ∀ q, (t' q).isthread = (t q).isthread
  isjoined : ∀ q, (t' q).isjoined = (t q).isjoined
  zombie : ∀ q, (t q).state = .zombie → (t' q).state = .zombie
  parent : ∀ q, (t' q).parent = (t q).parent ∨ ((t q).isthread = false ∧ (t' q).parent = some initproc)
  chan : ∀ q, (t' q).chan = (t q).chan
  state : ∀ q, (t q).pid ≠ (t proc).pid → (t' q).state = (t q).state ∨ ExitWakes t initproc proc (t q).chan

section ExitWakes

variable {initproc proc : Fin N} {t t' : Table N}

theorem Spreads.refl (initproc proc : Fin N) (t : Table N) : Spreads initproc proc t t :=
  ⟨fun _ => rfl, fun _ => rfl, fun _ => rfl, fun _ h => h, fun _ => .inl rfl, fun _ => rfl, fun _ _ => .inl rfl⟩

/-- a wakeup on the parent of a slot of the process, or on init -/
theorem Spreads.wake (h : Spreads initproc proc t t') {chan : Chan N}
    (hc : chan = .proc initproc ∨ ∃ x, (t' x).pid = (t proc).pid ∧ chan = .ofSlot (t' x).parent) :
    Spreads initproc proc t (wakeup1 t' chan) := by
  have hwake : ExitWakes t initproc proc chan := by
    rcases hc with rfl | ⟨x, hx, rfl⟩
    · exact .inl rfl
    · rcases h.parent x with hp | ⟨_, hp⟩
      · exact .inr ⟨x, (h.pid x).symm.trans hx, by rw [hp]⟩
      · rw [hp]
        exact .inl rfl
  have hslot : ∀ q, wakeup1 t' chan q = t' q ∨
      ((t' q).state = .sleeping ∧ (t' q).chan = chan ∧ wakeup1 t' chan q = { t' q with state := .runnable }) := by
    intro q
    unfold wakeup1 Proc.wake
    split
    · rename_i hs
      exact .inr ⟨hs.1, hs.2, rfl⟩
    · exact .inl rfl
  refine ⟨fun q => ?_, fun q => ?_, fun q => ?_, fun q hz => ?_, fun q => ?_, fun q => ?_, fun q hq => ?_⟩
  · rcases hslot q with hs | ⟨_, _, hs⟩ <;> rw [hs] <;> exact h.pid q
  · rcases hslot q with hs | ⟨_, _, hs⟩ <;> rw [hs] <;> exact h.isthread q
  · rcases hslot q with hs | ⟨_, _, hs⟩ <;> rw [hs] <;> exact h.isjoined q
  · rcases hslot q with hs | ⟨hsl, _, _⟩
    · rw [hs]
      exact h.zombie q hz
    · rw [h.zombie q hz] at hsl
      cases hsl
  · rcases hslot q with hs | ⟨_, _, hs⟩ <;> rw [hs] <;> exact h.parent q
  · rcases hslot q with hs | ⟨_, _, hs⟩ <;> rw [hs] <;> exact h.chan q
  · rcases hslot q with hs | ⟨_, hch, _⟩
    · rw [hs]
      exact h.state q hq
    · rw [h.chan q] at hch
      rw [hch]
      exact .inr hwake

/-- a store into a slot of the process that moves nobody else's parent -/
theorem Spreads.write (h : Spreads initproc proc t t') {m : Fin N} {f : Proc N → Proc N}
    (hpid : (f (t' m)).pid = (t' m).pid) (hthr : (f (t' m)).isthread = (t' m).isthread)
    (hjoin : (f (t' m)).isjoined = (t' m).isjoined)
    (hzomb : (t' m).state = .zombie → (f (t' m)).state = .zombie)
    (hpar : (f (t' m)).parent = (t' m).parent ∨ ((t' m).isthread = false ∧ (f (t' m)).parent = some initproc))
    (hchan : (f (t' m)).chan = (t' m).chan) (hstate : (f (t' m)).state = (t' m).state ∨ (t' m).pid = (t proc).pid) :
    Spreads initproc proc t (t'.write m f) := by
  have hslot : ∀ q, t'.write m f q = t' q ∨ (q = m ∧ t'.write m f q = f (t' m)) := by
    intro q
    by_cases hq : q = m
    · subst hq
      exact .inr ⟨rfl, Table.write_self ..⟩
    · exact .inl (Table.write_of_ne t' hq f)
  refine ⟨fun q => ?_, fun q => ?_, fun q => ?_, fun q hz => ?_, fun q => ?_, fun q => ?_, fun q hq => ?_⟩
  · rcases hslot q with hs | ⟨rfl, hs⟩ <;> rw [hs]
    · exact h.pid q
    · exact hpid.trans (h.pid q)
  · rcases hslot q with hs | ⟨rfl, hs⟩ <;> rw [hs]
    · exact h.isthread q
    · exact hthr.trans (h.isthread q)
  · rcases hslot q with hs | ⟨rfl, hs⟩ <;> rw [hs]
    · exact h.isjoined q
    · exact hjoin.trans (h.isjoined q)
  · rcases hslot q with hs | ⟨rfl, hs⟩ <;> rw [hs]
    · exact h.zombie q hz
    · exact hzomb (h.zombie q hz)
  · rcases hslot q with hs | ⟨rfl, hs⟩ <;> rw [hs]
    · exact h.parent q
    · rcases hpar with hp | ⟨ht, hp⟩
      · rw [hp]
        exact h.parent q
      · exact .inr ⟨(h.isthread q).symm.trans ht, hp⟩
  · rcases hslot q with hs | ⟨rfl, hs⟩ <;> rw [hs]
    · exact h.chan q
    · exact hchan.trans (h.chan q)
  · rcases hslot q with hs | ⟨rfl, hs⟩ <;> rw [hs]
    · exact h.state q hq
    · rcases hstate with hst | hst
      · rw [hst]
        exact h.state q hq
      · exact absurd ((h.pid q).symm.trans hst) hq

theorem Spreads.dropThread (h : Spreads initproc proc t t') {m : Fin N} (hm : (t m).pid = (t proc).pid) :
    Spreads initproc proc t (dropThread t' m) := by
  have hcount : Spreads initproc proc t
      (if (t' m).threadnum ≠ 0 then t'.write m fun x => { x with threadnum := x.threadnum - 1 } else t') := by
    split
    · exact h.write (f := fun x => { x with threadnum := x.threadnum - 1 }) rfl rfl rfl id (.inl rfl) rfl (.inl rfl)
    · exact h
  unfold Kernel.dropThread
  generalize (if (t' m).threadnum ≠ 0 then t'.write m fun x => { x with threadnum := x.threadnum - 1 } else t') = t₁
    at hcount ⊢
  dsimp only
  split
  · exact hcount.wake (.inr ⟨m, (hcount.pid m).trans hm, rfl⟩)
  · exact hcount

theorem Spreads.dropMain (h : Spreads initproc proc t t') {m : Fin N} (hm : (t m).pid = (t proc).pid) :
    Spreads initproc proc t (dropMain t' m) := by
  have hcount : Spreads initproc proc t (t'.write m fun x => { x with threadnum := x.threadnum - 1 }) :=
    h.write (f := fun x => { x with threadnum := x.threadnum - 1 }) rfl rfl rfl id (.inl rfl) rfl (.inl rfl)
  unfold Kernel.dropMain
  dsimp only
  split
  · exact hcount.wake (.inr ⟨m, (hcount.pid m).trans hm, rfl⟩)
  · exact hcount

theorem Spreads.exitSlot (h : Spreads initproc proc t t') (hpar : ParentsWithin t (t proc).pid) (p : Fin N) :
    Spreads initproc proc t (exitSlot initproc proc t' p) := by
  unfold Kernel.exitSlot
  split
  · rename_i hd
    have hpid : (t p).pid = (t proc).pid := by
      rw [← h.pid p, hd.1]
      exact h.pid proc
    have hz : Spreads initproc proc t (t'.write p fun x => { x with state := .zombie }) :=
      h.write (f := fun x => { x with state := .zombie }) rfl rfl rfl (fun _ => rfl) (.inl rfl) rfl
        (.inr ((h.pid p).trans hpid))
    dsimp only
    split
    · rename_i hthread
      split
      · exact hz
      · rename_i m hm
        refine hz.dropThread ?_
        -- a thread keeps its parent, and that is the main slot of the process
        rw [Table.write_self] at hthread hm
        have hth : (t p).isthread = true := (h.isthread p).symm.trans hthread
        have hmt : (t p).parent = some m := by
          rcases h.parent p with hp | ⟨hnot, _⟩
          · exact hp.symm.trans hm
          · rw [hnot] at hth
            cases hth
        exact hpar p m hpid (fun hzomb => hd.2 (h.zombie p hzomb)) hth hmt
    · exact hz.dropMain hpid
  · split
    · rename_i hc
      have hp : Spreads initproc proc t (t'.write p fun x => { x with parent := some initproc }) :=
        h.write (f := fun x => { x with parent := some initproc }) rfl rfl rfl id (.inr ⟨hc.2, rfl⟩) rfl (.inl rfl)
      dsimp only
      split
      · exact hp.wake (.inl rfl)
      · exact hp
    · exact h

theorem Spreads.exitFold (h : Spreads initproc proc t t') (hpar : ParentsWithin t (t proc).pid) (slots : List (Fin N)) :
    Spreads initproc proc t (slots.foldl (Kernel.exitSlot initproc proc) t') := by
  induction slots generalizing t' with
  | nil => exact h
  | cons p slots ih => exact ih (h.exitSlot hpar p)

/-- **Whom `exit` wakes.** A slot of another process keeps its state, unless it sleeps on a channel that `exit` wakes. -/
theorem exitSection_spreads (initproc : Fin N) (hpar : ParentsWithin t (t proc).pid) :
    Spreads initproc proc t (exitSection initproc proc t) := by
  have hwake : Spreads initproc proc t (wakeup1 t (.ofSlot (t proc).parent)) :=
    (Spreads.refl initproc proc t).wake (.inr ⟨proc, rfl, rfl⟩)
  have hloop := hwake.exitFold hpar (List.finRange N)
  exact hloop.write (f := fun x => { x with state := .zombie }) rfl rfl rfl (fun _ => rfl) (.inl rfl) rfl
    (.inr (hloop.pid proc))

end ExitWakes


/-! ## Kinds of steps -/

/-- the calls that wake a process whatever it sleeps on -/
def Op.stranger : Op N K → Bool
  | .call _ (.kill _) | .call _ (.semUp _) => true
  | _ => false

/-- the process that calls `thread_join` in this step, and the slot it names -/
def joining (s : St N K) : Op N K → Option (Fin N × Fin N)
  | .call c (.threadJoin tid) => (s.curproc c).bind fun p =>
    if s.pc p = .user ∧ (s.ptable p).killed = false then (joinFind s.ptable p tid).map (p, ·) else none
  | _ => none

/-- the process that calls `thread_exit` in this step -/
def threadExiting (s : St N K) : Op N K → Option (Fin N)
  | .call c (.threadExit _) => (s.curproc c).filter fun p => s.pc p = .user ∧ (s.ptable p).killed = false
  | _ => none

/-- the two slots are of the same thread, in the same part of its life, and joined or not alike -/
structure Twin (x y : Proc N) : Prop where
  life : y.state.life = x.state.life
  pid : y.pid = x.pid
  isthread : y.isthread = x.isthread
  uid : y.uid = x.uid
  isjoined : y.isjoined = x.isjoined

/-- the thread is where it was, too -/
structure Rests (x y : Proc N) : Prop extends Twin x y where
  state : y.state = x.state
  chan : y.chan = x.chan

/-- slot `p` does something that no other slot notices -/
structure Solo (s s' : St N K) (p : Fin N) : Prop where
  self : Twin (s.ptable p) (s'.ptable p)
  slot : ∀ q, q ≠ p → Rests (s.ptable q) (s'.ptable q)
  pc : ∀ q, q ≠ p → s'.pc q = s.pc q
  nextpid : s'.nextpid = s.nextpid

/-- a joiner is woken, and nothing else -/
structure Stirs (chans : Chan N → Prop) (x y : Proc N) : Prop extends Twin x y where
  chan : y.chan = x.chan
  state : y.state = x.state ∨ (x.state = .sleeping ∧ y.state = .runnable ∧ chans x.chan)

section Solo

variable {s s₁ s' : St N K} {p : Fin N}

theorem Twin.refl (x : Proc N) : Twin x x := ⟨rfl, rfl, rfl, rfl, rfl⟩

theorem Twin.trans {x y z : Proc N} (h : Twin x y) (h' : Twin y z) : Twin x z :=
  ⟨h'.life.trans h.life, h'.pid.trans h.pid, h'.isthread.trans h.isthread, h'.uid.trans h.uid,
    h'.isjoined.trans h.isjoined⟩

theorem Rests.refl (x : Proc N) : Rests x x := ⟨.refl x, rfl, rfl⟩

theorem Rests.trans {x y z : Proc N} (h : Rests x y) (h' : Rests y z) : Rests x z :=
  ⟨h.toTwin.trans h'.toTwin, h'.state.trans h.state, h'.chan.trans h.chan⟩

theorem Rests.stirs {x y : Proc N} (h : Rests x y) (chans : Chan N → Prop) : Stirs chans x y :=
  ⟨h.toTwin, h.chan, .inl h.state⟩

theorem stirs_wake (x : Proc N) (chan : Chan N) : Stirs (· = chan) x (x.wake chan) := by
  unfold Proc.wake
  split
  · rename_i h
    refine ⟨⟨?_, rfl, rfl, rfl, rfl⟩, rfl, .inr ⟨h.1, rfl, h.2⟩⟩
    rw [h.1]
    rfl
  · exact (Rests.refl x).stirs _

theorem Solo.refl (s : St N K) (p : Fin N) : Solo s s p := ⟨.refl _, fun _ _ => .refl _, fun _ _ => rfl, rfl⟩

theorem Solo.trans (h : Solo s s₁ p) (h' : Solo s₁ s' p) : Solo s s' p :=
  ⟨h.self.trans h'.self, fun q hq => (h.slot q hq).trans (h'.slot q hq), fun q hq => (h'.pc q hq).trans (h.pc q hq),
    h'.nextpid.trans h.nextpid⟩

/-- stores outside the table, and those of `p` to its own program counter -/
theorem Solo.of_table (ht : s'.ptable = s.ptable) (hpc : ∀ q, q ≠ p → s'.pc q = s.pc q)
    (hn : s'.nextpid = s.nextpid) : Solo s s' p := by
  refine ⟨?_, fun q _ => ?_, hpc, hn⟩
  · rw [ht]
    exact .refl _
  · rw [ht]
    exact .refl _

/-- stores of `p` to its own slot, and outside the table -/
theorem Solo.of_write {f : Proc N → Proc N} (h : Twin (s.ptable p) (f (s.ptable p)))
    (ht : s'.ptable = s.ptable.write p f) (hpc : s'.pc = s.pc) (hn : s'.nextpid = s.nextpid) : Solo s s' p := by
  refine ⟨?_, fun q hq => ?_, fun q _ => congrFun hpc q, hn⟩
  · rw [ht, Table.write_self]
    exact h
  · rw [ht, Table.write_of_ne _ hq]
    exact .refl _

theorem Solo.write {f : Proc N → Proc N} (h : Twin (s.ptable p) (f (s.ptable p))) : Solo s (s.write p f) p :=
  .of_write h rfl rfl rfl

/-- a store through a slot pointer to a field that concerns no joiner -/
theorem Solo.writeAt {f : Proc N → Proc N} (h : ∀ x, Rests x (f x)) (m : Option (Fin N)) (p : Fin N) :
    Solo s (s.writeAt m f) p := by
  have hslot : ∀ q, Rests (s.ptable q) (s.ptable.writeAt m f q) := Table.writeAt_rel .refl h
  exact ⟨(hslot p).toTwin, fun q _ => hslot q, fun _ _ => rfl, rfl⟩

theorem Solo.goto (s : St N K) (p : Fin N) (pc : Pc N) : Solo s (s.goto p pc) p :=
  .of_table rfl (fun _ hq => update_of_ne hq _ _) rfl

theorem Solo.sysret (s : St N K) (p : Fin N) (v : ℤ) : Solo s (s.sysret p v) p :=
  .of_table rfl (fun _ hq => update_of_ne hq _ _) rfl

theorem Solo.leave (s : St N K) (c : Fin K) (p : Fin N) : Solo s (s.leave c) p := .of_table rfl (fun _ _ => rfl) rfl

/-- an active process goes to sleep -/
theorem Solo.sleep (hl : (s.ptable p).state.life = .active) (c : Fin K) (chan : Chan N) (pc : Pc N) :
    Solo s (s.sleep c p chan pc) p := by
  have hw : Solo s (s.write p fun x => { x with chan := chan, state := .sleeping }) p :=
    .write ⟨hl.symm, rfl, rfl, rfl, rfl⟩
  exact (hw.trans (.goto _ p pc)).trans (.leave _ c p)

theorem Solo.exit (s : St N K) (p : Fin N) : Solo s (Kernel.exit s p) p := by
  unfold Kernel.exit
  split <;> exact .goto s p _

end Solo

/-- a slot that `wait` has freed, by the same use of it -/
structure Freed (x y : Proc N) : Prop where
  state : y.state = .unused
  uid : y.uid = x.uid

/-- a slot whose thread has just ended -/
structure Ends (x y : Proc N) : Prop where
  state : y.state = .zombie
  pid : y.pid = x.pid
  isthread : y.isthread = x.isthread
  uid : y.uid = x.uid
  isjoined : y.isjoined = x.isjoined

/-- `p` is running, or the scheduler switches to it in this step -/
def Moving (s : St N K) (o : Op N K) (p : Fin N) : Prop :=
  (s.ptable p).state = .running ∨ ∃ c, o = .dispatch c p ∧ s.curproc c = none ∧ (s.ptable p).state = .runnable

/-- a step of the kernel, by what it does to joiners -/
inductive JoinDeed (s : St N K) (o : Op N K) : St N K → Prop
  | solo (s' : St N K) (p : Fin N) (hsolo : Solo s s' p) (hp : Moving s o p)
      (hpc : s'.pc p = .joinSleep → (s.ptable p).state = .running ∧ s.pc p = .joinSleep) : JoinDeed s o s'
  | wake (s' : St N K) (n : ℕ) (hslot : ∀ q, Stirs (· = .dev n) (s.ptable q) (s'.ptable q)) (hpc : s'.pc = s.pc)
      (hnext : s'.nextpid = s.nextpid) : JoinDeed s o s'
  | alloc (p np : Fin N) (f : Maker) (he : Enters s o p) (hnp : findUnused s.ptable = some np) :
      JoinDeed s o (allocproc s p f)
  | make (c : Fin K) (p np : Fin N) (st : Making) (ok : Bool) (ho : o = .exec c ok) (hc : s.curproc c = some p)
      (hpc : s.pc p = .make st np) : JoinDeed s o (makeStep s p np ok st)
  | join (c : Fin K) (p t : Fin N) (hj : joining s o = some (p, t)) (hp : (s.ptable p).state = .running)
      (hun : (s.ptable t).isjoined = false) (hz : (s.ptable t).state ≠ .zombie) :
      JoinDeed s o ((s.write t fun x => { x with isjoined := true }).sleep c p (.proc t) .joinSleep)
  | retire (s' : St N K) (p : Fin N) (hr : threadExiting s o = some p) (hp : (s.ptable p).state = .running)
      (hself : Ends (s.ptable p) (s'.ptable p))
      (hslot : ∀ q, q ≠ p → Stirs (· = .proc p) (s.ptable q) (s'.ptable q)) (hpc : s'.pc = s.pc)
      (hnext : s'.nextpid = s.nextpid) : JoinDeed s o s'
  | exit (c : Fin K) (p : Fin N) (ok : Bool) (ho : o = .exec c ok) (hc : s.curproc c = some p)
      (hpc : s.pc p = .exitClose) : JoinDeed s o (exitLocked s c p)
  | reap (s' : St N K) (p : Fin N) (X : ℕ) (hw : p ∈ waiter s o) (hX : X ≠ 0) (hfound : waitFound s.ptable p = X)
      (hp : Moving s o p) (hfree : ∀ q, (s.ptable q).pid = X → Freed (s.ptable q) (s'.ptable q))
      (hself : (s.ptable p).pid ≠ X → Twin (s.ptable p) (s'.ptable p))
      (hslot : ∀ q, (s.ptable q).pid ≠ X → q ≠ p → Rests (s.ptable q) (s'.ptable q))
      (hpc : s'.pc = update s.pc p .user) (hnext : s'.nextpid = s.nextpid) : JoinDeed s o s'

section Functions

variable {s s₁ : St N K} {o : Op N K} {c : Fin K} {p : Fin N}

/-- a step of `p` that does not put it to sleep in `thread_join` -/
theorem Solo.joinDeed {s' : St N K} (h : Solo s s' p) (hp : Moving s o p) (hpc : s'.pc p ≠ .joinSleep) :
    JoinDeed s o s' := .solo s' p h hp fun he => absurd he hpc

theorem Solo.sysret_deed (h : Solo s s₁ p) (hp : Moving s o p) (v : ℤ) : JoinDeed s o (s₁.sysret p v) := by
  refine (h.trans (.sysret s₁ p v)).joinDeed hp ?_
  simp

theorem Solo.exit_deed (h : Solo s s₁ p) (hp : Moving s o p) : JoinDeed s o (Kernel.exit s₁ p) := by
  refine (h.trans (.exit s₁ p)).joinDeed hp ?_
  unfold Kernel.exit
  split <;> simp

theorem Solo.sleep_deed (h : Solo s s₁ p) (hp : Moving s o p) (hl : (s.ptable p).state.life = .active) (c : Fin K)
    (chan : Chan N) {pc : Pc N} (hpc : pc ≠ .joinSleep) : JoinDeed s o (s₁.sleep c p chan pc) := by
  refine (h.trans (.sleep (h.self.life.trans hl) c chan pc)).joinDeed hp ?_
  simpa [St.sleep] using hpc

theorem allocproc_joinDeed (he : Enters s o p) (hp : Moving s o p) (f : Maker) : JoinDeed s o (allocproc s p f) := by
  cases hf : findUnused s.ptable with
  | none =>
    have hfail : allocproc s p f = s.sysret p (-1) := by
      unfold allocproc
      rw [hf]
    rw [hfail]
    exact (Solo.refl s p).sysret_deed hp _
  | some np => exact .alloc p np f he hf

theorem threadJoin_joinDeed {tid : ℤ} (hrun : (s.ptable p).state = .running)
    (hj : ∀ t, joinFind s.ptable p tid = some t → joining s o = some (p, t)) : JoinDeed s o (threadJoin s c p tid) := by
  have hp : Moving s o p := .inl hrun
  unfold threadJoin
  split
  · exact (Solo.refl s p).sysret_deed hp _
  · rename_i t ht
    split
    · exact (Solo.refl s p).sysret_deed hp _
    · rename_i hun
      split
      · exact (Solo.refl s p).sysret_deed hp _
      · rename_i hz
        exact .join c p t (hj t ht) hrun (by simpa using hun) hz

theorem semCreate_joinDeed (hp : Moving s o p) (v : ℤ) : JoinDeed s o (binarySemaphoreCreate s p v) := by
  unfold binarySemaphoreCreate
  split
  · exact (Solo.refl s p).sysret_deed hp _
  · refine Solo.sysret_deed ?_ hp _
    exact .of_table rfl (fun _ _ => rfl) rfl

theorem enqueue_solo (s : St N K) (p : Fin N) (id : SemId) : Solo s (enqueue s p id) p := by
  refine Solo.of_write (f := fun x => { x with semQueuePos := (s.semtable id).waiting + 1 }) ?_ rfl rfl rfl
  exact ⟨rfl, rfl, rfl, rfl, rfl⟩

theorem downLoop_joinDeed (h : Solo s s₁ p) (hp : Moving s o p) (hl : (s.ptable p).state.life = .active) (id : SemId) :
    JoinDeed s o (downLoop s₁ c p id) := by
  unfold downLoop
  split
  · split
    · unfold semTake
      refine Solo.sysret_deed (h.trans ?_) hp 0
      refine Solo.of_write (f := fun x => { x with waitingForSemaphore := none }) ?_ rfl rfl rfl
      exact ⟨rfl, rfl, rfl, rfl, rfl⟩
    · have hq : Solo s (if (s₁.ptable p).semQueuePos = 0 then enqueue s₁ p id else s₁) p := by
        split
        · exact h.trans (enqueue_solo s₁ p id)
        · exact h
      have hw := hq.trans (.write (f := fun x => { x with waitingForSemaphore := some id })
        ⟨rfl, rfl, rfl, rfl, rfl⟩)
      exact hw.sleep_deed hp hl c _ (by simp)
  · exact h.sysret_deed hp _

theorem down_joinDeed (hp : Moving s o p) (hl : (s.ptable p).state.life = .active) (id : SemId) :
    JoinDeed s o (binarySemaphoreDown s c p id) := by
  have hlog : Solo s (s.log (.call (s.who p) id)) p := .of_table rfl (fun _ _ => rfl) rfl
  unfold binarySemaphoreDown
  dsimp only
  split
  · exact downLoop_joinDeed (hlog.trans (enqueue_solo _ p id)) hp hl id
  · exact downLoop_joinDeed hlog hp hl id

theorem waitLoop_joinDeed (h : Solo s s₁ p) (hpc₁ : s₁.pc = s.pc) (hp : Moving s o p)
    (hl : (s.ptable p).state.life = .active) (hw : p ∈ waiter s o)
    (hf : waitFound s₁.ptable p = waitFound s.ptable p) : JoinDeed s o (waitLoop s₁ c p) := by
  have htwin : ∀ q, Twin (s.ptable q) (s₁.ptable q) := by
    intro q
    by_cases hq : q = p
    · subst hq
      exact h.self
    · exact (h.slot q hq).toTwin
  unfold waitLoop
  dsimp only
  rw [hf]
  split
  · rename_i hX
    refine .reap _ p (waitFound s.ptable p) hw hX rfl hp ?_ ?_ ?_ ?_ h.nextpid
    · intro q hq
      have hq₁ : (s₁.ptable q).pid = waitFound s.ptable p := (htwin q).pid.trans hq
      simp only [St.sysret_ptable, reap, hq₁, if_true]
      exact ⟨rfl, (htwin q).uid⟩
    · intro hq
      have hq₁ : (s₁.ptable p).pid ≠ waitFound s.ptable p := (htwin p).pid ▸ hq
      simp only [St.sysret_ptable, reap, hq₁, if_false]
      exact h.self
    · intro q hq hqp
      have hq₁ : (s₁.ptable q).pid ≠ waitFound s.ptable p := (htwin q).pid ▸ hq
      simp only [St.sysret_ptable, reap, hq₁, if_false]
      exact h.slot q hqp
    · show update s₁.pc p .user = _
      rw [hpc₁]
  · split
    · exact h.sysret_deed hp _
    · exact h.sleep_deed hp hl c _ (by simp)

/-- the caller's slot becomes a zombie, and nobody but its joiners is woken -/
theorem Solo.retire_deed {s' : St N K} (h : Solo s s₁ p) (hpc₁ : s₁.pc = s.pc) (hr : threadExiting s o = some p)
    (hrun : (s.ptable p).state = .running) (hp : s'.ptable p = { s₁.ptable p with state := .zombie })
    (hslot : ∀ q, q ≠ p → Stirs (· = .proc p) (s₁.ptable q) (s'.ptable q)) (hpc : s'.pc = s₁.pc)
    (hnext : s'.nextpid = s₁.nextpid) : JoinDeed s o s' := by
  refine .retire s' p hr hrun ?_ ?_ (hpc.trans hpc₁) (hnext.trans h.nextpid)
  · rw [hp]
    exact ⟨rfl, h.self.pid, h.self.isthread, h.self.uid, h.self.isjoined⟩
  · intro q hq
    have hrest := h.slot q hq
    have hstir := hslot q hq
    refine ⟨hrest.toTwin.trans hstir.toTwin, hstir.chan.trans hrest.chan, ?_⟩
    rw [← hrest.state, ← hrest.chan]
    exact hstir.state

theorem threadExit_joinDeed (hr : threadExiting s o = some p) (hrun : (s.ptable p).state = .running) (v : ℕ) :
    JoinDeed s o (threadExit s c p v) := by
  have hp : Moving s o p := .inl hrun
  unfold threadExit
  dsimp only
  split
  · split
    · refine Solo.exit_deed (.writeAt ?_ _ p) hp
      exact fun _ => ⟨⟨rfl, rfl, rfl, rfl, rfl⟩, rfl, rfl⟩
    · have h₁ : Solo s ((s.write p fun x => { x with retVal := v }).writeAt (s.ptable p).parent
          fun m => { m with threadnum := m.threadnum - 1 }) p := by
        refine Solo.trans (.write ?_) (.writeAt ?_ _ p)
        · exact ⟨rfl, rfl, rfl, rfl, rfl⟩
        · exact fun _ => ⟨⟨rfl, rfl, rfl, rfl, rfl⟩, rfl, rfl⟩
      have hpc₁ : ((s.write p fun x => { x with retVal := v }).writeAt (s.ptable p).parent
          fun m => { m with threadnum := m.threadnum - 1 }).pc = s.pc := rfl
      generalize (s.write p fun x => { x with retVal := v }).writeAt (s.ptable p).parent
        (fun m => { m with threadnum := m.threadnum - 1 }) = s₁ at h₁ hpc₁ ⊢
      split
      · refine h₁.retire_deed hpc₁ hr hrun ?_ ?_ rfl rfl
        · simp [wakeup1, Proc.wake]
        · intro q hq
          simp only [St.leave_ptable, St.write_ptable, wakeup1, Table.write_of_ne _ hq]
          exact stirs_wake _ _
      · refine h₁.retire_deed hpc₁ hr hrun ?_ ?_ rfl rfl
        · simp
        · intro q hq
          simp only [St.leave_ptable, St.write_ptable, Table.write_of_ne _ hq]
          exact (Rests.refl _).stirs _
  · split
    · refine Solo.exit_deed (.write ?_) hp
      exact ⟨rfl, rfl, rfl, rfl, rfl⟩
    · have h₁ : Solo s (s.write p fun x => { x with threadnum := x.threadnum - 1 }) p :=
        .write ⟨rfl, rfl, rfl, rfl, rfl⟩
      refine h₁.retire_deed rfl hr hrun ?_ ?_ rfl rfl
      · simp
      · intro q hq
        simp only [St.leave_ptable, St.write_ptable, Table.write_of_ne _ hq]
        exact (Rests.refl _).stirs _

theorem syscall_joinDeed {f : Syscall} (hc : s.curproc c = some p) (hrun : (s.ptable p).state = .running)
    (hu : s.pc p = .user) (hk : (s.ptable p).killed = false) (hf : (Op.call (N := N) c f).stranger = false) :
    JoinDeed s (.call c f) (syscall s c p f) := by
  have hp : Moving s (.call c f) p := .inl hrun
  have hl : (s.ptable p).state.life = .active := ProcState.life_active.2 (.inr (.inr hrun))
  have he : Enters s (.call c f) p := ⟨hu, c, hc, .inl ⟨f, rfl⟩⟩
  cases f with
  | fork => exact allocproc_joinDeed he hp _
  | threadCreate => exact allocproc_joinDeed he hp _
  | exit => exact (Solo.refl s p).exit_deed hp
  | wait =>
    refine waitLoop_joinDeed (Solo.refl s p) rfl hp hl ?_ rfl
    simp [waiter, hc, hu, hk]
  | kill pid => cases hf
  | threadExit v =>
    refine threadExit_joinDeed ?_ hrun v
    simp [threadExiting, hc, hu, hk]
  | threadJoin tid =>
    refine threadJoin_joinDeed hrun fun t ht => ?_
    simp [joining, hc, hu, hk, ht]
  | semCreate v => exact semCreate_joinDeed hp v
  | semDown id => exact down_joinDeed hp hl id
  | semUp id => cases hf

theorem kernelStep_joinDeed (hc : s.curproc c = some p) (hrun : (s.ptable p).state = .running) (ok : Bool) :
    JoinDeed s (.exec c ok) (kernelStep s c p ok (s.pc p)) := by
  have hp : Moving s (.exec c ok) p := .inl hrun
  cases hpc : s.pc p with
  | make st np => exact .make c p np st ok rfl hc hpc
  | exitClose => exact .exit c p ok rfl hc hpc
  | downSleep id =>
    exact downLoop_joinDeed (Solo.refl s p) hp (ProcState.life_active.2 (.inr (.inr hrun))) id
  | user | waitSleep | joinSleep | panicked => exact .solo s p (.refl s p) hp fun he => ⟨hrun, he⟩

theorem stepOn_joinDeed (hc : s.curproc c = some p) (hrun : (s.ptable p).state = .running) (hoc : o.cpu = some c)
    (ho : o.stranger = false) : JoinDeed s o (stepOn s c p o) := by
  have hl : (s.ptable p).state.life = .active := ProcState.life_active.2 (.inr (.inr hrun))
  have hp : Moving s o p := .inl hrun
  have hstay : JoinDeed s o s := .solo s p (.refl s p) hp fun he => ⟨hrun, he⟩
  cases o with
  | dispatch c' q => cases hoc
  | wakeDev n => cases hoc
  | preempt c' =>
    simp only [stepOn]
    split
    · have hw : Solo s (s.write p fun x => { x with state := .runnable }) p :=
        .write ⟨hl.symm, rfl, rfl, rfl, rfl⟩
      exact .solo _ p (hw.trans (.leave _ c p)) hp fun he => ⟨hrun, he⟩
    · exact hstay
  | trap c' fault =>
    simp only [stepOn]
    split
    · rename_i hu
      have hsolo : Solo s (if fault = true then s.write p fun x => { x with killed := true } else s) p := by
        split
        · exact .write ⟨rfl, rfl, rfl, rfl, rfl⟩
        · exact .refl s p
      have hpc : (if fault = true then s.write p fun x => { x with killed := true } else s).pc = s.pc := by
        split <;> rfl
      generalize (if fault = true then s.write p fun x => { x with killed := true } else s) = s₁ at hsolo hpc ⊢
      split
      · exact hsolo.exit_deed hp
      · exact .solo s₁ p hsolo hp fun he => ⟨hrun, (congrFun hpc p).symm.trans he⟩
    · exact hstay
  | call c' f =>
    obtain rfl : c' = c := Option.some.inj hoc
    simp only [stepOn]
    split
    · rename_i hu
      split
      · exact (Solo.refl s p).exit_deed hp
      · rename_i hk
        exact syscall_joinDeed hc hrun hu (by simpa using hk) ho
    · exact hstay
  | exec c' ok =>
    obtain rfl : c' = c := Option.some.inj hoc
    exact kernelStep_joinDeed hc hrun ok
  | sleepDev c' n =>
    simp only [stepOn]
    split
    · rename_i hpc
      refine (Solo.refl s p).sleep_deed hp hl c _ ?_
      rcases hpc with hpc | hpc <;> simp [hpc]
    · exact hstay

theorem dispatched_solo (c : Fin K) (hp : (s.ptable p).state = .runnable) : Solo s (dispatched s c p) p := by
  refine Solo.of_write (f := fun x => { x with state := .running, chan := .null }) ?_ rfl rfl rfl
  refine ⟨?_, rfl, rfl, rfl, rfl⟩
  rw [hp]
  rfl

/-- **What a step is to a joiner.** -/
theorem step_joinDeed (h : OnCpu s) (ho : o.stranger = false) : JoinDeed s o (step s o) := by
  refine step_cases (P := JoinDeed s o) ?_ ?_ ?_ ?_
  · exact .wake s 0 (fun q => (Rests.refl _).stirs _) rfl rfl
  · intro c p hop hc hr
    have hsolo := dispatched_solo c hr
    have hp : Moving s o p := .inr ⟨c, hop, hc, hr⟩
    have hl : (s.ptable p).state.life = .active := by rw [hr]; rfl
    unfold resume
    split
    · rename_i hw
      have hpc : s.pc p = .waitSleep := hw
      refine waitLoop_joinDeed hsolo rfl hp hl ?_ (waitFound_dispatched hr)
      rw [hop]
      simp [waiter, hc, hr, hpc]
    · exact hsolo.sysret_deed hp 0
    · rename_i _ hnot
      exact hsolo.joinDeed hp hnot
  · intro n _
    exact .wake _ n (fun q => stirs_wake _ _) rfl rfl
  · intro c p hoc hc
    exact stepOn_joinDeed hc (h.running c p hc) hoc ho

end Functions

/-! ## Slots and joiners after a step -/

/-- what becomes of slot `q` in a step to `s'` -/
inductive Fate (s : St N K) (o : Op N K) (s' : St N K) (q : Fin N) : Prop
  | same (h : Twin (s.ptable q) (s'.ptable q))
  | joined (p : Fin N) (hj : joining s o = some (p, q)) (h : Twin { s.ptable q with isjoined := true } (s'.ptable q))
  | ended (hcause : threadExiting s o = some q ∨ ∃ p ∈ exiting s o, (s.ptable q).pid = (s.ptable p).pid)
      (h : Ends (s.ptable q) (s'.ptable q))
  | freed (hcause : (s.ptable q).state.life = .embryo ∨ Reaps s o (s.ptable q).pid)
      (hy : (s'.ptable q).state.life = .free) (hu : (s'.ptable q).uid = (s.ptable q).uid)
  | allocated (hx : (s.ptable q).state.life = .free) (hy : (s'.ptable q).state.life = .embryo)
      (hu : (s'.ptable q).uid = s.nextpid) (hn : s'.nextpid = s.nextpid + 1)
  | made (hx : (s.ptable q).state.life = .embryo)
      (hy : (s'.ptable q).state.life = .embryo ∨ (s'.ptable q).state.life = .active)
      (hu : (s'.ptable q).uid = (s.ptable q).uid)

section Fates

variable {odd : Bool → Prop} {s : St N K} {o : Op N K} {c : Fin K} {p np q : Fin N} {ok : Bool} {st : Making}

theorem makeStep_rests (hq : q ≠ np) : Rests (s.ptable q) ((makeStep s p np ok st).ptable q) := by
  obtain ⟨n, i, h⟩ := @makeStep_other N K s p np q ok st hq
  rw [h]
  exact ⟨⟨rfl, rfl, rfl, rfl, rfl⟩, rfl, rfl⟩

theorem makeStep_nextpid : (makeStep s p np ok st).nextpid = s.nextpid := by
  cases st <;> simp only [makeStep] <;> first | rfl | (split <;> rfl)

theorem allocproc_nextpid (hnp : findUnused s.ptable = some np) (f : Maker) :
    (allocproc s p f).nextpid = s.nextpid + 1 := by
  unfold allocproc
  rw [hnp]

theorem joining_ne {t : Fin N} (hj : joining s o = some (p, t)) : t ≠ p := by
  cases o with
  | call c f =>
    cases f with
    | threadJoin tid =>
      simp only [joining, Option.bind_eq_some_iff] at hj
      obtain ⟨p', _, hj⟩ := hj
      split at hj
      · simp only [Option.map_eq_some_iff, Prod.mk.injEq] at hj
        obtain ⟨t', hfind, rfl, rfl⟩ := hj
        have := List.find?_some hfind
        simp only [decide_eq_true_eq] at this
        exact this.2.2.2
      · cases hj
    | _ => cases hj
  | _ => cases hj

/-- a slot of another process survives `exit`, at most woken by it -/
theorem exitLocked_stirs (h : Kept odd s) (hp : (s.ptable p).state.life = .active)
    (hq : (s.ptable q).pid ≠ (s.ptable p).pid) :
    Stirs (ExitWakes s.ptable s.initproc p) (s.ptable q) ((exitLocked s c p).ptable q) := by
  have hpar := parentsWithin h.orderly hp
  have hv := exitSection_visited s.initproc hpar q
  have hs := exitSection_spreads s.initproc hpar
  refine ⟨⟨exitLocked_alike h hp hq, hv.pid, hv.isthread, hv.uid, hs.isjoined q⟩, hs.chan q, ?_⟩
  rcases hv.state hq with he | ⟨hsl, hr⟩
  · exact .inl he
  · rcases hs.state q hq with he | hw
    · exact .inl he
    · exact .inr ⟨hsl, hr, hw⟩

theorem exitLocked_ends (h : Kept odd s) (hp : (s.ptable p).state.life = .active)
    (hq : (s.ptable q).pid = (s.ptable p).pid) : Ends (s.ptable q) ((exitLocked s c p).ptable q) := by
  have hpar := parentsWithin h.orderly hp
  have hv := exitSection_visited s.initproc hpar q
  exact ⟨hv.dead hq, hv.pid, hv.isthread, hv.uid, (exitSection_spreads s.initproc hpar).isjoined q⟩

/-- **What becomes of a slot.** -/
theorem step_fate (h : Kept odd s) (ho : o.stranger = false) (q : Fin N) : Fate s o (step s o) q := by
  have hdeed := step_joinDeed h.cpus ho
  generalize step s o = s' at hdeed ⊢
  cases hdeed with
  | solo _ p hsolo hp hpc =>
    by_cases hq : q = p
    · subst hq
      exact .same hsolo.self
    · exact .same (hsolo.slot q hq).toTwin
  | wake _ n hslot hpc hnext => exact .same (hslot q).toTwin
  | alloc p np f he hnp =>
    have htab := (allocproc_some (p := p) hnp f).1
    by_cases hq : q = np
    · subst hq
      refine .allocated ?_ ?_ ?_ (allocproc_nextpid hnp f)
      · rw [findUnused_unused hnp]
        rfl
      · rw [htab, Table.write_self]
        rfl
      · rw [htab, Table.write_self]
    · refine .same ?_
      rw [htab, Table.write_of_ne _ hq]
      exact .refl _
  | make c p np st ok ho hc hpc =>
    by_cases hq : q = np
    · subst hq
      have hemb := life_eq_embryo h (h.life_active hc) hpc
      cases hl : ((makeStep s p q ok st).ptable q).state.life with
      | free => exact .freed (.inl hemb) hl (makeStep_untouched ..).uid
      | embryo => exact .made hemb (.inl hl) (makeStep_untouched ..).uid
      | active => exact .made hemb (.inr hl) (makeStep_untouched ..).uid
      | zombie =>
        have hpub := (makeStep_publish hemb (.inr hl)).2.1
        rw [hpub] at hl
        cases hl
    · exact .same (makeStep_rests hq).toTwin
  | join c p t hj hp hun hz =>
    have hl : ((s.write t fun x => { x with isjoined := true }).ptable p).state.life = .active := by
      rw [St.write_ptable, Table.write_of_ne _ (joining_ne hj).symm, hp]
      rfl
    have hsleep := Solo.sleep hl c (.proc t) .joinSleep
    by_cases hqp : q = p
    · subst hqp
      have hself := hsleep.self
      rw [St.write_ptable, Table.write_of_ne _ (joining_ne hj).symm] at hself
      exact .same hself
    · have hrest := (hsleep.slot q hqp).toTwin
      by_cases hqt : q = t
      · subst hqt
        rw [St.write_ptable, Table.write_self] at hrest
        exact .joined p hj hrest
      · rw [St.write_ptable, Table.write_of_ne _ hqt] at hrest
        exact .same hrest
  | retire _ p hr hp hself hslot hpc hnext =>
    by_cases hq : q = p
    · subst hq
      exact .ended (.inl hr) hself
    · exact .same (hslot q hq).toTwin
  | exit c p ok ho hc hpc =>
    by_cases hq : (s.ptable q).pid = (s.ptable p).pid
    · exact .ended (.inr ⟨p, ho ▸ mem_exiting hc hpc, hq⟩) (exitLocked_ends h (h.life_active hc) hq)
    · exact .same (exitLocked_stirs h (h.life_active hc) hq).toTwin
  | reap _ p X hw hX hfound hp hfree hself hslot hpc hnext =>
    by_cases hq : (s.ptable q).pid = X
    · refine .freed (.inr ⟨hq ▸ hX, p, hw, hfound.trans hq.symm⟩) ?_ (hfree q hq).uid
      rw [(hfree q hq).state]
      rfl
    · by_cases hqp : q = p
      · subst hqp
        exact .same (hself hq)
      · exact .same (hslot q hq hqp).toTwin

theorem step_nextpid_le (h : Kept odd s) (ho : o.stranger = false) : s.nextpid ≤ (step s o).nextpid := by
  have hdeed := step_joinDeed h.cpus ho
  generalize step s o = s' at hdeed ⊢
  cases hdeed with
  | solo _ p hsolo hp hpc => exact hsolo.nextpid.ge
  | wake _ n hslot hpc hnext => exact hnext.ge
  | alloc p np f he hnp => exact (allocproc_nextpid hnp f).ge.trans' (Nat.le_succ _)
  | make c p np st ok ho hc hpc => exact makeStep_nextpid.ge
  | join c p t hj hp hun hz => exact le_rfl
  | retire _ p hr hp hself hslot hpc hnext => exact hnext.ge
  | exit c p ok ho hc hpc => exact le_rfl
  | reap _ p X hw hX hfound hp hfree hself hslot hpc hnext => exact hnext.ge

/-- the uid of a slot changes only when it is allocated -/
theorem Fate.uid {s' : St N K} (h : Fate s o s' q) : (s'.ptable q).uid = (s.ptable q).uid ∨
    ((s.ptable q).state.life = .free ∧ (s'.ptable q).state.life = .embryo ∧ (s'.ptable q).uid = s.nextpid ∧
      s'.nextpid = s.nextpid + 1) := by
  cases h with
  | same h => exact .inl h.uid
  | joined p hj h => exact .inl h.uid
  | ended hcause h => exact .inl h.uid
  | freed hcause hy hu => exact .inl hu
  | allocated hx hy hu hn => exact .inr ⟨hx, hy, hu, hn⟩
  | made hx hy hu => exact .inl hu

/-- every use of a slot has its number from `nextpid` -/
theorem step_uid_lt (h : Kept odd s) (ho : o.stranger = false) (hlt : ∀ q, (s.ptable q).uid < s.nextpid) (q : Fin N) :
    ((step s o).ptable q).uid < (step s o).nextpid := by
  have hle := step_nextpid_le h ho
  rcases (step_fate h ho q).uid with hu | ⟨_, _, hu, hn⟩
  · rw [hu]
    exact (hlt q).trans_le hle
  · rw [hu, hn]
    exact Nat.lt_succ_self _

/-- the channels whose sleepers a step may wake -/
def Wakes (s : St N K) (o : Op N K) (chan : Chan N) : Prop :=
  (∃ p, threadExiting s o = some p ∧ chan = .proc p) ∨ ∃ p ∈ exiting s o, ExitWakes s.ptable s.initproc p chan

/-- the process sleeps on, or has been woken -/
structure Dozes (s : St N K) (o : Op N K) (s' : St N K) (q : Fin N) : Prop where
  pc : s'.pc q = s.pc q
  chan : (s'.ptable q).chan = (s.ptable q).chan
  state : (s'.ptable q).state = (s.ptable q).state ∨
    ((s.ptable q).state = .sleeping ∧ (s'.ptable q).state = .runnable ∧ Wakes s o (s.ptable q).chan)

theorem Rests.dozes {s' : St N K} (h : Rests (s.ptable q) (s'.ptable q)) (hpc : s'.pc q = s.pc q) : Dozes s o s' q :=
  ⟨hpc, h.chan, .inl h.state⟩

theorem Stirs.dozes {s' : St N K} {chans : Chan N → Prop} (h : Stirs chans (s.ptable q) (s'.ptable q))
    (hpc : s'.pc q = s.pc q) (hw : chans (s.ptable q).chan → Wakes s o (s.ptable q).chan) : Dozes s o s' q := by
  refine ⟨hpc, h.chan, ?_⟩
  rcases h.state with hs | ⟨h1, h2, h3⟩
  · exact .inl hs
  · exact .inr ⟨h1, h2, hw h3⟩

theorem waiter_pc (h : p ∈ waiter s o) : s.pc p ≠ .joinSleep := by
  cases o with
  | call c f =>
    cases f with
    | wait =>
      simp only [waiter, Option.mem_def, Option.filter_eq_some_iff, decide_eq_true_eq] at h
      rw [h.2.1]
      simp
    | _ => cases h
  | dispatch c p' =>
    simp only [waiter, Option.mem_def] at h
    split at h
    · rename_i hw
      cases h
      rw [hw.2.2]
      simp
    · cases h
  | _ => cases h

/-- a call of `thread_join` that sleeps leaves everyone else where they are -/
theorem joined_slot {t : Fin N} (hq : q ≠ p) :
    let s' := (s.write t fun x => { x with isjoined := true }).sleep c p (.proc t) .joinSleep
    (s'.ptable q).state = (s.ptable q).state ∧ (s'.ptable q).chan = (s.ptable q).chan := by
  have hw : ((s.write t fun x => { x with isjoined := true }).sleep c p (.proc t) .joinSleep).ptable q =
      s.ptable.write t (fun x => { x with isjoined := true }) q := update_of_ne hq _ _
  dsimp only
  rw [hw]
  by_cases hqt : q = t
  · subst hqt
    rw [Table.write_self]
    exact ⟨rfl, rfl⟩
  · rw [Table.write_of_ne _ hqt]
    exact ⟨rfl, rfl⟩

/-- **What becomes of a joiner.** It is ended with its process, dispatched, or left asleep or woken. -/
theorem step_joiner (h : Kept odd s) (ho : o.stranger = false) (hl : (s.ptable q).state.life = .active)
    (hpc : s.pc q = .joinSleep) (hrun : (s.ptable q).state ≠ .running) {t : Fin N}
    (hchan : (s.ptable q).chan = .proc t) :
    ((step s o).ptable q).state.life ≠ .active ∨
      (∃ c, o = .dispatch c q ∧ s.curproc c = none ∧ (s.ptable q).state = .runnable) ∨ Dozes s o (step s o) q := by
  have hdeed := step_joinDeed h.cpus ho
  generalize step s o = s' at hdeed ⊢
  cases hdeed with
  | solo _ p hsolo hp hpc' =>
    by_cases hq : q = p
    · subst hq
      rcases hp with hr | hdis
      · exact absurd hr hrun
      · exact .inr (.inl hdis)
    · exact .inr (.inr ((hsolo.slot q hq).dozes (hsolo.pc q hq)))
  | wake _ n hslot hpcs hnext =>
    refine .inr (.inr ((hslot q).dozes (congrFun hpcs q) fun hdev => ?_))
    rw [hchan] at hdev
    cases hdev
  | alloc p np f he hnp =>
    obtain ⟨htab, hpcs, _⟩ := allocproc_some (p := p) hnp f
    have hqn : q ≠ np := by
      rintro rfl
      rw [findUnused_unused hnp] at hl
      cases hl
    have hqp : q ≠ p := by
      rintro rfl
      rw [he.1] at hpc
      cases hpc
    refine .inr (.inr (Rests.dozes ?_ ?_))
    · rw [htab, Table.write_of_ne _ hqn]
      exact .refl _
    · rw [hpcs, update_of_ne hqp]
  | make c p np st ok hop hc hm =>
    have hemb := life_eq_embryo h (h.life_active hc) hm
    have hqn : q ≠ np := by
      rintro rfl
      rw [hl] at hemb
      cases hemb
    have hqp : q ≠ p := by
      rintro rfl
      rw [hm] at hpc
      cases hpc
    exact .inr (.inr ((makeStep_rests hqn).dozes (makeStep_pc hqp hqn)))
  | join c p t' hj hp hun hz =>
    have hqp : q ≠ p := fun e => hrun (e ▸ hp)
    have hslot := joined_slot (s := s) (c := c) (t := t') hqp
    exact .inr (.inr ⟨update_of_ne hqp _ _, hslot.2, .inl hslot.1⟩)
  | retire _ p hr hp hself hslot hpcs hnext =>
    have hqp : q ≠ p := fun e => hrun (e ▸ hp)
    exact .inr (.inr ((hslot q hqp).dozes (congrFun hpcs q) fun hch => .inl ⟨p, hr, hch⟩))
  | exit c p ok hop hc hm =>
    by_cases hq : (s.ptable q).pid = (s.ptable p).pid
    · left
      rw [(exitLocked_ends h (h.life_active hc) hq).state]
      exact Life.noConfusion
    · refine .inr (.inr ((exitLocked_stirs (c := c) h (h.life_active hc) hq).dozes rfl fun hch => ?_))
      exact .inr ⟨p, hop ▸ mem_exiting hc hm, hch⟩
  | reap _ p X hw hX hfound hp hfree hself hslot hpcs hnext =>
    by_cases hq : (s.ptable q).pid = X
    · left
      rw [(hfree q hq).state]
      exact Life.noConfusion
    · have hqp : q ≠ p := fun e => waiter_pc hw (e ▸ hpc)
      refine .inr (.inr ((hslot q hq hqp).dozes ?_))
      rw [hpcs, update_of_ne hqp]

/-- **Who is a joiner now** was one before, or has just called `thread_join`. -/
theorem joiner_before (h : Kept odd s) (ho : o.stranger = false) (hl : ((step s o).ptable q).state.life = .active)
    (hpc : (step s o).pc q = .joinSleep) :
    ((s.ptable q).state.life = .active ∧ s.pc q = .joinSleep) ∨
      ∃ c t, joining s o = some (q, t) ∧ (s.ptable t).isjoined = false ∧ (s.ptable t).state ≠ .zombie ∧
        step s o = (s.write t fun x => { x with isjoined := true }).sleep c q (.proc t) .joinSleep := by
  have hdeed := step_joinDeed h.cpus ho
  generalize step s o = s' at hdeed hl hpc ⊢
  cases hdeed with
  | solo _ p hsolo hp hpc' =>
    left
    by_cases hq : q = p
    · subst hq
      exact ⟨hsolo.self.life.symm.trans hl, (hpc' hpc).2⟩
    · exact ⟨(hsolo.slot q hq).life.symm.trans hl, (hsolo.pc q hq).symm.trans hpc⟩
  | wake _ n hslot hpcs hnext => exact .inl ⟨(hslot q).life.symm.trans hl, (congrFun hpcs q).symm.trans hpc⟩
  | alloc p np f he hnp =>
    obtain ⟨htab, hpcs, _⟩ := allocproc_some (p := p) hnp f
    rw [htab] at hl
    rw [hpcs] at hpc
    have hqn : q ≠ np := by
      rintro rfl
      rw [Table.write_self] at hl
      cases hl
    have hqp : q ≠ p := by
      rintro rfl
      rw [update_self] at hpc
      cases hpc
    rw [Table.write_of_ne _ hqn] at hl
    rw [update_of_ne hqp] at hpc
    exact .inl ⟨hl, hpc⟩
  | make c p np st ok hop hc hm =>
    have hemb := life_eq_embryo h (h.life_active hc) hm
    have hpn : p ≠ np := by
      rintro rfl
      rw [h.life_active hc] at hemb
      cases hemb
    have hqn : q ≠ np := by
      rintro rfl
      rw [(makeStep_publish hemb (.inl hl)).2.2 hpn] at hpc
      cases hpc
    have hqp : q ≠ p := by
      rintro rfl
      have hself : (makeStep s q np ok st).pc q = .user ∨
          ((makeStep s q np ok st).pc q = .make st.next np ∧ st ≠ .forkRun ∧ st ≠ .tcRun) := makeStep_pc_self
      rw [hpc] at hself
      rcases hself with hu | ⟨hu, _⟩ <;> cases hu
    exact .inl ⟨(makeStep_rests hqn).life.symm.trans hl, (makeStep_pc hqp hqn).symm.trans hpc⟩
  | join c p t hj hp hun hz =>
    by_cases hqp : q = p
    · subst hqp
      exact .inr ⟨c, t, hj, hun, hz, rfl⟩
    · rw [(joined_slot (s := s) (c := c) (t := t) hqp).1] at hl
      exact .inl ⟨hl, (update_of_ne hqp _ _).symm.trans hpc⟩
  | retire _ p hr hp hself hslot hpcs hnext =>
    have hqp : q ≠ p := by
      rintro rfl
      rw [hself.state] at hl
      cases hl
    exact .inl ⟨(hslot q hqp).life.symm.trans hl, (congrFun hpcs q).symm.trans hpc⟩
  | exit c p ok hop hc hm =>
    have hq : (s.ptable q).pid ≠ (s.ptable p).pid := by
      intro hq
      rw [(exitLocked_ends h (h.life_active hc) hq).state] at hl
      cases hl
    exact .inl ⟨(exitLocked_alike h (h.life_active hc) hq).symm.trans hl, hpc⟩
  | reap _ p X hw hX hfound hp hfree hself hslot hpcs hnext =>
    have hq : (s.ptable q).pid ≠ X := by
      intro hq
      rw [(hfree q hq).state] at hl
      cases hl
    have hqp : q ≠ p := by
      rintro rfl
      rw [hpcs, update_self] at hpc
      cases hpc
    rw [hpcs, update_of_ne hqp] at hpc
    exact .inl ⟨(hslot q hq hqp).life.symm.trans hl, hpc⟩

end Fates

end Xv6Threads.Kernel
