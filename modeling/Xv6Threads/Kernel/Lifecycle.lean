/-
Which slots make up a process, and how many of them are still counted: the abstract life cycle of the process table.

A `Census` keeps, for every slot, whether it is free, an embryo, active or a zombie, its pid, parent, isthread and
threadnum, and what its process is doing: nothing that matters here (`idle`), making a new slot, or `leaving` (on its
way through `exit`). A `Turn` is one change of the census; the turns are the shapes a step of the kernel can take.

A process is the set of slots of one pid. Its main slot is the one with isthread = 0, and the threadnum of the main slot
should be the number of its active slots. Two windows make it differ: a thread being made is counted before its slot is
active (its maker then counts twice, `Making.counted`), and the last thread to leave gives up its count before it is a
zombie. The second window is where threadnum is 0 with an active slot left; `odd` says which slots may be in it (main
slots, threads, or both), and it is the only parameter.

Results:
- `Orderly`: the invariant; `Turn.orderly`: every turn keeps it.
- `Orderly.reap_leaving`: of a pid that `wait` reaps, at most one slot is active, and it is leaving and `odd`.
-/
import Xv6Threads.Core.Tally
import Xv6Threads.Kernel.Machine

namespace Xv6Threads.Kernel

open Xv6Threads.Core Function

/-! ## Census -/

inductive Life where
  | free | embryo | active | zombie
  deriving DecidableEq

/-- what an active process is doing -/
inductive Act (N : ℕ) where
  | idle
  | making (st : Making) (np : Fin N)
  | leaving
  deriving DecidableEq

structure Census (N : ℕ) where
  life : Fin N → Life
  pid : Fin N → ℕ
  parent : Fin N → Option (Fin N)
  isthread : Fin N → Bool
  threadnum : Fin N → ℤ
  act : Fin N → Act N
  nextpid : ℕ

namespace Making

/-- the new slot has taken its maker's pid -/
def joined : Making → Bool
  | .tcPgdir | .tcParent | .tcCount | .tcIsthread | .tcIsjoined | .tcThreadId | .tcRun => true
  | _ => false

/-- the parent of the new slot has been written -/
def parented : Making → Bool
  | .forkThreadId | .forkIsthread | .forkIsjoined | .forkRun => true
  | .tcCount | .tcIsthread | .tcIsjoined | .tcThreadId | .tcRun => true
  | _ => false

/-- the new thread is already counted in threadnum -/
def counted : Making → Bool
  | .tcIsthread | .tcIsjoined | .tcThreadId | .tcRun => true
  | _ => false

/-- isthread of the new slot has been written -/
def marked : Making → Bool
  | .forkIsjoined | .forkRun | .tcIsjoined | .tcThreadId | .tcRun => true
  | _ => false

/-- threadnum of the new slot has been written -/
def numbered : Making → Bool
  | .kstack _ | .queuePos _ | .threadnum _ => false
  | _ => true

/-- the store after this one -/
def next : Making → Making
  | .kstack f => .queuePos f
  | .queuePos f => .threadnum f
  | .threadnum f => .waitingFor f
  | .waitingFor .fork => .forkPgdir
  | .forkPgdir => .forkParent
  | .forkParent => .forkThreadId
  | .forkThreadId => .forkIsthread
  | .forkIsthread => .forkIsjoined
  | .forkIsjoined | .forkRun => .forkRun
  | .waitingFor .threadCreate => .tcPid
  | .tcPid => .tcPgdir
  | .tcPgdir => .tcParent
  | .tcParent => .tcCount
  | .tcCount => .tcIsthread
  | .tcIsthread => .tcIsjoined
  | .tcIsjoined => .tcThreadId
  | .tcThreadId | .tcRun => .tcRun

/-- the stores that only write the new slot and do not publish it -/
def Private (st : Making) : Prop := st ≠ .tcCount ∧ st ≠ .forkRun ∧ st ≠ .tcRun

end Making

/-- the slot a process is making -/
@[grind]
def Act.target {N : ℕ} : Act N → Option (Fin N)
  | .making _ np => some np
  | _ => none

/-- how much more than itself a process counts for -/
def Act.extra {N : ℕ} : Act N → ℤ
  | .making st _ => if st.counted then 1 else 0
  | _ => 0

theorem Act.extra_nonneg {N : ℕ} (a : Act N) : 0 ≤ a.extra := by
  unfold Act.extra
  split <;> [split; skip] <;> decide

variable {N : ℕ}

namespace Census

/-- the slot holds a process, running or dead -/
def Live (l : Census N) (q : Fin N) : Prop := l.life q = .active ∨ l.life q = .zombie

/-- no other slot has this slot's pid -/
def Alone (l : Census N) (q : Fin N) : Prop := ∀ q', l.pid q' = l.pid q → q' = q

def mainOf (l : Census N) (p : Fin N) : Option (Fin N) := if l.isthread p then l.parent p else some p

/-- what slot `q` counts for in the process `X` -/
def share (l : Census N) (X : ℕ) (q : Fin N) : ℤ :=
  if l.life q = .active ∧ l.pid q = X then 1 + (l.act q).extra else 0

/-- what threadnum of the process `X` should be -/
def weight (l : Census N) (X : ℕ) : ℤ := tally (l.share X) id

theorem share_nonneg (l : Census N) (X : ℕ) (q : Fin N) : 0 ≤ l.share X q := by
  unfold share
  split
  · have := (l.act q).extra_nonneg
    omega
  · rfl

theorem share_active {l : Census N} {q : Fin N} (h : l.life q = .active) :
    l.share (l.pid q) q = 1 + (l.act q).extra := if_pos ⟨h, rfl⟩

theorem one_le_share {l : Census N} {q : Fin N} (h : l.life q = .active) : 1 ≤ l.share (l.pid q) q := by
  have := (l.act q).extra_nonneg
  rw [share_active h]
  omega

theorem one_le_weight {l : Census N} {q : Fin N} (h : l.life q = .active) : 1 ≤ l.weight (l.pid q) :=
  (one_le_share h).trans (le_tally (l.share_nonneg _) id q)

theorem weight_congr {l l' : Census N} {X : ℕ} (h : ∀ q, l'.share X q = l.share X q) : l'.weight X = l.weight X := by
  have he : l'.share X = l.share X := funext h
  simp only [weight, he]

/-- when one slot changes, the weight changes by that slot's share -/
theorem weight_change (l l' : Census N) (X : ℕ) (p : Fin N) (h : ∀ q, q ≠ p → l'.share X q = l.share X q) :
    l'.weight X - l'.share X p = l.weight X - l.share X p := by
  have e := tally_split (l.share X) id p
  have e' := tally_split (l'.share X) id p
  have ho : others (l'.share X) id p = others (l.share X) id p := others_congr h
  simp only [weight, id] at e e' ⊢
  omega

/-- a process of weight 1 has one active slot -/
theorem eq_of_weight_one {l : Census N} {p q : Fin N} (hp : l.life p = .active) (hq : l.life q = .active)
    (hpid : l.pid q = l.pid p) (hw : l.weight (l.pid p) = 1) : q = p := by
  by_contra hne
  have h2 := add_le_tally (l.share_nonneg (l.pid p)) id (Ne.symm hne)
  have h3 := one_le_share hp
  have h4 := one_le_share hq
  rw [hpid] at h4
  simp only [weight, id] at hw h2
  omega

end Census

/-! ## The invariant -/

/-- `m` is the main slot of the process of slot `p` -/
structure Home (l : Census N) (p m : Fin N) : Prop where
  pid : l.pid m = l.pid p
  main : l.isthread m = false
  live : l.Live m
  thread : l.isthread p = true → l.parent p = some m
  self : l.isthread p = false → p = m
  unique : ∀ q, l.Live q → l.pid q = l.pid p → l.isthread q = false → q = m

/-- threadnum is right, or the last slot of the process has given up its count and is leaving -/
def Balanced (odd : Bool → Prop) (l : Census N) (p m : Fin N) : Prop :=
  l.threadnum m = l.weight (l.pid p) ∨
    (l.threadnum m = 0 ∧ l.weight (l.pid p) = 1 ∧ l.act p = .leaving ∧ odd (l.isthread p))

/-- how far the slot `np` has been made by `r`, whose next store is `st` -/
structure Made (l : Census N) (r : Fin N) (st : Making) (np : Fin N) : Prop where
  embryo : l.life np = .embryo
  fresh : st.joined = false → l.Alone np
  pid : st.joined = true → l.pid np = l.pid r
  orphan : st.parented = false → l.parent np = none
  parent : st.parented = true → l.parent np = l.mainOf r
  threadnum : st.numbered = true → l.threadnum np = 1
  isthread : st.marked = true → l.isthread np = st.joined

structure Orderly (odd : Bool → Prop) (l : Census N) : Prop where
  nextpid : 0 < l.nextpid
  pid_lt : ∀ q, l.pid q < l.nextpid
  pid_pos : ∀ q, l.life q ≠ .free → 0 < l.pid q
  free : ∀ q, l.life q = .free → l.parent q = none ∧ (l.pid q = 0 ∨ l.Alone q)
  embryo : ∀ q, l.life q = .embryo → l.Alone q ∨
    ∃ r st, l.life r = .active ∧ l.act r = .making st q ∧ st.joined = true
  made : ∀ r st np, l.life r = .active → l.act r = .making st np → Made l r st np
  maker : ∀ r r' np, l.life r = .active → l.life r' = .active → (l.act r).target = some np →
    (l.act r').target = some np → r = r'
  home : ∀ p, l.life p = .active → ∃ m, Home l p m ∧ Balanced odd l p m
  main : ∀ q, l.life q = .zombie → ∃ m, l.Live m ∧ l.pid m = l.pid q ∧ l.isthread m = false

/-! ## Turns -/

namespace Census

@[simps]
def setAct (l : Census N) (r : Fin N) (a : Act N) : Census N := { l with act := update l.act r a }

@[simps]
def setLife (l : Census N) (q : Fin N) (x : Life) : Census N := { l with life := update l.life q x }

@[simps]
def addThreadnum (l : Census N) (m : Fin N) (d : ℤ) : Census N :=
  { l with threadnum := update l.threadnum m (l.threadnum m + d) }

/-- slot `np` becomes an embryo with a new pid -/
@[simps]
def alloc (l : Census N) (np : Fin N) : Census N :=
  { l.setLife np .embryo with pid := update l.pid np l.nextpid, nextpid := l.nextpid + 1 }

/-- the store `st` of process `r` into the slot `np` -/
def store (l : Census N) (r np : Fin N) : Making → Census N
  | .threadnum _ => { l with threadnum := update l.threadnum np 1 }
  | .tcPid => { l with pid := update l.pid np (l.pid r) }
  | .forkParent | .tcParent => { l with parent := update l.parent np (l.mainOf r) }
  | .forkIsthread => { l with isthread := update l.isthread np false }
  | .tcIsthread => { l with isthread := update l.isthread np true }
  | _ => l

/-- every slot of the pid `X` is freed -/
@[simps]
def reap (l : Census N) (X : ℕ) : Census N :=
  { l with
    life := fun q => if l.pid q = X then .free else l.life q
    pid := fun q => if l.pid q = X then 0 else l.pid q
    parent := fun q => if l.pid q = X then none else l.parent q }

-- each of these changes one or two of the seven components
attribute [grind =] setAct_life setAct_pid setAct_parent setAct_isthread setAct_threadnum setAct_act setAct_nextpid
attribute [grind =] setLife_life setLife_pid setLife_parent setLife_isthread setLife_threadnum setLife_act setLife_nextpid
attribute [grind =] addThreadnum_life addThreadnum_pid addThreadnum_parent addThreadnum_isthread addThreadnum_threadnum addThreadnum_act addThreadnum_nextpid
attribute [grind =] alloc_life alloc_pid alloc_parent alloc_isthread alloc_threadnum alloc_act alloc_nextpid
attribute [grind =] reap_life reap_pid reap_parent reap_isthread reap_threadnum reap_act reap_nextpid

end Census

/-- what `exit` by `p` may do to the census: every slot of the pid dies, children of `p` get another parent, and only
the counts of the dead process change -/
structure Exits (l l' : Census N) (p : Fin N) : Prop where
  life : ∀ q, l'.life q = if l.pid q = l.pid p then .zombie else l.life q
  pid : l'.pid = l.pid
  parent : ∀ q, l'.parent q = l.parent q ∨
    (l.parent q = some p ∧ l.isthread q = false ∧ (l.pid q ≠ l.pid p ∨ l.life q = .zombie))
  isthread : l'.isthread = l.isthread
  threadnum : ∀ q, l.pid q ≠ l.pid p → l'.threadnum q = l.threadnum q
  act : l'.act = l.act
  nextpid : l'.nextpid = l.nextpid

/-- one change of the census; `odd` says which slots may give up the last count of their process, `dying` who may take
its process down -/
inductive Turn (odd : Bool → Prop) (dying : Fin N → Prop) (l : Census N) : Census N → Prop where
  | alloc (r np : Fin N) (f : Maker) (hr : l.life r = .active) (hi : l.act r = .idle) (hnp : l.life np = .free) :
      Turn odd dying l ((l.alloc np).setAct r (.making (.kstack f) np))
  | abort (r np : Fin N) (st : Making) (hr : l.life r = .active) (hm : l.act r = .making st np)
      (hj : st.joined = false) (hp : st.parented = false) :
      Turn odd dying l ((l.setLife np .free).setAct r .idle)
  | store (r np : Fin N) (st : Making) (hr : l.life r = .active) (hm : l.act r = .making st np) (hst : st.Private) :
      Turn odd dying l ((l.store r np st).setAct r (.making st.next np))
  | count (r np m : Fin N) (hr : l.life r = .active) (hm : l.act r = .making .tcCount np)
      (hp : l.parent np = some m) :
      Turn odd dying l ((l.addThreadnum m 1).setAct r (.making .tcIsthread np))
  | publish (r np : Fin N) (st : Making) (hr : l.life r = .active) (hm : l.act r = .making st np)
      (hst : st = .forkRun ∨ st = .tcRun) :
      Turn odd dying l (((l.setLife np .active).setAct np .idle).setAct r .idle)
  | quit (p : Fin N) (hp : l.life p = .active) (hi : l.act p = .idle) : Turn odd dying l (l.setAct p .leaving)
  | last (p m : Fin N) (hp : l.life p = .active) (hi : l.act p = .idle) (hm : l.mainOf p = some m)
      (h1 : l.threadnum m = 1) (ho : odd (l.isthread p)) :
      Turn odd dying l ((l.addThreadnum m (-1)).setAct p .leaving)
  | retire (p m : Fin N) (hp : l.life p = .active) (hi : l.act p = .idle) (hm : l.mainOf p = some m) :
      Turn odd dying l ((l.addThreadnum m (-1)).setLife p .zombie)
  | exit (l' : Census N) (p : Fin N) (hp : l.life p = .active) (hd : dying p) (he : Exits l l' p) :
      Turn odd dying l l'
  | reap (q m : Fin N) (hq : l.life q = .active) (hi : l.act q = .idle) (hm : l.life m = .zombie)
      (ht : l.isthread m = false) (hn : l.threadnum m = 0) :
      Turn odd dying l (l.reap (l.pid m))

/-! ## Every turn keeps the invariant -/

section Frames

variable {odd : Bool → Prop} {l l' : Census N}

theorem Home.frame {p m : Fin N} (h : Home l p m) (hp : l.Live p)
    (hold : ∀ q, l.Live q → l.pid q = l.pid p → l'.Live q ∧ l'.pid q = l.pid q ∧ l'.isthread q = l.isthread q ∧
      (l.isthread q = true → l'.parent q = l.parent q))
    (hnew : ∀ q, l'.Live q → l'.pid q = l.pid p → l'.isthread q = false →
      l.Live q ∧ l.pid q = l.pid p ∧ l.isthread q = false) : Home l' p m := by
  obtain ⟨_, hpp, hpt, hpar⟩ := hold p hp rfl
  obtain ⟨hml, hmp, hmt, _⟩ := hold m h.live h.pid
  refine ⟨?_, ?_, hml, ?_, ?_, ?_⟩
  · rw [hmp, hpp, h.pid]
  · rw [hmt, h.main]
  · intro ht
    rw [hpt] at ht
    rw [hpar ht, h.thread ht]
  · intro ht
    exact h.self (hpt ▸ ht)
  · intro q hq hqp hqt
    rw [hpp] at hqp
    obtain ⟨h1, h2, h3⟩ := hnew q hq hqp hqt
    exact h.unique q h1 h2 h3

theorem Balanced.frame {p m : Fin N} (h : Balanced odd l p m) (hn : l'.threadnum m = l.threadnum m)
    (hp : l'.pid p = l.pid p) (hi : l'.isthread p = l.isthread p) (hw : l'.weight (l.pid p) = l.weight (l.pid p))
    (ha : l.act p = .leaving → l'.act p = .leaving) : Balanced odd l' p m := by
  unfold Balanced
  rw [hn, hp, hi, hw]
  rcases h with h | ⟨h1, h2, h3, h4⟩
  · exact Or.inl h
  · exact Or.inr ⟨h1, h2, ha h3, h4⟩

theorem Made.frame {r np : Fin N} {st : Making} (h : Made l r st np) (hl : l'.life np = l.life np)
    (hp : l'.pid np = l.pid np) (hpr : l'.pid r = l.pid r) (hpar : l'.parent np = l.parent np)
    (hm : l'.mainOf r = l.mainOf r) (hn : l'.threadnum np = l.threadnum np) (hi : l'.isthread np = l.isthread np)
    (ha : l.Alone np → l'.Alone np) : Made l' r st np where
  embryo := hl.trans h.embryo
  fresh hj := ha (h.fresh hj)
  pid hj := by rw [hp, hpr, h.pid hj]
  orphan ho := hpar.trans (h.orphan ho)
  parent hq := by rw [hpar, hm, h.parent hq]
  threadnum hq := hn.trans (h.threadnum hq)
  isthread hq := hi.trans (h.isthread hq)


theorem Orderly.home_frame (h : Orderly odd l)
    (hold : ∀ q, l.Live q → l'.Live q ∧ l'.pid q = l.pid q ∧ l'.isthread q = l.isthread q ∧
      l'.parent q = l.parent q ∧ l'.threadnum q = l.threadnum q)
    (hnew : ∀ q, l'.Live q → l.Live q) (hw : ∀ X, l'.weight X = l.weight X)
    (ha : ∀ q, l.act q = .leaving → l'.act q = .leaving) {p : Fin N} (hp : l.life p = .active) :
    ∃ m, Home l' p m ∧ Balanced odd l' p m := by
  obtain ⟨m, hm, hb⟩ := h.home p hp
  have hmp := hold m hm.live
  have hpp := hold p (Or.inl hp)
  refine ⟨m, hm.frame (Or.inl hp) ?_ ?_, hb.frame hmp.2.2.2.2 hpp.2.1 hpp.2.2.1 (hw _) (ha p)⟩
  · intro q hq _
    obtain ⟨h1, h2, h3, h4, _⟩ := hold q hq
    exact ⟨h1, h2, h3, fun _ => h4⟩
  · intro q hq hqp hqt
    obtain ⟨_, h2, h3, _, _⟩ := hold q (hnew q hq)
    exact ⟨hnew q hq, h2 ▸ hqp, h3 ▸ hqt⟩

theorem Orderly.maker_frame (h : Orderly odd l)
    (hsub : ∀ r np, l'.life r = .active → (l'.act r).target = some np →
      l.life r = .active ∧ (l.act r).target = some np) (r r' np : Fin N) (hr : l'.life r = .active)
    (hr' : l'.life r' = .active) (ht : (l'.act r).target = some np) (ht' : (l'.act r').target = some np) : r = r' :=
  h.maker r r' np (hsub r np hr ht).1 (hsub r' np hr' ht').1 (hsub r np hr ht).2 (hsub r' np hr' ht').2

theorem Orderly.main_of_live (h : Orderly odd l) {q : Fin N} (hq : l.Live q) :
    ∃ m, l.Live m ∧ l.pid m = l.pid q ∧ l.isthread m = false := by
  rcases hq with hq | hq
  · obtain ⟨m, hm, _⟩ := h.home q hq
    exact ⟨m, hm.live, hm.pid, hm.main⟩
  · exact h.main q hq

theorem Orderly.main_frame (h : Orderly odd l)
    (hold : ∀ q, l.Live q → l'.Live q ∧ l'.pid q = l.pid q ∧ l'.isthread q = l.isthread q)
    (hz : ∀ q, l'.life q = .zombie → l.Live q) (q : Fin N) (hq : l'.life q = .zombie) :
    ∃ m, l'.Live m ∧ l'.pid m = l'.pid q ∧ l'.isthread m = false := by
  obtain ⟨m, h1, h2, h3⟩ := h.main_of_live (hz q hq)
  obtain ⟨h4, h5, h6⟩ := hold m h1
  exact ⟨m, h4, by rw [h5, h2, (hold q (hz q hq)).2.1], h6.trans h3⟩

end Frames

section Turns

variable {odd : Bool → Prop} {l : Census N}

attribute [local grind] Census.Live
attribute [local grind =] update_apply
attribute [local grind →] Made.embryo

theorem Orderly.embryo_of_target (h : Orderly odd l) {r np : Fin N} (hr : l.life r = .active)
    (ht : (l.act r).target = some np) : l.life np = .embryo := by
  cases ha : l.act r with
  | making st q =>
    rw [ha] at ht
    cases ht
    exact (h.made r st np hr ha).embryo
  | idle => simp [ha, Act.target] at ht
  | leaving => simp [ha, Act.target] at ht

/-- a free slot shares its pid with no process -/
theorem Orderly.free_pid_ne (h : Orderly odd l) {p q : Fin N} (hq : l.life q = .free) (hp : l.life p ≠ .free) :
    l.pid q ≠ l.pid p := by
  intro he
  have hpos := h.pid_pos p hp
  rcases (h.free q hq).2 with h0 | ha
  · omega
  · exact hp (ha p he.symm ▸ hq)

/-- a slot made with a new pid is the only one with that pid -/
theorem Orderly.alone_alloc (h : Orderly odd l) (r np : Fin N) (a : Act N) : ((l.alloc np).setAct r a).Alone np := by
  intro q hq
  by_contra hne
  have := h.pid_lt q
  simp [update_of_ne hne] at hq
  omega

theorem Orderly.alloc (h : Orderly odd l) {r np : Fin N} {f : Maker} (hi : l.act r = .idle)
    (hnp : l.life np = .free) : Orderly odd ((l.alloc np).setAct r (.making (.kstack f) np)) := by
  have hnew := h.alone_alloc r np (.making (.kstack f) np)
  have hold : ∀ q, q ≠ np → l.Alone q → ((l.alloc np).setAct r (.making (.kstack f) np)).Alone q := by
    intro q hq ha q' hq'
    have := h.pid_lt q
    have := ha q'
    grind
  refine ⟨Nat.succ_pos _, ?_, ?_, ?_, ?_, ?_, ?_, ?_, ?_⟩
  · have := h.pid_lt
    grind
  · have := h.pid_pos
    have := h.nextpid
    grind
  · have := h.free
    grind
  · intro q hq
    by_cases hqn : q = np
    · exact Or.inl (hqn ▸ hnew)
    · rcases h.embryo q (by grind) with ha | ⟨r', st, h1, h2, h3⟩
      · exact Or.inl (hold q hqn ha)
      · exact Or.inr ⟨r', st, by grind, by grind, h3⟩
  · intro r' st np' hr' hm'
    by_cases hrr : r' = r
    · have hst : Making.kstack f = st ∧ np = np' := by grind
      obtain ⟨rfl, rfl⟩ := hst
      refine ⟨by grind, fun _ => hnew, ?_, fun _ => (h.free np hnp).1, ?_, ?_, ?_⟩ <;> intro hc <;> cases hc
    · have hm := h.made r' st np' (by grind) (by grind)
      have hne : np' ≠ np := by grind
      exact hm.frame (by grind) (by grind) (by grind) rfl rfl rfl rfl (hold np' hne)
  · have := h.maker
    have := fun r np => @Orderly.embryo_of_target _ _ _ h r np
    grind
  · intro p hp
    refine h.home_frame ?_ ?_ (fun X => Census.weight_congr fun q => ?_) ?_ (by grind)
    · grind
    · grind
    · unfold Census.share
      grind [Act.extra, Making.counted]
    · grind
  · exact h.main_frame (by grind) (by grind)

theorem Orderly.abort (h : Orderly odd l) {r np : Fin N} {st : Making} (hr : l.life r = .active)
    (hm : l.act r = .making st np) (hj : st.joined = false) (hp : st.parented = false) :
    Orderly odd ((l.setLife np .free).setAct r .idle) := by
  have hmade := h.made r st np hr hm
  have hst : st.counted = false := by cases st <;> first | rfl | cases hp
  refine ⟨h.nextpid, h.pid_lt, ?_, ?_, ?_, ?_, ?_, ?_, ?_⟩
  · have := h.pid_pos
    grind
  · intro q hq
    by_cases hqn : q = np
    · subst hqn
      exact ⟨hmade.orphan hp, Or.inr (hmade.fresh hj)⟩
    · exact h.free q (by grind)
  · intro q hq
    rcases h.embryo q (by grind) with ha | ⟨r', st', h1, h2, h3⟩
    · exact Or.inl ha
    · exact Or.inr ⟨r', st', by grind, by grind, h3⟩
  · intro r' st' np' hr' hm'
    have hm2 := h.made r' st' np' (by grind) (by grind)
    have hne : np' ≠ np := by
      have := h.maker r r' np
      grind
    exact hm2.frame (by grind) rfl rfl rfl rfl rfl rfl id
  · refine h.maker_frame fun r' np' hr' ht' => ?_
    have ht : (l.act r).target = some np := by rw [hm]; rfl
    grind
  · intro p hp
    refine h.home_frame ?_ ?_ (fun X => Census.weight_congr fun q => ?_) ?_ (by grind)
    · grind
    · grind
    · unfold Census.share
      grind [Act.extra]
    · grind
  · exact h.main_frame (by grind) (by grind)

namespace Census

theorem store_life (l : Census N) (r np : Fin N) (st : Making) : (l.store r np st).life = l.life := by
  cases st <;> rfl

theorem store_act (l : Census N) (r np : Fin N) (st : Making) : (l.store r np st).act = l.act := by
  cases st <;> rfl

theorem store_nextpid (l : Census N) (r np : Fin N) (st : Making) : (l.store r np st).nextpid = l.nextpid := by
  cases st <;> rfl

/-- a store into `np` leaves every other slot alone -/
theorem store_of_ne (l : Census N) (r : Fin N) (st : Making) {np q : Fin N} (h : q ≠ np) :
    (l.store r np st).pid q = l.pid q ∧ (l.store r np st).parent q = l.parent q ∧
      (l.store r np st).isthread q = l.isthread q ∧ (l.store r np st).threadnum q = l.threadnum q := by
  cases st <;> simp [store, h]

theorem store_pid (l : Census N) (r np : Fin N) (st : Making) :
    (l.store r np st).pid np = l.pid np ∨ (l.store r np st).pid np = l.pid r := by
  cases st <;> simp [store]

end Census

theorem Made.store {r np : Fin N} {st : Making} (h : Made l r st np) (hne : r ≠ np) (hst : st.Private) (a : Act N) :
    Made ((l.store r np st).setAct r a) r st.next np := by
  have hemb := h.embryo
  cases st with
  | threadnum f =>
    exact ⟨hemb, h.fresh, h.pid, h.orphan, h.parent, fun _ => by simp [Census.store], h.isthread⟩
  | waitingFor f => cases f <;> exact ⟨hemb, h.fresh, h.pid, h.orphan, h.parent, h.threadnum, h.isthread⟩
  | forkIsthread =>
    refine ⟨hemb, h.fresh, h.pid, h.orphan, fun hp => ?_, h.threadnum, fun _ => ?_⟩
    · simpa [Census.store, Census.mainOf, hne] using h.parent hp
    · simp [Census.store, Making.next, Making.joined]
  | tcPid =>
    refine ⟨hemb, nofun, fun _ => ?_, h.orphan, nofun, h.threadnum, nofun⟩
    simp [Census.store, hne]
  | forkParent | tcParent =>
    refine ⟨hemb, h.fresh, h.pid, nofun, fun _ => ?_, h.threadnum, h.isthread⟩
    simp [Census.store, Census.mainOf, hne]
  | tcIsthread =>
    refine ⟨hemb, h.fresh, h.pid, h.orphan, fun hp => ?_, h.threadnum, fun _ => ?_⟩
    · simpa [Census.store, Census.mainOf, hne] using h.parent hp
    · simp [Census.store, Making.next, Making.joined]
  | tcCount => exact absurd rfl hst.1
  | forkRun => exact absurd rfl hst.2.1
  | tcRun => exact absurd rfl hst.2.2
  | _ => exact ⟨hemb, h.fresh, h.pid, h.orphan, h.parent, h.threadnum, h.isthread⟩

/-- a store keeps the slots of a pid apart from every other slot: the new slot joins its maker, who is not alone -/
theorem Census.Alone.store {r np q : Fin N} {st : Making} (ha : l.Alone q) (hqr : q ≠ r) (hqn : q ≠ np) (a : Act N) :
    ((l.store r np st).setAct r a).Alone q := by
  intro q' hq'
  have hq : (l.store r np st).pid q = l.pid q := (l.store_of_ne r st hqn).1
  simp only [Census.setAct_pid, hq] at hq'
  by_cases hn : q' = np
  · subst hn
    rcases l.store_pid r q' st with h | h
    · exact ha q' (h ▸ hq')
    · exact absurd (ha r (h ▸ hq')).symm hqr
  · exact ha q' ((l.store_of_ne r st hn).1 ▸ hq')

theorem Making.Private.counted {st : Making} (h : st.Private) : st.next.counted = st.counted := by
  cases st with
  | waitingFor f => cases f <;> rfl
  | tcCount => exact absurd rfl h.1
  | _ => rfl

theorem Orderly.store (h : Orderly odd l) {r np : Fin N} {st : Making} (hr : l.life r = .active)
    (hm : l.act r = .making st np) (hst : st.Private) :
    Orderly odd ((l.store r np st).setAct r (.making st.next np)) := by
  have hmade := h.made r st np hr hm
  have hne : r ≠ np := by grind
  have hlife := l.store_life r np st
  have hact := l.store_act r np st
  have hoff := fun q => @Census.store_of_ne _ l r st np q
  have hpid := l.store_pid r np st
  have hcnt := hst.counted
  have hnext := hmade.store hne hst (.making st.next np)
  refine ⟨?_, ?_, ?_, ?_, ?_, ?_, ?_, ?_, ?_⟩
  · simpa [Census.store_nextpid] using h.nextpid
  · have := h.pid_lt
    have := l.store_nextpid r np st
    grind
  · have := h.pid_pos
    grind
  · intro q hq
    have hqn : q ≠ np := by grind
    obtain ⟨h1, h2⟩ := h.free q (by grind)
    refine ⟨by grind, h2.imp (by grind) fun ha => ha.store (by grind) hqn _⟩
  · intro q hq
    by_cases hqn : q = np
    · subst hqn
      by_cases hj : st.next.joined = true
      · exact Or.inr ⟨r, st.next, by grind, by grind, hj⟩
      · exact Or.inl (hnext.fresh (by simpa using hj))
    · rcases h.embryo q (by grind) with ha | ⟨r', st', h1, h2, h3⟩
      · exact Or.inl (ha.store (by grind) hqn _)
      · exact Or.inr ⟨r', st', by grind, by grind, h3⟩
  · intro r' st' np' hr' hm'
    by_cases hrr : r' = r
    · have hst' : st.next = st' ∧ np = np' := by grind
      obtain ⟨rfl, rfl⟩ := hst'
      exact hrr ▸ hnext
    · have hm2 := h.made r' st' np' (by grind) (by grind)
      have hne' : np' ≠ np := by
        have := h.maker r r' np
        grind
      have hrn : r' ≠ np := by grind
      refine hm2.frame (by grind) (by grind) (by grind) (by grind) ?_ (by grind) (by grind)
        (fun ha => ha.store (by grind) hne' _)
      simp [Census.mainOf, hoff r' hrn]
  · refine h.maker_frame fun r' np' hr' ht' => ?_
    have ht : (l.act r).target = some np := by rw [hm]; rfl
    grind
  · intro p hp
    refine h.home_frame ?_ ?_ (fun X => Census.weight_congr fun q => ?_) ?_ (by grind)
    · grind
    · grind
    · unfold Census.share
      grind [Act.extra]
    · grind
  · exact h.main_frame (by grind) (by grind)

/-! Turns that change the count of one process. -/

theorem Made.ne_live {r np m : Fin N} {st : Making} (h : Made l r st np) (hm : l.Live m) : np ≠ m := by
  rintro rfl
  rcases hm with hm | hm <;> simp [h.embryo] at hm

theorem Census.addThreadnum_of_ne {q m : Fin N} (h : q ≠ m) (d : ℤ) :
    (l.addThreadnum m d).threadnum q = l.threadnum q := update_of_ne h _ _

theorem Home.mainOf {p m : Fin N} (h : Home l p m) : l.mainOf p = some m := by
  by_cases ht : l.isthread p = true
  · simp [Census.mainOf, ht, h.thread ht]
  · obtain rfl := h.self (by simpa using ht)
    simp [Census.mainOf, ht]

/-- two slots of one process have the same main slot -/
theorem Home.eq {p p' m m' : Fin N} (h : Home l p m) (h' : Home l p' m') (hp : l.pid p' = l.pid p) : m' = m :=
  h.unique m' h'.live (h'.pid.trans hp) h'.main

/-- a process that is not leaving has the right count -/
theorem Balanced.of_not_leaving {p m : Fin N} (h : Balanced odd l p m) (ha : l.act p ≠ .leaving) :
    l.threadnum m = l.weight (l.pid p) := by
  rcases h with h | ⟨_, _, h, _⟩
  · exact h
  · exact absurd h ha

theorem Census.weight_setAct {r : Fin N} (hr : l.life r = .active) (a : Act N) :
    (l.setAct r a).weight (l.pid r) = l.weight (l.pid r) + a.extra - (l.act r).extra := by
  have hc := Census.weight_change l (l.setAct r a) (l.pid r) r (by
    intro q hq
    simp [Census.share, update_of_ne hq])
  have h1 : (l.setAct r a).share (l.pid r) r = 1 + a.extra := by simp [Census.share, hr]
  rw [h1, Census.share_active hr] at hc
  omega

theorem Census.weight_setAct_of_ne {r : Fin N} {X : ℕ} (h : l.pid r ≠ X) (a : Act N) :
    (l.setAct r a).weight X = l.weight X :=
  Census.weight_congr fun q => by
    unfold Census.share
    grind

theorem Orderly.count (h : Orderly odd l) {r np m : Fin N} (hr : l.life r = .active)
    (hm : l.act r = .making .tcCount np) (hp : l.parent np = some m) :
    Orderly odd ((l.addThreadnum m 1).setAct r (.making .tcIsthread np)) := by
  have hmade := h.made r _ np hr hm
  obtain ⟨m', hh, hb⟩ := h.home r hr
  have hmm : m' = m := by
    have := hmade.parent rfl
    rw [hp, hh.mainOf] at this
    exact (Option.some.inj this).symm
  subst hmm
  have hcount := hb.of_not_leaving (by rw [hm]; nofun)
  have hml := hh.live
  refine ⟨h.nextpid, h.pid_lt, h.pid_pos, h.free, ?_, ?_, ?_, ?_, ?_⟩
  · intro q hq
    rcases h.embryo q hq with ha | ⟨r', st', h1, h2, h3⟩
    · exact Or.inl ha
    · by_cases hrr : r' = r
      · exact Or.inr ⟨r, .tcIsthread, hr, by grind, rfl⟩
      · exact Or.inr ⟨r', st', h1, by grind, h3⟩
  · intro r' st np' hr' hm'
    by_cases hrr : r' = r
    · have hst' : Making.tcIsthread = st ∧ np = np' := by grind
      obtain ⟨rfl, rfl⟩ := hst'
      subst hrr
      refine ⟨hmade.embryo, nofun, hmade.pid, nofun, hmade.parent, fun _ => ?_, nofun⟩
      exact (Census.addThreadnum_of_ne (hmade.ne_live hh.live) _).trans (hmade.threadnum rfl)
    · have hm2 := h.made r' st np' hr' (by grind)
      exact hm2.frame rfl rfl rfl rfl rfl (Census.addThreadnum_of_ne (hm2.ne_live hh.live) _) rfl id
  · refine h.maker_frame fun r' np' hr' ht' => ?_
    have ht : (l.act r).target = some np := by rw [hm]; rfl
    grind
  · intro p hp
    obtain ⟨m, hh', hb'⟩ := h.home p hp
    refine ⟨m, hh'.frame (Or.inl hp) (fun q hq _ => ⟨hq, rfl, rfl, fun _ => rfl⟩)
      (fun q hq hqp hqt => ⟨hq, hqp, hqt⟩), ?_⟩
    by_cases hpr : l.pid p = l.pid r
    · obtain rfl := hh.eq hh' hpr
      have hw : ((l.addThreadnum m 1).setAct r (.making .tcIsthread np)).weight (l.pid r) = l.weight (l.pid r) + 1 - 0 := by
        have := Census.weight_setAct (l := l.addThreadnum m 1) hr (.making .tcIsthread np)
        rwa [show (l.addThreadnum m 1).act r = _ from hm] at this
      left
      simp [hpr, hw, hcount]
    · refine hb'.frame ?_ rfl rfl (Census.weight_setAct_of_ne (Ne.symm hpr) _) (by grind)
      have hne : m ≠ m' := fun he => hpr (by rw [← hh'.pid, he, hh.pid])
      exact Census.addThreadnum_of_ne hne _
  · exact h.main_frame (by grind) (by grind)

theorem Orderly.quit (h : Orderly odd l) {p : Fin N} (hi : l.act p = .idle) : Orderly odd (l.setAct p .leaving) := by
  refine ⟨h.nextpid, h.pid_lt, h.pid_pos, h.free, ?_, ?_, ?_, ?_, ?_⟩
  · intro q hq
    refine (h.embryo q hq).imp_right ?_
    rintro ⟨r, st, h1, h2, h3⟩
    exact ⟨r, st, h1, by grind, h3⟩
  · intro r st np hr hm
    exact (h.made r st np hr (by grind)).frame rfl rfl rfl rfl rfl rfl rfl id
  · exact h.maker_frame (by grind)
  · intro q hq
    refine h.home_frame (by grind) (by grind) (fun X => Census.weight_congr fun q => ?_) (by grind) hq
    unfold Census.share
    grind [Act.extra]
  · exact h.main_frame (by grind) (by grind)

/-- the main slot that a process reaches through `mainOf` is its home -/
theorem Orderly.home_of_mainOf (h : Orderly odd l) {p m : Fin N} (hp : l.life p = .active)
    (hm : l.mainOf p = some m) : Home l p m ∧ Balanced odd l p m := by
  obtain ⟨m', hh, hb⟩ := h.home p hp
  rw [hh.mainOf] at hm
  cases hm
  exact ⟨hh, hb⟩

theorem Orderly.last (h : Orderly odd l) {p m : Fin N} (hp : l.life p = .active) (hi : l.act p = .idle)
    (hm : l.mainOf p = some m) (h1 : l.threadnum m = 1) (ho : odd (l.isthread p)) :
    Orderly odd ((l.addThreadnum m (-1)).setAct p .leaving) := by
  obtain ⟨hh, hb⟩ := h.home_of_mainOf hp hm
  have hw : l.weight (l.pid p) = 1 := by
    rw [← hb.of_not_leaving (by rw [hi]; nofun), h1]
  have hw' : ∀ X, ((l.addThreadnum m (-1)).setAct p .leaving).weight X = l.weight X :=
    fun X => Census.weight_congr fun q => by
      unfold Census.share
      grind [Act.extra]
  have hml := hh.live
  refine ⟨h.nextpid, h.pid_lt, h.pid_pos, h.free, ?_, ?_, ?_, ?_, ?_⟩
  · intro q hq
    refine (h.embryo q hq).imp_right ?_
    rintro ⟨r, st, h1, h2, h3⟩
    exact ⟨r, st, h1, by grind, h3⟩
  · intro r st np hr hm
    have hmade := h.made r st np hr (by grind)
    exact hmade.frame rfl rfl rfl rfl rfl (Census.addThreadnum_of_ne (hmade.ne_live hh.live) _) rfl id
  · exact h.maker_frame (by grind)
  · intro q hq
    obtain ⟨mq, hhq, hbq⟩ := h.home q hq
    refine ⟨mq, hhq.frame (Or.inl hq) (fun q hq _ => ⟨hq, rfl, rfl, fun _ => rfl⟩)
      (fun q hq hqp hqt => ⟨hq, hqp, hqt⟩), ?_⟩
    by_cases hpq : l.pid q = l.pid p
    · obtain rfl := Census.eq_of_weight_one hp hq hpq hw
      obtain rfl := hh.eq hhq rfl
      right
      refine ⟨?_, (hw' _).trans hw, ?_, ho⟩ <;> simp [h1]
    · refine hbq.frame ?_ rfl rfl (hw' _) (by grind)
      have hne : mq ≠ m := fun he => hpq (by rw [← hhq.pid, he, hh.pid])
      exact Census.addThreadnum_of_ne hne _
  · exact h.main_frame (by grind) (by grind)

/-- a process weighs one less when an idle slot of it dies -/
theorem Census.weight_retire {p : Fin N} (hp : l.life p = .active) (hi : l.act p = .idle) (m : Fin N) :
    ((l.addThreadnum m (-1)).setLife p .zombie).weight (l.pid p) = l.weight (l.pid p) - 1 := by
  have hc := Census.weight_change l ((l.addThreadnum m (-1)).setLife p .zombie) (l.pid p) p (by
    intro q hq
    simp [Census.share, update_of_ne hq])
  have hs : ((l.addThreadnum m (-1)).setLife p .zombie).share (l.pid p) p = 0 := by simp [Census.share]
  rw [hs, Census.share_active hp, hi] at hc
  simp only [Act.extra] at hc
  omega

theorem Orderly.retire (h : Orderly odd l) {p m : Fin N} (hp : l.life p = .active) (hi : l.act p = .idle)
    (hm : l.mainOf p = some m) : Orderly odd ((l.addThreadnum m (-1)).setLife p .zombie) := by
  obtain ⟨hh, hb⟩ := h.home_of_mainOf hp hm
  have hcount := hb.of_not_leaving (by rw [hi]; nofun)
  have hw := Census.weight_retire hp hi m
  have hml := hh.live
  refine ⟨h.nextpid, h.pid_lt, ?_, ?_, ?_, ?_, ?_, ?_, ?_⟩
  · have := h.pid_pos
    grind
  · intro q hq
    exact h.free q (by grind)
  · intro q hq
    refine (h.embryo q (by grind)).imp_right ?_
    rintro ⟨r, st, h1, h2, h3⟩
    exact ⟨r, st, by grind, h2, h3⟩
  · intro r st np hr hm
    have hmade := h.made r st np (by grind) hm
    exact hmade.frame (by grind) rfl rfl rfl rfl (Census.addThreadnum_of_ne (hmade.ne_live hh.live) _) rfl id
  · exact h.maker_frame (by grind)
  · intro q hq
    obtain ⟨mq, hhq, hbq⟩ := h.home q (by grind)
    refine ⟨mq, hhq.frame (Or.inl (by grind)) (by grind) (by grind), ?_⟩
    by_cases hpq : l.pid q = l.pid p
    · obtain rfl := hh.eq hhq hpq
      left
      simp [hpq, hw, hcount]
      omega
    · have hne : mq ≠ m := fun he => hpq (by rw [← hhq.pid, he, hh.pid])
      refine hbq.frame (Census.addThreadnum_of_ne hne _) rfl rfl (Census.weight_congr fun q' => ?_) id
      unfold Census.share
      grind
  · exact h.main_frame (by grind) (by grind)

/-- `fork` publishes its child: a process of one slot -/
theorem Orderly.home_fork (h : Orderly odd l) {r np : Fin N} (hr : l.life r = .active)
    (hm : l.act r = .making .forkRun np) {p : Fin N} (hp : p = np ∨ l.life p = .active) :
    ∃ m, Home (((l.setLife np .active).setAct np .idle).setAct r .idle) p m ∧
      Balanced odd (((l.setLife np .active).setAct np .idle).setAct r .idle) p m := by
  have hmade := h.made r _ np hr hm
  have halone := hmade.fresh rfl
  have hist : l.isthread np = false := hmade.isthread rfl
  have hw : ∀ X, (((l.setLife np .active).setAct np .idle).setAct r .idle).weight X =
      l.weight X + if l.pid np = X then 1 else 0 := by
    intro X
    have hc := Census.weight_change l (((l.setLife np .active).setAct np .idle).setAct r .idle) X np (by
        intro q hq
        unfold Census.share
        grind [Act.extra, Making.counted])
    have h0 : l.share X np = 0 := by simp [Census.share, hmade.embryo]
    have h1 : (((l.setLife np .active).setAct np .idle).setAct r .idle).share X np = if l.pid np = X then 1 else 0 := by
      unfold Census.share
      grind [Act.extra]
    rw [h0, h1] at hc
    omega
  rcases hp with rfl | hp
  · have h0 : l.weight (l.pid p) = 0 := tally_eq_zero fun q => by
      have := halone q
      unfold Census.share
      grind
    refine ⟨p, ⟨rfl, hist, by grind, ?_, fun _ => rfl, fun q _ hq _ => halone q hq⟩, Or.inl ?_⟩
    · intro ht
      simp [hist] at ht
    · have := hmade.threadnum rfl
      have := hw (l.pid p)
      grind
  · have hne : l.pid np ≠ l.pid p := fun he => by
      have := halone p he.symm
      grind
    obtain ⟨m, hh, hb⟩ := h.home p hp
    refine ⟨m, hh.frame (Or.inl hp) (by grind) (by grind), hb.frame rfl rfl rfl (by simp [hw, hne]) (by grind)⟩

/-- `thread_create` publishes the new thread: its maker counted it already -/
theorem Orderly.home_thread (h : Orderly odd l) {r np : Fin N} (hr : l.life r = .active)
    (hm : l.act r = .making .tcRun np) {p : Fin N} (hp : p = np ∨ l.life p = .active) :
    ∃ m, Home (((l.setLife np .active).setAct np .idle).setAct r .idle) p m ∧
      Balanced odd (((l.setLife np .active).setAct np .idle).setAct r .idle) p m := by
  have hmade := h.made r _ np hr hm
  have hist : l.isthread np = true := hmade.isthread rfl
  have hpid : l.pid np = l.pid r := hmade.pid rfl
  have hpar : l.parent np = l.mainOf r := hmade.parent rfl
  have hne : r ≠ np := by grind
  have hw : ∀ X, (((l.setLife np .active).setAct np .idle).setAct r .idle).weight X = l.weight X := by
    intro X
    have hc1 := Census.weight_change l ((l.setLife np .active).setAct np .idle) X np (by
      intro q hq
      unfold Census.share
      grind)
    have hc2 := Census.weight_change ((l.setLife np .active).setAct np .idle)
      (((l.setLife np .active).setAct np .idle).setAct r .idle) X r (by
        intro q hq
        unfold Census.share
        grind)
    unfold Census.share at hc1 hc2
    grind [Act.extra, Making.counted]
  obtain ⟨m, hh, hb⟩ := h.home r hr
  rw [hh.mainOf] at hpar
  have hmn : m ≠ np := by
    have := hh.main
    grind
  rcases hp with rfl | hp
  · refine ⟨m, ⟨hh.pid.trans hpid.symm, hh.main, ?_, fun _ => hpar, ?_, ?_⟩, Or.inl ?_⟩
    · have := hh.live
      grind
    · intro hf
      simp [hist] at hf
    · intro q hq hqp hqt
      refine hh.unique q ?_ (hqp.trans hpid) hqt
      grind
    · have := hb.of_not_leaving (by rw [hm]; nofun)
      have := hw (l.pid p)
      grind
  · obtain ⟨m, hh, hb⟩ := h.home p hp
    exact ⟨m, hh.frame (Or.inl hp) (by grind) (by grind), hb.frame rfl rfl rfl (hw _) (by grind)⟩

theorem Orderly.publish (h : Orderly odd l) {r np : Fin N} {st : Making} (hr : l.life r = .active)
    (hm : l.act r = .making st np) (hst : st = .forkRun ∨ st = .tcRun) :
    Orderly odd (((l.setLife np .active).setAct np .idle).setAct r .idle) := by
  have hmade := h.made r _ np hr hm
  refine ⟨h.nextpid, h.pid_lt, ?_, ?_, ?_, ?_, ?_, ?_, ?_⟩
  · have := h.pid_pos
    grind
  · intro q hq
    exact h.free q (by grind)
  · intro q hq
    refine (h.embryo q (by grind)).imp_right ?_
    rintro ⟨r', st', h1, h2, h3⟩
    exact ⟨r', st', by grind, by grind, h3⟩
  · intro r' st' np' hr' hm'
    have hm2 := h.made r' st' np' (by grind) (by grind)
    have hne : np' ≠ np := by
      have ht : (l.act r').target = some np' := by
        rw [show l.act r' = .making st' np' by grind]
        rfl
      have := h.maker r r' np
      grind
    exact hm2.frame (by grind) rfl rfl rfl rfl rfl rfl id
  · exact h.maker_frame (by grind)
  · intro p hp
    have hp' : p = np ∨ l.life p = .active := by grind
    rcases hst with rfl | rfl
    · exact h.home_fork hr hm hp'
    · exact h.home_thread hr hm hp'
  · exact h.main_frame (by grind) (by grind)

/-- **Death of a whole process.** After `exit` every slot of the pid is a zombie, and no other process notices: its
slots, its counts and the slots it is making are untouched. -/
theorem Orderly.exit (h : Orderly odd l) {l' : Census N} {p : Fin N} (hp : l.life p = .active) (he : Exits l l' p) :
    Orderly odd l' := by
  have hlife := he.life
  have hpid := he.pid
  have hthr := he.isthread
  have hact := he.act
  have hpar := he.parent
  have halone : ∀ q, l.Alone q → l'.Alone q := by
    intro q ha q' hq'
    rw [hpid] at hq'
    exact ha q' hq'
  obtain ⟨m, hh, _⟩ := h.home p hp
  refine ⟨?_, ?_, ?_, ?_, ?_, ?_, ?_, ?_, ?_⟩
  · rw [he.nextpid]
    exact h.nextpid
  · rw [he.nextpid, hpid]
    exact h.pid_lt
  · have := h.pid_pos
    grind
  · intro q hq
    obtain ⟨h1, h2⟩ := h.free q (by grind)
    refine ⟨by grind, ?_⟩
    rw [hpid]
    exact h2.imp_right (halone q)
  · intro q hq
    rcases h.embryo q (by grind) with ha | ⟨r, st, h1, h2, h3⟩
    · exact Or.inl (halone q ha)
    · -- the maker of a slot that survives has the slot's pid, so it survives too
      have := (h.made r st q h1 h2).pid h3
      exact Or.inr ⟨r, st, by grind, by grind, h3⟩
  · intro r st np hr hm
    have hr0 : l.life r = .active := by grind
    have hmade := h.made r st np hr0 (by grind)
    have hnp : l.pid np ≠ l.pid p := by
      intro hc
      by_cases hj : st.joined = true
      · have := hmade.pid hj
        grind
      · have := hmade.fresh (by simpa using hj) p hc.symm
        grind
    obtain ⟨mr, hhr, _⟩ := h.home r hr0
    have hnpar : l.parent np = some p → st.parented = true → False := by
      intro h1 h2
      have h3 := hmade.parent h2
      rw [h1, hhr.mainOf] at h3
      have := hhr.pid
      grind
    have hrpar : l'.mainOf r = l.mainOf r := by
      unfold Census.mainOf
      grind
    refine ⟨by grind, fun hj => halone np (hmade.fresh hj), fun hj => ?_, fun ho => ?_, fun hq => ?_, fun hn => ?_,
      fun hk => ?_⟩
    · rw [hpid, hmade.pid hj]
    · have := hmade.orphan ho
      grind
    · rw [hrpar, ← hmade.parent hq]
      exact (hpar np).resolve_right fun hc => hnpar hc.1 hq
    · rw [he.threadnum np hnp, hmade.threadnum hn]
    · rw [hthr, hmade.isthread hk]
  · exact h.maker_frame (by grind)
  · intro q hq
    have hqp : l.pid q ≠ l.pid p := by grind
    obtain ⟨mq, hhq, hbq⟩ := h.home q (by grind)
    refine ⟨mq, hhq.frame (Or.inl (by grind)) (by grind) (by grind), hbq.frame ?_ (by rw [hpid]) (by rw [hthr]) ?_
      (by rw [hact]; exact id)⟩
    · exact he.threadnum mq (by rw [hhq.pid]; exact hqp)
    · refine Census.weight_congr fun q' => ?_
      unfold Census.share
      grind
  · intro q hq
    by_cases hqp : l.pid q = l.pid p
    · exact ⟨m, by have := hh.live; grind, by have := hh.pid; grind, by rw [hthr, hh.main]⟩
    · obtain ⟨m', h1, h2, h3⟩ := h.main q (by grind)
      exact ⟨m', by grind, by grind, by rw [hthr, h3]⟩

/-- **What `wait` can find.** A slot still active when `wait` reaps its pid is on its way through `exit`, it has given
up the last count, and it is of a kind that may do so. -/
theorem Orderly.reap_leaving (h : Orderly odd l) {m p : Fin N} (hm : l.life m = .zombie) (ht : l.isthread m = false)
    (hn : l.threadnum m = 0) (hp : l.life p = .active) (hpm : l.pid p = l.pid m) :
    l.act p = .leaving ∧ odd (l.isthread p) ∧ ∀ q, l.life q = .active → l.pid q = l.pid m → q = p := by
  obtain ⟨m', hh, hb⟩ := h.home p hp
  obtain rfl : m = m' := hh.unique m (Or.inr hm) hpm.symm ht
  have hw := Census.one_le_weight hp
  rcases hb with hb | ⟨_, h1, h2, h3⟩
  · omega
  · exact ⟨h2, h3, fun q hq hqm => Census.eq_of_weight_one hp hq (hqm.trans hpm.symm) h1⟩

/-- no slot of a reaped pid is being made -/
theorem Orderly.reap_no_embryo (h : Orderly odd l) {m q : Fin N} (hm : l.life m = .zombie) (ht : l.isthread m = false)
    (hn : l.threadnum m = 0) (hq : l.life q = .embryo) : l.pid q ≠ l.pid m := by
  intro hqm
  rcases h.embryo q hq with ha | ⟨r, st, h1, h2, h3⟩
  · have := ha m hqm.symm
    grind
  · have := (h.made r st q h1 h2).pid h3
    have := (h.reap_leaving hm ht hn h1 (by grind)).1
    grind

theorem Orderly.reap (h : Orderly odd l) {m : Fin N} (hm : l.life m = .zombie) (ht : l.isthread m = false)
    (hn : l.threadnum m = 0) : Orderly odd (l.reap (l.pid m)) := by
  have halone : ∀ q, l.Alone q → 0 < l.pid q → l.pid q ≠ l.pid m → (l.reap (l.pid m)).Alone q := by
    intro q ha h0 hqm q' hq'
    have := ha q'
    grind
  have hpos := h.pid_pos
  have hemb := fun q => h.reap_no_embryo hm ht hn (q := q)
  refine ⟨h.nextpid, ?_, ?_, ?_, ?_, ?_, ?_, ?_, ?_⟩
  · have := h.pid_lt
    have := h.nextpid
    grind
  · grind
  · intro q hq
    by_cases hqm : l.pid q = l.pid m
    · exact ⟨by grind, Or.inl (by grind)⟩
    · obtain ⟨h1, h2⟩ := h.free q (by grind)
      refine ⟨by grind, ?_⟩
      rcases h2 with h2 | h2
      · exact Or.inl (by grind)
      · by_cases h0 : l.pid q = 0
        · exact Or.inl (by grind)
        · exact Or.inr (halone q h2 (by omega) hqm)
  · intro q hq
    have hq0 : l.life q = .embryo := by grind
    rcases h.embryo q hq0 with ha | ⟨r, st, h1, h2, h3⟩
    · exact Or.inl (halone q ha (by grind) (hemb q hq0))
    · have := (h.made r st q h1 h2).pid h3
      have := hemb q hq0
      exact Or.inr ⟨r, st, by grind, by grind, h3⟩
  · intro r st np hr hm'
    have hmade := h.made r st np (by grind) (by grind)
    have hne := hemb np hmade.embryo
    refine hmade.frame (by grind) (by grind) (by grind) (by grind) ?_ rfl rfl fun ha => halone np ha (by grind) hne
    unfold Census.mainOf
    grind
  · exact h.maker_frame (by grind)
  · intro p hp
    have hpm : l.pid p ≠ l.pid m := by grind
    obtain ⟨mp, hh, hb⟩ := h.home p (by grind)
    refine ⟨mp, hh.frame (Or.inl (by grind)) (by grind) (by grind), hb.frame rfl (by grind) rfl ?_ id⟩
    refine Census.weight_congr fun q => ?_
    unfold Census.share
    grind
  · intro q hq
    obtain ⟨m', h1, h2, h3⟩ := h.main q (by grind)
    exact ⟨m', by grind, by grind, h3⟩

end Turns

/-- **The census stays orderly.** Every turn keeps the invariant. -/
theorem Turn.orderly {odd : Bool → Prop} {dying : Fin N → Prop} {l l' : Census N} (ht : Turn odd dying l l') (h : Orderly odd l) :
    Orderly odd l' := by
  cases ht with
  | alloc r np f hr hi hnp => exact h.alloc hi hnp
  | abort r np st hr hm hj hp => exact h.abort hr hm hj hp
  | store r np st hr hm hst => exact h.store hr hm hst
  | count r np m hr hm hp => exact h.count hr hm hp
  | publish r np st hr hm hst => exact h.publish hr hm hst
  | quit p hp hi => exact h.quit hi
  | last p m hp hi hm h1 ho => exact h.last hp hi hm h1 ho
  | retire p m hp hi hm => exact h.retire hp hi hm
  | exit l' p hp hd he => exact h.exit hp he
  | reap q m hq hi hm ht hn => exact h.reap hm ht hn

end Xv6Threads.Kernel
