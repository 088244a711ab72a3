/-
Who still uses a page directory when it is freed.

`thread_create` copies the pointer to its process's page directory, and nothing counts the copies. `exec` replaces the
pointer of its caller and frees the old page directory; `wait` frees the one it finds in the first slot of the pid. Both
assume a process with one slot. `exec_frees_sibling` is the run of a thread that calls `exec` while the main thread goes
on. `exit` adds a second way: a thread that is half made has its pid but not yet its page directory, and if `exit` makes
it a ZOMBIE then, `wait` may free whatever the slot held before.

A page directory is named by a handle, a new one for each `setupkvm`, so one that gets the page of a freed one is another
page directory. That no handle is freed twice is part of the result, since a second `freevm` would end whatever lives at
the address by then.
- `Space`: the kernel with `exec`, which runs between the kernel's own sections and can sleep or lose the CPU there.
- `Sound`: every page directory in use is owned by one process or by one call of `exec`.
- `live_pgdir`: so no page directory of a live slot is freed, if `exec` commits only in processes with one slot and no
  `exit` meets a half-made thread without a page directory.
-/
import Xv6Threads.Core.Ownership
import Xv6Threads.Kernel.Frames

namespace Xv6Threads.Kernel

open Xv6Threads.Core Function

variable {N K : ℕ}

/-! ## The kernel with exec -/

/-- where a process stands in `exec`: before `setupkvm`, loading the image into the new page directory, or past the
commit with the old one to free -/
inductive ExecPc where
  | out
  | reading
  | loading (pgdir : ℕ)
  | freeing (oldpgdir : ℕ)
  deriving DecidableEq

structure Space (N K : ℕ) where
  st : St N K
  exec : Fin N → ExecPc

/-- a step of the kernel; the process on CPU `c` calls `exec`; it goes on, and what it does next succeeds if `ok` -/
inductive SpaceOp (N K : ℕ) where
  | kernel (o : Op N K)
  | execCall (c : Fin K)
  | execStep (c : Fin K) (ok : Bool)
  deriving DecidableEq

namespace Space

def goto (m : Space N K) (p : Fin N) (e : ExecPc) : Space N K := { m with exec := update m.exec p e }

def freevm (m : Space N K) (pgdir : ℕ) : Space N K := { m with st := { m.st with freed := m.st.freed ++ [pgdir] } }

/-- return from `exec` -/
def ret (m : Space N K) (p : Fin N) (v : ℤ) : Space N K :=
  { m with st := { m.st with eax := update m.st.eax p v } }.goto p .out

/-- `exec` of process `p` from where it stands -/
def execStep (m : Space N K) (p : Fin N) (ok : Bool) : Space N K :=
  match m.exec p with
  | .out => m
  | .reading =>
    if ok then { m with st := { m.st with nextPgdir := m.st.nextPgdir + 1 } }.goto p (.loading m.st.nextPgdir)
    else m.ret p (-1)
  | .loading pgdir =>
    if ok then
      { m with st := m.st.write p fun x => { x with pgdir := pgdir } }.goto p (.freeing (m.st.ptable p).pgdir)
    else (m.freevm pgdir).ret p (-1)
  | .freeing oldpgdir => (m.freevm oldpgdir).ret p 0

/-- a process in `exec` is in the kernel: it makes no other call and takes no trap from user mode. A killed process never
enters `exec`; that is the kernel's own step. -/
def step (m : Space N K) : SpaceOp N K → Space N K
  | .kernel o =>
    if ∃ p ∈ acting m.st o, m.exec p ≠ .out then m
    else { st := Kernel.step m.st o, exec := started m.st o m.exec .out }
  | .execCall c =>
    match m.st.curproc c with
    | none => m
    | some p => if m.st.pc p = .user ∧ (m.st.ptable p).killed = false ∧ m.exec p = .out then m.goto p .reading else m
  | .execStep c ok =>
    match m.st.curproc c with
    | none => m
    | some p => m.execStep p ok

end Space

def spaceBoot (N K : ℕ) [NeZero N] : Space N K := { st := boot N K, exec := fun _ => .out }

/-! ## Who has a page directory -/

/-- the page directory of the new slot has been written -/
def Making.mapped : Making → Bool
  | .forkParent | .forkThreadId | .forkIsthread | .forkIsjoined | .forkRun => true
  | .tcParent | .tcCount | .tcIsthread | .tcIsjoined | .tcThreadId | .tcRun => true
  | _ => false

/-- the slot that a process is making and has already given a page directory -/
def Pc.mapping : Pc N → Option (Fin N)
  | .make st np => if st.mapped then some np else none
  | _ => none

theorem Pc.mapping_eq {pc : Pc N} {q : Fin N} : pc.mapping = some q ↔ ∃ st, pc = .make st q ∧ st.mapped = true := by
  cases pc with
  | make st np =>
    simp only [mapping]
    split
    · rename_i hst
      constructor
      · intro h
        cases h
        exact ⟨st, rfl, hst⟩
      · rintro ⟨st', h, _⟩
        cases h
        rfl
    · rename_i hst
      constructor
      · intro h
        cases h
      · rintro ⟨st', h, hst'⟩
        cases h
        exact absurd hst' hst
  | user | exitClose | waitSleep | joinSleep | downSleep id | panicked => simp [mapping]

/-- the slot is being made, and has its page directory -/
def Mapped (s : St N K) (q : Fin N) : Prop := ∃ r, (s.ptable r).state.life = .active ∧ (s.pc r).mapping = some q

instance decidableMapped (s : St N K) (q : Fin N) : Decidable (Mapped s q) := by
  unfold Mapped
  infer_instance

/-- the page directory of the slot is in use, or will be -/
def Attached (s : St N K) (q : Fin N) : Prop :=
  ((s.ptable q).state.life = .active ∨ (s.ptable q).state.life = .zombie) ∨ Mapped s q

/-- the page directory that a call of `exec` holds -/
def ExecPc.hand : ExecPc → Option ℕ
  | .loading pgdir => some pgdir
  | .freeing oldpgdir => some oldpgdir
  | .out | .reading => none

def ExecPc.isLoading : ExecPc → Bool
  | .loading _ => true
  | _ => false

/-- the process whose `exec` commits in this step -/
def committing (m : Space N K) : SpaceOp N K → Option (Fin N)
  | .execStep c true => (m.st.curproc c).filter fun p => (m.exec p).isLoading
  | _ => none

/-- `exec` commits only in a process with one slot; no `exit` finds a slot of its pid that is EMBRYO and has no page
directory yet; and no other CPU runs a slot of a process that dies or is reaped -/
def SpaceOk (m : Space N K) (o : SpaceOp N K) : Prop :=
  (∀ p ∈ committing m o, ∀ q, q ≠ p → (m.st.ptable q).pid ≠ (m.st.ptable p).pid) ∧
  match o with
  | .kernel o =>
    (∀ p ∈ exiting m.st o, ∀ q, (m.st.ptable q).pid = (m.st.ptable p).pid → (m.st.ptable q).state = .embryo →
      Mapped m.st q) ∧ CpusApart m.st o
  | _ => True

instance decidableSpaceOk (m : Space N K) (o : SpaceOp N K) : Decidable (SpaceOk m o) := by
  unfold SpaceOk
  cases o <;> infer_instance

/-- who may free a page directory: the process `pid`, or the call of `exec` made by `p` -/
inductive Owner (N : ℕ) where
  | process (pid : ℕ)
  | call (p : Fin N)
  deriving DecidableEq

/-- the invariant: every page directory in use has one owner -/
structure Sound (m : Space N K) (owner : ℕ → Option (Owner N)) : Prop where
  books : Owned owner m.st.nextPgdir m.st.freed
  slot : ∀ q, Attached m.st q → owner (m.st.ptable q).pgdir = some (.process (m.st.ptable q).pid)
  hand : ∀ p h, (m.st.ptable p).state.life = .active → (m.exec p).hand = some h → owner h = some (.call p)

/-! ## exec -/

section Exec

variable {odd : Bool → Prop} {m : Space N K} {owner : ℕ → Option (Owner N)} {p : Fin N}

/-- a step that only moves `p` inside `exec` -/
theorem Attached.congr {s s' : St N K} (htab : ∀ q, (s'.ptable q).state = (s.ptable q).state) (hpc : s'.pc = s.pc)
    {q : Fin N} (h : Attached s' q) : Attached s q := by
  unfold Attached Mapped at h ⊢
  simpa only [htab, hpc] using h

/-- what a call of `exec` by `p` does to the calls of the others -/
theorem hand_goto {e : ExecPc} {q : Fin N} {h : ℕ} (hh : ((m.goto p e).exec q).hand = some h) :
    (q = p ∧ e.hand = some h) ∨ (q ≠ p ∧ (m.exec q).hand = some h) := by
  simp only [Space.goto] at hh
  by_cases hq : q = p
  · subst hq
    rw [update_self] at hh
    exact .inl ⟨rfl, hh⟩
  · rw [update_of_ne hq] at hh
    exact .inr ⟨hq, hh⟩

/-- `exec` frees the page directory it holds and returns -/
theorem Sound.freevm (hs : Sound m owner) (hl : (m.st.ptable p).state.life = .active) {h : ℕ}
    (hh : (m.exec p).hand = some h) (v : ℤ) : Sound ((m.freevm h).ret p v) (update owner h none) := by
  have hown := hs.hand p h hl hh
  refine ⟨hs.books.free hown, ?_, ?_⟩
  · intro q hq
    have hslot := hs.slot q hq
    exact (update_of_ne (Owned.ne_of_owner hslot hown (by simp)) _ _).trans hslot
  · intro q h' hq hq'
    rcases hand_goto hq' with ⟨_, hout⟩ | ⟨hne, hq'⟩
    · cases hout
    · have hqo := hs.hand q h' hq hq'
      rw [update_of_ne (Owned.ne_of_owner hqo hown (by simpa using hne))]
      exact hqo

/-- `exec` gets its new page directory -/
theorem Sound.setupkvm (hs : Sound m owner) (p : Fin N) :
    Sound ({ m with st := { m.st with nextPgdir := m.st.nextPgdir + 1 } }.goto p (.loading m.st.nextPgdir))
      (update owner m.st.nextPgdir (some (.call p))) := by
  refine ⟨hs.books.alloc _, ?_, ?_⟩
  · intro q hq
    have hslot := hs.slot q hq
    exact (update_of_ne (hs.books.lt_next hslot).ne _ _).trans hslot
  · intro q h hq hq'
    rcases hand_goto hq' with ⟨rfl, hnew⟩ | ⟨_, hq'⟩
    · cases hnew
      exact update_self ..
    · have hqo := hs.hand q h hq hq'
      rw [update_of_ne (hs.books.lt_next hqo).ne]
      exact hqo

/-- `exec` commits: the new page directory is now the process's, and the old one the call's -/
theorem Sound.commit (hs : Sound m owner) (hl : (m.st.ptable p).state.life = .active) {h : ℕ}
    (hh : (m.exec p).hand = some h) (halone : ∀ q, q ≠ p → (m.st.ptable q).pid ≠ (m.st.ptable p).pid) :
    Sound ({ m with st := m.st.write p fun x => { x with pgdir := h } }.goto p (.freeing (m.st.ptable p).pgdir))
      (update (update owner h (some (.process (m.st.ptable p).pid))) (m.st.ptable p).pgdir
        (some (.call p))) := by
  have hown := hs.hand p h hl hh
  have hold := hs.slot p (.inl (.inl hl))
  have hne : (m.st.ptable p).pgdir ≠ h := Owned.ne_of_owner hold hown (by simp)
  have hgiven : update owner h (some (.process (m.st.ptable p).pid)) (m.st.ptable p).pgdir =
      some (.process (m.st.ptable p).pid) := by
    rw [update_of_ne hne]
    exact hold
  have hstate : ∀ q, ((m.st.write p fun x => { x with pgdir := h }).ptable q).state = (m.st.ptable q).state := by
    intro q
    by_cases hq : q = p
    · subst hq
      simp
    · simp [Table.write_of_ne _ hq]
  refine ⟨(hs.books.give hown _).give hgiven _, ?_, ?_⟩
  · intro q hq
    have hq₀ : Attached m.st q := Attached.congr hstate rfl hq
    by_cases hqp : q = p
    · subst hqp
      simp only [Space.goto, St.write_ptable, Table.write_self]
      rw [update_of_ne hne.symm, update_self]
    · have hslot := hs.slot q hq₀
      simp only [Space.goto, St.write_ptable, Table.write_of_ne _ hqp]
      rw [update_of_ne, update_of_ne]
      · exact hslot
      · exact Owned.ne_of_owner hslot hown (by simp)
      · exact Owned.ne_of_owner hslot hold (by simpa using halone q hqp)
  · intro q h' hq hq'
    rcases hand_goto hq' with ⟨rfl, hnew⟩ | ⟨hqp, hq'⟩
    · cases hnew
      exact update_self ..
    · have hq₀ : (m.st.ptable q).state.life = .active := by
        rw [← hstate q]
        exact hq
      have hqo := hs.hand q h' hq₀ hq'
      rw [update_of_ne, update_of_ne]
      · exact hqo
      · exact Owned.ne_of_owner hqo hown (by simpa using hqp)
      · exact Owned.ne_of_owner hqo hold (by simp)

/-- **`exec`.** Each step of it keeps the books. -/
theorem execStep_sound (hs : Sound m owner) (hl : (m.st.ptable p).state.life = .active) {ok : Bool}
    (halone : ok = true → (m.exec p).isLoading = true → ∀ q, q ≠ p → (m.st.ptable q).pid ≠ (m.st.ptable p).pid) :
    ∃ owner', Sound (m.execStep p ok) owner' := by
  unfold Space.execStep
  cases he : m.exec p with
  | out => exact ⟨owner, hs⟩
  | reading =>
    dsimp only
    split
    · exact ⟨_, hs.setupkvm p⟩
    · refine ⟨owner, hs.books, hs.slot, ?_⟩
      intro q h hq hq'
      rcases hand_goto hq' with ⟨_, hout⟩ | ⟨_, hq'⟩
      · cases hout
      · exact hs.hand q h hq hq'
  | loading pgdir =>
    have hh : (m.exec p).hand = some pgdir := by rw [he]; rfl
    dsimp only
    split
    · rename_i hok
      exact ⟨_, hs.commit hl hh (halone hok (by rw [he]; rfl))⟩
    · exact ⟨_, hs.freevm hl hh _⟩
  | freeing oldpgdir => exact ⟨_, hs.freevm hl (by rw [he]; rfl) _⟩

end Exec

/-! ## The kernel's steps -/

section Kernel

variable {odd : Bool → Prop} {m : Space N K} {owner : ℕ → Option (Owner N)} {s s' : St N K} {o : Op N K} {p q : Fin N}

/-- what the page directories of a state say about the owners, apart from the calls of `exec` -/
def Books (s : St N K) (owner : ℕ → Option (Owner N)) : Prop :=
  Owned owner s.nextPgdir s.freed ∧
    ∀ q, Attached s q → owner (s.ptable q).pgdir = some (.process (s.ptable q).pid)

/-- the two assignments give a call of `exec` the same page directories -/
def CallsKept (owner owner' : ℕ → Option (Owner N)) : Prop := ∀ h p, owner h = some (.call p) → owner' h = some (.call p)

/-- a step of the kernel does not touch what a call of `exec` holds -/
theorem Sound.of_books (hk : Kept odd m.st) (hs : Sound m owner) {owner' : ℕ → Option (Owner N)}
    (hcalls : CallsKept owner owner') (hbooks : Books (step m.st o) owner') :
    Sound { st := step m.st o, exec := started m.st o m.exec .out } owner' := by
  refine ⟨hbooks.1, hbooks.2, ?_⟩
  intro p h hl hh
  rcases started_active hk hl m.exec .out with hnew | ⟨hsame, hl₀⟩
  · change (started m.st o m.exec .out p).hand = some h at hh
    rw [hnew] at hh
    cases hh
  · change (started m.st o m.exec .out p).hand = some h at hh
    rw [hsame] at hh
    exact hcalls h p (hs.hand p h hl₀ hh)

/-- **Who has its page directory while it is made** had it before, or has just got it. -/
theorem mapped_before (hk : Kept odd s) (hq : Mapped (step s o) q) :
    Mapped s q ∨ ∃ p st, storing s o = some (p, st, q) ∧ (st = .forkPgdir ∨ st = .tcPgdir) := by
  obtain ⟨r, hr, hmap⟩ := hq
  obtain ⟨st, hpc, hst⟩ := Pc.mapping_eq.1 hmap
  rcases maker_before hk hr hpc with ⟨hr₀, hpc₀, _⟩ | ⟨st', hs, rfl, _⟩ | ⟨f, rfl, _⟩
  · exact .inl ⟨r, hr₀, Pc.mapping_eq.2 ⟨st, hpc₀, hst⟩⟩
  · obtain ⟨c, ok, _, hc, hpc', _⟩ := step_storing hs
    have hbefore : st'.mapped = true → Mapped s q := fun h => ⟨r, hk.life_active hc, Pc.mapping_eq.2 ⟨st', hpc', h⟩⟩
    cases st' with
    | forkPgdir => exact .inr ⟨r, _, hs, .inl rfl⟩
    | tcPgdir => exact .inr ⟨r, _, hs, .inr rfl⟩
    | waitingFor f => cases f <;> cases hst
    | kstack | queuePos | threadnum | tcPid => cases hst
    | forkParent | forkThreadId | forkIsthread | forkIsjoined | forkRun => exact .inl (hbefore rfl)
    | tcParent | tcCount | tcIsthread | tcIsjoined | tcThreadId | tcRun => exact .inl (hbefore rfl)
  · cases hst

/-- a step that frees nothing and attaches no slot -/
theorem Books.keep (hb : Books s owner) (hnext : s'.nextPgdir = s.nextPgdir) (hfreed : s'.freed = s.freed)
    (hslot : ∀ q, Attached s' q → Attached s q ∧ (s'.ptable q).pgdir = (s.ptable q).pgdir ∧
      (s'.ptable q).pid = (s.ptable q).pid) : Books s' owner := by
  refine ⟨?_, ?_⟩
  · rw [hnext, hfreed]
    exact hb.1
  · intro q hq
    obtain ⟨hq₀, hpg, hpid⟩ := hslot q hq
    rw [hpg, hpid]
    exact hb.2 q hq₀

theorem write_pgdir {f : Proc N → Proc N} (hf : ∀ x, (f x).pgdir = x.pgdir) (t : Table N) (r q : Fin N) :
    (t.write r f q).pgdir = (t q).pgdir := by
  by_cases hq : q = r
  · subst hq
    rw [Table.write_self, hf]
  · rw [Table.write_of_ne _ hq]

theorem dropThread_pgdir (t : Table N) (r q : Fin N) : (dropThread t r q).pgdir = (t q).pgdir := by
  have h : ((if (t r).threadnum ≠ 0 then t.write r fun x => { x with threadnum := x.threadnum - 1 } else t) q).pgdir =
      (t q).pgdir := by
    split
    · exact write_pgdir (by intro _; rfl) t r q
    · rfl
  unfold dropThread
  generalize (if (t r).threadnum ≠ 0 then t.write r fun x => { x with threadnum := x.threadnum - 1 } else t) = t' at h ⊢
  split
  · exact (pgdir_wake _ _).trans h
  · exact h

theorem dropMain_pgdir (t : Table N) (r q : Fin N) : (dropMain t r q).pgdir = (t q).pgdir := by
  have h := write_pgdir (f := fun x => { x with threadnum := x.threadnum - 1 }) (by intro _; rfl) t r q
  unfold dropMain
  split
  · exact (pgdir_wake _ _).trans h
  · exact h

/-- the section of `exit` writes no page directory -/
theorem exitSlot_pgdir (initproc proc p q : Fin N) (t : Table N) :
    (exitSlot initproc proc t p q).pgdir = (t q).pgdir := by
  unfold exitSlot
  split
  · have h := write_pgdir (f := fun x => { x with state := .zombie }) (by intro _; rfl) t p q
    generalize (t.write p fun x => { x with state := .zombie }) = t' at h ⊢
    dsimp only
    split
    · cases (t' p).parent with
      | none => exact h
      | some r => exact (dropThread_pgdir t' r q).trans h
    · exact (dropMain_pgdir t' p q).trans h
  · split
    · have h := write_pgdir (f := fun x => { x with parent := some initproc }) (by intro _; rfl) t p q
      generalize (t.write p fun x => { x with parent := some initproc }) = t' at h ⊢
      dsimp only
      split
      · exact (pgdir_wake _ _).trans h
      · exact h
    · rfl

theorem exitSection_pgdir (initproc proc q : Fin N) (t : Table N) :
    (exitSection initproc proc t q).pgdir = (t q).pgdir := by
  have hloop : ∀ (l : List (Fin N)) (t : Table N),
      (l.foldl (exitSlot initproc proc) t q).pgdir = (t q).pgdir := by
    intro l
    induction l with
    | nil => exact fun _ => rfl
    | cons p l ih =>
      intro t
      rw [List.foldl_cons, ih, exitSlot_pgdir]
  unfold exitSection exitLoop
  by_cases hq : q = proc
  · subst hq
    rw [Table.write_self]
    exact (hloop _ _).trans (pgdir_wake _ _)
  · rw [Table.write_of_ne _ hq]
    exact (hloop _ _).trans (pgdir_wake _ _)

/-- **`exit`.** All slots of the pid become ZOMBIE; none gets a page directory by it. -/
theorem books_exit (hk : Kept odd s) (hb : Books s owner) {c : Fin K} (hc : s.curproc c = some p)
    (hmap : ∀ q, Mapped (exitLocked s c p) q → Mapped s q)
    (hemb : ∀ q, (s.ptable q).pid = (s.ptable p).pid → (s.ptable q).state = .embryo → Mapped s q) :
    Books (exitLocked s c p) owner := by
  have hl := hk.life_active hc
  have hv := fun q => exitSection_visited s.initproc (parentsWithin hk.orderly hl) q
  refine hb.keep rfl rfl fun q hq => ⟨?_, exitSection_pgdir _ _ _ _, (hv q).pid⟩
  rcases hq with hq | hq
  · by_cases hpid : (s.ptable q).pid = (s.ptable p).pid
    · cases hs : (s.ptable q).state with
      | unused => exact absurd hpid (hk.orderly.free_pid_ne (by simp [St.census, hs, ProcState.life])
          (by rw [show s.census.life p = .active from hl]; simp))
      | embryo => exact .inr (hemb q hpid hs)
      | sleeping | runnable | running => exact .inl (.inl (by rw [hs]; rfl))
      | zombie => exact .inl (.inr (by rw [hs]; rfl))
    · rw [exitLocked_alike hk hl hpid] at hq
      exact .inl hq
  · exact .inr (hmap q hq)

/-- **`wait`.** It frees the page directory of the pid it found, and every slot of that pid. -/
theorem books_reap (hk : Kept odd s) (hb : Books s owner) {X : ℕ} (hX : X ≠ 0) (hfound : waitFound s.ptable p = X)
    (hmap : ∀ q, Mapped s' q → Mapped s q)
    (hfree : ∀ q, (s.ptable q).pid = X → Emptied (s.ptable q) (s'.ptable q))
    (halike : ∀ q, (s.ptable q).pid ≠ X → Alike (s.ptable q) (s'.ptable q)) (hnext : s'.nextPgdir = s.nextPgdir)
    (hfreed : s'.freed = s.freed ++ (freedPgdir s.ptable X).toList) :
    ∃ owner', CallsKept owner owner' ∧ Books s' owner' := by
  obtain ⟨m₀, hm₀, hpid₀⟩ := exists_of_waitFound (hfound ▸ hX)
  rw [hfound] at hpid₀
  have hback : ∀ q, Attached s' q → (s.ptable q).pid ≠ X ∧ Attached s q := by
    rintro q (hq | hq)
    · have hqX : (s.ptable q).pid ≠ X := by
        intro hqX
        rw [(hfree q hqX).state] at hq
        simp [ProcState.life] at hq
      rw [(halike q hqX).life] at hq
      exact ⟨hqX, .inl hq⟩
    · refine ⟨?_, .inr (hmap q hq)⟩
      intro hqX
      -- no slot of the pid is half made
      obtain ⟨r, hr, hmapping⟩ := hmap q hq
      obtain ⟨st, hpc, _⟩ := Pc.mapping_eq.1 hmapping
      have hemb := life_eq_embryo hk hr hpc
      rcases hk.reaped_slot hm₀ (hqX.trans hpid₀.symm) with hz | ⟨ha, _⟩
      · rw [hz] at hemb
        cases hemb
      · rw [ProcState.life_active.2 ha] at hemb
        cases hemb
  cases hf : (List.finRange N).find? fun q => (s.ptable q).pid = X with
  | none =>
    rw [List.find?_eq_none] at hf
    exact absurd hpid₀ (by simpa using hf m₀ (List.mem_finRange m₀))
  | some q₀ =>
    have hq₀ : (s.ptable q₀).pid = X := by simpa using List.find?_some hf
    have hatt : Attached s q₀ := by
      rcases hk.reaped_slot hm₀ (hq₀.trans hpid₀.symm) with hz | ⟨ha, _⟩
      · exact .inl (.inr (by rw [hz]; rfl))
      · exact .inl (.inl (ProcState.life_active.2 ha))
    have hown := hb.2 q₀ hatt
    have hpg : freedPgdir s.ptable X = some (s.ptable q₀).pgdir := by
      unfold freedPgdir
      rw [hf]
      rfl
    refine ⟨update owner (s.ptable q₀).pgdir none, ?_, ?_, ?_⟩
    · intro h r hr
      rw [update_of_ne (Owned.ne_of_owner hr hown (by simp))]
      exact hr
    · rw [hnext, hfreed, hpg]
      exact hb.1.free hown
    · intro q hq
      obtain ⟨hqX, hq'⟩ := hback q hq
      have ha := halike q hqX
      have hslot := hb.2 q hq'
      rw [ha.pgdir, ha.pid, update_of_ne (Owned.ne_of_owner hslot hown ?_)]
      · exact hslot
      · rw [hq₀]
        simpa using hqX

/-- once it has a page directory, the new slot keeps it and its pid -/
theorem makeStep_mapped {np : Fin N} {st : Making} {ok : Bool} (hst : st.mapped = true) :
    ((makeStep s p np ok st).ptable np).pgdir = (s.ptable np).pgdir ∧
      ((makeStep s p np ok st).ptable np).pid = (s.ptable np).pid := by
  have h := makeStep_untouched s p np np ok st
  exact ⟨h.pgdir (by rintro rfl; cases hst) (by rintro rfl; cases hst), h.pid (by rintro rfl; cases hst)⟩

theorem makeStep_nextPgdir {np : Fin N} {st : Making} {ok : Bool} (hst : st ≠ .forkPgdir) :
    (makeStep s p np ok st).nextPgdir = s.nextPgdir := by
  cases st with
  | forkPgdir => exact absurd rfl hst
  | kstack f =>
    simp only [makeStep]
    split <;> rfl
  | _ => rfl

/-- which slots have a page directory after a store of `fork` or `thread_create` -/
theorem make_attached (hk : Kept odd s) {np : Fin N} {st : Making} (hs : storing s o = some (p, st, np))
    (hq : Attached (step s o) q) :
    Attached s q ∨ (q = np ∧ (st = .forkPgdir ∨ st = .tcPgdir)) := by
  rcases hq with hq | hq
  · obtain ⟨c, ok, rfl, hc, hpc, hstep⟩ := step_storing hs
    rw [hstep] at hq
    by_cases hqn : q = np
    · subst hqn
      have hrun := (makeStep_publish (life_eq_embryo hk (hk.life_active hc) hpc) hq).1
      refine .inl (.inr ⟨p, hk.life_active hc, Pc.mapping_eq.2 ⟨st, hpc, ?_⟩⟩)
      rcases hrun with rfl | rfl <;> rfl
    · rw [(makeStep_alike hqn).life] at hq
      exact .inl (.inl hq)
  · rcases mapped_before hk hq with hq | ⟨p', st', hs', hst⟩
    · exact .inl (.inr hq)
    · rw [hs] at hs'
      cases hs'
      exact .inr ⟨rfl, hst⟩

/-- **The stores of `fork` and `thread_create`.** `fork` makes a page directory for the new process, `thread_create` uses
the one of its own. -/
theorem books_make (hk : Kept odd s) (hb : Books s owner) {np : Fin N} {st : Making}
    (hs : storing s o = some (p, st, np)) : ∃ owner', CallsKept owner owner' ∧ Books (step s o) owner' := by
  have hbefore := fun q => make_attached (q := q) hk hs
  obtain ⟨c, ok, rfl, hc, hpc, hstep⟩ := step_storing hs
  rw [hstep] at hbefore ⊢
  have hl := hk.life_active hc
  have hsame : ∀ q, q ≠ np → ((makeStep s p np ok st).ptable q).pgdir = (s.ptable q).pgdir ∧
      ((makeStep s p np ok st).ptable q).pid = (s.ptable q).pid := fun q hq =>
    ⟨(makeStep_alike hq).pgdir, (makeStep_alike hq).pid⟩
  -- a slot that has its page directory is not one that is still to get it
  have hmapped : Attached s np → st.mapped = true := by
    rintro (h | ⟨r, hr, hmap⟩)
    · rw [life_eq_embryo hk hl hpc] at h
      simp at h
    · obtain ⟨st', hm, hst'⟩ := Pc.mapping_eq.1 hmap
      obtain rfl := hk.one_maker hr hl hm hpc
      rw [hpc] at hm
      cases hm
      exact hst'
  have hfreed : (makeStep s p np ok st).freed = s.freed := makeStep_freed s p np ok st
  have hold : ∀ q, Attached s q → ((makeStep s p np ok st).ptable q).pgdir = (s.ptable q).pgdir ∧
      ((makeStep s p np ok st).ptable q).pid = (s.ptable q).pid := by
    intro q hq
    by_cases hqn : q = np
    · subst hqn
      exact makeStep_mapped (hmapped hq)
    · exact hsame q hqn
  by_cases hf : st = .forkPgdir
  · subst hf
    cases ok with
    | false =>
      -- `copyuvm` failed, and the slot is free again
      refine ⟨owner, fun _ _ h => h, hb.keep rfl rfl fun q hq => ?_⟩
      rcases hbefore q hq with hq₀ | ⟨rfl, _⟩
      · exact ⟨hq₀, hold q hq₀⟩
      · rcases hq with hq | ⟨r, hr, hmap⟩
        · simp [makeStep, ProcState.life] at hq
        · exfalso
          obtain ⟨st', hm, _⟩ := Pc.mapping_eq.1 hmap
          have hrq : r ≠ q := by
            rintro rfl
            simp [makeStep, ProcState.life] at hr
          have hrp : r ≠ p := by
            rintro rfl
            simp [makeStep] at hm
          rw [makeStep_pc hrp hrq] at hm
          exact hrp (hk.one_maker ((makeStep_alike hrq).life.symm.trans hr) hl hm hpc)
    | true =>
      have hnew : ((makeStep s p np true .forkPgdir).ptable np).pgdir = s.nextPgdir ∧
          ((makeStep s p np true .forkPgdir).ptable np).pid = (s.ptable np).pid := by simp [makeStep]
      refine ⟨update owner s.nextPgdir (some (.process (s.ptable np).pid)), ?_, ?_, ?_⟩
      · intro h r hr
        rw [update_of_ne (hb.1.lt_next hr).ne]
        exact hr
      · rw [hfreed]
        exact hb.1.alloc _
      · intro q hq
        rcases hbefore q hq with hq₀ | ⟨rfl, _⟩
        · have hslot := hb.2 q hq₀
          rw [(hold q hq₀).1, (hold q hq₀).2, update_of_ne (hb.1.lt_next hslot).ne]
          exact hslot
        · rw [hnew.1, hnew.2, update_self]
  · refine ⟨owner, fun _ _ h => h, ?_, ?_⟩
    · rw [makeStep_nextPgdir hf, hfreed]
      exact hb.1
    · intro q hq
      rcases hbefore q hq with hq₀ | ⟨rfl, hst | rfl⟩
      · rw [(hold q hq₀).1, (hold q hq₀).2]
        exact hb.2 q hq₀
      · exact absurd hst hf
      · have hmade := hk.orderly.made p .tcPgdir q hl (by simp only [St.census, hpc]; rfl)
        have hpid : (s.ptable q).pid = (s.ptable p).pid := hmade.pid rfl
        have hnew : ((makeStep s p q ok .tcPgdir).ptable q).pgdir = (s.ptable p).pgdir ∧
            ((makeStep s p q ok .tcPgdir).ptable q).pid = (s.ptable q).pid := by simp [makeStep]
        rw [hnew.1, hnew.2, hpid]
        exact hb.2 p (.inl (.inl hl))

/-- **The kernel.** Every step of it keeps the books, if its `exit` meets no thread without a page directory. -/
theorem step_books (hk : Kept odd s) (hb : Books s owner)
    (hemb : ∀ p ∈ exiting s o, ∀ q, (s.ptable q).pid = (s.ptable p).pid → (s.ptable q).state = .embryo → Mapped s q) :
    ∃ owner', CallsKept owner owner' ∧ Books (step s o) owner' := by
  cases hs : storing s o with
  | some x =>
    obtain ⟨p, st, np⟩ := x
    exact books_make hk hb hs
  | none =>
    have hmap : ∀ q, Mapped (step s o) q → Mapped s q := by
      intro q hq
      rcases mapped_before hk hq with hq | ⟨p, st, hs', _⟩
      · exact hq
      · rw [hs] at hs'
        cases hs'
    have hdeed := step_deed hk.cpus o
    generalize step s o = s' at hdeed hmap ⊢
    cases hdeed with
    | calm _ halike hpc hglob =>
      refine ⟨owner, fun _ _ h => h, hb.keep hglob.nextPgdir hglob.freed fun q hq => ?_⟩
      refine ⟨hq.imp (fun hq => ?_) (hmap q), (halike q).pgdir, (halike q).pid⟩
      rw [(halike q).life] at hq
      exact hq
    | alloc p np f he hnp =>
      obtain ⟨htab, _, _⟩ := allocproc_some (p := p) hnp f
      have hglob : (allocproc s p f).nextPgdir = s.nextPgdir ∧ (allocproc s p f).freed = s.freed := by
        unfold allocproc
        rw [hnp]
        exact ⟨rfl, rfl⟩
      refine ⟨owner, fun _ _ h => h, hb.keep hglob.1 hglob.2 fun q hq => ?_⟩
      have hqn : q ≠ np := by
        rintro rfl
        rcases hq with hq | hq
        · simp [htab, ProcState.life] at hq
        · obtain ⟨r, hr, hmapping⟩ := hmap q hq
          obtain ⟨st, hm, _⟩ := Pc.mapping_eq.1 hmapping
          have h := life_eq_embryo hk hr hm
          rw [findUnused_unused hnp] at h
          cases h
      have hother : (allocproc s p f).ptable q = s.ptable q := by rw [htab, Table.write_of_ne _ hqn]
      refine ⟨hq.imp (fun hq => ?_) (hmap q), ?_, ?_⟩
      · rw [hother] at hq
        exact hq
      · rw [hother]
      · rw [hother]
    | make c p np st ok ho hc hm =>
      rw [ho, storing_exec hc hm ok] at hs
      cases hs
    | retire _ p he hret hlast hz hpid hpar hthr hpg halike hpc hglob =>
      obtain ⟨_, c, hc, _⟩ := he
      refine ⟨owner, fun _ _ h => h, hb.keep hglob.nextPgdir hglob.freed fun q hq => ?_⟩
      by_cases hqp : q = p
      · subst hqp
        exact ⟨.inl (.inl (hk.life_active hc)), hpg, hpid⟩
      · refine ⟨hq.imp (fun hq => ?_) (hmap q), (halike q hqp).pgdir, (halike q hqp).pid⟩
        rw [(halike q hqp).life] at hq
        exact hq
    | exit c p ok ho hc hpc =>
      exact ⟨owner, fun _ _ h => h, books_exit hk hb hc hmap (hemb p (ho ▸ mem_exiting hc hpc))⟩
    | reap _ p X hw hX hfound hfree halike hpc hinit hnext hfreed =>
      exact books_reap hk hb hX hfound hmap hfree halike hnext hfreed

end Kernel

/-! ## Runs -/

section Runs

variable {odd : Bool → Prop} {m : Space N K} {owner : ℕ → Option (Owner N)} {o : SpaceOp N K}

/-- `exec` does not show in the census -/
theorem execStep_kept (hk : Kept odd m.st) (p : Fin N) (ok : Bool) : Kept odd (m.execStep p ok).st := by
  unfold Space.execStep
  cases m.exec p with
  | out => exact hk
  | reading =>
    dsimp only
    split
    · exact ⟨⟨hk.cpus.running, hk.cpus.inj⟩, hk.orderly⟩
    · exact ⟨⟨hk.cpus.running, hk.cpus.inj⟩, hk.orderly⟩
  | loading pgdir =>
    dsimp only
    split
    · refine ⟨⟨fun c q hq => ?_, hk.cpus.inj⟩, ?_⟩
      · have hr := hk.cpus.running c q hq
        by_cases hqp : q = p
        · subst hqp
          simpa [Space.goto] using hr
        · simpa [Space.goto, Table.write_of_ne _ hqp] using hr
      · show Orderly odd (m.st.write p fun x => { x with pgdir := pgdir }).census
        rw [census_write ⟨rfl, rfl, rfl, rfl, rfl⟩]
        exact hk.orderly
    · exact ⟨⟨hk.cpus.running, hk.cpus.inj⟩, hk.orderly⟩
  | freeing oldpgdir => exact ⟨⟨hk.cpus.running, hk.cpus.inj⟩, hk.orderly⟩

/-- **One step.** Every page directory in use still has one owner, if the step is `SpaceOk`. -/
theorem step_sound (hk : Kept (fun _ => True) m.st) (hs : Sound m owner) (hok : SpaceOk m o) :
    Kept (fun _ => True) (m.step o).st ∧ ∃ owner', Sound (m.step o) owner' := by
  cases o with
  | kernel o =>
    simp only [Space.step]
    split
    · exact ⟨hk, owner, hs⟩
    · obtain ⟨owner', hcalls, hbooks⟩ := step_books (o := o) hk ⟨hs.books, hs.slot⟩ hok.2.1
      exact ⟨step_kept hk hok.2.2 fun _ _ => trivial, owner', hs.of_books hk hcalls hbooks⟩
  | execCall c =>
    simp only [Space.step]
    split
    · exact ⟨hk, owner, hs⟩
    · split
      · refine ⟨hk, owner, hs.books, hs.slot, fun q h hq hq' => ?_⟩
        rcases hand_goto hq' with ⟨_, hnone⟩ | ⟨_, hq'⟩
        · cases hnone
        · exact hs.hand q h hq hq'
      · exact ⟨hk, owner, hs⟩
  | execStep c ok =>
    simp only [Space.step]
    split
    · exact ⟨hk, owner, hs⟩
    · rename_i p hc
      refine ⟨execStep_kept hk p ok, execStep_sound hs (hk.life_active hc) fun htrue hload => hok.1 p ?_⟩
      subst htrue
      simp [committing, hc, hload]

theorem spaceBoot_sound [NeZero N] :
    Sound (spaceBoot N K) fun h => if h = 1 then some (.process 1) else none := by
  refine ⟨⟨?_, ?_, List.nodup_nil⟩, ?_, ?_⟩
  · intro h hh
    have hh' : 2 ≤ h := hh
    refine ⟨if_neg (by omega), by simp [spaceBoot, boot]⟩
  · intro h hf
    simp [spaceBoot, boot] at hf
  · intro q hq
    have hq0 : q = 0 := by
      by_contra hne
      rcases hq with hq | ⟨r, _, hm⟩
      · simp [spaceBoot, boot, hne, freeSlot, ProcState.life] at hq
      · simp [spaceBoot, boot, Pc.mapping] at hm
    subst hq0
    simp [spaceBoot, boot]
  · intro p h _ hh
    cases hh

/-- **A live thread's address space is never freed**, in every run of steps that are `SpaceOk`: the page directory of a
slot that is neither UNUSED, EMBRYO nor ZOMBIE was not given to `freevm`, and none was given to it twice. -/
theorem live_pgdir [NeZero N] (ops : List (SpaceOp N K)) (h : Along Space.step SpaceOk (spaceBoot N K) ops) (q : Fin N)
    (m : Space N K) (hm : m = run Space.step (spaceBoot N K) ops) (hq : (m.st.ptable q).state.Active) :
    (m.st.ptable q).pgdir ∉ m.st.freed ∧ m.st.freed.Nodup := by
  have hinv : Kept (fun _ => True) m.st ∧ ∃ owner, Sound m owner := by
    rw [hm]
    refine h.inv (I := fun m => Kept (fun _ => True) m.st ∧ ∃ owner, Sound m owner) ?_
      ⟨boot_kept, _, spaceBoot_sound⟩
    rintro m o ho ⟨hk, owner, hs⟩
    exact step_sound hk hs ho
  obtain ⟨_, owner, hs⟩ := hinv
  exact ⟨hs.books.not_freed (hs.slot q (.inl (.inl (ProcState.life_active.2 hq)))), hs.books.nodup⟩

/-- init forks a child, and the child calls `exec` and frees its old page directory -/
def childExecs : List (SpaceOp 64 1) := List.flatten
  [[.kernel (.dispatch 0 0), .kernel (.call 0 .fork)], List.replicate 10 (.kernel (.exec 0 true)),
    [.kernel (.preempt 0), .kernel (.dispatch 0 1), .execCall 0], List.replicate 3 (.execStep 0 true)]

/-- the theorem at that run: a page directory has been freed, and it is not the child's new one -/
theorem live_pgdir_child :
    (run Space.step (spaceBoot 64 1) childExecs).st.freed = [2] ∧
      ((run Space.step (spaceBoot 64 1) childExecs).st.ptable 1).pgdir ∉
        (run Space.step (spaceBoot 64 1) childExecs).st.freed := by
  refine ⟨by decide +kernel, ?_⟩
  exact (live_pgdir childExecs (by decide +kernel) 1 _ rfl (by decide +kernel)).1

/-- the same, but the child has made a thread, and it is the thread that calls `exec`, up to its `freevm` -/
def threadExecs : List (SpaceOp 64 1) := List.flatten
  [[.kernel (.dispatch 0 0), .kernel (.call 0 .fork)], List.replicate 10 (.kernel (.exec 0 true)),
    [.kernel (.preempt 0), .kernel (.dispatch 0 1), .kernel (.call 0 .threadCreate)],
    List.replicate 12 (.kernel (.exec 0 true)), [.kernel (.preempt 0), .kernel (.dispatch 0 2), .execCall 0],
    List.replicate 2 (.execStep 0 true)]

/-- **`exec` frees a sibling's address space.** The main thread is RUNNABLE with a page directory that was not freed; the
thread's next step frees it, and the main thread still has it. -/
theorem exec_frees_sibling :
    let m := run Space.step (spaceBoot 64 1) threadExecs
    let m' := m.step (.execStep 0 true)
    ((m.st.ptable 1).state = .runnable ∧ (m.st.ptable 1).pgdir ∉ m.st.freed) ∧
      (m'.st.ptable 1).state = .runnable ∧ (m'.st.ptable 1).pgdir = (m.st.ptable 1).pgdir ∧
      (m'.st.ptable 1).pgdir ∈ m'.st.freed := by
  decide +kernel

end Runs

end Xv6Threads.Kernel
