/-
References to current directories.

A slot's `cwd` should count in `ref` of the inode, as an open file does. `fork` duplicates it (`idup`), `chdir` and `exit`
put the old one (`iput`). `thread_create` copies the pointer without counting it, so the first of the threads that changes
its directory or ends takes away the reference of the others, and `iget` may use the entry of the cache for another
inode while a thread still stands in it. `directory_recycled` is the run.
- `Counted`: every `cwd`, every open file and every inode in the hands of a call has its reference.
- `cwd_counted`: so it is in every run in which `thread_create` does not get to its store `np->cwd = proc->cwd`.
-/
import Xv6Threads.Kernel.FileRefs

namespace Xv6Threads.Kernel

open Xv6Threads.Core Function

variable {N K : ℕ}

/-! ## Counting references -/

/-- a directory that is `ip` -/
def cwdFor (ip : InodeId) (x : Option InodeId) : ℤ := if x = some ip then 1 else 0

/-- a file of the inode `ip` -/
def FileKind.uses (ip : InodeId) : FileKind → ℤ
  | .inode jp => if jp = ip then 1 else 0
  | _ => 0

/-- the references to `ip` in the hands of a call -/
def handFor (ip : InodeId) (l : List InodeId) : ℤ := l.count ip

/-- the reference that `sys_open` is about to give to its file -/
def FilePc.opens (ip : InodeId) : FilePc → ℤ
  | .opened _ jp => if jp = ip then 1 else 0
  | _ => 0

/-- the references to `ip` -/
def references (m : Files N K) (ip : InodeId) : ℤ :=
  tally (cwdFor ip) m.cwd + tally (FileKind.uses ip) m.kind + tally (handFor ip) m.hand + tally (FilePc.opens ip) m.call

/-- the invariant -/
def Counted (m : Files N K) : Prop := ∀ ip, references m ip ≤ m.iref ip

/-- `p` is in `thread_create` with all descriptors copied, and its next store is `np->cwd = proc->cwd` -/
def sharesCwd (m : Files N K) (p : Fin N) : Bool :=
  match m.st.pc p, m.round p with
  | .make .tcRun _, some k => (nextOpen (m.ofile p) k).isNone
  | _, _ => false

/-- the step is not that store -/
def DirOk (m : Files N K) : FileOp N K → Prop
  | .copy c => ∀ p ∈ m.st.curproc c, sharesCwd m p = false
  | _ => True

instance decidableDirOk (m : Files N K) (o : FileOp N K) : Decidable (DirOk m o) :=
  match o with
  | .copy c => inferInstanceAs (Decidable (∀ p ∈ m.st.curproc c, sharesCwd m p = false))
  | .kernel _ | .enter _ | .leave _ | .iget _ _ _ | .idup _ | .iput _ _ | .sysChdir _ _ | .sysOpen _ _ | .sysOpenEnd _
  | .sysDup _ _ | .sysClose _ _ | .sysPipe _ | .sysPipeEnd _ _ | .closeNext _ | .exitRound _ => .isTrue trivial

section Weights

variable (ip : InodeId)

@[simp] theorem uses_inode (jp : InodeId) : (FileKind.inode jp).uses ip = if jp = ip then 1 else 0 := rfl

@[simp] theorem uses_pipe : FileKind.pipe.uses ip = 0 := rfl

@[simp] theorem opens_inside : FilePc.inside.opens ip = 0 := rfl

@[simp] theorem opens_opened (f : FileId) (jp : InodeId) :
    (FilePc.opened f jp).opens ip = if jp = ip then 1 else 0 := rfl

theorem cwdFor_nonneg (x : Option InodeId) : 0 ≤ cwdFor ip x := by
  unfold cwdFor
  split <;> decide

theorem uses_nonneg (x : FileKind) : 0 ≤ x.uses ip := by
  cases x with
  | inode jp =>
    simp only [FileKind.uses]
    split <;> decide
  | none | pipe => exact le_rfl

theorem handFor_nonneg (l : List InodeId) : 0 ≤ handFor ip l := Int.natCast_nonneg _

theorem opens_nonneg (e : FilePc) : 0 ≤ e.opens ip := by
  cases e with
  | opened f jp =>
    simp only [FilePc.opens]
    split <;> decide
  | out | inside | piping | closing | copying | copied => exact le_rfl

theorem handFor_cons (jp : InodeId) (l : List InodeId) :
    handFor ip (jp :: l) = handFor ip l + if jp = ip then 1 else 0 := by
  unfold handFor
  by_cases h : jp = ip <;> simp [h]

theorem handFor_erase {jp : InodeId} {l : List InodeId} (h : jp ∈ l) :
    handFor ip (l.erase jp) = handFor ip l - if jp = ip then 1 else 0 := by
  have hperm := (List.perm_cons_erase h).count_eq ip
  have hcons := handFor_cons ip jp (l.erase jp)
  unfold handFor at hcons ⊢
  rw [hperm, hcons]
  omega

end Weights

/-! ## Steps -/

section Step

variable {m m' : Files N K} {p : Fin N}

/-- the kernel takes nothing and gives nothing; a new process starts with empty hands -/
theorem kernel_counted (hm : Counted m) (o : Op N K) : Counted (m.kernel o) := by
  unfold Files.kernel
  split
  · exact hm
  · intro ip
    refine le_trans ?_ (hm ip)
    have hhand : tally (handFor ip) (started m.st o m.hand []) ≤ tally (handFor ip) m.hand := by
      refine Finset.sum_le_sum fun q _ => ?_
      rcases started_cases m.st o m.hand [] q with hsame | hnil
      · rw [hsame]
      · rw [hnil]
        exact handFor_nonneg ip _
    have hcall : tally (FilePc.opens ip) (started m.st o (m.settled o) .out) ≤ tally (FilePc.opens ip) m.call := by
      refine Finset.sum_le_sum fun q _ => ?_
      rcases kernel_call m o q with hsame | hout
      · rw [hsame]
      · rw [hout]
        exact opens_nonneg ip _
    unfold references
    dsimp only
    omega

/-- a process moves in its call, and holds no more than before -/
theorem Counted.goto (hm : Counted m) {e : FilePc} (he : ∀ ip, e.opens ip ≤ (m.call p).opens ip) : Counted (m.goto p e) := by
  intro ip
  have h := hm ip
  have := he ip
  simp only [references, Files.goto, tally_move] at h ⊢
  omega

/-- a process gets a reference, and it is counted -/
theorem take_counted (hm : Counted m) (jp : InodeId) : Counted ((m.addIref jp 1).take p jp) := by
  intro ip
  have h := hm ip
  simp only [references, Files.addIref, Files.take, tally_move, handFor_cons, update_count] at h ⊢
  split_ifs <;> omega

theorem iget_counted (hm : Counted m) (dev inum : ℕ) : Counted (m.iget p dev inum) := by
  unfold Files.iget
  split
  · exact take_counted hm _
  · split
    · exact take_counted hm _
    · exact hm

theorem iput_counted (hm : Counted m) (jp : InodeId) : Counted (m.iput p jp) := by
  unfold Files.iput
  split
  · rename_i hin
    intro ip
    have h := hm ip
    simp only [references, Files.addIref, Files.give, tally_move, handFor_erase ip hin, update_count] at h ⊢
    split_ifs <;> omega
  · exact hm

/-- `chdir` moves a reference from the hands of the call to `cwd`, and takes back the one of the old directory -/
theorem chdir_counted (hm : Counted m) (jp : InodeId) : Counted (m.sysChdir p jp) := by
  unfold Files.sysChdir
  split
  · rename_i old hold
    split
    · rename_i hin
      intro ip
      have h := hm ip
      simp only [references, Files.addIref, Files.give, tally_move, handFor_erase ip hin, update_count, cwdFor, hold,
        Option.some.injEq] at h ⊢
      split_ifs <;> omega
    · exact hm
  · exact hm

/-- the reference of a file goes to the hands of the call that closes it -/
theorem fileclose_counted (hm : Counted m) (f : FileId) : Counted (m.fileclose p f) := by
  unfold Files.fileclose
  split
  · exact hm
  · intro ip
    have h := hm ip
    cases hk : m.kind f with
    | inode jp =>
      simp only [references, Files.addRef, tally_move, handFor_cons, hk, FileKind.uses] at h ⊢
      omega
    | none | pipe =>
      simp only [references, Files.addRef, tally_move, hk, FileKind.uses] at h ⊢
      omega

theorem closing_counted (hm : Counted m) (f : FileId) (l : List FileId) : Counted (m.goto p (.closing f l)) :=
  hm.goto (opens_nonneg · _)

theorem open_counted (hm : Counted m) (jp : InodeId) : Counted (m.sysOpen p jp) := by
  unfold Files.sysOpen
  split
  · rename_i hin
    split
    · exact hm
    · rename_i f m' hf
      obtain ⟨_, rfl⟩ := filealloc_eq hf
      have hm' : Counted (m.addRef f 1) := hm
      split
      · exact closing_counted hm' f []
      · intro ip
        have h := hm ip
        have h0 := opens_nonneg ip (m.call p)
        simp only [references, Files.goto, Files.give, Files.setFd, Files.addRef, tally_move, handFor_erase ip hin,
          opens_opened] at h ⊢
        omega
  · exact hm

theorem openEnd_counted (hm : Counted m) {f : FileId} {jp : InodeId} (hcall : m.call p = .opened f jp) :
    Counted ({ m with kind := update m.kind f (.inode jp) }.goto p .inside) := by
  intro ip
  have h := hm ip
  have h0 := uses_nonneg ip (m.kind f)
  simp only [references, Files.goto, tally_move, hcall, opens_opened, opens_inside, uses_inode] at h ⊢
  omega

theorem pipeEnd_counted (hm : Counted m) (f : FileId) (ok : Bool) : Counted (m.sysPipeEnd p f ok) := by
  unfold Files.sysPipeEnd
  split
  · exact closing_counted hm f []
  · rename_i f' m' hf'
    obtain ⟨_, rfl⟩ := filealloc_eq hf'
    have hm' : Counted (m.addRef f' 1) := hm
    have hpipe : Counted { m.addRef f' 1 with kind := update (update m.kind f .pipe) f' .pipe } := by
      intro ip
      have h := hm ip
      have h0 := uses_nonneg ip (m.kind f)
      have h1 := uses_nonneg ip (update m.kind f .pipe f')
      simp only [references, Files.addRef, tally_move, uses_pipe] at h ⊢
      omega
    split
    · dsimp only
      split
      · exact closing_counted hpipe f [f']
      · split
        · exact closing_counted hpipe f [f']
        · exact Counted.goto (m := (_ : Files N K)) hpipe (opens_nonneg · _)
    · exact closing_counted hm' f [f']

/-- `fork` counts the directory of the new slot; whatever the slot had before is no longer counted on -/
theorem copyRound_counted (hm : Counted m) (np : Fin N) {st : Making} {k : ℕ}
    (hst : nextOpen (m.ofile p) k = none → st = .forkThreadId) : Counted (m.copyRound p np st k) := by
  unfold Files.copyRound
  split
  · split
    · exact Counted.goto (m := (_ : Files N K)) hm (opens_nonneg · _)
    · exact hm
  · rename_i hnone
    obtain rfl := hst hnone
    refine Counted.goto (m := (_ : Files N K)) (fun ip => ?_) (opens_nonneg · _)
    have h := hm ip
    have h0 := cwdFor_nonneg ip (m.cwd np)
    cases hcwd : m.cwd p with
    | none =>
      simp only [references, tally_move, cwdFor, reduceCtorEq, if_false] at h h0 ⊢
      omega
    | some jp =>
      simp only [references, tally_move, update_count, cwdFor, Option.some.injEq] at h h0 ⊢
      split_ifs at h0 ⊢ <;> omega

theorem exitRound_counted (hm : Counted m) : Counted (m.exitRound p) := by
  unfold Files.exitRound
  split
  · split
    · split
      · refine Counted.goto (m := (_ : Files N K)) ?_ (opens_nonneg · _)
        exact fileclose_counted (m := m.setFd p _ none) hm _
      · exact hm
    · split
      · rename_i jp hcwd
        intro ip
        have h := hm ip
        simp only [references, Files.addIref, tally_move, update_count, cwdFor, hcwd, Option.some.injEq, reduceCtorEq,
          if_false] at h ⊢
        split_ifs <;> omega
      · exact hm
  · exact hm

/-- **One step.** References stay counted, if the step is `DirOk`. -/
theorem step_counted {o : FileOp N K} (hm : Counted m) (hok : DirOk m o) : Counted (m.step o) := by
  have hon : ∀ c (f : Fin N → Files N K), (∀ p, m.st.curproc c = some p → Counted (f p)) → Counted (m.on c f) := by
    intro c f hf
    unfold Files.on
    split
    · exact hm
    · rename_i p hc
      exact hf p hc
  have hin : ∀ p m', Counted m' → Counted (m.inCall p m') := by
    intro p m' h
    unfold Files.inCall
    split
    · exact h
    · exact hm
  have hgo : ∀ p, Counted (m.goto p .inside) ∧ Counted (m.goto p .out) := by
    intro p
    exact ⟨hm.goto (opens_nonneg · _), hm.goto (opens_nonneg · _)⟩
  cases o with
  | kernel k => exact kernel_counted hm k
  | enter c =>
    refine hon c _ fun p _ => ?_
    split
    · exact (hgo p).1
    · exact hm
  | leave c =>
    refine hon c _ fun p _ => hin p _ ?_
    split
    · exact (hgo p).2
    · exact hm
  | iget c dev inum => exact hon c _ fun p _ => hin p _ (iget_counted hm dev inum)
  | idup c =>
    refine hon c _ fun p _ => hin p _ ?_
    unfold Files.idup
    split
    · exact take_counted hm _
    · exact hm
  | iput c ip => exact hon c _ fun p _ => hin p _ (iput_counted hm ip)
  | sysChdir c ip => exact hon c _ fun p _ => hin p _ (chdir_counted hm ip)
  | sysOpen c ip => exact hon c _ fun p _ => hin p _ (open_counted hm ip)
  | sysOpenEnd c =>
    refine hon c _ fun p _ => ?_
    split
    · rename_i f ip hcall
      exact openEnd_counted hm hcall
    · exact hm
  | sysDup c fd =>
    refine hon c _ fun p _ => hin p _ ?_
    unfold Files.sysDup
    split
    · exact hm
    · split
      · exact hm
      · split <;> exact hm
  | sysClose c fd =>
    refine hon c _ fun p _ => hin p _ ?_
    unfold Files.sysClose
    split
    · exact hm
    · split
      · exact fileclose_counted (m := m.setFd p fd none) hm _
      · exact hm
  | sysPipe c =>
    refine hon c _ fun p _ => hin p _ ?_
    unfold Files.sysPipe
    split
    · exact hm
    · rename_i f m' hf
      obtain ⟨_, rfl⟩ := filealloc_eq hf
      exact Counted.goto (m := m.addRef f 1) hm (opens_nonneg · _)
  | sysPipeEnd c ok =>
    refine hon c _ fun p _ => ?_
    split
    · exact pipeEnd_counted hm _ ok
    · exact hm
  | closeNext c =>
    refine hon c _ fun p _ => ?_
    split
    · rename_i f rest _
      split
      · refine (fileclose_counted hm f).goto fun ip => ?_
        cases rest <;> exact opens_nonneg ip _
      · exact hm
    · exact hm
  | copy c =>
    refine hon c _ fun p hc => ?_
    unfold Files.copy
    split
    · rename_i st np k hpc hround
      split
      · rename_i hst
        refine copyRound_counted hm np fun hnone => ?_
        have hshare : sharesCwd m p = false := hok p hc
        cases st with
        | forkThreadId => rfl
        | tcRun => simp [sharesCwd, hpc, hround, hnone] at hshare
        | _ => cases hst
      · exact hm
    · exact hm
  | exitRound c => exact hon c _ fun p _ => exitRound_counted hm

end Step

/-! ## Runs -/

section Runs

variable [NeZero N]

theorem filesBoot_counted : Counted (filesBoot N K) := by
  intro ip
  have h1 : tally (FileKind.uses ip) (filesBoot N K).kind = 0 := tally_eq_zero fun f => rfl
  have h2 : tally (handFor ip) (filesBoot N K).hand = 0 := tally_eq_zero fun q => rfl
  have h3 : tally (FilePc.opens ip) (filesBoot N K).call = 0 := tally_eq_zero fun q => rfl
  have h4 : tally (cwdFor ip) (fun _ : Fin N => none) = 0 := tally_eq_zero fun q => rfl
  unfold references
  rw [h1, h2, h3]
  simp only [filesBoot, tally_move, h4, cwdFor, update_count, Option.some.injEq, reduceCtorEq, if_false]
  split_ifs <;> omega

theorem reach_counted {ops : List (FileOp N K)} (h : Along Files.step DirOk (filesBoot N K) ops) :
    Counted (run Files.step (filesBoot N K) ops) :=
  h.inv (fun _ _ ho hm => step_counted hm ho) filesBoot_counted

end Runs

/-- the slots that stand in `ip`, and the files of it -/
theorem card_le_references (m : Files N K) (ip : InodeId) (live : Fin N → Prop) [DecidablePred live] :
    ((Finset.univ.filter fun q => live q ∧ m.cwd q = some ip).card : ℤ) +
        (Finset.univ.filter fun f => 0 < m.ref f ∧ m.kind f = .inode ip).card ≤ references m ip := by
  have hcwd : ((Finset.univ.filter fun q => live q ∧ m.cwd q = some ip).card : ℤ) ≤ tally (cwdFor ip) m.cwd := by
    rw [Finset.card_filter]
    push_cast
    refine Finset.sum_le_sum fun q _ => ?_
    unfold cwdFor
    split_ifs <;> simp_all
  have hfile : ((Finset.univ.filter fun f => 0 < m.ref f ∧ m.kind f = .inode ip).card : ℤ) ≤
      tally (FileKind.uses ip) m.kind := by
    rw [Finset.card_filter]
    push_cast
    refine Finset.sum_le_sum fun f _ => ?_
    split_ifs with h
    · rw [h.2]
      simp [FileKind.uses]
    · exact uses_nonneg ip _
  have hhand : 0 ≤ tally (handFor ip) m.hand := tally_nonneg (handFor_nonneg ip) _
  have hcall : 0 ≤ tally (FilePc.opens ip) m.call := tally_nonneg (opens_nonneg ip) _
  unfold references
  omega

/-- an entry of the cache that is used for another inode has no references -/
theorem iref_eq_zero_of_recycled {m : Files N K} {o : FileOp N K} {ip : InodeId} (h : (m.step o).ident ip ≠ m.ident ip) :
    m.iref ip = 0 := by
  by_cases ho : ∃ k, o = .kernel k
  · obtain ⟨k, rfl⟩ := ho
    refine absurd ?_ h
    simp only [Files.step, Files.kernel]
    split <;> rfl
  · push Not at ho
    exact (step_frame ho).recycled ip h

/-- **Current directories are counted**, in every run of steps that are `DirOk`: `ref` of an inode is at least the number of
slots in use that stand in it, ZOMBIEs apart, plus the number of open files of it; and no step uses the entry of a current
directory for another inode. -/
theorem cwd_counted [NeZero N] (ops : List (FileOp N K)) (h : Along Files.step DirOk (filesBoot N K) ops)
    (m : Files N K) (hm : m = run Files.step (filesBoot N K) ops) (ip : InodeId) :
    ((Finset.univ.filter fun q =>
          ((m.st.ptable q).state ≠ .zombie ∧ (m.st.ptable q).state ≠ .unused) ∧ m.cwd q = some ip).card : ℤ) +
        (Finset.univ.filter fun f => 0 < m.ref f ∧ m.kind f = .inode ip).card ≤ m.iref ip ∧
      ∀ o, (m.step o).ident ip ≠ m.ident ip → ∀ q, m.cwd q ≠ some ip := by
  have hc := reach_counted h ip
  rw [← hm] at hc
  refine ⟨(card_le_references m ip _).trans hc, fun o hid q hq => ?_⟩
  have h0 := iref_eq_zero_of_recycled hid
  have hle := card_le_references m ip fun _ => True
  have hpos : 0 < (Finset.univ.filter fun q => True ∧ m.cwd q = some ip).card :=
    Finset.card_pos.2 ⟨q, by simpa using hq⟩
  omega

/-- the process on the CPU goes to the directory with number `inum`, which is the entry `ip` of the cache -/
def chdirSteps (inum : ℕ) (ip : InodeId) : List (FileOp 64 1) := [.enter 0, .iget 0 1 inum, .sysChdir 0 ip, .leave 0]

/-- init forks a child, which goes to a directory and opens a file -/
def childMoves : List (FileOp 64 1) := List.flatten
  [[.kernel (.dispatch 0 0)], forkSteps 0, [.kernel (.preempt 0), .kernel (.dispatch 0 1)], chdirSteps 4 1,
    [.enter 0, .iget 0 1 5, .sysOpen 0 2, .sysOpenEnd 0, .leave 0]]

/-- the theorem at that run: the child's directory is counted, and does not go away -/
theorem cwd_counted_child :
    (run Files.step (filesBoot 64 1) childMoves).cwd 1 = some 1 ∧
      ((Finset.univ.filter fun q =>
            (((run Files.step (filesBoot 64 1) childMoves).st.ptable q).state ≠ .zombie ∧
              ((run Files.step (filesBoot 64 1) childMoves).st.ptable q).state ≠ .unused) ∧
              (run Files.step (filesBoot 64 1) childMoves).cwd q = some 1).card : ℤ) +
          (Finset.univ.filter fun f => 0 < (run Files.step (filesBoot 64 1) childMoves).ref f ∧
            (run Files.step (filesBoot 64 1) childMoves).kind f = .inode 1).card ≤
        (run Files.step (filesBoot 64 1) childMoves).iref 1 := by
  refine ⟨by decide +kernel, ?_⟩
  exact (cwd_counted childMoves (by decide +kernel) _ rfl 1).1

/-- a child of init goes to a directory, makes a thread there, and goes back to the root -/
def siblingMoves : List (FileOp 64 1) := List.flatten
  [[.kernel (.dispatch 0 0)], forkSteps 0, [.kernel (.preempt 0), .kernel (.dispatch 0 1)], chdirSteps 4 1,
    threadCreateSteps 0, chdirSteps 1 0, [.enter 0]]

/-- **A directory that is gone.** The thread is RUNNABLE and stands in entry 1 of the cache, which has no references; the
next `iget` uses the entry for another inode. -/
theorem directory_recycled :
    let m := run Files.step (filesBoot 64 1) siblingMoves
    (m.st.ptable 2).state = .runnable ∧ m.cwd 2 = some 1 ∧ m.iref 1 = 0 ∧ m.ident 1 = (1, 4) ∧
      (m.step (.iget 0 1 6)).ident 1 = (1, 6) ∧ (m.step (.iget 0 1 6)).cwd 2 = some 1 := by
  decide +kernel

end Xv6Threads.Kernel
