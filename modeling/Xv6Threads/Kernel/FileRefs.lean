/-
Reference counts of open files, and what a new slot inherits.

The table of descriptors of a slot is emptied by `exit` only, and only for the slot that calls it. A thread that ends by
`thread_exit`, or by the `exit` of a sibling, keeps its descriptors; `wait` frees the slot with them, and neither
`allocproc` nor the copying loops clear it. So the counts are too high for ever (`refs_leaked`), and the next process made
in that slot has descriptors its parent does not have (`descriptors_inherited`).

Both are right as long as no slot ends with descriptors open, or in the middle of a file system call, in any way but its own
`exit` (`FilesOk`):
- `Tables`: ended slots have empty tables, a slot that is being made has what the copying loop has reached, and every
  reference is in a table or in the hands of a call.
- `file_refs_match`: when no call is in progress, `ref` of a file is the number of descriptors for it.
- `descriptors_copied`: a new process or thread has its creator's descriptors.
-/
import Xv6Threads.Core.Tally
import Xv6Threads.Kernel.Files

namespace Xv6Threads.Kernel

open Xv6Threads.Core Function

variable {N K : ℕ}

/-! ## Counting references -/

/-- the descriptors of a table that are for `f` -/
def entries (f : FileId) (t : Fd → Option FileId) : ℤ := tally (fun x => if x = some f then 1 else 0) t

/-- the references to `f` that a call has and no table -/
def FilePc.holds (f : FileId) : FilePc → ℤ
  | .piping g => if g = f then 1 else 0
  | .closing g rest => (g :: rest).count f
  | _ => 0

/-- how many descriptors have been copied into the slot that is being made -/
def progress (st : Making) (e : FilePc) : ℕ :=
  match st with
  | .forkThreadId | .tcRun =>
    match e with
    | .copying k => k
    | .copied => 16
    | _ => 0
  | .forkIsthread | .forkIsjoined | .forkRun => 16
  | _ => 0

/-- where in the kernel a process is while it is in a file system call -/
def Placed (pc : Pc N) : FilePc → Prop
  | .out => True
  | .copying _ | .copied => ∃ st np, pc = .make st np ∧ st.copies = true
  | _ => pc = .user ∨ pc = .exitClose

/-- the slot has descriptors, or is in the middle of a file system call -/
def Loaded (m : Files N K) (q : Fin N) : Prop := (∃ fd, m.ofile q fd ≠ none) ∨ m.call q ≠ .out

instance decidableLoaded (m : Files N K) (q : Fin N) : Decidable (Loaded m q) := instDecidableOr

/-- no slot ends loaded in another way than through its own `exit`: by the `exit` of a sibling, by `wait`, or by
`thread_exit`; and no other CPU runs a slot of a process that dies or is reaped -/
def FilesOk (m : Files N K) : FileOp N K → Prop
  | .kernel o => SparesAll m.st o (Loaded m) ∧ (∀ p ∈ retiring m.st o, ¬ Loaded m p) ∧ CpusApart m.st o
  | _ => True

instance decidableFilesOk (m : Files N K) (o : FileOp N K) : Decidable (FilesOk m o) := by
  cases o <;> simp only [FilesOk] <;> infer_instance

structure Tables (m : Files N K) : Prop where
  ended : ∀ q, Ended m.st q → ∀ fd, m.ofile q fd = none
  copied : ∀ p st np, (m.st.ptable p).state.life = .active → m.st.pc p = .make st np →
    ∀ fd : Fd, m.ofile np fd = if fd.val < progress st (m.call p) then m.ofile p fd else none
  busy : ∀ q, m.call q ≠ .out → (m.st.ptable q).state.life = .active ∧ Placed (m.st.pc q) (m.call q)
  refs : ∀ f, m.ref f = tally (entries f) m.ofile + tally (FilePc.holds f) m.call

section Counts

theorem entries_update (f : FileId) (t : Fd → Option FileId) (fd : Fd) (v : Option FileId) :
    entries f (update t fd v) =
      entries f t - (if t fd = some f then 1 else 0) + (if v = some f then 1 else 0) :=
  tally_move _ t fd v

theorem holds_close (f : FileId) (l : List FileId) : (FilePc.close l).holds f = l.count f := by
  cases l <;> rfl

end Counts

/-! ## The kernel's steps -/

section Kernel

variable {odd : Bool → Prop} {m : Files N K} {o : Op N K}

theorem act_ne_idle_of_placed {pc : Pc N} {e : FilePc} (h : Placed pc e) (he : e ≠ .out) : pc = .user ∨ pc.act ≠ .idle := by
  have hcall : pc = .user ∨ pc = .exitClose → pc = .user ∨ pc.act ≠ .idle := by
    rintro (rfl | rfl)
    · exact .inl rfl
    · exact .inr (by simp [Pc.act])
  cases e with
  | out => exact absurd rfl he
  | copying | copied =>
    obtain ⟨st, np, rfl, _⟩ := h
    exact .inr (by simp [Pc.act])
  | inside | opened | piping | closing => exact hcall h

/-- a process that made no store stands where it stood -/
theorem kernel_call_of_active (hk : Kept odd m.st) {q : Fin N} (hq : (m.st.ptable q).state.life = .active)
    (hs : ∀ st np, storing m.st o ≠ some (q, st, np)) : started m.st o (m.settled o) .out q = m.call q := by
  rw [started_of_active hk hq]
  unfold Files.settled
  cases hst : storing m.st o with
  | none => rfl
  | some x =>
    obtain ⟨p, st, np⟩ := x
    refine update_of_ne ?_ _ _
    rintro rfl
    exact hs st np hst

/-- the maker goes on, and so does what it has copied -/
theorem progress_next {st : Making} (hrun : st ≠ .forkRun) (htc : st ≠ .tcRun) :
    progress st.next .out = progress st (if st.copies then .copied else .out) := by
  cases st with
  | waitingFor f => cases f <;> rfl
  | forkRun => exact absurd rfl hrun
  | tcRun => exact absurd rfl htc
  | kstack | queuePos | threadnum | forkPgdir | forkParent | forkThreadId | forkIsthread | forkIsjoined => rfl
  | tcPid | tcPgdir | tcParent | tcCount | tcIsthread | tcIsjoined | tcThreadId => rfl

theorem ready_storing {p np : Fin N} {st : Making} (hs : storing m.st o = some (p, st, np))
    (hready : ∀ p ∈ acting m.st o, m.ready p) : m.call p = if st.copies then .copied else .out := by
  obtain ⟨c, ok, rfl, hc, hpc, _⟩ := step_storing hs
  have hp := hready p hc
  simp only [Files.ready, hpc] at hp
  exact hp

/-- **A step of the kernel.** Nothing is left in the table of a slot that ends, and what is being copied goes on. -/
theorem kernel_tables (hk : Kept odd m.st) (ht : Tables m) (hready : ∀ p ∈ acting m.st o, m.ready p)
    (hspares : SparesAll m.st o (Loaded m)) (hretire : ∀ p ∈ retiring m.st o, ¬ Loaded m p) :
    Tables { m with st := Kernel.step m.st o, call := started m.st o (m.settled o) .out,
                    hand := started m.st o m.hand [] } := by
  have hempty : ∀ q, ¬ Loaded m q → ∀ fd, m.ofile q fd = none := by
    intro q hq fd
    by_contra hne
    exact hq (.inl ⟨fd, hne⟩)
  refine ⟨?_, ?_, ?_, ?_⟩
  · intro q hq
    rcases ended_before hk hq with hq | hq | hq | hq | ⟨p, st, hs, hst⟩
    · exact ht.ended q hq
    · -- `exit` has closed everything before it takes the lock
      have hr := hready q (acting_of_exiting hq)
      cases o with
      | exec c ok =>
        simp only [exiting, Option.mem_def, Option.filter_eq_some_iff, decide_eq_true_eq] at hq
        simp only [Files.ready, hq.2] at hr
        exact hr.2.1
      | dispatch | preempt | trap | call | sleepDev | wakeDev => cases hq
    · exact hempty q fun hl => hspares.not_killed hl hq
    · exact hempty q (hretire q hq)
    · -- an allocation failed, before anything was copied
      obtain ⟨c, ok, _, hc, hpc, _⟩ := step_storing hs
      intro fd
      have h := ht.copied p st q (hk.life_active hc) hpc fd
      rw [h, if_neg]
      rcases hst with ⟨f, rfl⟩ | rfl <;> simp [progress]
  · intro p st np hl hpc fd
    change m.ofile np fd = if fd.val < progress st (started m.st o (m.settled o) .out p) then m.ofile p fd else none
    rcases maker_before hk hl hpc with ⟨hl₀, hpc₀, hs⟩ | ⟨st', hs, rfl, hrun, htc⟩ | ⟨f, rfl, _, hfree⟩
    · rw [kernel_call_of_active hk hl₀ hs]
      exact ht.copied p st np hl₀ hpc₀ fd
    · obtain ⟨c, ok, _, hc, hpc', _⟩ := step_storing hs
      have hout : started m.st o (m.settled o) .out p = .out := by
        rw [started_of_active hk (hk.life_active hc)]
        simp [Files.settled, hs]
      rw [hout, progress_next hrun htc, ← ready_storing hs hready]
      exact ht.copied p st' np (hk.life_active hc) hpc' fd
    · rw [ht.ended np (.inl (by rw [hfree]; rfl)) fd, if_neg]
      simp [progress]
  · intro q hq
    change started m.st o (m.settled o) .out q ≠ .out at hq
    have hsame : started m.st o (m.settled o) .out q = m.call q := (kernel_call m o q).resolve_right hq
    have hq₀ : m.call q ≠ .out := hsame ▸ hq
    obtain ⟨hl, hplaced⟩ := ht.busy q hq₀
    have hact : q ∉ acting m.st o := by
      intro hmem
      rcases acting_cases hmem with hu | ⟨c, ok, rfl, hc⟩
      · have hr := hready q hmem
        simp only [Files.ready, hu] at hr
        exact hq₀ hr
      · by_cases hs : ∃ st np, m.st.pc q = .make st np
        · -- the maker has just made its store, and is done with the copying before it
          obtain ⟨st, np, hpc⟩ := hs
          refine hq ?_
          rw [started_of_active hk hl]
          simp [Files.settled, storing_exec hc hpc ok]
        · have hr := hready q hmem
          push Not at hs
          unfold Files.ready at hr
          split at hr
          · rename_i st np hpc
            exact hs st np hpc
          · exact hq₀ hr.1
          · exact hq₀ hr
    obtain ⟨hl', hpc', _⟩ := busy_stays hk hl (act_ne_idle_of_placed hplaced hq₀) hact
      (hspares.not_killed (.inr hq₀))
    change ((Kernel.step m.st o).ptable q).state.life = .active ∧ Placed ((Kernel.step m.st o).pc q) (started m.st o (m.settled o) .out q)
    rw [hpc', hsame]
    exact ⟨hl', hplaced⟩
  · intro f
    change m.ref f = tally (entries f) m.ofile + tally (FilePc.holds f) (started m.st o (m.settled o) .out)
    rw [ht.refs f]
    congr 1
    refine Finset.sum_congr rfl fun q _ => ?_
    by_cases hq : m.call q = .out
    · rcases kernel_call m o q with hsame | hout
      · rw [hsame]
      · rw [hout, hq]
    · have hl := (ht.busy q hq).1
      by_cases hs : ∃ st np, storing m.st o = some (q, st, np)
      · -- only the copying is over for it, and that holds no reference
        obtain ⟨st, np, hs⟩ := hs
        have hcall := ready_storing hs hready
        rw [hcall]
        rcases kernel_call m o q with hsame | hout
        · rw [hsame, hcall]
        · rw [hout]
          split <;> rfl
      · push Not at hs
        rw [kernel_call_of_active hk hl hs]

end Kernel

/-! ## File system calls -/

section Calls

variable {odd : Bool → Prop} {m m' : Files N K} {p : Fin N}

/-- what the four functions of file.c and fs.c leave alone -/
theorem Tables.congr (ht : Tables m) (hst : m'.st = m.st) (hof : m'.ofile = m.ofile) (hcall : m'.call = m.call)
    (href : m'.ref = m.ref) : Tables m' := by
  refine ⟨?_, ?_, ?_, ?_⟩
  · rw [hst, hof]
    exact ht.ended
  · rw [hst, hof, hcall]
    exact ht.copied
  · rw [hst, hcall]
    exact ht.busy
  · rw [hof, hcall, href]
    exact ht.refs

/-- **A process works on its own table.** The counts stay right if the change of `ref` is the change in the table and in
the hands of the call. -/
theorem Tables.own (hk : Kept odd m.st) (ht : Tables m) (hl : (m.st.ptable p).state.life = .active)
    (hpc : m.st.pc p = .user ∨ m.st.pc p = .exitClose) {t : Fd → Option FileId} {e : FilePc} (hst : m'.st = m.st)
    (hof : m'.ofile = update m.ofile p t) (hcall : m'.call = update m.call p e)
    (he : Placed (m.st.pc p) e)
    (href : ∀ f, m'.ref f = m.ref f + (entries f t - entries f (m.ofile p)) + (e.holds f - (m.call p).holds f)) :
    Tables m' := by
  have hother : ∀ q, q ≠ p → m'.ofile q = m.ofile q ∧ m'.call q = m.call q := by
    intro q hq
    rw [hof, hcall, update_of_ne hq, update_of_ne hq]
    exact ⟨rfl, rfl⟩
  refine ⟨?_, ?_, ?_, ?_⟩
  · intro q hq
    rw [hst] at hq
    have hqp : q ≠ p := by
      rintro rfl
      rcases hq with h | h <;> rw [hl] at h <;> cases h
    rw [(hother q hqp).1]
    exact ht.ended q hq
  · intro r st np hr hm
    rw [hst] at hr hm
    have hrp : r ≠ p := by
      rintro rfl
      rw [hm] at hpc
      rcases hpc with h | h <;> cases h
    have hnp : np ≠ p := by
      rintro rfl
      have hemb := life_eq_embryo hk hr hm
      rw [hl] at hemb
      cases hemb
    rw [(hother np hnp).1, (hother r hrp).1, (hother r hrp).2]
    exact ht.copied r st np hr hm
  · intro q hq
    by_cases hqp : q = p
    · subst hqp
      rw [hst, hcall, update_self]
      exact ⟨hl, he⟩
    · rw [(hother q hqp).2] at hq ⊢
      rw [hst]
      exact ht.busy q hq
  · intro f
    rw [href f, hof, hcall, tally_move, tally_move, ht.refs f]
    omega

/-- and if it leaves its table alone -/
theorem Tables.hold (hk : Kept odd m.st) (ht : Tables m) (hl : (m.st.ptable p).state.life = .active)
    (hpc : m.st.pc p = .user ∨ m.st.pc p = .exitClose) {e : FilePc} (hst : m'.st = m.st) (hof : m'.ofile = m.ofile)
    (hcall : m'.call = update m.call p e) (he : Placed (m.st.pc p) e)
    (href : ∀ f, m'.ref f = m.ref f + (e.holds f - (m.call p).holds f)) : Tables m' := by
  refine ht.own hk hl hpc (t := m.ofile p) hst ?_ hcall he fun f => ?_
  · rw [hof, update_eq_self]
  · rw [href f]
    omega

theorem fdalloc_free {t : Fd → Option FileId} {fd : Fd} (h : fdalloc t = some fd) : t fd = none := by
  simpa using List.find?_some h

theorem mem_drop_finRange (k : ℕ) (fd : Fd) : fd ∈ (List.finRange 16).drop k ↔ k ≤ fd.val := by
  rw [List.mem_drop_iff_getElem]
  constructor
  · rintro ⟨i, hi, hfd⟩
    rw [List.getElem_finRange] at hfd
    rw [← hfd]
    simp
  · intro hk
    refine ⟨fd.val - k, ?_, ?_⟩
    · simp
      omega
    · rw [List.getElem_finRange]
      ext
      simp
      omega

/-- the descriptor that the copying loop finds, and the ones it passes by -/
theorem nextOpen_some {t : Fd → Option FileId} {k : ℕ} {fd : Fd} {f : FileId} (h : nextOpen t k = some (fd, f)) :
    k ≤ fd.val ∧ t fd = some f ∧ ∀ fd' : Fd, k ≤ fd'.val → fd' < fd → t fd' = none := by
  unfold nextOpen at h
  obtain ⟨l₁, a, l₂, hl, ha, hbefore⟩ := List.findSome?_eq_some_iff.1 h
  rw [Option.map_eq_some_iff] at ha
  obtain ⟨g, hg, hpair⟩ := ha
  cases hpair
  refine ⟨(mem_drop_finRange k fd).1 (by rw [hl]; simp), hg, fun fd' hk hlt => ?_⟩
  -- the list is in order, so what comes before `fd` is in the part the search has passed
  have hord : ((List.finRange 16).drop k).Pairwise (· < ·) := (List.pairwise_lt_finRange 16).drop
  have hfd' := (mem_drop_finRange k fd').2 hk
  rw [hl] at hord hfd'
  rcases List.mem_append.1 hfd' with hin | hin
  · simpa using hbefore fd' hin
  · rcases List.mem_cons.1 hin with rfl | hin
    · exact absurd hlt (lt_irrefl _)
    · have := (List.pairwise_cons.1 (List.pairwise_append.1 hord).2.1).1 fd' hin
      exact absurd hlt (not_lt.2 this.le)

theorem nextOpen_none {t : Fd → Option FileId} {k : ℕ} (h : nextOpen t k = none) {fd : Fd} (hk : k ≤ fd.val) :
    t fd = none := by
  unfold nextOpen at h
  rw [List.findSome?_eq_none_iff] at h
  simpa using h fd ((mem_drop_finRange k fd).2 hk)

theorem open_tables (hk : Kept odd m.st) (ht : Tables m) (hl : (m.st.ptable p).state.life = .active)
    (hpc : m.st.pc p = .user ∨ m.st.pc p = .exitClose) (hin : m.call p = .inside) (ip : InodeId) :
    Tables (m.sysOpen p ip) := by
  unfold Files.sysOpen
  split
  · split
    · exact ht
    · rename_i f m' hf
      obtain ⟨h0, rfl⟩ := filealloc_eq hf
      split
      · refine ht.hold hk hl hpc (e := .closing f []) rfl rfl rfl hpc fun g => ?_
        simp only [Files.goto_ref, Files.addRef_ref, update_count, hin, FilePc.holds, List.count_singleton]
        by_cases hg : f = g <;> simp [hg]
      · rename_i fd hfd
        have hfree : m.ofile p fd = none := fdalloc_free hfd
        refine ht.own hk hl hpc (t := update (m.ofile p) fd (some f)) (e := .opened f ip) rfl rfl rfl hpc
          fun g => ?_
        simp only [Files.goto_ref, Files.give_ref, Files.setFd_ref, Files.addRef_ref, update_count, hin, FilePc.holds,
          entries_update, hfree]
        by_cases hg : f = g <;> simp [hg]
  · exact ht

theorem dup_tables (hk : Kept odd m.st) (ht : Tables m) (hl : (m.st.ptable p).state.life = .active)
    (hpc : m.st.pc p = .user ∨ m.st.pc p = .exitClose) (fd : Fd) : Tables (m.sysDup p fd) := by
  unfold Files.sysDup
  split
  · exact ht
  · rename_i f _
    split
    · exact ht
    · rename_i fd' hfd
      have hfree : m.ofile p fd' = none := fdalloc_free hfd
      split
      · refine ht.own hk hl hpc (t := update (m.ofile p) fd' (some f)) (e := m.call p) rfl rfl ?_ ?_ fun g => ?_
        · exact (update_eq_self p m.call).symm
        · by_cases he : m.call p = .out
          · rw [he]
            trivial
          · exact (ht.busy p he).2
        · simp only [Files.addRef_ref, Files.setFd_ref, update_count, entries_update, hfree]
          by_cases hg : f = g <;> simp [hg]
      · exact ht

/-- a file is closed and its descriptor goes -/
theorem close_tables (hk : Kept odd m.st) (ht : Tables m) (hl : (m.st.ptable p).state.life = .active)
    (hpc : m.st.pc p = .user ∨ m.st.pc p = .exitClose) {fd : Fd} {f : FileId} (hfd : m.ofile p fd = some f)
    {e : FilePc} (he : Placed (m.st.pc p) e) (hsame : ∀ g, e.holds g = (m.call p).holds g)
    (hm : m' = ((m.setFd p fd none).fileclose p f).goto p e) : Tables m' := by
  obtain ⟨h1, h2, h3, h4⟩ := fileclose_fields (m.setFd p fd none) p f
  refine ht.own hk hl hpc (t := update (m.ofile p) fd none) (e := e) ?_ ?_ ?_ he fun g => ?_
  · rw [hm]
    exact h1
  · rw [hm]
    exact h2
  · rw [hm]
    exact congrArg (update · p e) h3
  · rw [hm, hsame g]
    simp only [Files.goto_ref, h4, Files.setFd_ref, update_count, entries_update, hfd]
    by_cases hg : f = g <;> simp [hg]

theorem pipe_tables (hk : Kept odd m.st) (ht : Tables m) (hl : (m.st.ptable p).state.life = .active)
    (hpc : m.st.pc p = .user ∨ m.st.pc p = .exitClose) (hin : m.call p = .inside) : Tables (m.sysPipe p) := by
  unfold Files.sysPipe
  split
  · exact ht
  · rename_i f m' hf
    obtain ⟨h0, rfl⟩ := filealloc_eq hf
    refine ht.hold hk hl hpc (e := .piping f) rfl rfl rfl hpc fun g => ?_
    simp only [Files.goto_ref, Files.addRef_ref, update_count, hin, FilePc.holds]
    by_cases hg : f = g <;> simp [hg]

theorem setFd_setFd_ofile (m : Files N K) (p : Fin N) (fd0 fd1 : Fd) (v0 v1 : Option FileId) :
    ((m.setFd p fd0 v0).setFd p fd1 v1).ofile =
      update m.ofile p (update (update (m.ofile p) fd0 v0) fd1 v1) := by
  change update (update m.ofile p (update (m.ofile p) fd0 v0)) p
    (update (update m.ofile p (update (m.ofile p) fd0 v0) p) fd1 v1) = _
  rw [update_self, update_idem]

theorem pipeEnd_tables (hk : Kept odd m.st) (ht : Tables m) (hl : (m.st.ptable p).state.life = .active)
    (hpc : m.st.pc p = .user ∨ m.st.pc p = .exitClose) {f : FileId} (hin : m.call p = .piping f) (ok : Bool) :
    Tables (m.sysPipeEnd p f ok) := by
  -- the error paths give both files to the call
  have hbad : ∀ f', m.ref f' = 0 → ∀ m' : Files N K, m'.st = m.st → m'.ofile = m.ofile → m'.call = m.call →
      m'.ref = update m.ref f' 1 → Tables (m'.goto p (.closing f [f'])) := by
    intro f' h0 m' hst hof hcall href
    refine ht.hold hk hl hpc (e := .closing f [f']) hst hof ?_ hpc fun g => ?_
    · rw [← hcall]
      rfl
    · simp only [Files.goto_ref, href, update_count, h0, hin, FilePc.holds, List.count_cons, List.count_nil]
      by_cases hg : f' = g <;> by_cases hf : f = g <;> simp [hg, hf]
  unfold Files.sysPipeEnd
  split
  · refine ht.hold hk hl hpc (e := .closing f []) rfl rfl rfl hpc fun g => ?_
    simp only [Files.goto_ref, hin, FilePc.holds, List.count_singleton]
    by_cases hg : f = g <;> simp [hg]
  · rename_i f' m' hf'
    obtain ⟨h0, rfl⟩ := filealloc_eq hf'
    have href : (m.addRef f' 1).ref = update m.ref f' 1 := by
      unfold Files.addRef
      rw [h0, zero_add]
    split
    · dsimp only
      split
      · exact hbad f' h0 _ rfl rfl rfl href
      · rename_i fd0 hfd0
        have hfree0 : m.ofile p fd0 = none := fdalloc_free hfd0
        split
        · exact hbad f' h0 _ rfl rfl rfl href
        · rename_i fd1 hfd1
          have hfree1 : update (m.ofile p) fd0 (some f) fd1 = none := fdalloc_free hfd1
          refine ht.own hk hl hpc (t := update (update (m.ofile p) fd0 (some f)) fd1 (some f'))
            (e := .inside) rfl ?_ rfl hpc fun g => ?_
          · exact setFd_setFd_ofile _ p fd0 fd1 _ _
          · simp only [Files.goto_ref, Files.setFd_ref, Files.addRef_ref, update_count, h0, hin, FilePc.holds,
              entries_update, hfree0, hfree1, Option.some.injEq, reduceCtorEq, if_false]
            split_ifs <;> omega
    · exact hbad f' h0 _ rfl rfl rfl href

theorem closeNext_tables (hk : Kept odd m.st) (ht : Tables m) (hl : (m.st.ptable p).state.life = .active)
    (hpc : m.st.pc p = .user ∨ m.st.pc p = .exitClose) {f : FileId} {rest : List FileId}
    (hin : m.call p = .closing f rest) : Tables ((m.fileclose p f).goto p (.close rest)) := by
  obtain ⟨h1, h2, h3, h4⟩ := fileclose_fields m p f
  refine ht.hold hk hl hpc (e := .close rest) h1 h2 ?_ ?_ fun g => ?_
  · exact congrArg (update · p _) h3
  · cases rest <;> exact hpc
  · rw [holds_close, hin]
    simp only [Files.goto_ref, h4, update_count, FilePc.holds, List.count_cons]
    by_cases hg : f = g <;> simp [hg]

theorem progress_round {st : Making} (hst : st.copies = true) {k : ℕ} (hr : m.round p = some k) :
    progress st (m.call p) = k := by
  cases hc : m.call p with
  | out | copying =>
    simp only [Files.round, hc, Option.some.injEq] at hr
    cases st <;> simp_all [Making.copies, progress]
  | inside | opened | piping | closing | copied => simp [Files.round, hc] at hr

theorem progress_copying {st : Making} (hst : st.copies = true) (k : ℕ) : progress st (.copying k) = k := by
  cases st <;> simp_all [Making.copies, progress]

theorem holds_round {k : ℕ} (hr : m.round p = some k) (f : FileId) : (m.call p).holds f = 0 := by
  cases hc : m.call p with
  | out | copying => rfl
  | inside | opened | piping | closing | copied => simp [Files.round, hc] at hr

/-- **The copying loop.** The maker goes on in it, with the new slot's table changed to `t`. -/
theorem Tables.copy (hk : Kept odd m.st) (ht : Tables m) (hl : (m.st.ptable p).state.life = .active) {np : Fin N}
    {st : Making} (hpc : m.st.pc p = .make st np) (hst : st.copies = true) {k : ℕ} (hr : m.round p = some k)
    {t : Fd → Option FileId} {e : FilePc} (hsame : m'.st = m.st) (hof : m'.ofile = update m.ofile np t)
    (hcall : m'.call = update m.call p e) (he : e = .copied ∨ ∃ k, e = .copying k)
    (hcopied : ∀ fd : Fd, t fd = if fd.val < progress st e then m.ofile p fd else none)
    (href : ∀ f, m'.ref f = m.ref f + (entries f t - entries f (m.ofile np))) : Tables m' := by
  have hemb := life_eq_embryo hk hl hpc
  have hne : p ≠ np := by
    rintro rfl
    rw [hl] at hemb
    cases hemb
  refine ⟨?_, ?_, ?_, ?_⟩
  · intro q hq
    rw [hsame] at hq
    have hqn : q ≠ np := by
      rintro rfl
      rcases hq with h | h <;> rw [hemb] at h <;> cases h
    rw [hof, update_of_ne hqn]
    exact ht.ended q hq
  · intro r st' np' hr' hm fd
    rw [hsame] at hr' hm
    have hrn : r ≠ np := by
      rintro rfl
      rw [hemb] at hr'
      cases hr'
    rw [hof, hcall, update_of_ne hrn]
    by_cases hrp : r = p
    · subst hrp
      rw [hpc] at hm
      cases hm
      rw [update_self, update_self]
      exact hcopied fd
    · have hnn : np' ≠ np := by
        rintro rfl
        exact hrp (hk.one_maker hr' hl hm hpc)
      rw [update_of_ne hnn, update_of_ne hrp]
      exact ht.copied r st' np' hr' hm fd
  · intro q hq
    rw [hcall] at hq ⊢
    rw [hsame]
    by_cases hqp : q = p
    · subst hqp
      rw [update_self]
      refine ⟨hl, ?_⟩
      rcases he with rfl | ⟨k, rfl⟩ <;> exact ⟨st, np, hpc, hst⟩
    · rw [update_of_ne hqp] at hq ⊢
      exact ht.busy q hq
  · intro f
    have he0 : e.holds f = 0 := by rcases he with rfl | ⟨k, rfl⟩ <;> rfl
    rw [href f, hof, hcall, tally_move, tally_move, ht.refs f, holds_round hr, he0]
    omega

theorem copyRound_tables (hk : Kept odd m.st) (ht : Tables m) (hl : (m.st.ptable p).state.life = .active) {np : Fin N}
    {st : Making} (hpc : m.st.pc p = .make st np) (hst : st.copies = true) {k : ℕ} (hr : m.round p = some k) :
    Tables (m.copyRound p np st k) := by
  have hnp : ∀ fd : Fd, m.ofile np fd = if fd.val < k then m.ofile p fd else none := by
    intro fd
    rw [← progress_round hst hr]
    exact ht.copied p st np hl hpc fd
  unfold Files.copyRound
  split
  · rename_i fd₀ f hopen
    obtain ⟨hk₀, hfd₀, hpassed⟩ := nextOpen_some hopen
    have hnew : m.ofile np fd₀ = none := by rw [hnp, if_neg (Nat.not_lt.2 hk₀)]
    split
    · refine ht.copy hk hl hpc hst hr (t := update (m.ofile np) fd₀ (some f)) (e := .copying (fd₀ + 1)) rfl rfl rfl
        (.inr ⟨_, rfl⟩) ?_ ?_
      · intro fd
        rw [progress_copying hst]
        by_cases heq : fd = fd₀
        · subst heq
          simp [hfd₀]
        · rw [update_of_ne heq, hnp fd]
          have hval : fd.val ≠ fd₀.val := fun h => heq (Fin.ext h)
          by_cases hlt : fd.val < k
          · rw [if_pos hlt, if_pos (by omega)]
          · by_cases hlt₀ : fd.val < fd₀.val
            · -- an entry that the caller does not have stays as it is in the new slot, and that is empty
              rw [if_neg hlt, if_pos (by omega), hpassed fd (Nat.le_of_not_lt hlt) hlt₀]
            · rw [if_neg hlt, if_neg (by omega)]
      · intro g
        simp only [Files.goto_ref, Files.addRef_ref, Files.setFd_ref, update_count, entries_update, hnew]
        by_cases hg : f = g <;> simp [hg]
    · exact ht
  · rename_i hnone
    refine ht.copy hk hl hpc hst hr (t := m.ofile np) (e := .copied) rfl ?_ rfl (.inl rfl) ?_ ?_
    · exact (update_eq_self np m.ofile).symm
    · intro fd
      have h16 : progress st .copied = 16 := by cases st <;> simp_all [Making.copies, progress]
      rw [hnp fd, h16, if_pos fd.isLt]
      split
      · rfl
      · rename_i hlt
        exact (nextOpen_none hnone (Nat.le_of_not_lt hlt)).symm
    · intro f
      simp

end Calls

/-! ## Runs -/

section Runs

variable {m : Files N K} {o : FileOp N K} {p : Fin N}

/-- a step inside a file system call, by a process that is at one -/
theorem inCall_tables (ht : Tables m) {m' : Files N K}
    (h : (m.st.ptable p).state.life = .active → m.st.pc p = .user ∨ m.st.pc p = .exitClose → m.call p = .inside →
      Tables m') : Tables (m.inCall p m') := by
  unfold Files.inCall
  split
  · rename_i hin
    have hb := ht.busy p (by rw [hin]; simp)
    rw [hin] at hb
    exact h hb.1 hb.2 hin
  · exact ht

/-- **A step of the file system.** -/
theorem call_tables (hk : Kept (fun _ => True) m.st) (ht : Tables m) (ho : ∀ k, o ≠ .kernel k) : Tables (m.step o) := by
  have hon : ∀ c (f : Fin N → Files N K), (∀ p, m.st.curproc c = some p → Tables (f p)) → Tables (m.on c f) := by
    intro c f hf
    unfold Files.on
    split
    · exact ht
    · rename_i p hc
      exact hf p hc
  cases o with
  | kernel k => exact absurd rfl (ho k)
  | enter c =>
    refine hon c _ fun p hc => ?_
    split
    · rename_i h
      refine ht.hold hk (hk.life_active hc) (.inl h.2.1) (e := .inside) rfl rfl rfl (.inl h.2.1) fun f => ?_
      rw [h.1]
      simp [FilePc.holds]
    · exact ht
  | leave c =>
    refine hon c _ fun p hc => inCall_tables ht fun hl hpc hin => ?_
    split
    · refine ht.hold hk hl hpc (e := .out) rfl rfl rfl trivial fun f => ?_
      rw [hin]
      simp [FilePc.holds]
    · exact ht
  | iget c dev inum =>
    refine hon c _ fun p hc => inCall_tables ht fun _ _ _ => ?_
    unfold Files.iget
    split
    · exact ht.congr rfl rfl rfl rfl
    · split
      · exact ht.congr rfl rfl rfl rfl
      · exact ht
  | idup c =>
    refine hon c _ fun p hc => inCall_tables ht fun _ _ _ => ?_
    unfold Files.idup
    split
    · exact ht.congr rfl rfl rfl rfl
    · exact ht
  | iput c ip =>
    refine hon c _ fun p hc => inCall_tables ht fun _ _ _ => ?_
    unfold Files.iput
    split
    · exact ht.congr rfl rfl rfl rfl
    · exact ht
  | sysChdir c ip =>
    refine hon c _ fun p hc => inCall_tables ht fun _ _ _ => ?_
    unfold Files.sysChdir
    split
    · split
      · exact ht.congr rfl rfl rfl rfl
      · exact ht
    · exact ht
  | sysOpen c ip => exact hon c _ fun p hc => inCall_tables ht fun hl hpc hin => open_tables hk ht hl hpc hin ip
  | sysOpenEnd c =>
    refine hon c _ fun p hc => ?_
    split
    · rename_i f ip hopen
      have hb := ht.busy p (by rw [hopen]; simp)
      rw [hopen] at hb
      refine ht.hold hk hb.1 hb.2 (e := .inside) rfl rfl rfl hb.2 fun g => ?_
      rw [hopen]
      simp [FilePc.holds]
    · exact ht
  | sysDup c fd => exact hon c _ fun p hc => inCall_tables ht fun hl hpc _ => dup_tables hk ht hl hpc fd
  | sysClose c fd =>
    refine hon c _ fun p hc => inCall_tables ht fun hl hpc hin => ?_
    unfold Files.sysClose
    split
    · exact ht
    · rename_i f hfd
      split
      · refine close_tables hk ht hl hpc hfd (e := .inside) hpc (fun g => by rw [hin]) ?_
        have hcall := (fileclose_fields (m.setFd p fd none) p f).2.2.1
        have hp : ((m.setFd p fd none).fileclose p f).call p = .inside := by
          rw [hcall]
          exact hin
        conv_rhs => rw [Files.goto, ← hp, update_eq_self]
      · exact ht
  | sysPipe c => exact hon c _ fun p hc => inCall_tables ht fun hl hpc hin => pipe_tables hk ht hl hpc hin
  | sysPipeEnd c ok =>
    refine hon c _ fun p hc => ?_
    split
    · rename_i f hpipe
      have hb := ht.busy p (by rw [hpipe]; simp)
      rw [hpipe] at hb
      exact pipeEnd_tables hk ht hb.1 hb.2 hpipe ok
    · exact ht
  | closeNext c =>
    refine hon c _ fun p hc => ?_
    split
    · rename_i f rest hclose
      have hb := ht.busy p (by rw [hclose]; simp)
      rw [hclose] at hb
      split
      · exact closeNext_tables hk ht hb.1 hb.2 hclose
      · exact ht
    · exact ht
  | copy c =>
    refine hon c _ fun p hc => ?_
    unfold Files.copy
    split
    · rename_i st np k hpc hr
      split
      · rename_i hst
        exact copyRound_tables hk ht (hk.life_active hc) hpc hst hr
      · exact ht
    · exact ht
  | exitRound c =>
    refine hon c _ fun p hc => ?_
    unfold Files.exitRound
    split
    · rename_i h
      split
      · rename_i fd f hopen
        split
        · refine close_tables hk ht (hk.life_active hc) (.inr h.1) (nextOpen_some hopen).2.1 (e := .inside) (.inr h.1)
            (fun g => ?_) rfl
          rw [h.2]
          rfl
        · exact ht
      · split
        · exact ht.congr rfl rfl rfl rfl
        · exact ht
    · exact ht

/-- **One step.** The tables stay in order, if the step is `FilesOk`. -/
theorem step_tables (hk : Kept (fun _ => True) m.st) (ht : Tables m) (hok : FilesOk m o) :
    Kept (fun _ => True) (m.step o).st ∧ Tables (m.step o) := by
  by_cases ho : ∃ k, o = .kernel k
  · obtain ⟨k, rfl⟩ := ho
    simp only [Files.step, Files.kernel]
    split
    · exact ⟨hk, ht⟩
    · rename_i hready
      push Not at hready
      exact ⟨step_kept hk hok.2.2 fun _ _ => trivial, kernel_tables hk ht hready hok.1 hok.2.1⟩
  · push Not at ho
    rw [(step_frame ho).st]
    exact ⟨hk, call_tables hk ht ho⟩

theorem filesBoot_tables [NeZero N] : Tables (filesBoot N K) := by
  refine ⟨fun _ _ _ => rfl, ?_, fun _ hq => absurd rfl hq, ?_⟩
  · intro p st np _ hpc
    cases hpc
  · intro f
    have h1 : tally (entries f) (filesBoot N K).ofile = 0 := by
      refine tally_eq_zero fun q => tally_eq_zero fun fd => ?_
      simp [filesBoot]
    have h2 : tally (FilePc.holds f) (filesBoot N K).call = 0 := tally_eq_zero fun q => rfl
    rw [h1, h2]
    rfl

theorem reach_tables [NeZero N] {ops : List (FileOp N K)} (h : Along Files.step FilesOk (filesBoot N K) ops) :
    Kept (fun _ => True) (run Files.step (filesBoot N K) ops).st ∧ Tables (run Files.step (filesBoot N K) ops) :=
  h.inv (I := fun m => Kept (fun _ => True) m.st ∧ Tables m) (fun _ _ ho hs => step_tables hs.1 hs.2 ho)
    ⟨boot_kept, filesBoot_tables⟩

/-- the number of descriptors for `f`, as pairs of a slot and a descriptor -/
theorem tally_entries (f : FileId) (ofile : Fin N → Fd → Option FileId) :
    tally (entries f) ofile = (Finset.univ.filter fun x : Fin N × Fd => ofile x.1 x.2 = some f).card := by
  rw [Finset.card_filter, Fintype.sum_prod_type]
  push_cast
  rfl

/-- **Reference counts match the descriptor tables**, in every run of steps that are `FilesOk`: when no process is inside a
call, `ref` of a file is the number of descriptors for it in slots that are not UNUSED; and a slot that is UNUSED has no
descriptor. -/
theorem file_refs_match [NeZero N] (ops : List (FileOp N K)) (h : Along Files.step FilesOk (filesBoot N K) ops)
    (m : Files N K) (hm : m = run Files.step (filesBoot N K) ops) (hquiet : ∀ q, m.call q = .out) (f : FileId) :
    m.ref f = (Finset.univ.filter fun x : Fin N × Fd =>
        (m.st.ptable x.1).state ≠ .unused ∧ m.ofile x.1 x.2 = some f).card ∧
      ∀ q, (m.st.ptable q).state = .unused → ∀ fd, m.ofile q fd = none := by
  obtain ⟨_, ht⟩ := reach_tables h
  rw [← hm] at ht
  have hfree : ∀ q, (m.st.ptable q).state = .unused → ∀ fd, m.ofile q fd = none := by
    intro q hq
    exact ht.ended q (.inl (by rw [hq]; rfl))
  refine ⟨?_, hfree⟩
  have hcalls : tally (FilePc.holds f) m.call = 0 := by
    refine tally_eq_zero fun q => ?_
    rw [hquiet q]
    rfl
  rw [ht.refs f, hcalls, add_zero, tally_entries]
  congr 2
  refine Finset.filter_congr fun x _ => ⟨fun hx => ⟨fun hu => ?_, hx⟩, fun hx => hx.2⟩
  rw [hfree x.1 hu] at hx
  cases hx

/-- the process on the CPU, with `n` descriptors, calls `fork` -/
def forkSteps (n : ℕ) : List (FileOp 64 1) := List.flatten
  [[.kernel (.call 0 .fork)], List.replicate 6 (.kernel (.exec 0 true)), List.replicate (n + 1) (.copy 0),
    List.replicate 4 (.kernel (.exec 0 true))]

/-- the process on the CPU, with `n` descriptors, calls `thread_create` -/
def threadCreateSteps (n : ℕ) : List (FileOp 64 1) := List.flatten
  [[.kernel (.call 0 .threadCreate)], List.replicate 11 (.kernel (.exec 0 true)), List.replicate (n + 1) (.copy 0),
    [.kernel (.exec 0 true)]]

/-- the process on the CPU opens a file -/
def openSteps : List (FileOp 64 1) := [.enter 0, .iget 0 1 5, .sysOpen 0 1, .sysOpenEnd 0, .leave 0]

/-- the process on the CPU, with one descriptor, calls `exit`, and init waits for it -/
def exitWait : List (FileOp 64 1) :=
  [.kernel (.call 0 .exit), .exitRound 0, .leave 0, .exitRound 0, .kernel (.exec 0 true), .kernel (.dispatch 0 0),
    .kernel (.call 0 .wait)]

/-- init opens a file, forks a child that has it too, and waits for its end -/
def childCloses : List (FileOp 64 1) := List.flatten
  [[.kernel (.dispatch 0 0)], openSteps, forkSteps 1, [.kernel (.preempt 0), .kernel (.dispatch 0 1)], exitWait]

/-- the theorem at that run: one descriptor is left, and one reference -/
theorem file_refs_match_reaped :
    (run Files.step (filesBoot 64 1) childCloses).ref 0 = 1 ∧
      (run Files.step (filesBoot 64 1) childCloses).ref 0 =
        (Finset.univ.filter fun x : Fin 64 × Fd =>
          ((run Files.step (filesBoot 64 1) childCloses).st.ptable x.1).state ≠ .unused ∧
            (run Files.step (filesBoot 64 1) childCloses).ofile x.1 x.2 = some 0).card := by
  refine ⟨by decide +kernel, ?_⟩
  exact (file_refs_match _ (by decide +kernel) _ rfl (by decide +kernel) 0).1

/-- a child of init opens a file and makes a thread, the thread calls `exit`, and init waits for the child -/
def siblingKeepsFile : List (FileOp 64 1) := List.flatten
  [[.kernel (.dispatch 0 0)], forkSteps 0, [.kernel (.preempt 0), .kernel (.dispatch 0 1)], openSteps,
    threadCreateSteps 1, [.kernel (.preempt 0), .kernel (.dispatch 0 2)], exitWait]

/-- **A reference nobody has.** No process is inside a call and no slot in use has a descriptor, but the file has a
reference; it is in the table of the child, which is UNUSED. -/
theorem refs_leaked :
    let m := run Files.step (filesBoot 64 1) siblingKeepsFile
    (∀ q, m.call q = .out) ∧ m.ref 0 = 1 ∧ (∀ q fd, (m.st.ptable q).state ≠ .unused → m.ofile q fd = none) ∧
      (m.st.ptable 1).state = .unused ∧ m.ofile 1 0 = some 0 := by
  decide +kernel

/-- **A new process or thread has its creator's descriptors**, after every run of steps that are `FilesOk`: if the next
step, whatever it is, makes the slot `np` RUNNABLE for `p`, the two tables are equal. -/
theorem descriptors_copied [NeZero N] (ops : List (FileOp N K)) (h : Along Files.step FilesOk (filesBoot N K) ops)
    (m : Files N K) (hm : m = run Files.step (filesBoot N K) ops) (o : Op N K) (p np : Fin N) (st : Making)
    (hs : storing m.st o = some (p, st, np)) (hnew : ((m.step (.kernel o)).st.ptable np).state = .runnable) (fd : Fd) :
    (m.step (.kernel o)).ofile np fd = (m.step (.kernel o)).ofile p fd := by
  obtain ⟨hk, ht⟩ := reach_tables h
  rw [← hm] at hk ht
  obtain ⟨c, ok, rfl, hc, hpc, hstep⟩ := step_storing hs
  have hl := hk.life_active hc
  have hemb := life_eq_embryo hk hl hpc
  have hcopied := ht.copied p st np hl hpc fd
  simp only [Files.step, Files.kernel] at hnew ⊢
  split at hnew
  · -- the process is not ready, and nothing happens
    rw [hnew] at hemb
    cases hemb
  · rename_i hready
    push Not at hready
    have hlife : ((makeStep m.st p np ok st).ptable np).state.life = .active := by
      rw [← hstep, hnew]
      rfl
    have hrun := (makeStep_publish hemb (.inl hlife)).1
    have h16 : progress st (m.call p) = 16 := by
      rw [ready_storing hs hready]
      rcases hrun with rfl | rfl <;> rfl
    rw [if_neg (by push Not; exact hready)]
    change m.ofile np fd = m.ofile p fd
    rw [hcopied, h16, if_pos fd.isLt]

/-- init opens a file and forks, up to the last store -/
def openForks : List (FileOp 64 1) := List.flatten [[.kernel (.dispatch 0 0)], openSteps, (forkSteps 1).dropLast]

/-- the theorem at that run: the child has init's descriptor -/
theorem descriptors_copied_child :
    storing (run Files.step (filesBoot 64 1) openForks).st (.exec 0 true) = some (0, .forkRun, 1) ∧
      ((run Files.step (filesBoot 64 1) openForks).step (.kernel (.exec 0 true))).ofile 0 0 = some 0 ∧
      ((run Files.step (filesBoot 64 1) openForks).step (.kernel (.exec 0 true))).ofile 1 0 =
        ((run Files.step (filesBoot 64 1) openForks).step (.kernel (.exec 0 true))).ofile 0 0 := by
  have hs : storing (run Files.step (filesBoot 64 1) openForks).st (.exec 0 true) = some (0, .forkRun, 1) := by
    decide +kernel
  refine ⟨hs, by decide +kernel, ?_⟩
  exact descriptors_copied openForks (by decide +kernel) _ rfl (.exec 0 true) 0 1 .forkRun hs (by decide +kernel) 0

/-- **Descriptors from an earlier process.** After the child's slot has kept its file, init forks into it, up to the last
store. The next step makes slot 1 RUNNABLE for init. Init has no descriptor open, and the new process has the one of the
process that used the slot before. -/
theorem descriptors_inherited :
    let m₀ := run Files.step (filesBoot 64 1) siblingKeepsFile
    let m := run Files.step m₀ (forkSteps 0).dropLast
    let m' := m.step (.kernel (.exec 0 true))
    ((m₀.st.ptable 1).state = .unused ∧ m₀.ofile 1 0 = some 0) ∧
      (storing m.st (.exec 0 true) = some (0, .forkRun, 1) ∧ (m'.st.ptable 1).state = .runnable) ∧
      (∀ fd, m'.ofile 0 fd = none) ∧ m'.ofile 1 0 = some 0 := by
  decide +kernel

end Runs

end Xv6Threads.Kernel
