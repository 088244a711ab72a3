/-
`fork` when memory runs out.

`fork` takes a page for the kernel stack and then makes a copy of the address space. If the copy fails it gives the stack
back and returns -1; it has touched no file and no inode by then. But `copyuvm` does not give back everything. If a page
for a page table of the kernel is missing, `setupkvm` keeps the directory and the page tables that it has. If a page for a
page table of the user is missing, the page that was to be mapped is lost.
- `forkCall`: `fork` with the open files and the current directory; `forkCall_st`: on memory and slots it is the `fork` of
  `Growproc`.
- `failed_fork_iff`: a failed `fork` leaves no trace exactly if memory does not run out at a page table.
- `fork_leaks_directory`: with two free pages, one is gone.
-/
import Xv6Threads.Memory.Growproc

namespace Xv6Threads.Memory

open Function

def NOFILE : ℕ := 16

/-- the state that `fork` works on: memory and slots; the open files and the current directory of each slot, as numbers of
`struct file` and `struct inode`; and the reference counts of these -/
structure Sys (N : ℕ) where
  st : St N
  ofile : Fin N → Fin NOFILE → Option ℕ
  cwd : Fin N → ℕ
  fileRef : ℕ → ℤ
  inodeRef : ℕ → ℤ

variable {N : ℕ}

/-- `f->ref++` -/
def addRef (refs : ℕ → ℤ) (f : ℕ) : ℕ → ℤ := update refs f (refs f + 1)

/-- the loop of `fork` over the open files, with `filedup` -/
def dupFiles (s : Sys N) (p : Fin N) : ℕ → ℤ :=
  (List.finRange NOFILE).foldl (fun refs fd => (s.ofile p fd).elim refs (addRef refs)) s.fileRef

/-- `fork` by slot `p`; `false` is the result -1 -/
def forkCall (s : Sys N) (p : Fin N) : Except Panic (Sys N × Bool) :=
  match allocproc s.st with
  | none => .ok (s, false)
  | some (np, kstack, m) =>
    match copyuvm m (s.st.slot p).pgdir (s.st.slot p).sz with
    | .error e => .error e
    | .ok (m, none) =>
      match kfree m kstack with
      | .error e => .error e
      | .ok m => .ok ({ s with st := { s.st with mem := m } }, false)
    | .ok (m, some d) =>
      .ok ({ st := { s.st with mem := m, slot := update s.st.slot np ⟨true, kstack, d, (s.st.slot p).sz⟩ }
             ofile := update s.ofile np (s.ofile p)
             cwd := update s.cwd np (s.cwd p)
             fileRef := dupFiles s p
             inodeRef := addRef s.inodeRef (s.cwd p) }, true)

/-- on memory and slots it is the step of the machine in `Growproc` -/
theorem forkCall_st (s : Sys N) (p : Fin N) :
    fork s.st p = match forkCall s p with
      | .error e => { s.st with panicked := some e }
      | .ok (s', _) => s'.st := by
  unfold fork forkCall
  cases allocproc s.st with
  | none => rfl
  | some x =>
    obtain ⟨np, kstack, m⟩ := x
    simp only
    cases copyuvm m (s.st.slot p).pgdir (s.st.slot p).sz with
    | error e => rfl
    | ok r =>
      obtain ⟨m', d⟩ := r
      cases d with
      | some d => rfl
      | none =>
        simp only
        cases kfree m' kstack with
        | error e => rfl
        | ok m'' => rfl

/-- the free pages, the reference counts and the UNUSED slots are as before -/
structure NoTrace (s s' : Sys N) : Prop where
  free : ∀ f, f ∈ s'.st.mem.freelist ↔ f ∈ s.st.mem.freelist
  files : s'.fileRef = s.fileRef
  inodes : s'.inodeRef = s.inodeRef
  slots : ∀ q, (s'.st.slot q).inUse = false ↔ (s.st.slot q).inUse = false

/-- a state in which slot `p` may call `fork`: its directory exists, its size is one, and none of its pages is free -/
structure ForkState (s : Sys N) (p : Fin N) : Prop where
  linked : Linked s.st.mem
  free : FreeListOk s.st.mem
  handle : (s.st.slot p).pgdir < s.st.mem.nextDir
  size : (s.st.slot p).sz ≤ KERNBASE
  not_free : ∀ v e, v < pages (s.st.slot p).sz → (s.st.mem.dir (s.st.slot p).pgdir).pteOf (v * PGSIZE) = some e →
    e.frame ∉ s.st.mem.freelist

/-- there is no slot; or memory does not run out at a page table. It does with 2 to 65 free pages, which do for the kernel
stack and the directory but not for the 64 page tables of the kernel. And it does with 67 + 1025k free pages, which do for
the first 1024k pages of the user with their page tables and for one page more, if the process has more than 1024k -/
def ForkSafe (s : Sys N) (p : Fin N) : Prop :=
  (∀ q, (s.st.slot q).inUse = true) ∨
  (¬ (2 ≤ s.st.mem.freelist.length ∧ s.st.mem.freelist.length < 66) ∧
    ∀ k, 1024 * k < pages (s.st.slot p).sz → (∀ v, v ≤ 1024 * k → s.st.mem.Present (s.st.slot p).pgdir v) →
      s.st.mem.freelist.length ≠ 67 + 1025 * k)

section Fork

variable {s : Sys N} {p : Fin N}

theorem allocproc_none (ha : allocproc s.st = none) : (∀ q, (s.st.slot q).inUse = true) ∨ s.st.mem.freelist = [] := by
  unfold allocproc at ha
  cases hfind : (List.finRange N).find? fun q => (s.st.slot q).inUse = false with
  | none =>
    left
    intro q
    have hq := List.find?_eq_none.1 hfind q (List.mem_finRange q)
    simpa using hq
  | some np =>
    rw [hfind] at ha
    exact .inr (kalloc_none (Option.map_eq_none_iff.1 ha))

theorem allocproc_found {np : Fin N} {kstack : Frame} {m : Mem} (ha : allocproc s.st = some (np, kstack, m)) :
    (s.st.slot np).inUse = false ∧ kalloc s.st.mem = some (kstack, m) := by
  unfold allocproc at ha
  cases hfind : (List.finRange N).find? fun q => (s.st.slot q).inUse = false with
  | none =>
    rw [hfind] at ha
    cases ha
  | some q =>
    rw [hfind] at ha
    obtain ⟨x, hx, he⟩ := Option.map_eq_some_iff.1 ha
    cases he
    have hq := List.find?_some hfind
    exact ⟨of_decide_eq_true hq, hx⟩

/-- the memory after `allocproc` is one that `copyuvm` can be called on -/
theorem ForkState.copyuvm (hs : ForkState s p) {kstack : Frame} {m : Mem} (hk : kalloc s.st.mem = some (kstack, m)) :
    CopyuvmEnds m (s.st.slot p).pgdir (s.st.slot p).sz (copyuvm m (s.st.slot p).pgdir (s.st.slot p).sz) := by
  have hd := kalloc_dirs hk
  obtain ⟨hfree, heq⟩ := kalloc_some hk
  have hsub : ∀ f ∈ m.freelist, f ∈ s.st.mem.freelist := by
    intro f hf
    rw [hfree]
    exact List.mem_cons_of_mem _ hf
  have hl : Linked m := hs.linked.of_data hd.data
  have hok : FreeListOk m := by
    refine ⟨?_, ?_⟩
    · have hnd := hs.free.nodup
      rw [hfree] at hnd
      exact (List.nodup_cons.1 hnd).2
    · exact fun f hf => (hs.free.freeable f (hsub f hf)).of_kend (kalloc_kend hk)
  refine copyuvm_ends hl ?_ hs.size hok ?_
  · rw [hd.nextDir]
    exact hs.handle
  · intro v e hv he hin
    rw [hd.dir] at he
    exact hs.not_free v e hv he (hsub _ hin)

/-- the free pages after a failed copy and `kfree` of the stack -/
theorem kfree_kstack (hs : ForkState s p) {kstack : Frame} {m m' : Mem} (hk : kalloc s.st.mem = some (kstack, m))
    (hkend : m'.kend = m.kend) :
    ∃ m'', kfree m' kstack = .ok m'' ∧ (m''.freelist : Multiset Frame) = {kstack} + m'.freelist := by
  have hfree : Freeable m' kstack := by
    have hok := hs.free.freeable kstack (by rw [(kalloc_some hk).1]; exact List.mem_cons_self)
    exact hok.of_kend (hkend.trans (kalloc_kend hk))
  obtain ⟨m'', hrun, _, _, hlist, _⟩ := (kfree_cases m' kstack).resolve_left fun hno => hno.2 hfree
  exact ⟨m'', hrun, hlist⟩

/-- **A failed `fork` leaks nothing exactly if memory does not run out at a page table.** For every state from which it may
be called, with any number of free pages. -/
theorem failed_fork_iff (s : Sys N) (p : Fin N) (hs : ForkState s p) :
    (∀ s', forkCall s p = .ok (s', false) → NoTrace s s') ↔ ForkSafe s p := by
  unfold forkCall
  cases ha : allocproc s.st with
  | none =>
    -- no slot, or no page for the kernel stack
    have htrace : ∀ s', Except.ok (s, false) = (Except.ok (s', false) : Except Panic (Sys N × Bool)) → NoTrace s s' := by
      intro s' heq
      cases heq
      exact ⟨fun _ => Iff.rfl, rfl, rfl, fun _ => Iff.rfl⟩
    refine ⟨fun _ => ?_, fun _ => htrace⟩
    rcases allocproc_none ha with hfull | hnil
    · exact .inl hfull
    · right
      rw [hnil, List.length_nil]
      refine ⟨by omega, fun k _ _ => by omega⟩
  | some x =>
    obtain ⟨np, kstack, m⟩ := x
    obtain ⟨hunused, hk⟩ := allocproc_found ha
    obtain ⟨hfree, _⟩ := kalloc_some hk
    have hlen : s.st.mem.freelist.length = m.freelist.length + 1 := kalloc_length hk
    have hpresent : m.Present (s.st.slot p).pgdir = s.st.mem.Present (s.st.slot p).pgdir := by
      funext v
      unfold Mem.Present
      rw [(kalloc_dirs hk).dir]
    have hslot : ¬ ∀ q, (s.st.slot q).inUse = true := by
      intro hall
      rw [hall np] at hunused
      cases hunused
    have hends := hs.copyuvm hk
    simp only
    generalize copyuvm m (s.st.slot p).pgdir (s.st.slot p).sz = r at hends ⊢
    unfold ForkSafe
    rw [or_iff_right hslot, hlen, ← hpresent]
    cases hends with
    | @copied m₁ m' _ hmem _ _ =>
      simp only [Except.ok.injEq, Prod.mk.injEq, Bool.true_eq_false, and_false, false_implies, implies_true, true_iff]
      unfold tablesOf at hmem
      refine ⟨by omega, fun k hk' _ => by omega⟩
    | @panics e v hv hmissing hmem =>
      simp only [reduceCtorEq, false_implies, implies_true, true_iff]
      unfold tablesOf at hmem
      refine ⟨by omega, fun k hk' hall hcount => ?_⟩
      by_cases hvk : v ≤ 1024 * k
      · exact hmissing (hall v hvk)
      · omega
    | @clean m' hcount _ hkend hlist =>
      -- the user's page was what was missing: everything is given back
      obtain ⟨m'', hrun, hlist'⟩ := kfree_kstack hs hk hkend
      simp only [hrun]
      have htrace : ∀ s', Except.ok ({ s with st := { s.st with mem := m'' } }, false) =
          (Except.ok (s', false) : Except Panic (Sys N × Bool)) → NoTrace s s' := by
        intro s' heq
        cases heq
        refine ⟨fun f => ?_, rfl, rfl, fun _ => Iff.rfl⟩
        rw [← Multiset.mem_coe, hlist', hlist, hfree]
        simp
      refine ⟨fun _ => ?_, fun _ => htrace⟩
      rcases hcount with hnil | ⟨j, hj, hcount⟩
      · rw [hnil, List.length_nil]
        refine ⟨by omega, fun k _ _ => by omega⟩
      · unfold tablesOf at hcount
        refine ⟨by omega, fun k _ _ => by omega⟩
    | @leaked m' hcount _ hkend hless =>
      obtain ⟨m'', hrun, hlist'⟩ := kfree_kstack hs hk hkend
      simp only [hrun]
      constructor
      · -- fewer pages are free than before, and those were all different
        intro htrace
        have hsame := (htrace _ rfl).free
        have hsub : s.st.mem.freelist ⊆ m''.freelist := fun f hf => (hsame f).2 hf
        have hle := (hs.free.nodup.subperm hsub).length_le
        have hcard := congrArg Multiset.card hlist'
        rw [Multiset.card_add, Multiset.card_singleton, Multiset.coe_card, Multiset.coe_card] at hcard
        omega
      · intro ⟨hno, hnok⟩
        exfalso
        rcases hcount with ⟨hpos, hlt⟩ | ⟨k, hk', hall, hcount⟩
        · exact hno (by omega)
        · exact hnok k hk' hall (by omega)

/-- a process of one page in slot 0 of 64, and the free pages `free` -/
def oneSlot (free : List Frame) : Sys 64 where
  st :=
    { mem := { processOf [true] with freelist := free }
      slot := fun q => if q = 0 then ⟨true, 0x203, 0, PGSIZE⟩ else ⟨false, 0, 0, 0⟩
      panicked := none }
  ofile := fun _ _ => none
  cwd := fun _ => 0
  fileRef := fun _ => 0
  inodeRef := fun _ => 1

theorem oneSlot_state {free : List Frame} (hnodup : free.Nodup) (hrange : ∀ f ∈ free, 0x400 ≤ f ∧ f < 0x800) :
    ForkState (oneSlot free) 0 where
  linked := ⟨(processOf_linked [true]).aligned, (processOf_linked [true]).after, (processOf_linked [true]).before⟩
  free := by
    refine ⟨hnodup, ?_⟩
    intro f hf
    obtain ⟨hge, hlt⟩ := hrange f hf
    exact ⟨(Nat.lt_of_lt_of_le (by decide) hge).ne', Nat.le_trans (show 0x180 ≤ 0x400 by decide) hge,
      Nat.lt_of_lt_of_le hlt (by decide)⟩
  handle := Nat.one_pos
  size := show PGSIZE ≤ KERNBASE by decide
  not_free := by
    intro v e hv he hin
    have hv : v < pages PGSIZE := hv
    rw [show pages PGSIZE = 1 by decide] at hv
    obtain rfl : v = 0 := by omega
    cases he
    obtain ⟨hge, _⟩ := hrange _ hin
    exact absurd hge (by decide)

theorem fork_without_directory : ∃ s', forkCall (oneSlot [0x400]) 0 = .ok (s', false) ∧ NoTrace (oneSlot [0x400]) s' := by
  have hstate : ForkState (oneSlot [0x400]) 0 := oneSlot_state (by decide) (by decide)
  have hlen : (oneSlot [0x400]).st.mem.freelist.length = 1 := rfl
  have hsafe : ForkSafe (oneSlot [0x400]) 0 := by
    right
    rw [hlen]
    refine ⟨by omega, fun k _ _ => by omega⟩
  exact ⟨_, rfl, (failed_fork_iff (oneSlot [0x400]) 0 hstate).2 hsafe _ rfl⟩

/-- **The directory is lost.** Two pages are free: one becomes the kernel stack, the other the directory, and there is none
for a page table. `fork` returns -1 and gives back the stack only. -/
theorem fork_leaks_directory : ∃ s', ForkState (oneSlot [0x400, 0x401]) 0 ∧
    forkCall (oneSlot [0x400, 0x401]) 0 = .ok (s', false) ∧ ¬ NoTrace (oneSlot [0x400, 0x401]) s' := by
  refine ⟨_, oneSlot_state (by decide) (by decide), rfl, ?_⟩
  intro htrace
  have hgone := (htrace.free 0x401).2 (List.mem_cons_of_mem _ List.mem_cons_self)
  exact absurd hgone (by decide)

end Fork

end Xv6Threads.Memory
