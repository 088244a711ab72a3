/-
`sys_pipe`: two files, a page and two descriptors, or nothing.

The call can stop at six places: `argptr` refuses the pointer, there is no free entry of `ftable` for the first or for the
second file, there is no page, there is no descriptor for the first or for the second file. `pipealloc` and `sys_pipe` undo
what was done by closing files that are not yet of any type (`fileclose` then only frees the entry) or that are the two ends
of the new pipe (the second `pipeclose` frees the page).
- `Tidy`: what the call relies on. An entry with no reference is of type FD_NONE, and the free pages can be freed.
- `Untouched`, `Made`: the two ways it may end.
- `sys_pipe_all_or_nothing`: it returns in one of them.

Functions, under the names of the source: `filealloc`, `fileclose`, `pipealloc`, `pipeclose`, `sysPipe`; `fdalloc` is that of
`Kernel/Files`, `kalloc` and `kfree` those of `Memory/Vm`, `argptr` that of `Kernel/SysArgs`. The bytes in a pipe, the lock
and the wakeups of `pipeclose` are left out: nobody can sleep on a pipe that has no descriptor yet.
-/
import Xv6Threads.Kernel.FileRefs
import Xv6Threads.Kernel.SysArgs
import Xv6Threads.Memory.Ledger

namespace Xv6Threads.Kernel

open Xv6Threads.Core Xv6Threads.Memory Function

/-! ## States -/

inductive FdType where
  | none
  | pipe
  | inode
  deriving DecidableEq

/-- a `struct file` -/
structure FileEntry where
  type : FdType
  ref : ℤ
  readable : Bool
  writable : Bool
  pipe : Frame
  ip : InodeId
  deriving DecidableEq

/-- a `struct pipe`: its counts and its open ends -/
structure PipeHead where
  nread : BitVec 32
  nwrite : BitVec 32
  readopen : Bool
  writeopen : Bool
  deriving DecidableEq

/-- what the call uses: the open files, the pipes by their pages, the counts of the inodes, the pages, and of the process its
descriptors and its memory -/
structure PipeSys where
  file : FileId → FileEntry
  pipe : Frame → PipeHead
  iref : InodeId → ℤ
  mem : Mem
  ofile : Fd → Option FileId
  user : UserProc

/-- why a call does not return -/
inductive FilePanic where
  | fileclose
  | kfree

namespace PipeSys

variable (m : PipeSys)

def setFile (f : FileId) (e : FileEntry) : PipeSys := { m with file := update m.file f e }

def setFd (fd : Fd) (v : Option FileId) : PipeSys := { m with ofile := update m.ofile fd v }

/-- a store of an int to the memory of the process -/
def setWord (addr : ℕ) (w : BitVec 32) : PipeSys :=
  { m with
    user := { m.user with
      mem := fun a => if h : addr ≤ a ∧ a < addr + 4 then Fs.word.encode w ⟨a - addr, by omega⟩ else m.user.mem a } }

/-! ## The code -/

def filealloc : Option (FileId × PipeSys) :=
  ((List.finRange 100).find? fun f => (m.file f).ref = 0).map fun f => (f, m.setFile f { m.file f with ref := 1 })

def pipeclose (p : Frame) (writable : Bool) : Except FilePanic PipeSys :=
  let h := if writable then { m.pipe p with writeopen := false } else { m.pipe p with readopen := false }
  let m := { m with pipe := update m.pipe p h }
  if h.readopen = false ∧ h.writeopen = false then
    match kfree m.mem p with
    | .ok mem => .ok { m with mem := mem }
    | .error _ => .error .kfree
  else .ok m

def fileclose (f : FileId) : Except FilePanic PipeSys :=
  let ff := m.file f
  if ff.ref < 1 then .error .fileclose
  else if 0 < ff.ref - 1 then .ok (m.setFile f { ff with ref := ff.ref - 1 })
  else
    let m := m.setFile f { ff with ref := 0, type := .none }
    match ff.type with
    | .pipe => m.pipeclose ff.pipe ff.writable
    | .inode => .ok { m with iref := update m.iref ff.ip (m.iref ff.ip - 1) }
    | .none => .ok m

/-- `none` is the result -1 -/
def pipealloc : Except FilePanic (Option (FileId × FileId) × PipeSys) :=
  match m.filealloc with
  | none => .ok (none, m)
  | some (f0, m) =>
    match m.filealloc with
    | none => do
      let m ← m.fileclose f0
      return (none, m)
    | some (f1, m) =>
      match kalloc m.mem with
      | none => do
        let m ← m.fileclose f0
        let m ← m.fileclose f1
        return (none, m)
      | some (p, mem) =>
        let m := { m with mem := mem, pipe := update m.pipe p ⟨0, 0, true, true⟩ }
        let m := m.setFile f0 { m.file f0 with type := .pipe, readable := true, writable := false, pipe := p }
        let m := m.setFile f1 { m.file f1 with type := .pipe, readable := false, writable := true, pipe := p }
        .ok (some (f0, f1), m)

/-- `sys_pipe` after `pipealloc` -/
def pipeFds (fd : BitVec 32) (rf wf : FileId) : Except FilePanic (ℤ × PipeSys) :=
  match fdalloc m.ofile with
  | none => do
    let m ← m.fileclose rf
    let m ← m.fileclose wf
    return (-1, m)
  | some fd0 =>
    let m := m.setFd fd0 (some rf)
    match fdalloc m.ofile with
    | none => do
      let m := m.setFd fd0 none
      let m ← m.fileclose rf
      let m ← m.fileclose wf
      return (-1, m)
    | some fd1 =>
      let m := m.setFd fd1 (some wf)
      .ok (0, (m.setWord fd.toNat (BitVec.ofNat 32 fd0)).setWord (fd.toNat + 4) (BitVec.ofNat 32 fd1))

/-- the variable `fd` holds `junk` before `argptr` -/
def sysPipe (junk : BitVec 32) : Except FilePanic (ℤ × PipeSys) :=
  match m.user.argptr 0 junk 8 with
  | (false, _) => .ok (-1, m)
  | (true, fd) => do
    let (r, m) ← m.pipealloc
    match r with
    | none => return (-1, m)
    | some (rf, wf) => m.pipeFds fd rf wf

/-! ## What the call should do -/

/-- free entries have no type, and the free pages are different ones that `kfree` accepts -/
structure Tidy : Prop where
  closed : ∀ f, (m.file f).ref = 0 → (m.file f).type = .none
  pages : FreeListOk m.mem

/-- no trace: references and types of the files, descriptors, counts of inodes, free pages and the memory of the process -/
structure Untouched (m' : PipeSys) : Prop where
  ref : ∀ f, (m'.file f).ref = (m.file f).ref
  type : ∀ f, (m'.file f).type = (m.file f).type
  ofile : m'.ofile = m.ofile
  iref : m'.iref = m.iref
  free : m'.mem.freelist = m.mem.freelist
  user : m'.user = m.user

/-- the new pipe, its two files and their descriptors -/
structure NewPipe where
  page : Frame
  rf : FileId
  wf : FileId
  fd0 : Fd
  fd1 : Fd

/-- the pipe has been made: what is new was free, and nothing else has changed -/
structure Made (m' : PipeSys) (fd : ℕ) (n : NewPipe) : Prop where
  distinct : n.fd0 ≠ n.fd1 ∧ n.rf ≠ n.wf
  freeFds : m.ofile n.fd0 = none ∧ m.ofile n.fd1 = none
  freeFiles : (m.file n.rf).ref = 0 ∧ (m.file n.wf).ref = 0
  freePage : n.page ∈ m.mem.freelist ∧ n.page ∉ m'.mem.freelist
  ofile : m'.ofile = update (update m.ofile n.fd0 (some n.rf)) n.fd1 (some n.wf)
  readEnd : m'.file n.rf = ⟨.pipe, 1, true, false, n.page, (m.file n.rf).ip⟩
  writeEnd : m'.file n.wf = ⟨.pipe, 1, false, true, n.page, (m.file n.wf).ip⟩
  files : ∀ f, f ≠ n.rf → f ≠ n.wf → m'.file f = m.file f
  fresh : m'.pipe n.page = ⟨0, 0, true, true⟩
  pipes : ∀ p, p ≠ n.page → m'.pipe p = m.pipe p
  iref : m'.iref = m.iref
  mem : m'.mem = { m.mem with freelist := m'.mem.freelist }
  free : ∀ p, p ∈ m'.mem.freelist ↔ p ∈ m.mem.freelist ∧ p ≠ n.page
  results : m'.user.word fd = BitVec.ofNat 32 n.fd0 ∧ m'.user.word (fd + 4) = BitVec.ofNat 32 n.fd1
  user : m'.user.sz = m.user.sz ∧ m'.user.esp = m.user.esp ∧
    ∀ a, a < fd ∨ fd + 8 ≤ a → m'.user.mem a = m.user.mem a

/-! ## The parts -/

variable {m} {m' : PipeSys} {f rf wf : FileId} {p : Frame}

@[simp] theorem setFile_self (e : FileEntry) : (m.setFile f e).file f = e := update_self ..

theorem setFile_of_ne {g : FileId} (h : g ≠ f) (e : FileEntry) : (m.setFile f e).file g = m.file g :=
  update_of_ne h ..

/-- the descriptors, the inodes, the process -/
structure Aside (m m' : PipeSys) : Prop where
  ofile : m'.ofile = m.ofile
  iref : m'.iref = m.iref
  user : m'.user = m.user

theorem Aside.trans {m'' : PipeSys} (h : Aside m m') (h' : Aside m' m'') : Aside m m'' :=
  ⟨h'.ofile.trans h.ofile, h'.iref.trans h.iref, h'.user.trans h.user⟩

/-- entry `f` was free and has been taken -/
structure Took (f : FileId) (m m' : PipeSys) : Prop where
  aside : Aside m m'
  was : (m.file f).ref = 0
  self : m'.file f = { m.file f with ref := 1 }
  files : ∀ g, g ≠ f → m'.file g = m.file g
  pipe : m'.pipe = m.pipe
  mem : m'.mem = m.mem

theorem filealloc_some (h : m.filealloc = some (f, m')) : Took f m m' := by
  rw [filealloc, Option.map_eq_some_iff] at h
  obtain ⟨g, hfind, heq⟩ := h
  cases heq
  have hzero : (m.file f).ref = 0 := of_decide_eq_true (List.find?_some (p := fun f => decide ((m.file f).ref = 0)) hfind)
  exact ⟨⟨rfl, rfl, rfl⟩, hzero, setFile_self _, fun g' hg => setFile_of_ne hg _, rfl, rfl⟩

/-- entry `f` has been freed; of the rest, only the pages and the pipes may have changed -/
structure Freed (f : FileId) (m m' : PipeSys) : Prop where
  aside : Aside m m'
  ref : (m'.file f).ref = 0
  type : (m'.file f).type = .none
  files : ∀ g, g ≠ f → m'.file g = m.file g

theorem Freed.of_file {e : FileEntry} (haside : Aside m m') (href : e.ref = 0) (htype : e.type = .none)
    (hfile : m'.file = (m.setFile f e).file) : Freed f m m' := by
  constructor
  case aside => exact haside
  case ref => rw [hfile, setFile_self, href]
  case type => rw [hfile, setFile_self, htype]
  case files =>
    intro g hg
    rw [hfile, setFile_of_ne hg]

/-- the close of a file that has no type yet -/
theorem fileclose_new (href : (m.file f).ref = 1) (htype : (m.file f).type = .none) :
    ∃ m', m.fileclose f = .ok m' ∧ Freed f m m' ∧ m'.mem = m.mem := by
  refine ⟨m.setFile f { m.file f with ref := 0, type := .none }, ?_, .of_file ⟨rfl, rfl, rfl⟩ rfl rfl rfl, rfl⟩
  rw [fileclose, href, htype, if_neg (by decide), if_neg (by decide)]

theorem pipeclose_read (hopen : (m.pipe p).writeopen = true) :
    ∃ m', m.pipeclose p false = .ok m' ∧ m'.file = m.file ∧ Aside m m' ∧ m'.mem = m.mem ∧ (m'.pipe p).readopen = false := by
  refine ⟨{ m with pipe := update m.pipe p { m.pipe p with readopen := false } }, if_neg ?_, rfl,
    ⟨rfl, rfl, rfl⟩, rfl, ?_⟩
  · rintro ⟨_, hclosed⟩
    have hboth : true = false := hopen.symm.trans hclosed
    cases hboth
  · simp only [update_self]

theorem pipeclose_write (hclosed : (m.pipe p).readopen = false) (hpage : Freeable m.mem p) :
    ∃ m', m.pipeclose p true = .ok m' ∧ m'.file = m.file ∧ Aside m m' ∧ m'.mem.freelist = p :: m.mem.freelist := by
  have hfree : kfree m.mem p = .ok { m.mem.memset p 1 with freelist := p :: m.mem.freelist } :=
    if_neg (by rw [not_or, not_lt, not_le]; exact hpage.2)
  refine ⟨{ m with
    mem := { m.mem.memset p 1 with freelist := p :: m.mem.freelist }
    pipe := update m.pipe p { m.pipe p with writeopen := false } }, (if_pos ⟨hclosed, rfl⟩).trans ?_, rfl,
    ⟨rfl, rfl, rfl⟩, rfl⟩
  simp only [hfree, ↓reduceIte]

theorem fileclose_pipe (href : (m.file f).ref = 1) (htype : (m.file f).type = .pipe) :
    m.fileclose f =
      (m.setFile f { m.file f with ref := 0, type := .none }).pipeclose (m.file f).pipe (m.file f).writable := by
  rw [fileclose, href, htype, if_neg (by decide), if_neg (by decide)]

/-- the close of the reading end of a pipe whose other end is open -/
theorem fileclose_read (hfile : m.file f = ⟨.pipe, 1, true, false, p, ip⟩) (hopen : (m.pipe p).writeopen = true) :
    ∃ m', m.fileclose f = .ok m' ∧ Freed f m m' ∧ m'.mem = m.mem ∧ (m'.pipe p).readopen = false := by
  have hclose := fileclose_pipe (m := m) (f := f) (by rw [hfile]) (by rw [hfile])
  rw [hfile] at hclose
  obtain ⟨m', hpipe, hsame, haside, hmem, hread⟩ := pipeclose_read (m := m.setFile f _) hopen
  exact ⟨m', hclose.trans hpipe, .of_file ⟨haside.ofile, haside.iref, haside.user⟩ rfl rfl hsame, hmem, hread⟩

/-- the close of its writing end -/
theorem fileclose_write (hfile : m.file f = ⟨.pipe, 1, false, true, p, ip⟩) (hclosed : (m.pipe p).readopen = false)
    (hpage : Freeable m.mem p) :
    ∃ m', m.fileclose f = .ok m' ∧ Freed f m m' ∧ m'.mem.freelist = p :: m.mem.freelist := by
  have hclose := fileclose_pipe (m := m) (f := f) (by rw [hfile]) (by rw [hfile])
  rw [hfile] at hclose
  obtain ⟨m', hpipe, hsame, haside, hmem⟩ := pipeclose_write (m := m.setFile f _) hclosed hpage
  exact ⟨m', hclose.trans hpipe, .of_file ⟨haside.ofile, haside.iref, haside.user⟩ rfl rfl hsame, hmem⟩

/-! ## `pipealloc` -/

theorem Untouched.refl (m : PipeSys) : m.Untouched m := ⟨fun _ => rfl, fun _ => rfl, rfl, rfl, rfl, rfl⟩

/-- entries that were free, and are freed again -/
theorem Untouched.of_free (ht : m.Tidy) (haside : Aside m m')
    (hentry : ∀ g, m'.file g = m.file g ∨ ((m.file g).ref = 0 ∧ (m'.file g).ref = 0 ∧ (m'.file g).type = .none))
    (hfree : m'.mem.freelist = m.mem.freelist) : m.Untouched m' := by
  refine ⟨?_, ?_, haside.ofile, haside.iref, hfree, haside.user⟩
  · intro g
    rcases hentry g with hsame | ⟨hwas, hnow, _⟩
    · rw [hsame]
    · rw [hwas, hnow]
  · intro g
    rcases hentry g with hsame | ⟨hwas, _, hnone⟩
    · rw [hsame]
    · rw [hnone, ht.closed g hwas]

/-- two files that were taken and freed again -/
theorem Untouched.of_freed {m₁ m₂ m₃ : PipeSys} (ht : m.Tidy) (hrf : (m.file rf).ref = 0) (hwf : (m.file wf).ref = 0)
    (haside : Aside m m₁) (hfiles : ∀ g, g ≠ rf → g ≠ wf → m₁.file g = m.file g) (h₁ : Freed rf m₁ m₂)
    (h₂ : Freed wf m₂ m₃) (hfree : m₃.mem.freelist = m.mem.freelist) : m.Untouched m₃ := by
  refine .of_free ht (haside.trans (h₁.aside.trans h₂.aside)) ?_ hfree
  intro g
  by_cases hg : g = wf
  · subst hg
    exact .inr ⟨hwf, h₂.ref, h₂.type⟩
  · rw [h₂.files g hg]
    by_cases hg' : g = rf
    · subst hg'
      exact .inr ⟨hrf, h₁.ref, h₁.type⟩
    · exact .inl ((h₁.files g hg').trans (hfiles g hg' hg))

/-- a `pipealloc` that succeeded -/
structure Allotted (m m' : PipeSys) (rf wf : FileId) (p : Frame) : Prop where
  aside : Aside m m'
  distinct : rf ≠ wf
  free : (m.file rf).ref = 0 ∧ (m.file wf).ref = 0
  readEnd : m'.file rf = ⟨.pipe, 1, true, false, p, (m.file rf).ip⟩
  writeEnd : m'.file wf = ⟨.pipe, 1, false, true, p, (m.file wf).ip⟩
  files : ∀ g, g ≠ rf → g ≠ wf → m'.file g = m.file g
  fresh : m'.pipe p = ⟨0, 0, true, true⟩
  pipes : ∀ q, q ≠ p → m'.pipe q = m.pipe q
  mem : m'.mem = { m.mem with freelist := m'.mem.freelist }
  page : m.mem.freelist = p :: m'.mem.freelist

theorem pipealloc_ends (ht : m.Tidy) :
    (∃ m', m.pipealloc = .ok (none, m') ∧ m.Untouched m') ∨
      ∃ rf wf p m', m.pipealloc = .ok (some (rf, wf), m') ∧ Allotted m m' rf wf p := by
  rw [pipealloc]
  cases hfirst : m.filealloc with
  | none => exact .inl ⟨m, rfl, Untouched.refl m⟩
  | some r =>
    obtain ⟨rf, m₁⟩ := r
    have htook := filealloc_some hfirst
    have hrf := htook.was
    simp only
    cases hsecond : m₁.filealloc with
    | none =>
      obtain ⟨m₂, hclose, hfreed, hmem⟩ := fileclose_new (m := m₁) (f := rf) (by rw [htook.self])
        (by rw [htook.self]; exact ht.closed rf hrf)
      refine .inl ⟨m₂, by rw [hclose]; rfl, .of_free ht (htook.aside.trans hfreed.aside) ?_ (by rw [hmem, htook.mem])⟩
      intro g
      by_cases hg : g = rf
      · subst hg
        exact .inr ⟨hrf, hfreed.ref, hfreed.type⟩
      · exact .inl ((hfreed.files g hg).trans (htook.files g hg))
    | some r =>
      obtain ⟨wf, m₂⟩ := r
      have htook' := filealloc_some hsecond
      have hne : rf ≠ wf := by
        rintro rfl
        have hone := htook'.was
        rw [htook.self] at hone
        cases hone
      have hwfile : m₁.file wf = m.file wf := htook.files wf hne.symm
      have hwf : (m.file wf).ref = 0 := by
        rw [← hwfile]
        exact htook'.was
      have haside := htook.aside.trans htook'.aside
      have hself : m₂.file rf = { m.file rf with ref := 1 } := (htook'.files rf hne).trans htook.self
      have hself' : m₂.file wf = { m.file wf with ref := 1 } := by rw [htook'.self, hwfile]
      have hfiles : ∀ g, g ≠ rf → g ≠ wf → m₂.file g = m.file g :=
        fun g hg hg' => (htook'.files g hg').trans (htook.files g hg)
      have hmem : m₂.mem = m.mem := htook'.mem.trans htook.mem
      simp only
      cases hpage : kalloc m₂.mem with
      | none =>
        obtain ⟨m₃, hclose, hfreed, hmem₃⟩ := fileclose_new (m := m₂) (f := rf) (by rw [hself])
          (by rw [hself]; exact ht.closed rf hrf)
        have hwfile₃ : m₃.file wf = { m.file wf with ref := 1 } := (hfreed.files wf hne.symm).trans hself'
        obtain ⟨m₄, hclose', hfreed', hmem₄⟩ := fileclose_new (m := m₃) (f := wf) (by rw [hwfile₃])
          (by rw [hwfile₃]; exact ht.closed wf hwf)
        refine .inl ⟨m₄, ?_, .of_freed ht hrf hwf haside hfiles hfreed hfreed' (by rw [hmem₄, hmem₃, hmem])⟩
        simp only [hclose]
        change (m₃.fileclose wf >>= fun m => pure (none, m)) = _
        rw [hclose']
        rfl
      | some r =>
        obtain ⟨p, mem⟩ := r
        obtain ⟨hlist, hrest⟩ := kalloc_some hpage
        rw [hmem] at hlist hrest
        refine .inr ⟨rf, wf, p, _, rfl, ?_⟩
        constructor
        case aside => exact ⟨haside.ofile, haside.iref, haside.user⟩
        case distinct => exact hne
        case free => exact ⟨hrf, hwf⟩
        case readEnd =>
          rw [setFile_of_ne hne, setFile_self]
          simp only [hself]
        case writeEnd =>
          rw [setFile_self, setFile_of_ne hne.symm]
          simp only [hself']
        case files =>
          intro g hg hg'
          rw [setFile_of_ne hg', setFile_of_ne hg]
          exact hfiles g hg hg'
        case fresh => exact update_self ..
        case pipes =>
          intro q hq
          have hpipe : m₂.pipe = m.pipe := htook'.pipe.trans htook.pipe
          refine (update_of_ne hq ..).trans ?_
          rw [hpipe]
        case mem => exact hrest
        case page => exact hlist

/-! ## The descriptors -/

namespace Allotted

variable {m₁ : PipeSys}

/-- the same with other descriptors, if they are those of before -/
theorem with_ofile (h : Allotted m m₁ rf wf p) {t : Fd → Option FileId} (hof : t = m.ofile) :
    Allotted m { m₁ with ofile := t } rf wf p :=
  { h with aside := ⟨hof, h.aside.iref, h.aside.user⟩ }

/-- the error path of `sys_pipe`: both ends are closed -/
theorem close (ht : m.Tidy) (h : Allotted m m₁ rf wf p) :
    ∃ m₂ m₃, m₁.fileclose rf = .ok m₂ ∧ m₂.fileclose wf = .ok m₃ ∧ m.Untouched m₃ := by
  obtain ⟨m₂, hclose, hfreed, hmem, hread⟩ := fileclose_read h.readEnd (by rw [h.fresh])
  have hpage : Freeable m₂.mem p := by
    have hkend : m₂.mem.kend = m.mem.kend := by rw [hmem, h.mem]
    have hfree := ht.pages.freeable p (by rw [h.page]; exact List.mem_cons_self)
    rwa [Freeable, hkend]
  have hwfile : m₂.file wf = _ := (hfreed.files wf h.distinct.symm).trans h.writeEnd
  obtain ⟨m₃, hclose', hfreed', hlist⟩ := fileclose_write hwfile hread hpage
  refine ⟨m₂, m₃, hclose, hclose', .of_freed ht h.free.1 h.free.2 h.aside h.files hfreed hfreed' ?_⟩
  rw [hlist, hmem, h.page]

end Allotted

@[simp] theorem word_setWord (addr : ℕ) (w : BitVec 32) : (m.setWord addr w).user.word addr = w := by
  have hbytes : (fun i : Fin 4 => (m.setWord addr w).user.mem (addr + i)) = Fs.word.encode w := by
    funext i
    refine (dif_pos ⟨by omega, by omega⟩).trans ?_
    congr 1
    exact Fin.ext (by simp)
  rw [UserProc.word, hbytes, Fs.word.decode_encode]

theorem mem_setWord_of_lt {addr a : ℕ} (h : a < addr ∨ addr + 4 ≤ a) (w : BitVec 32) :
    (m.setWord addr w).user.mem a = m.user.mem a := dif_neg (by omega)

theorem word_setWord_next (addr : ℕ) (w : BitVec 32) : (m.setWord (addr + 4) w).user.word addr = m.user.word addr := by
  rw [UserProc.word, UserProc.word]
  congr 1
  funext i
  exact mem_setWord_of_lt (by omega) w

theorem pipeFds_ends (ht : m.Tidy) {m₁ : PipeSys} (h : Allotted m m₁ rf wf p) (fd : BitVec 32) :
    (∃ m', m₁.pipeFds fd rf wf = .ok (-1, m') ∧ m.Untouched m') ∨
      ∃ m' n, m₁.pipeFds fd rf wf = .ok (0, m') ∧ m.Made m' fd.toNat n := by
  rw [pipeFds]
  cases hfirst : fdalloc m₁.ofile with
  | none =>
    obtain ⟨m₂, m₃, hclose, hclose', huntouched⟩ := h.close ht
    refine .inl ⟨m₃, ?_, huntouched⟩
    simp only [hclose]
    change (m₂.fileclose wf >>= fun m => pure (-1, m)) = _
    rw [hclose']
    rfl
  | some fd0 =>
    have hfd0 : m.ofile fd0 = none := by
      rw [← h.aside.ofile]
      exact fdalloc_free hfirst
    simp only
    cases hsecond : fdalloc (m₁.setFd fd0 (some rf)).ofile with
    | none =>
      have hback : update (update m₁.ofile fd0 (some rf)) fd0 none = m.ofile := by
        rw [update_idem, h.aside.ofile, ← hfd0, update_eq_self]
      obtain ⟨m₂, m₃, hclose, hclose', huntouched⟩ := (h.with_ofile hback).close ht
      refine .inl ⟨m₃, ?_, huntouched⟩
      change (fileclose { m₁ with ofile := update (update m₁.ofile fd0 (some rf)) fd0 none } rf >>=
        fun m => m.fileclose wf >>= fun m => pure (-1, m)) = _
      rw [hclose]
      change (m₂.fileclose wf >>= fun m => pure (-1, m)) = _
      rw [hclose']
      rfl
    | some fd1 =>
      have hfree := fdalloc_free hsecond
      have hne : fd0 ≠ fd1 := by
        rintro rfl
        have hset : (m₁.setFd fd0 (some rf)).ofile fd0 = some rf := update_self ..
        rw [hset] at hfree
        cases hfree
      have hfd1 : m.ofile fd1 = none := by
        rw [← h.aside.ofile, ← hfree]
        exact (update_of_ne hne.symm ..).symm
      have hnodup := ht.pages.nodup
      rw [h.page, List.nodup_cons] at hnodup
      refine .inr ⟨_, ⟨p, rf, wf, fd0, fd1⟩, rfl, ?_⟩
      constructor
      case distinct => exact ⟨hne, h.distinct⟩
      case freeFds => exact ⟨hfd0, hfd1⟩
      case freeFiles => exact h.free
      case freePage => exact ⟨by rw [h.page]; exact List.mem_cons_self, hnodup.1⟩
      case ofile =>
        rw [← h.aside.ofile]
        rfl
      case readEnd => exact h.readEnd
      case writeEnd => exact h.writeEnd
      case files => exact h.files
      case fresh => exact h.fresh
      case pipes => exact h.pipes
      case iref => exact h.aside.iref
      case mem => exact h.mem
      case free =>
        intro q
        change q ∈ m₁.mem.freelist ↔ _
        rw [h.page, List.mem_cons]
        constructor
        · intro hq
          refine ⟨.inr hq, ?_⟩
          rintro rfl
          exact hnodup.1 hq
        · rintro ⟨hq, hqp⟩
          exact hq.resolve_left hqp
      case results => exact ⟨by rw [word_setWord_next, word_setWord], word_setWord ..⟩
      case user =>
        have huser : ((m₁.setFd fd0 (some rf)).setFd fd1 (some wf)).user = m.user := h.aside.user
        have hsz : m₁.user.sz = m.user.sz := by rw [h.aside.user]
        have hesp : m₁.user.esp = m.user.esp := by rw [h.aside.user]
        refine ⟨hsz, hesp, ?_⟩
        intro a ha
        rw [mem_setWord_of_lt (by omega), mem_setWord_of_lt (by omega), huser]

end PipeSys

/-- **All or nothing.** `sys_pipe` returns -1 and leaves no trace, or returns 0 and has made a pipe with two ends and two
descriptors, out of entries, descriptors and a page that were free. -/
theorem sys_pipe_all_or_nothing (m : PipeSys) (junk : BitVec 32) (h : m.Tidy) :
    ∃ r m', m.sysPipe junk = .ok (r, m') ∧
      ((r = -1 ∧ m.Untouched m') ∨ (r = 0 ∧ ∃ fd n, m.user.argptr 0 junk 8 = (true, fd) ∧ m.Made m' fd.toNat n)) := by
  rw [PipeSys.sysPipe]
  cases hok : (m.user.argptr 0 junk 8).1 with
  | false =>
    have harg : m.user.argptr 0 junk 8 = (false, (m.user.argptr 0 junk 8).2) := Prod.ext hok rfl
    rw [harg]
    exact ⟨-1, m, rfl, .inl ⟨rfl, .refl m⟩⟩
  | true =>
    obtain ⟨fd, harg⟩ : ∃ fd, m.user.argptr 0 junk 8 = (true, fd) := ⟨_, Prod.ext hok rfl⟩
    rw [harg]
    rcases PipeSys.pipealloc_ends h with ⟨m₁, halloc, huntouched⟩ | ⟨rf, wf, p, m₁, halloc, hallot⟩
    · rw [halloc]
      exact ⟨-1, m₁, rfl, .inl ⟨rfl, huntouched⟩⟩
    · rw [halloc]
      rcases PipeSys.pipeFds_ends h hallot fd with ⟨m', hfds, huntouched⟩ | ⟨m', n, hfds, hmade⟩
      · exact ⟨-1, m', hfds, .inl ⟨rfl, huntouched⟩⟩
      · exact ⟨0, m', hfds, .inr ⟨rfl, fd, n, rfl, hmade⟩⟩

/-- a process with no open file and one free page, whose argument is the address 0 -/
def oneFreePage : PipeSys where
  file _ := ⟨.none, 0, false, false, 0, 0⟩
  pipe _ := ⟨0, 0, false, false⟩
  iref _ := 0
  mem := ⟨[1024], fun _ _ => 0, fun _ => ⟨0, fun _ => none⟩, 0, 1024, 0⟩
  ofile _ := none
  user := withArg 0

theorem oneFreePage_tidy : oneFreePage.Tidy where
  closed _ _ := rfl
  pages := ⟨List.nodup_singleton _, by
    intro p hp
    obtain rfl := List.mem_singleton.1 hp
    exact ⟨by decide, le_rfl, by decide⟩⟩

/-- the pipe it gets -/
theorem oneFreePage_pipe :
    ∃ m' fd n, oneFreePage.sysPipe 0 = .ok (0, m') ∧ oneFreePage.Made m' fd n := by
  obtain ⟨r, m', hcall, hres⟩ := sys_pipe_all_or_nothing oneFreePage 0 oneFreePage_tidy
  rcases hres with ⟨rfl, huntouched⟩ | ⟨rfl, fd, n, _, hmade⟩
  · have hzero : (oneFreePage.sysPipe 0).toOption.map Prod.fst = some 0 := by decide +kernel
    rw [hcall] at hzero
    cases hzero
  · exact ⟨m', fd.toNat, n, hcall, hmade⟩

end Xv6Threads.Kernel
