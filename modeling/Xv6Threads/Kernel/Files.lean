/-
Open files and current directories over the kernel.

Every slot has its own table of descriptors (`ofile`) and its own `cwd`. They point into two shared tables that count
references: the open files (`ftable`, each of them a pipe end or an inode) and the in-memory inodes (`icache`).
`fork` and `thread_create` copy the table and the directory into the slot they are making, `exit` closes the caller's
table and drops its directory; `allocproc`, `wait` and `thread_exit` do neither.

A step is one locked section of file.c, fs.c or proc.c, together with the stores around it that the caller makes to its own
slot. A file system call is any sequence of these sections by a process: it collects references to inodes in its `hand`
(`namei`, `dirlookup`, `create`) and returns when it has given them all away. So open, dup, close, pipe and chdir are
modelled by their last sections, and link, unlink, mkdir, mknod and exec by those that count. A process may lose the CPU
or sleep between any two of them. Where the source panics, there is no step. The contents of files, pipes and inodes and the
sleep locks on them are left out.

Functions, under the names of the source: `filealloc`, `fdalloc`, `fileclose`, `iget`, `idup`, `iput`, `sysOpen`, `sysDup`,
`sysClose`, `sysPipe`, `sysChdir`; `copyRound` is a part of the loops of `fork` and `thread_create` that makes one
`filedup`, `exitRound` a part of the loop of `exit` that makes one `fileclose`.
-/
import Xv6Threads.Kernel.Frames

namespace Xv6Threads.Kernel

open Function (update update_of_ne update_self)

variable {N K : ℕ}

/-! ## States -/

/-- an index into `ftable.file` (NFILE = 100) -/
abbrev FileId := Fin 100

/-- an index into `icache.inode` (NINODE = 50) -/
abbrev InodeId := Fin 50

/-- a descriptor (NOFILE = 16) -/
abbrev Fd := Fin 16

/-- the type of a `struct file`, with the inode it is for -/
inductive FileKind where
  | none
  | pipe
  | inode (ip : InodeId)
  deriving DecidableEq

/-- where a process stands in a file system call, in the copying loop of `fork` or `thread_create`, or in `exit` -/
inductive FilePc where
  | out
  | inside
  /-- `sys_open` after `fdalloc`; the file is not yet that of the inode -/
  | opened (f : FileId) (ip : InodeId)
  /-- `pipealloc` between its two files -/
  | piping (f : FileId)
  /-- files still to close on an error path -/
  | closing (f : FileId) (rest : List FileId)
  /-- the copying loop, after `k` rounds, and after the copy of `cwd` -/
  | copying (k : ℕ)
  | copied
  deriving DecidableEq

structure Files (N K : ℕ) where
  st : St N K
  call : Fin N → FilePc
  hand : Fin N → List InodeId
  ofile : Fin N → Fd → Option FileId
  cwd : Fin N → Option InodeId
  ref : FileId → ℤ
  kind : FileId → FileKind
  iref : InodeId → ℤ
  ident : InodeId → ℕ × ℕ

/-- a step of the kernel, or of the process on CPU `c`: it enters or leaves a file system call, takes or drops a
reference to an inode, runs the last sections of `chdir`, `open`, `dup`, `close` and `pipe`, closes a file on an error path,
copies one descriptor in `fork` or `thread_create`, or closes one in `exit` -/
inductive FileOp (N K : ℕ) where
  | kernel (o : Op N K)
  | enter (c : Fin K)
  | leave (c : Fin K)
  | iget (c : Fin K) (dev inum : ℕ)
  | idup (c : Fin K)
  | iput (c : Fin K) (ip : InodeId)
  | sysChdir (c : Fin K) (ip : InodeId)
  | sysOpen (c : Fin K) (ip : InodeId)
  | sysOpenEnd (c : Fin K)
  | sysDup (c : Fin K) (fd : Fd)
  | sysClose (c : Fin K) (fd : Fd)
  | sysPipe (c : Fin K)
  | sysPipeEnd (c : Fin K) (ok : Bool)
  | closeNext (c : Fin K)
  | copy (c : Fin K)
  | exitRound (c : Fin K)
  deriving DecidableEq

/-- the store of `fork` or `thread_create` before which the descriptors and the directory are copied -/
def Making.copies : Making → Bool
  | .forkThreadId | .tcRun => true
  | _ => false

/-! ## file.c -/

/-- the first descriptor that is free -/
def fdalloc (t : Fd → Option FileId) : Option Fd := (List.finRange 16).find? fun fd => t fd = none

/-- the first descriptor from `k` on that is open -/
def nextOpen (t : Fd → Option FileId) (k : ℕ) : Option (Fd × FileId) :=
  ((List.finRange 16).drop k).findSome? fun fd => (t fd).map (fd, ·)

/-- the files that an error path still has to close -/
def FilePc.close : List FileId → FilePc
  | [] => .inside
  | f :: rest => .closing f rest

namespace Files

@[simps]
def goto (m : Files N K) (p : Fin N) (e : FilePc) : Files N K := { m with call := update m.call p e }

@[simps]
def setFd (m : Files N K) (p : Fin N) (fd : Fd) (v : Option FileId) : Files N K :=
  { m with ofile := update m.ofile p (update (m.ofile p) fd v) }

@[simps]
def addRef (m : Files N K) (f : FileId) (d : ℤ) : Files N K :=
  { m with ref := update m.ref f (m.ref f + d) }

/-- `filealloc`: the first file without references, which gets one -/
def filealloc (m : Files N K) : Option (FileId × Files N K) :=
  ((List.finRange 100).find? fun f => m.ref f = 0).map fun f => (f, m.addRef f 1)

/-- `fileclose` by process `p`; the inode of a file that nobody uses any more is put by the caller -/
def fileclose (m : Files N K) (p : Fin N) (f : FileId) : Files N K :=
  if 1 < m.ref f then m.addRef f (-1)
  else
    { m.addRef f (-1) with
      kind := update m.kind f .none
      hand := match m.kind f with
        | .inode ip => update m.hand p (ip :: m.hand p)
        | _ => m.hand }

/-! ## fs.c -/

/-- process `p` gets a reference to `ip` -/
@[simps]
def take (m : Files N K) (p : Fin N) (ip : InodeId) : Files N K :=
  { m with hand := update m.hand p (ip :: m.hand p) }

/-- process `p` gives a reference to `ip` away -/
@[simps]
def give (m : Files N K) (p : Fin N) (ip : InodeId) : Files N K :=
  { m with hand := update m.hand p ((m.hand p).erase ip) }

@[simps]
def addIref (m : Files N K) (ip : InodeId) (d : ℤ) : Files N K :=
  { m with iref := update m.iref ip (m.iref ip + d) }

/-- `iget`: a cached inode, or the first entry without references -/
def iget (m : Files N K) (p : Fin N) (dev inum : ℕ) : Files N K :=
  match (List.finRange 50).find? fun ip => 0 < m.iref ip ∧ m.ident ip = (dev, inum) with
  | some ip => (m.addIref ip 1).take p ip
  | none =>
    match (List.finRange 50).find? fun ip => m.iref ip = 0 with
    | some ip => { m.addIref ip 1 with ident := update m.ident ip (dev, inum) }.take p ip
    | none => m

/-- `idup(proc->cwd)` of `namex` -/
def idup (m : Files N K) (p : Fin N) : Files N K :=
  match m.cwd p with
  | some ip => (m.addIref ip 1).take p ip
  | none => m

/-- `iput` of an inode that the call holds -/
def iput (m : Files N K) (p : Fin N) (ip : InodeId) : Files N K :=
  if ip ∈ m.hand p then (m.addIref ip (-1)).give p ip else m

/-! ## sysfile.c -/

/-- the end of `sys_chdir`: `iput(proc->cwd); proc->cwd = ip` -/
def sysChdir (m : Files N K) (p : Fin N) (ip : InodeId) : Files N K :=
  match m.cwd p with
  | some old =>
    if ip ∈ m.hand p then { (m.addIref old (-1)).give p ip with cwd := update m.cwd p (some ip) } else m
  | none => m

/-- `filealloc` and `fdalloc` of `sys_open` -/
def sysOpen (m : Files N K) (p : Fin N) (ip : InodeId) : Files N K :=
  if ip ∈ m.hand p then
    match m.filealloc with
    | none => m
    | some (f, m) =>
      match fdalloc (m.ofile p) with
      | none => m.goto p (.closing f [])
      | some fd => ((m.setFd p fd (some f)).give p ip).goto p (.opened f ip)
  else m

/-- `sys_dup` -/
def sysDup (m : Files N K) (p : Fin N) (fd : Fd) : Files N K :=
  match m.ofile p fd with
  | none => m
  | some f =>
    match fdalloc (m.ofile p) with
    | none => m
    | some fd' => if 1 ≤ m.ref f then (m.setFd p fd' (some f)).addRef f 1 else m

/-- `sys_close` -/
def sysClose (m : Files N K) (p : Fin N) (fd : Fd) : Files N K :=
  match m.ofile p fd with
  | none => m
  | some f => if 1 ≤ m.ref f then (m.setFd p fd none).fileclose p f else m

/-- the first `filealloc` of `pipealloc` -/
def sysPipe (m : Files N K) (p : Fin N) : Files N K :=
  match m.filealloc with
  | none => m
  | some (f, m) => m.goto p (.piping f)

/-- the rest of `sys_pipe`; `ok` tells whether `kalloc` succeeds -/
def sysPipeEnd (m : Files N K) (p : Fin N) (f : FileId) (ok : Bool) : Files N K :=
  match m.filealloc with
  | none => m.goto p (.closing f [])
  | some (f', m) =>
    if ok then
      let m := { m with kind := update (update m.kind f .pipe) f' .pipe }
      match fdalloc (m.ofile p) with
      | none => m.goto p (.closing f [f'])
      | some fd0 =>
        match fdalloc (update (m.ofile p) fd0 (some f)) with
        | none => m.goto p (.closing f [f'])
        | some fd1 => ((m.setFd p fd0 (some f)).setFd p fd1 (some f')).goto p .inside
    else m.goto p (.closing f [f'])

/-- a file system call of `p` in which it is not in the middle of `open` or `pipe` -/
def inCall (m : Files N K) (p : Fin N) (m' : Files N K) : Files N K := if m.call p = .inside then m' else m

/-! ## fork, thread_create, exit -/

/-- the copying loop from its round `k` to the next `filedup`, and after the last one the copy of `cwd`: `fork` duplicates
it, `thread_create` does not -/
def copyRound (m : Files N K) (p np : Fin N) (st : Making) (k : ℕ) : Files N K :=
  match nextOpen (m.ofile p) k with
  | some (fd, f) =>
    if 1 ≤ m.ref f then ((m.setFd np fd (some f)).addRef f 1).goto p (.copying (fd + 1)) else m
  | none =>
    { m with
      cwd := update m.cwd np (m.cwd p)
      iref := match st, m.cwd p with
        | .forkThreadId, some ip => update m.iref ip (m.iref ip + 1)
        | _, _ => m.iref }.goto p .copied

/-- how far the copying loop of `p` is -/
def round (m : Files N K) (p : Fin N) : Option ℕ :=
  match m.call p with
  | .out => some 0
  | .copying k => some k
  | _ => none

def copy (m : Files N K) (p : Fin N) : Files N K :=
  match m.st.pc p, m.round p with
  | .make st np, some k => if st.copies then m.copyRound p np st k else m
  | _, _ => m

/-- the loop of `exit` to the next `fileclose`, and after the last one `iput(proc->cwd); proc->cwd = 0` -/
def exitRound (m : Files N K) (p : Fin N) : Files N K :=
  if m.st.pc p = .exitClose ∧ m.call p = .out then
    match nextOpen (m.ofile p) 0 with
    | some (fd, f) => if 1 ≤ m.ref f then ((m.setFd p fd none).fileclose p f).goto p .inside else m
    | none =>
      match m.cwd p with
      | some ip => { m.addIref ip (-1) with cwd := update m.cwd p none }
      | none => m
  else m

/-! ## The machine -/

/-- `p` may go on in the kernel: it is in no file system call, has copied everything before it publishes a slot, and has
closed everything before `exit` takes `ptable.lock` -/
def ready (m : Files N K) (p : Fin N) : Prop :=
  match m.st.pc p with
  | .make st _ => m.call p = if st.copies then .copied else .out
  | .exitClose => m.call p = .out ∧ (∀ fd, m.ofile p fd = none) ∧ m.cwd p = none
  | _ => m.call p = .out

instance decidableReady (m : Files N K) (p : Fin N) : Decidable (m.ready p) := by
  unfold ready
  cases m.st.pc p <;> infer_instance

/-- a process that has made a store is done with the copying before it -/
def settled (m : Files N K) (o : Op N K) : Fin N → FilePc :=
  match storing m.st o with
  | some (p, _, _) => update m.call p .out
  | none => m.call

def kernel (m : Files N K) (o : Op N K) : Files N K :=
  if ∃ p ∈ acting m.st o, ¬ m.ready p then m
  else
    { m with
      st := Kernel.step m.st o
      call := started m.st o (m.settled o) .out
      hand := started m.st o m.hand [] }

/-- a step of the process on CPU `c` -/
def on (m : Files N K) (c : Fin K) (f : Fin N → Files N K) : Files N K :=
  match m.st.curproc c with
  | none => m
  | some p => f p

def step (m : Files N K) : FileOp N K → Files N K
  | .kernel o => m.kernel o
  | .enter c => m.on c fun p =>
    if m.call p = .out ∧ m.st.pc p = .user ∧ (m.st.ptable p).killed = false then m.goto p .inside else m
  | .leave c => m.on c fun p => m.inCall p (if m.hand p = [] then m.goto p .out else m)
  | .iget c dev inum => m.on c fun p => m.inCall p (m.iget p dev inum)
  | .idup c => m.on c fun p => m.inCall p (m.idup p)
  | .iput c ip => m.on c fun p => m.inCall p (m.iput p ip)
  | .sysChdir c ip => m.on c fun p => m.inCall p (m.sysChdir p ip)
  | .sysOpen c ip => m.on c fun p => m.inCall p (m.sysOpen p ip)
  | .sysOpenEnd c => m.on c fun p =>
    match m.call p with
    | .opened f ip => { m with kind := update m.kind f (.inode ip) }.goto p .inside
    | _ => m
  | .sysDup c fd => m.on c fun p => m.inCall p (m.sysDup p fd)
  | .sysClose c fd => m.on c fun p => m.inCall p (m.sysClose p fd)
  | .sysPipe c => m.on c fun p => m.inCall p (m.sysPipe p)
  | .sysPipeEnd c ok => m.on c fun p =>
    match m.call p with
    | .piping f => m.sysPipeEnd p f ok
    | _ => m
  | .closeNext c => m.on c fun p =>
    match m.call p with
    | .closing f rest => if 1 ≤ m.ref f then (m.fileclose p f).goto p (.close rest) else m
    | _ => m
  | .copy c => m.on c m.copy
  | .exitRound c => m.on c m.exitRound

end Files

/-! ## What the file system leaves alone -/

/-- no process moves, and no entry of the inode cache is used for another inode while it has references -/
structure FileFrame (m m' : Files N K) : Prop where
  st : m'.st = m.st
  recycled : ∀ ip, m'.ident ip ≠ m.ident ip → m.iref ip = 0

section Frame

variable {m m' m'' : Files N K} {o : FileOp N K}

theorem FileFrame.of_eq (hst : m'.st = m.st) (hid : m'.ident = m.ident) : FileFrame m m' := by
  refine ⟨hst, fun ip h => ?_⟩
  rw [hid] at h
  exact absurd rfl h

theorem FileFrame.refl (m : Files N K) : FileFrame m m := .of_eq rfl rfl

theorem filealloc_eq {f : FileId} (h : m.filealloc = some (f, m')) : m.ref f = 0 ∧ m' = m.addRef f 1 := by
  unfold Files.filealloc at h
  rw [Option.map_eq_some_iff] at h
  obtain ⟨g, hg, hpair⟩ := h
  cases hpair
  exact ⟨by simpa using List.find?_some hg, rfl⟩

theorem filealloc_frame {f : FileId} (h : m.filealloc = some (f, m')) (hst : m''.st = m'.st) (hid : m''.ident = m'.ident) :
    FileFrame m m'' := by
  obtain ⟨_, rfl⟩ := filealloc_eq h
  exact .of_eq hst hid

theorem fileclose_fields (m : Files N K) (p : Fin N) (f : FileId) :
    (m.fileclose p f).st = m.st ∧ (m.fileclose p f).ofile = m.ofile ∧ (m.fileclose p f).call = m.call ∧
      (m.fileclose p f).ref = update m.ref f (m.ref f - 1) := by
  unfold Files.fileclose
  split <;> exact ⟨rfl, rfl, rfl, rfl⟩

theorem fileclose_ident (m : Files N K) (p : Fin N) (f : FileId) : (m.fileclose p f).ident = m.ident := by
  unfold Files.fileclose
  split <;> rfl

theorem iget_frame (m : Files N K) (p : Fin N) (dev inum : ℕ) : FileFrame m (m.iget p dev inum) := by
  unfold Files.iget
  split
  · exact .of_eq rfl rfl
  · split
    · rename_i ip hip
      refine ⟨rfl, fun jp h => ?_⟩
      by_cases hj : jp = ip
      · subst hj
        simpa using List.find?_some hip
      · exact absurd (update_of_ne hj _ _) h
    · exact .refl m

/-- **A step of the file system** does not touch the process table, and recycles only inodes without references. -/
theorem step_frame (ho : ∀ k, o ≠ .kernel k) : FileFrame m (m.step o) := by
  have hon : ∀ c (f : Fin N → Files N K), (∀ p, FileFrame m (f p)) → FileFrame m (m.on c f) := by
    intro c f hf
    unfold Files.on
    split
    · exact .refl m
    · exact hf _
  have hin : ∀ p m', FileFrame m m' → FileFrame m (m.inCall p m') := by
    intro p m' h
    unfold Files.inCall
    split
    · exact h
    · exact .refl m
  cases o with
  | kernel k => exact absurd rfl (ho k)
  | enter c =>
    refine hon c _ fun p => ?_
    split <;> exact .of_eq rfl rfl
  | leave c =>
    refine hon c _ fun p => hin p _ ?_
    split <;> exact .of_eq rfl rfl
  | iget c dev inum =>
    refine hon c _ fun p => hin p _ ?_
    exact iget_frame m p dev inum
  | idup c =>
    refine hon c _ fun p => hin p _ ?_
    unfold Files.idup
    split <;> exact .of_eq rfl rfl
  | iput c ip =>
    refine hon c _ fun p => hin p _ ?_
    unfold Files.iput
    split <;> exact .of_eq rfl rfl
  | sysChdir c ip =>
    refine hon c _ fun p => hin p _ ?_
    unfold Files.sysChdir
    split
    · split <;> exact .of_eq rfl rfl
    · exact .refl m
  | sysOpen c ip =>
    refine hon c _ fun p => hin p _ ?_
    unfold Files.sysOpen
    split
    · split
      · exact .refl m
      · rename_i f m' hf
        split <;> exact filealloc_frame hf rfl rfl
    · exact .refl m
  | sysOpenEnd c =>
    refine hon c _ fun p => ?_
    split <;> exact .of_eq rfl rfl
  | sysDup c fd =>
    refine hon c _ fun p => hin p _ ?_
    unfold Files.sysDup
    split
    · exact .refl m
    · split
      · exact .refl m
      · split <;> exact .of_eq rfl rfl
  | sysClose c fd =>
    refine hon c _ fun p => hin p _ ?_
    unfold Files.sysClose
    split
    · exact .refl m
    · split
      · exact .of_eq (fileclose_fields _ _ _).1 (fileclose_ident _ _ _)
      · exact .refl m
  | sysPipe c =>
    refine hon c _ fun p => hin p _ ?_
    unfold Files.sysPipe
    split
    · exact .refl m
    · rename_i f m' hf
      exact filealloc_frame hf rfl rfl
  | sysPipeEnd c ok =>
    refine hon c _ fun p => ?_
    split
    · unfold Files.sysPipeEnd
      split
      · exact .of_eq rfl rfl
      · rename_i f' m' hf'
        split
        · dsimp only
          split
          · exact filealloc_frame hf' rfl rfl
          · split <;> exact filealloc_frame hf' rfl rfl
        · exact filealloc_frame hf' rfl rfl
    · exact .refl m
  | closeNext c =>
    refine hon c _ fun p => ?_
    split
    · split
      · exact .of_eq (fileclose_fields _ _ _).1 (fileclose_ident _ _ _)
      · exact .refl m
    · exact .refl m
  | copy c =>
    refine hon c _ fun p => ?_
    unfold Files.copy
    split
    · split
      · unfold Files.copyRound
        split
        · split <;> exact .of_eq rfl rfl
        · exact .of_eq rfl rfl
      · exact .refl m
    · exact .refl m
  | exitRound c =>
    refine hon c _ fun p => ?_
    unfold Files.exitRound
    split
    · split
      · split
        · exact .of_eq (fileclose_fields _ _ _).1 (fileclose_ident _ _ _)
        · exact .refl m
      · split <;> exact .of_eq rfl rfl
    · exact .refl m

/-- where a process stands after a step of the kernel: as before, or out of it -/
theorem kernel_call (m : Files N K) (o : Op N K) (q : Fin N) :
    started m.st o (m.settled o) .out q = m.call q ∨ started m.st o (m.settled o) .out q = .out := by
  rcases started_cases m.st o (m.settled o) .out q with h | h
  · rw [h]
    unfold Files.settled
    cases storing m.st o with
    | none => exact .inl rfl
    | some x =>
      by_cases hq : q = x.1
      · subst hq
        exact .inr (update_self ..)
      · exact .inl (update_of_ne hq _ _)
  · exact .inr h

end Frame

/-- after `userinit`: no file is open, and init's directory is the root -/
def filesBoot (N K : ℕ) [NeZero N] : Files N K where
  st := boot N K
  call := fun _ => .out
  hand := fun _ => []
  ofile := fun _ _ => none
  cwd := update (fun _ => none) 0 (some 0)
  ref := fun _ => 0
  kind := fun _ => .none
  iref := update (fun _ => 0) 0 1
  ident := update (fun _ => (0, 0)) 0 (1, 1)

end Xv6Threads.Kernel
