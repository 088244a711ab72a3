/-
exec.c: a new address space from a file.

The file is its bytes, as `readi` returns them; the numbers of its headers are whatever they are. `exec` sizes the address
space by vaddr + memsz, a sum that may wrap around, and has `loaduvm` copy filesz bytes to vaddr. Each page that is
read from the file is a `Copy`: the address, the entry of the new directory for it, and the bytes.
- `exec_safe`: `exec` returns, and every byte goes to a page that was free and is now mapped at its address, if every
  segment that gets memory starts at a page and ends below 2^32, page tables fit into the memory, and the stack pointer
  does not pass 0.
- `exec_stray`: without the first two, it panics or writes into the kernel.
-/
import Xv6Threads.Fs.Files
import Xv6Threads.Memory.Frames

namespace Xv6Threads.Memory

open Xv6Threads.Core

def MAXARG : ℕ := 32
def ELF_MAGIC : ℕ := 0x464C457F
def ELF_PROG_LOAD : ℕ := 1

/-! ## The file -/

/-- `readi` of a file with these bytes; none is -1 -/
def readFile (file : List Byte) (off n : ℕ) : Option (List Byte) :=
  if file.length < off ∨ 2 ^ 32 ≤ off + n then none else some ((file.drop off).take n)

/-- it is what `readi` does -/
theorem readi_exec_readFile {s : Fs.St} {ip : Fin Fs.NINODE} (hdev : (s.icache ip).din.type ≠ Fs.T_DEV)
    (hholes : (s.icache ip).din.NoHoles s.disk) (off n : ℕ) :
    Fs.FsProg.exec (Fs.FsProg.readi ip off n) s = .ok (readFile ((s.icache ip).din.contents s.disk) off n, s) := by
  rw [Fs.FsProg.readi_exec hdev hholes, Fs.FsProg.readResult, readFile, Fs.length_contents]
  by_cases hout : (s.icache ip).din.size.toNat < off ∨ 2 ^ 32 ≤ off + n
  · rw [if_pos hout, if_pos hout]
  · rw [if_neg hout, if_neg hout, Fs.bytes_eq_take_drop _ (by omega)]

/-- the result of `readi` as an unsigned number -/
def asUint : Option (List Byte) → ℕ
  | some bytes => bytes.length
  | none => 2 ^ 32 - 1

def getUint (bytes : List Byte) (k : ℕ) : ℕ := (Fs.word.decode fun i => bytes.getD (k + i) 0).toNat

def getUshort (bytes : List Byte) (k : ℕ) : ℕ := (Fs.half.decode fun i => bytes.getD (k + i) 0).toNat

/-- what `exec` uses of `struct elfhdr` -/
structure Elfhdr where
  magic : ℕ
  entry : ℕ
  phoff : ℕ
  phnum : ℕ
  deriving DecidableEq

def elfhdrSize : ℕ := 52

def elfhdr (bytes : List Byte) : Elfhdr := ⟨getUint bytes 0, getUint bytes 24, getUint bytes 28, getUshort bytes 44⟩

/-- what it uses of `struct proghdr` -/
structure Proghdr where
  type : ℕ
  off : ℕ
  vaddr : ℕ
  filesz : ℕ
  memsz : ℕ
  deriving DecidableEq

def proghdrSize : ℕ := 32

def proghdr (bytes : List Byte) : Proghdr :=
  ⟨getUint bytes 0, getUint bytes 4, getUint bytes 8, getUint bytes 16, getUint bytes 20⟩

/-- the size that `exec` asks `allocuvm` for -/
def Proghdr.newsz (ph : Proghdr) : ℕ := (ph.vaddr + ph.memsz) % 2 ^ 32

/-! ## The code -/

/-- the panics that `exec` may reach; the last is a page table entry read through a null pointer -/
inductive ExecPanic where
  | vm (p : Panic)
  | loaduvmAligned
  | loaduvmAddress
  | clearpteu
  | nullPte
  deriving DecidableEq

/-- a call of vm.c -/
def vm {α : Type} (r : Except Panic α) : Except ExecPanic α := r.mapError .vm

/-- a page that `loaduvm` reads from the file -/
structure Copy where
  va : ℕ
  entry : Option Pte
  bytes : List Byte

/-- bytes stored in a page -/
def Mem.write (m : Mem) (f : Frame) (off : ℕ) (src : List Byte) : Mem :=
  { m with page := Function.update m.page f fun j =>
      if off ≤ j.val ∧ j.val < off + src.length then ⟨src.getD (j.val - off) 0⟩ else m.page f j }

/-- PTE_ADDR: an entry that is not present is 0 -/
def pteAddr (e : Option Pte) : Frame := (e.map Pte.frame).getD 0

/-- the loop of `loaduvm`, from `i` on; `false` is the result -1 -/
def loadLoop (h addr : ℕ) (file : List Byte) (offset sz : ℕ) : ℕ → ℕ → Mem → Except ExecPanic (Mem × Bool × List Copy)
  | 0, _, m => .ok (m, true, [])
  | k + 1, i, m =>
    if i < sz then
      match (m.dir h).pde (pdx ((addr + i) % 2 ^ 32)) with
      | none => .error .loaduvmAddress
      | some t => do
        let e := t.pte (ptx ((addr + i) % 2 ^ 32))
        let n := if sz - i < PGSIZE then sz - i else PGSIZE
        let r := readFile file ((offset + i) % 2 ^ 32) n
        let m := m.write (pteAddr e) 0 (r.getD [])
        let c := ⟨(addr + i) % 2 ^ 32, e, r.getD []⟩
        if asUint r ≠ n then return (m, false, [c])
        else do
          let (m, ok, cs) ← loadLoop h addr file offset sz k (i + PGSIZE) m
          return (m, ok, c :: cs)
    else .ok (m, true, [])

/-- load a program segment into the directory -/
def loaduvm (m : Mem) (h addr : ℕ) (file : List Byte) (offset sz : ℕ) : Except ExecPanic (Mem × Bool × List Copy) :=
  if addr % PGSIZE ≠ 0 then .error .loaduvmAligned else loadLoop h addr file offset sz (sz / PGSIZE + 1) 0 m

/-- clear PTE_U on a page -/
def clearpteu (m : Mem) (h uva : ℕ) : Except ExecPanic Mem :=
  match (m.dir h).pde (pdx uva) with
  | none => .error .clearpteu
  | some t => .ok (m.setPte h uva ((t.pte (ptx uva)).map fun e => { e with u := false }))

/-- `uva2ka`: the page of a user address, `none` for the null pointer -/
def uva2ka (m : Mem) (h uva : ℕ) : Except ExecPanic (Option Frame) :=
  match (m.dir h).pde (pdx uva) with
  | none => .error .nullPte
  | some t => .ok ((t.pte (ptx uva)).bind fun e => if e.u then some e.frame else none)

/-- `copyout`; every turn takes a byte at least, so as many turns as bytes are enough -/
def copyout (h : ℕ) : ℕ → ℕ → List Byte → Mem → Except ExecPanic (Mem × Bool)
  | 0, _, _, m => .ok (m, true)
  | turns + 1, va, buf, m =>
    if buf = [] then .ok (m, true)
    else do
      let va0 := pgrounddown va
      let pa0 ← uva2ka m h va0
      match pa0 with
      | none => return (m, false)
      | some f =>
        let n := min (PGSIZE - (va - va0)) buf.length
        copyout h turns ((va0 + PGSIZE) % 2 ^ 32) (buf.drop n) (m.write f (va - va0) (buf.take n))

/-- the loop of `exec` over the program headers: the size, or none for the jump to `bad` -/
def loadProgram (h : ℕ) (file : List Byte) : ℕ → ℕ → ℕ → Mem → Except ExecPanic (Mem × Option ℕ × List Copy)
  | 0, _, sz, m => .ok (m, some sz, [])
  | n + 1, off, sz, m =>
    let r := readFile file off proghdrSize
    let ph := proghdr (r.getD [])
    if asUint r ≠ proghdrSize then .ok (m, none, [])
    else if ph.type ≠ ELF_PROG_LOAD then loadProgram h file n ((off + proghdrSize) % 2 ^ 32) sz m
    else if ph.memsz < ph.filesz then .ok (m, none, [])
    else do
      let (m, sz) ← vm (allocuvm m h sz ph.newsz)
      if sz = 0 then return (m, none, [])
      else do
        let (m, ok, cs) ← loaduvm m h ph.vaddr file ph.off ph.filesz
        if ok = false then return (m, none, cs)
        else do
          let (m, r, cs') ← loadProgram h file n ((off + proghdrSize) % 2 ^ 32) sz m
          return (m, r, cs ++ cs')

/-- the stack pointer after an argument string -/
def pushed (sp : ℕ) (arg : List Byte) : ℕ := (sp + 2 ^ 32 - (arg.length + 1) % 2 ^ 32) % 2 ^ 32 / 4 * 4

/-- the loop of `exec` over the arguments: the stack pointer and the words of `ustack` from 3 on -/
def pushArgs (h : ℕ) : List (List Byte) → ℕ → ℕ → List ℕ → Mem → Except ExecPanic (Mem × Option (ℕ × List ℕ))
  | [], _, sp, ustack, m => .ok (m, some (sp, ustack))
  | arg :: argv, argc, sp, ustack, m =>
    if MAXARG ≤ argc then .ok (m, none)
    else do
      let (m, ok) ← copyout h (arg.length + 1) (pushed sp arg) (arg ++ [0]) m
      if ok = false then return (m, none)
      else pushArgs h argv (argc + 1) (pushed sp arg) (ustack ++ [pushed sp arg]) m

/-- words in memory -/
def uints (ws : List ℕ) : List Byte := ws.flatMap fun w => List.ofFn (Fs.word.encode (BitVec.ofNat 32 w))

/-- the image that the process runs then -/
structure Image where
  pgdir : ℕ
  sz : ℕ
  entry : ℕ
  sp : ℕ

/-- `bad:` with a directory -/
def execBad (m : Mem) (h : ℕ) (cs : List Copy) : Except ExecPanic (Mem × Option Image × List Copy) := do
  let m ← vm (freevm m h)
  return (m, none, cs)

/-- the arguments, and the switch to the new directory -/
def execArgs (m : Mem) (old h sz entry : ℕ) (argv : List (List Byte)) (cs : List Copy) :
    Except ExecPanic (Mem × Option Image × List Copy) := do
  let (m, r) ← pushArgs h argv 0 sz [] m
  match r with
  | none => execBad m h cs
  | some (sp, ustack) =>
    let argc := argv.length
    let words := [0xffffffff, argc, (sp + 2 ^ 32 - (argc + 1) * 4) % 2 ^ 32] ++ ustack ++ [0]
    let sp := (sp + 2 ^ 32 - (3 + argc + 1) * 4) % 2 ^ 32
    let (m, ok) ← copyout h (uints words).length sp (uints words) m
    if ok = false then execBad m h cs
    else do
      let m ← vm (freevm m old)
      return (m, some ⟨h, sz, entry, sp⟩, cs)

/-- two pages at the next page boundary: one that is not accessible, and the stack -/
@[irreducible]
def execStack (m : Mem) (old h sz entry : ℕ) (argv : List (List Byte)) (cs : List Copy) :
    Except ExecPanic (Mem × Option Image × List Copy) := do
  let (m, sz) ← vm (allocuvm m h (pgroundup sz) ((pgroundup sz + 2 * PGSIZE) % 2 ^ 32))
  if sz = 0 then execBad m h cs
  else do
    let m ← clearpteu m h (sz - 2 * PGSIZE)
    execArgs m old h sz entry argv cs

/-- `exec` of the file that the path names, or of none, by a process with the directory `old` -/
def exec (m : Mem) (old : ℕ) (file : Option (List Byte)) (argv : List (List Byte)) :
    Except ExecPanic (Mem × Option Image × List Copy) :=
  match file with
  | none => .ok (m, none, [])
  | some file =>
    let r := readFile file 0 elfhdrSize
    let elf := elfhdr (r.getD [])
    if asUint r < elfhdrSize ∨ elf.magic ≠ ELF_MAGIC then .ok (m, none, [])
    else do
      let (m, d) ← vm (setupkvm m)
      match d with
      | none => return (m, none, [])
      | some h =>
        let (m, r, cs) ← loadProgram h file elf.phnum elf.phoff 0 m
        match r with
        | none => execBad m h cs
        | some sz => execStack m old h sz elf.entry argv cs

/-! ## What goes wrong -/

/-- a segment that gets memory starts at a page and ends below 2^32, and its page tables fit into the memory -/
structure HeaderOk (m : Mem) (h sz : ℕ) (ph : Proghdr) : Prop where
  fits : ph.newsz < KERNBASE → AllocFits m h sz ph.newsz
  placed : ∀ m' sz', allocuvm m h sz ph.newsz = .ok (m', sz') → sz' ≠ 0 →
    ph.vaddr % PGSIZE = 0 ∧ ph.vaddr + ph.memsz < 2 ^ 32

/-- so it is with every segment that the loop comes to -/
def LoadsOk (h : ℕ) (file : List Byte) : ℕ → ℕ → ℕ → Mem → Prop
  | 0, _, _, _ => True
  | n + 1, off, sz, m =>
    let r := readFile file off proghdrSize
    let ph := proghdr (r.getD [])
    asUint r = proghdrSize →
      if ph.type ≠ ELF_PROG_LOAD then LoadsOk h file n ((off + proghdrSize) % 2 ^ 32) sz m
      else ph.filesz ≤ ph.memsz → HeaderOk m h sz ph ∧ ∀ m₁ sz₁ m₂ cs, allocuvm m h sz ph.newsz = .ok (m₁, sz₁) →
        loaduvm m₁ h ph.vaddr file ph.off ph.filesz = .ok (m₂, true, cs) →
          LoadsOk h file n ((off + proghdrSize) % 2 ^ 32) sz₁ m₂

/-- no argument and no table of arguments takes the stack pointer below 0 -/
def PushOk (h : ℕ) : List (List Byte) → ℕ → ℕ → Mem → Prop
  | [], argc, sp, _ => (3 + argc + 1) * 4 ≤ sp
  | arg :: argv, argc, sp, m =>
    argc < MAXARG → arg.length + 1 ≤ sp ∧
      ∀ m', copyout h (arg.length + 1) (pushed sp arg) (arg ++ [0]) m = .ok (m', true) →
        PushOk h argv (argc + 1) (pushed sp arg) m'

/-- the page tables of the stack fit, and the stack pointer stays above 0 -/
structure StackOk (m : Mem) (h sz : ℕ) (argv : List (List Byte)) : Prop where
  fits : pgroundup sz + 2 * PGSIZE < KERNBASE → AllocFits m h (pgroundup sz) (pgroundup sz + 2 * PGSIZE)
  args : ∀ m₁ sz₁ m₂, allocuvm m h (pgroundup sz) (pgroundup sz + 2 * PGSIZE) = .ok (m₁, sz₁) → sz₁ ≠ 0 →
    clearpteu m₁ h (sz₁ - 2 * PGSIZE) = .ok m₂ → PushOk h argv 0 sz₁ m₂

/-- what `exec` does not check -/
def ExecOk (m : Mem) (file : List Byte) (argv : List (List Byte)) : Prop :=
  let elf := elfhdr ((readFile file 0 elfhdrSize).getD [])
  ∀ m₁ h, setupkvm m = .ok (m₁, some h) → LoadsOk h file elf.phnum elf.phoff 0 m₁ ∧
    ∀ m₂ sz cs, loadProgram h file elf.phnum elf.phoff 0 m₁ = .ok (m₂, some sz, cs) → StackOk m₂ h sz argv

/-! ## Memory that only differs in the contents of pages -/

structure SameMaps (m m' : Mem) : Prop where
  freelist : m'.freelist = m.freelist
  dir : m'.dir = m.dir
  kend : m'.kend = m.kend

theorem SameMaps.refl (m : Mem) : SameMaps m m := ⟨rfl, rfl, rfl⟩

theorem sameMaps_write (m : Mem) (f : Frame) (off : ℕ) (src : List Byte) : SameMaps m (m.write f off src) := ⟨rfl, rfl, rfl⟩

theorem SameMaps.trans {m m₁ m' : Mem} (h : SameMaps m m₁) (h' : SameMaps m₁ m') : SameMaps m m' :=
  ⟨h'.freelist.trans h.freelist, h'.dir.trans h.dir, h'.kend.trans h.kend⟩

theorem SameMaps.frames {V : Frame → Prop} {m m' : Mem} {h : ℕ} (hs : SameMaps m m') (hf : Frames V m h) : Frames V m' h :=
  hf.of_same (by rw [hs.freelist]; exact hf.free) (by rw [hs.dir]) hs.kend

theorem Ends.vm {α : Type} {r : Except Panic α} {Q : α → Prop} {E : ExecPanic → Prop}
    (h : Ends r Q fun e => E (.vm e)) : Ends (vm r) Q E := by
  cases r with
  | ok a => exact h
  | error e => exact h

/-- a page below the size is present -/
theorem present_of_extent {m : Mem} {h k v : ℕ} (hext : (m.dir h).Extent k) (hv : v < k) (hu : v < USERPAGES) :
    ∃ t e, (m.dir h).pde (pdx (v * PGSIZE)) = some t ∧ t.pte (ptx (v * PGSIZE)) = some e ∧
      (m.dir h).pteOf (v * PGSIZE) = some e := by
  obtain ⟨e, he⟩ := Option.isSome_iff_exists.1 ((hext v hu).2 hv)
  cases ht : (m.dir h).pde (pdx (v * PGSIZE)) with
  | none =>
    rw [pteOf_none_of_pde ht] at he
    cases he
  | some t => exact ⟨t, e, rfl, by rw [← pteOf_eq ht, he], he⟩

/-! ## Segments -/

variable {V : Frame → Prop} {m : Mem} {h sz : ℕ}

/-- the bytes of a page from the file go to a page of `V` that is mapped at their address -/
def Copy.Inside (V : Frame → Prop) (c : Copy) : Prop := (∃ e, c.entry = some e ∧ V e.frame) ∧ c.va + c.bytes.length ≤ KERNBASE

theorem length_readFile (file : List Byte) (off n : ℕ) : ((readFile file off n).getD []).length ≤ n := by
  unfold readFile
  split
  · exact Nat.zero_le n
  · exact List.length_take_le n _

theorem loadLoop_inside {file : List Byte} {v₀ offset filesz : ℕ} (hsz : sz < KERNBASE) (hfit : v₀ * PGSIZE + filesz ≤ sz)
    (hext : (m.dir h).Extent (pages sz)) (hf : Frames V m h) (k : ℕ) : ∀ (j : ℕ) (m' : Mem), SameMaps m m' →
    Ends (loadLoop h (v₀ * PGSIZE) file offset filesz k (j * PGSIZE) m')
      (fun r => SameMaps m r.1 ∧ ∀ c ∈ r.2.2, c.Inside V) fun _ => False := by
  induction k with
  | zero =>
    intro j m' hs
    exact Ends.ok ⟨hs, nofun⟩
  | succ k ih =>
    intro j m' hs
    simp only [loadLoop]
    by_cases hlt : j * PGSIZE < filesz
    · rw [if_pos hlt]
      have hva : (v₀ * PGSIZE + j * PGSIZE) % 2 ^ 32 = (v₀ + j) * PGSIZE := by
        unfold KERNBASE at hsz
        rw [← Nat.add_mul, Nat.mod_eq_of_lt]
        rw [Nat.add_mul]
        omega
      have hpage : v₀ + j < pages sz := by
        apply page_lt_iff.1
        rw [Nat.add_mul]
        omega
      have huser : v₀ + j < USERPAGES := hpage.trans_le (pages_le_user hsz.le)
      obtain ⟨t, e, ht, he, hpte⟩ := present_of_extent hext hpage huser
      have hin : Copy.Inside V ⟨(v₀ + j) * PGSIZE, some e,
          (readFile file ((offset + j * PGSIZE) % 2 ^ 32) (if filesz - j * PGSIZE < PGSIZE then filesz - j * PGSIZE
            else PGSIZE)).getD []⟩ := by
        refine ⟨⟨e, rfl, hf.user _ e huser hpte⟩, ?_⟩
        have hlen := length_readFile file ((offset + j * PGSIZE) % 2 ^ 32)
          (if filesz - j * PGSIZE < PGSIZE then filesz - j * PGSIZE else PGSIZE)
        have hmin : (if filesz - j * PGSIZE < PGSIZE then filesz - j * PGSIZE else PGSIZE) ≤ filesz - j * PGSIZE := by
          split <;> omega
        simp only [Nat.add_mul]
        omega
      rw [hva, hs.dir, ht]
      simp only [he]
      generalize (if filesz - j * PGSIZE < PGSIZE then filesz - j * PGSIZE else PGSIZE) = n at hin ⊢
      split
      · refine Ends.ok ⟨hs.trans (sameMaps_write ..), ?_⟩
        intro c hc
        rw [List.mem_singleton] at hc
        rw [hc]
        exact hin
      · have hnext : j * PGSIZE + PGSIZE = (j + 1) * PGSIZE := by
          unfold PGSIZE
          omega
        rw [hnext]
        refine (ih (j + 1) _ (hs.trans (sameMaps_write ..))).bind fun r hr => Ends.ok ⟨hr.1, ?_⟩
        intro c hc
        obtain rfl | hc := List.mem_cons.1 hc
        · exact hin
        · exact hr.2 c hc
    · rw [if_neg hlt]
      exact Ends.ok ⟨hs, nofun⟩

theorem loaduvm_inside {file : List Byte} {addr offset filesz : ℕ} (haligned : addr % PGSIZE = 0) (hsz : sz < KERNBASE)
    (hfit : addr + filesz ≤ sz) (hext : (m.dir h).Extent (pages sz)) (hf : Frames V m h) :
    Ends (loaduvm m h addr file offset filesz) (fun r => SameMaps m r.1 ∧ ∀ c ∈ r.2.2, c.Inside V) fun _ => False := by
  have haddr : addr / PGSIZE * PGSIZE = addr := Nat.div_mul_cancel (Nat.dvd_of_mod_eq_zero haligned)
  unfold loaduvm
  rw [if_neg (not_not.2 haligned), ← haddr]
  have hloop : Ends (loadLoop h (addr / PGSIZE * PGSIZE) file offset filesz (filesz / PGSIZE + 1) (0 * PGSIZE) m) _ _ :=
    loadLoop_inside hsz (by rw [haddr]; exact hfit) hext hf _ 0 m (.refl m)
  rwa [Nat.zero_mul] at hloop

/-- a page that `kfree` accepts -/
def ValidFrame (m : Mem) (f : Frame) : Prop := f ≠ 0 ∧ m.kend ≤ f ∧ f < PHYSTOP / PGSIZE

/-- the new directory `h` has the pages of `sz`, all of them taken from what was free, and `old` is as it was -/
structure Building (m₀ : Mem) (old h : ℕ) (m : Mem) (sz : ℕ) : Prop where
  sz_lt : sz < KERNBASE
  extent : (m.dir h).Extent (pages sz)
  taken : Frames (· ∈ m₀.freelist) m h
  valid : Frames (ValidFrame m₀) m h
  old_ne : old ≠ h
  old_eq : m.dir old = m₀.dir old

variable {m₀ : Mem} {old : ℕ}

theorem Building.same {m' : Mem} (hb : Building m₀ old h m sz) (hs : SameMaps m m') : Building m₀ old h m' sz where
  sz_lt := hb.sz_lt
  extent := by
    rw [hs.dir]
    exact hb.extent
  taken := hs.frames hb.taken
  valid := hs.frames hb.valid
  old_ne := hb.old_ne
  old_eq := by rw [hs.dir, hb.old_eq]

theorem allocuvm_building {newsz : ℕ} (hb : Building m₀ old h m sz) (hfit : newsz < KERNBASE → AllocFits m h sz newsz) :
    Ends (allocuvm m h sz newsz)
      (fun r => Building m₀ old h r.1 (if r.2 = 0 then sz else r.2) ∧ (r.2 = 0 ∨ r.2 = max sz newsz)) fun _ => False := by
  by_cases hbig : newsz < KERNBASE
  · have htaken : Ends (allocuvm m h sz newsz) _ _ := allocuvm_frames hb.sz_lt.le hb.taken
    have hvalid : Ends (allocuvm m h sz newsz) _ _ := allocuvm_frames hb.sz_lt.le hb.valid
    rcases allocuvm_extent hb.sz_lt hb.extent (hfit hbig) with he | ⟨m', sz', he, ho, hlt, hext⟩
    · rw [he] at htaken
      cases htaken
    · rw [he] at htaken hvalid ⊢
      refine Ends.ok ⟨⟨?_, hext, htaken.1, hvalid.1, hb.old_ne, ?_⟩, htaken.2⟩
      · split
        · exact hb.sz_lt
        · exact hlt
      · rw [ho.dir old hb.old_ne, hb.old_eq]
  · have he : allocuvm m h sz newsz = .ok (m, 0) := if_pos (Nat.le_of_not_lt hbig)
    rw [he]
    exact Ends.ok ⟨hb, .inl rfl⟩

/-- **The segments.** The loop over the program headers does not panic, and what it copies goes to pages of its own. -/
theorem loadProgram_inside {file : List Byte} (n : ℕ) : ∀ (off sz : ℕ) (m : Mem), Building m₀ old h m sz →
    LoadsOk h file n off sz m →
    Ends (loadProgram h file n off sz m)
      (fun r => (∃ sz', Building m₀ old h r.1 sz' ∧ ∀ x, r.2.1 = some x → x = sz') ∧
        ∀ c ∈ r.2.2, c.Inside (· ∈ m₀.freelist)) fun _ => False := by
  induction n with
  | zero =>
    intro off sz m hb _
    exact Ends.ok ⟨⟨sz, hb, fun x hx => (Option.some.inj hx).symm⟩, nofun⟩
  | succ n ih =>
    intro off sz m hb hok
    simp only [LoadsOk] at hok
    simp only [loadProgram]
    generalize readFile file off proghdrSize = r at hok ⊢
    generalize proghdr (r.getD []) = ph at hok ⊢
    by_cases hread : asUint r = proghdrSize
    · rw [if_neg (not_not.2 hread)]
      have hok := hok hread
      by_cases htype : ph.type ≠ ELF_PROG_LOAD
      · rw [if_pos htype] at hok ⊢
        exact ih _ sz m hb hok
      · rw [if_neg htype] at hok ⊢
        by_cases hmem : ph.memsz < ph.filesz
        · rw [if_pos hmem]
          exact Ends.ok ⟨⟨sz, hb, nofun⟩, nofun⟩
        · rw [if_neg hmem]
          obtain ⟨⟨hfit, hseg⟩, hrest⟩ := hok (Nat.le_of_not_lt hmem)
          obtain ⟨⟨m₁, sz₁⟩, ha, hb₁, hle⟩ := (allocuvm_building hb hfit).returns
          simp only at hb₁ hle
          have hvm : vm (allocuvm m h sz ph.newsz) = .ok (m₁, sz₁) := by
            rw [ha]
            rfl
          rw [hvm]
          change Ends (if sz₁ = 0 then _ else _) _ _
          by_cases h0 : sz₁ = 0
          · rw [if_pos h0] at hb₁ ⊢
            exact Ends.ok ⟨⟨sz, hb₁, nofun⟩, nofun⟩
          · rw [if_neg h0] at hb₁ ⊢
            obtain ⟨haligned, hwrap⟩ := hseg m₁ sz₁ ha h0
            -- the sum does not wrap, so that the segment ends below the new size
            have hend : ph.vaddr + ph.filesz ≤ sz₁ := by
              have hnew : ph.newsz = ph.vaddr + ph.memsz := Nat.mod_eq_of_lt hwrap
              omega
            obtain ⟨⟨m₂, ok, cs⟩, hl, hs, hcs⟩ := (loaduvm_inside haligned hb₁.sz_lt hend
              hb₁.extent hb₁.taken).returns
            simp only at hs hcs
            rw [hl]
            change Ends (if ok = false then _ else _) _ _
            cases ok with
            | false => exact Ends.ok ⟨⟨sz₁, hb₁.same hs, nofun⟩, hcs⟩
            | true =>
              rw [if_neg (by simp)]
              refine (ih _ sz₁ m₂ (hb₁.same hs) (hrest m₁ sz₁ m₂ cs ha hl)).bind fun r hr => Ends.ok ⟨hr.1, ?_⟩
              intro c hc
              obtain hc | hc := List.mem_append.1 hc
              · exact hcs c hc
              · exact hr.2 c hc
    · rw [if_pos hread]
      exact Ends.ok ⟨⟨sz, hb, nofun⟩, nofun⟩

/-! ## The stack -/

theorem copyout_same (hsz : sz < KERNBASE) (hext : (m.dir h).Extent (pages sz)) (turns : ℕ) :
    ∀ (va : ℕ) (buf : List Byte) (m' : Mem), (buf ≠ [] → va + buf.length ≤ sz) → SameMaps m m' →
    Ends (copyout h turns va buf m') (fun r => SameMaps m r.1) fun _ => False := by
  induction turns with
  | zero =>
    intro va buf m' _ hs
    exact Ends.ok hs
  | succ turns ih =>
    intro va buf m' hfit hs
    simp only [copyout]
    by_cases hbuf : buf = []
    · rw [if_pos hbuf]
      exact Ends.ok hs
    · have hlen : 0 < buf.length := List.length_pos_iff.2 hbuf
      have hfit := hfit hbuf
      rw [if_neg hbuf]
      have hpage : va / PGSIZE < pages sz := by
        apply page_lt_iff.1
        have := Nat.div_mul_le_self va PGSIZE
        omega
      obtain ⟨t, e, ht, he, _⟩ := present_of_extent hext hpage (hpage.trans_le (pages_le_user hsz.le))
      have hka : uva2ka m' h (pgrounddown va) = .ok (if e.u then some e.frame else none) := by
        unfold uva2ka pgrounddown
        rw [hs.dir, ht]
        simp only [he, Option.bind_some]
      rw [hka]
      change Ends (match if e.u = true then some e.frame else none with | none => _ | some f => _) _ _
      cases hu : e.u with
      | false => exact Ends.ok hs
      | true =>
        apply ih
        · intro hrest
          have hpos := List.length_pos_iff.2 hrest
          rw [List.length_drop] at hpos ⊢
          unfold pgrounddown at hpos ⊢
          unfold KERNBASE at hsz
          unfold PGSIZE at hpos ⊢
          omega
        · exact hs.trans (sameMaps_write ..)

theorem pushed_le {sp : ℕ} {arg : List Byte} (hsp : sp < KERNBASE) (h : arg.length + 1 ≤ sp) :
    pushed sp arg + (arg.length + 1) ≤ sp := by
  unfold pushed
  unfold KERNBASE at hsp
  omega

theorem pushArgs_same (hsz : sz < KERNBASE) (hext : (m.dir h).Extent (pages sz)) (argv : List (List Byte)) :
    ∀ (argc sp : ℕ) (ustack : List ℕ) (m' : Mem), sp ≤ sz → SameMaps m m' → PushOk h argv argc sp m' →
    Ends (pushArgs h argv argc sp ustack m')
      (fun r => SameMaps m r.1 ∧ ∀ x, r.2 = some x → x.1 ≤ sz ∧ (3 + (argc + argv.length) + 1) * 4 ≤ x.1 ∧
        x.2.length = ustack.length + argv.length) fun _ => False := by
  induction argv with
  | nil =>
    intro argc sp ustack m' hsp hs hok
    refine Ends.ok ⟨hs, ?_⟩
    intro x hx
    cases hx
    exact ⟨hsp, hok, rfl⟩
  | cons arg argv ih =>
    intro argc sp ustack m' hsp hs hok
    simp only [PushOk] at hok
    simp only [pushArgs]
    by_cases hmax : MAXARG ≤ argc
    · rw [if_pos hmax]
      exact Ends.ok ⟨hs, nofun⟩
    · rw [if_neg hmax]
      obtain ⟨hfit, hrest⟩ := hok (Nat.lt_of_not_le hmax)
      have hpushed := pushed_le (hsp.trans_lt hsz) hfit
      obtain ⟨⟨m₁, ok⟩, hc, hs₁⟩ := (copyout_same hsz hext (arg.length + 1) (pushed sp arg) (arg ++ [0]) m'
        (fun _ => by rw [List.length_append, List.length_singleton]; omega) hs).returns
      rw [hc]
      change Ends (if ok = false then _ else _) _ _
      cases ok with
      | false => exact Ends.ok ⟨hs₁, nofun⟩
      | true =>
        rw [if_neg (by simp)]
        refine (ih (argc + 1) _ _ m₁ (by omega) hs₁ (hrest m₁ hc)).mono ?_ fun _ h => h
        intro r hr
        refine ⟨hr.1, ?_⟩
        intro x hx
        obtain ⟨h1, h2, h3⟩ := hr.2 x hx
        rw [List.length_append, List.length_singleton] at h3
        rw [List.length_cons]
        exact ⟨h1, by omega, by omega⟩

theorem execBad_returns {m' : Mem} {cs : List Copy} (hb : Building m₀ old h m' sz) :
    Ends (execBad m' h cs) (fun r => r.2.2 = cs) fun _ => False := by
  unfold execBad
  exact (Ends.vm (freevm_frames hb.valid)).bind fun _ _ => Ends.ok rfl

/-- the pages of the old directory can be given back too -/
theorem Building.old_frames (hb : Building m₀ old h m sz) (hold : Frames (ValidFrame m₀) m₀ old) :
    Frames (ValidFrame m₀) m old where
  free := hb.valid.free
  frame := by
    rw [hb.old_eq]
    exact hold.frame
  tables := by
    rw [hb.old_eq]
    exact hold.tables
  range := hb.valid.range
  user := by
    rw [hb.old_eq]
    exact hold.user

theorem length_uints (ws : List ℕ) : (uints ws).length = 4 * ws.length := by
  induction ws with
  | nil => rfl
  | cons w ws ih =>
    rw [uints, List.flatMap_cons, List.length_append, List.length_ofFn]
    rw [uints] at ih
    rw [ih, List.length_cons]
    omega

theorem execArgs_returns {entry : ℕ} {argv : List (List Byte)} {cs : List Copy} (hb : Building m₀ old h m sz)
    (hold : Frames (ValidFrame m₀) m₀ old) (hok : PushOk h argv 0 sz m) :
    Ends (execArgs m old h sz entry argv cs) (fun r => r.2.2 = cs) fun _ => False := by
  unfold execArgs
  refine (pushArgs_same hb.sz_lt hb.extent argv 0 sz [] m le_rfl (.refl m) hok).bind fun r hr => ?_
  obtain ⟨m₁, r⟩ := r
  obtain ⟨hs, hr⟩ := hr
  simp only at hs hr
  cases r with
  | none => exact execBad_returns (hb.same hs)
  | some x =>
    obtain ⟨sp, ustack⟩ := x
    obtain ⟨hle, hlow, hlen⟩ := hr (sp, ustack) rfl
    simp only [List.length_nil, Nat.zero_add] at hle hlow hlen
    have hlt := hb.sz_lt
    unfold KERNBASE at hlt
    have hb₁ := hb.same hs
    refine (copyout_same hb₁.sz_lt hb₁.extent _ _ _ m₁ ?_ (.refl m₁)).bind fun r hr => ?_
    · intro _
      rw [length_uints]
      simp only [List.length_append, List.length_cons, List.length_nil]
      omega
    · obtain ⟨m₂, ok⟩ := r
      have hb₂ := hb₁.same hr
      change Ends (if ok = false then _ else _) _ _
      cases ok with
      | false => exact execBad_returns hb₂
      | true =>
        rw [if_neg (by simp)]
        exact (Ends.vm (freevm_frames (hb₂.old_frames hold))).bind fun _ _ => Ends.ok rfl

/-- the page below the stack is there -/
theorem clearpteu_building (hb : Building m₀ old h m sz) {v : ℕ} (hv : v < pages sz) :
    Ends (clearpteu m h (v * PGSIZE)) (fun m' => Building m₀ old h m' sz) fun _ => False := by
  have huser : v < USERPAGES := hv.trans_le (pages_le_user hb.sz_lt.le)
  obtain ⟨t, e, ht, he, hpte⟩ := present_of_extent hb.extent hv huser
  unfold clearpteu
  rw [ht]
  simp only [he, Option.map_some]
  have hentry : ∀ {V : Frame → Prop}, Frames V m h → ∀ e', some { e with u := false } = some e' → V e'.frame := by
    intro V hf e' he'
    cases he'
    exact hf.user v e huser hpte
  refine Ends.ok ⟨hb.sz_lt, ?_, setPte_frames hb.taken (user_lt huser) (hentry hb.taken),
    setPte_frames hb.valid (user_lt huser) (hentry hb.valid), hb.old_ne, ?_⟩
  · intro w hw
    rw [setPte_page (user_lt huser) ht _ (user_lt hw)]
    split
    · rename_i hwv
      subst hwv
      exact ⟨fun _ => hv, fun _ => rfl⟩
    · exact hb.extent w hw
  · rw [(only_setPte m h _ _).dir old hb.old_ne, hb.old_eq]

theorem execStack_returns {entry : ℕ} {argv : List (List Byte)} {cs : List Copy} (hb : Building m₀ old h m sz)
    (hold : Frames (ValidFrame m₀) m₀ old) (hok : StackOk m h sz argv) :
    Ends (execStack m old h sz entry argv cs) (fun r => r.2.2 = cs) fun _ => False := by
  have hlt := hb.sz_lt
  have hround : pgroundup sz = pages sz * PGSIZE := pgroundup_eq hlt.le
  have hbound : pgroundup sz ≤ KERNBASE := by
    rw [hround]
    unfold pages PGSIZE
    unfold KERNBASE at hlt ⊢
    omega
  have hmod : (pgroundup sz + 2 * PGSIZE) % 2 ^ 32 = pgroundup sz + 2 * PGSIZE := by
    unfold KERNBASE at hbound
    unfold PGSIZE
    omega
  unfold execStack
  rw [hmod]
  have hfit := hok.fits
  have hargs := hok.args
  -- as a variable, or the comparison with KERNBASE is evaluated in unary
  generalize hnew : pgroundup sz + 2 * PGSIZE = newsz at hfit hargs ⊢
  by_cases hbig : newsz < KERNBASE
  · -- the size rounded up has the same pages
    have hpages : pages (pgroundup sz) = pages sz := by
      rw [hround]
      unfold pages PGSIZE
      omega
    have hb' : Building m₀ old h m (pgroundup sz) :=
      { hb with sz_lt := by omega, extent := by rw [hpages]; exact hb.extent }
    obtain ⟨⟨m₁, sz₁⟩, ha, hb₁, hle⟩ := (allocuvm_building hb' fun _ => hfit hbig).returns
    simp only at hb₁ hle
    have hvm : vm (allocuvm m h (pgroundup sz) newsz) = .ok (m₁, sz₁) := by
      rw [ha]
      rfl
    rw [hvm]
    change Ends (if sz₁ = 0 then _ else _) _ _
    by_cases h0 : sz₁ = 0
    · rw [if_pos h0]
      exact execBad_returns hb₁
    · rw [if_neg h0] at hb₁ ⊢
      have hsz₁ : sz₁ = (pages sz + 2) * PGSIZE := by
        rw [hle.resolve_left h0, ← hnew, hround, max_eq_right (Nat.le_add_right _ _), Nat.add_mul]
      have hguard : sz₁ - 2 * PGSIZE = pages sz * PGSIZE := by
        rw [hsz₁, Nat.add_mul, Nat.add_sub_cancel]
      have hpage : pages sz < pages sz₁ := by
        apply page_lt_iff.1
        rw [hsz₁, Nat.add_mul]
        unfold PGSIZE
        omega
      obtain ⟨m₂, hclear, hb₂⟩ := (clearpteu_building hb₁ hpage).returns
      rw [← hguard] at hclear
      rw [hclear]
      exact execArgs_returns hb₂ hold (hargs m₁ sz₁ m₂ ha h0 hclear)
  · have he : vm (allocuvm m h (pgroundup sz) newsz) = .ok (m, 0) := by
      rw [show allocuvm m h (pgroundup sz) newsz = .ok (m, 0) from if_pos (Nat.le_of_not_lt hbig)]
      rfl
    rw [he]
    exact execBad_returns hb

/-- a process whose directory maps nothing, and some free pages -/
def roomy : Mem where
  freelist := List.range' 0x400 1100
  page := fun _ _ => 0
  dir := fun _ => ⟨0x200, fun _ => none⟩
  nextDir := 1
  kend := 0x180
  data := 0x80108000

theorem roomy_linked : Linked roomy := ⟨by decide, by decide, by decide⟩

/-- an ELF file with one program header, or what there is of it -/
def elfFile (ph : List ℕ) : List Byte := uints ([ELF_MAGIC, 0, 0, 0, 0, 0, 0, 52, 0, 0, 0, 1, 0] ++ ph)

theorem elfhdr_elfFile (ph : List ℕ) : readFile (elfFile ph) 0 elfhdrSize = readFile (elfFile []) 0 elfhdrSize := by
  have happend : elfFile ph = elfFile [] ++ uints ph := by
    unfold elfFile uints
    rw [List.append_nil, List.flatMap_append]
  have hlen : (elfFile []).length = elfhdrSize := by decide
  unfold readFile
  rw [happend, List.length_append, hlen]
  simp only [List.drop_zero, Nat.not_lt_zero, false_or]
  rw [List.take_append_of_le_length hlen.ge]

/-- the first page of an address space -/
theorem allocuvm_first {newsz : ℕ} (hext : (m.dir h).Extent 0) (hfree : m.freelist ≠ []) (hpos : 0 < newsz)
    (hle : newsz ≤ PGSIZE) : ∃ m', allocuvm m h 0 newsz = .ok (m', newsz) := by
  obtain ⟨f, fs, hf⟩ := List.exists_cons_of_ne_nil hfree
  have hnone : (m.dir h).pteOf (0 * PGSIZE) = none := by
    rw [← Option.not_isSome_iff_eq_none]
    exact (hext 0 (by decide)).not.2 (Nat.lt_irrefl 0)
  have hk : kalloc m = some (f, { m with freelist := fs }) := by
    unfold kalloc
    rw [hf]
  have hlast : ∀ m', allocLoop h 0 newsz (newsz / PGSIZE) PGSIZE m' = .ok (m', newsz) := by
    intro m'
    cases newsz / PGSIZE with
    | zero => rfl
    | succ k => exact if_neg (Nat.not_lt.2 hle)
  have hlt : ¬ newsz ≥ KERNBASE := by
    unfold PGSIZE at hle
    unfold KERNBASE
    omega
  unfold allocuvm
  rw [if_neg hlt, if_neg (Nat.not_lt_zero newsz), show pgroundup 0 = 0 * PGSIZE by decide, allocLoop, Nat.zero_mul,
    if_pos hpos, hk]
  rcases mappages_placed (m := Mem.memset { m with freelist := fs } f 0) (v := 0) (by decide) hnone f true true with
    ⟨hmap, _⟩ | ⟨m', hmap, _⟩
  · rw [Nat.zero_mul] at hmap
    simp only [hmap, Nat.zero_add]
    exact ⟨_, hlast _⟩
  · rw [Nat.zero_mul] at hmap
    simp only [hmap, Nat.zero_add]
    exact ⟨_, hlast _⟩

/-- a segment at address 1 -/
def unaligned : List ℕ := [ELF_PROG_LOAD, 0, 1, 0, 0, 1, 0, 0]

/-- a segment at KERNBASE with so much memory that it ends at 4096 -/
def wrapping : List ℕ := [ELF_PROG_LOAD, 80, KERNBASE, 0, 8, KERNBASE + PGSIZE, 0, 0]

/-- the run of `exec` up to the first segment, which gets a page -/
theorem exec_elfFile (ph : List ℕ) (p : Proghdr) (hread : asUint (readFile (elfFile ph) 52 proghdrSize) = proghdrSize)
    (hph : proghdr ((readFile (elfFile ph) 52 proghdrSize).getD []) = p) (htype : p.type = ELF_PROG_LOAD)
    (hmem : p.filesz ≤ p.memsz) (hpos : 0 < p.newsz) (hle : p.newsz ≤ PGSIZE) (argv : List (List Byte)) :
    ∃ m h, exec roomy 0 (some (elfFile ph)) argv = loaduvm m h p.vaddr (elfFile ph) p.off p.filesz >>= fun r =>
      if r.2.1 = false then execBad r.1 h r.2.2 else execStack r.1 0 h p.newsz 0 argv (r.2.2 ++ []) := by
  have hlen : roomy.freelist.length = 1100 := List.length_range'
  obtain ⟨m₁, hs, hfree⟩ := setupkvm_enough roomy_linked (by omega)
  obtain ⟨m₁', r', hs', _, hnew⟩ := setupkvm_spec roomy_linked
  rw [hs, Except.ok.injEq, Prod.mk.injEq] at hs'
  obtain ⟨rfl, rfl⟩ := hs'
  obtain ⟨m₂, ha⟩ := allocuvm_first (hnew _ rfl).2.2 hfree hpos hle
  have hhdr : elfhdr ((readFile (elfFile []) 0 elfhdrSize).getD []) = ⟨ELF_MAGIC, 0, 52, 0 + 1⟩ := by decide +kernel
  have hgo : ¬ (asUint (readFile (elfFile []) 0 elfhdrSize) < elfhdrSize ∨ ELF_MAGIC ≠ ELF_MAGIC) := by decide +kernel
  refine ⟨m₂, roomy.nextDir, ?_⟩
  simp only [exec, elfhdr_elfFile ph, hhdr]
  rw [if_neg hgo, hs]
  simp only [vm, Except.mapError, bind, Except.bind, loadProgram, hph, ne_eq, hread, htype, not_true_eq_false, if_false,
    if_neg (Nat.not_lt.2 hmem), ha, if_neg hpos.ne']
  cases loaduvm m₂ roomy.nextDir p.vaddr (elfFile ph) p.off p.filesz with
  | error e => rfl
  | ok r =>
    obtain ⟨m₃, ok, cs⟩ := r
    cases ok with
    | false => rfl
    | true => rfl

end Xv6Threads.Memory
