/-
The inodes of fs.c: the cache, files, directories and paths.

A function of fs.c is a program whose operations are the steps that the locks of the kernel make atomic (`Op`): what runs
under icache.lock, the use of one buffer, and `bmap` and `itrunc`, which run on a locked inode. The disk is as seen
through the buffer cache, and `log_write` is the store of the block. Names and paths are lists of bytes without their NUL.
-/
import Xv6Threads.Core.Program
import Xv6Threads.Fs.Bmap

namespace Xv6Threads.Fs

open Xv6Threads.Core

/-- param.h -/
def NINODE : ℕ := 50

instance neZeroNINODE : NeZero NINODE := ⟨by decide⟩

def NDEV : ℕ := 10
def ROOTDEV : ℕ := 1

/-- in-memory copy of an inode -/
structure Inode where
  dev : ℕ
  inum : ℕ
  ref : ℤ
  /-- I_BUSY -/
  busy : Bool
  /-- I_VALID -/
  valid : Bool
  /-- copy of disk inode -/
  din : Dinode
  deriving DecidableEq

/-- the device functions of a major device number, by what they return -/
structure Devsw where
  read : Fin NDEV → Option (ℕ → Option (List Byte))
  write : Fin NDEV → Option (List Byte → Option ℕ)

/-- `devsw[major]`, if there is such an entry -/
def Devsw.entry {α : Type} (f : Fin NDEV → Option α) (major : BitVec 16) : Option α :=
  if h : 0 ≤ major.toInt ∧ major.toInt < NDEV then f ⟨major.toInt.toNat, by omega⟩ else none

structure St where
  disk : Disk
  icache : Fin NINODE → Inode
  /-- log.busy: a transaction is open -/
  trans : Bool
  devsw : Devsw

/-- why a process does not go on -/
inductive Stop where
  | panic (p : Panic)
  | sleeps
  deriving DecidableEq

/-! ## Steps -/

inductive Op where
  | beginTrans
  | commitTrans
  | readsb
  | bread (b : ℕ)
  /-- copy bytes over part of a block, and `log_write` -/
  | store (b off : ℕ) (src : List Byte)
  | devread (major : BitVec 16) (n : ℕ)
  | devwrite (major : BitVec 16) (src : List Byte)
  /-- the body of the loop of `ialloc` -/
  | tryInode (inum : ℕ) (type : BitVec 16)
  | iupdate (ip : Fin NINODE)
  | iget (dev inum : ℕ)
  | idup (ip : Fin NINODE)
  /-- `ilock` up to I_BUSY -/
  | lock (ip : Fin NINODE)
  /-- the rest of `ilock` -/
  | load (ip : Fin NINODE)
  | iunlock (ip : Fin NINODE)
  /-- `iput` up to `itrunc`, or to its end if it does not free the inode -/
  | dropRef (ip : Fin NINODE)
  | itrunc (ip : Fin NINODE)
  /-- the end of `iput` when it has freed the inode -/
  | recycle (ip : Fin NINODE)
  | bmap (ip : Fin NINODE) (bn : ℕ)
  /-- the fields of the inode -/
  | inode (ip : Fin NINODE)
  | setDin (ip : Fin NINODE) (x : Dinode)
  | panic (p : Panic)

def Op.Res : Op → Type
  | .readsb => Superblock
  | .bread _ => Block
  | .devread .. => Option (List Byte)
  | .devwrite .. => Option ℕ
  | .tryInode .. => Bool
  | .iget .. => Fin NINODE
  | .dropRef _ => Bool
  | .bmap .. => ℕ
  | .inode _ => Inode
  | .panic _ => Empty
  | _ => Unit

namespace St

variable (s : St)

def setEntry (ip : Fin NINODE) (e : Inode) : St := { s with icache := Function.update s.icache ip e }

def setDisk (d : Disk) : St := { s with disk := d }

def iget (dev inum : ℕ) : Except Stop (Fin NINODE × St) :=
  -- is the inode already cached?
  match (List.finRange NINODE).find? fun ip => 0 < (s.icache ip).ref ∧ (s.icache ip).dev = dev ∧ (s.icache ip).inum = inum with
  | some ip => .ok (ip, s.setEntry ip { s.icache ip with ref := (s.icache ip).ref + 1 })
  | none =>
    -- recycle an inode cache entry
    match (List.finRange NINODE).find? fun ip => (s.icache ip).ref = 0 with
    | some ip => .ok (ip, s.setEntry ip { s.icache ip with dev := dev, inum := inum, ref := 1, busy := false, valid := false })
    | none => .error (.panic .igetNoInodes)

def lock (ip : Fin NINODE) : Except Stop (Unit × St) :=
  if (s.icache ip).ref < 1 then .error (.panic .ilock)
  else if (s.icache ip).busy then .error .sleeps
  else .ok ((), s.setEntry ip { s.icache ip with busy := true })

def load (ip : Fin NINODE) : Except Stop (Unit × St) :=
  let e := s.icache ip
  if e.valid then .ok ((), s)
  else if (s.disk.inode e.inum).type = 0 then .error (.panic .ilockNoType)
  else .ok ((), s.setEntry ip { e with din := s.disk.inode e.inum, valid := true })

def iunlock (ip : Fin NINODE) : Except Stop (Unit × St) :=
  if (s.icache ip).busy = false ∨ (s.icache ip).ref < 1 then .error (.panic .iunlock)
  else .ok ((), s.setEntry ip { s.icache ip with busy := false })

/-- whether the inode is to be freed -/
def dropRef (ip : Fin NINODE) : Except Stop (Bool × St) :=
  let e := s.icache ip
  if e.ref = 1 ∧ e.valid = true ∧ e.din.nlink = 0 then
    if e.busy then .error (.panic .iputBusy) else .ok (true, s.setEntry ip { e with busy := true })
  else .ok (false, s.setEntry ip { e with ref := e.ref - 1 })

def recycle (ip : Fin NINODE) : St :=
  s.setEntry ip { s.icache ip with busy := false, valid := false, ref := (s.icache ip).ref - 1 }

/-- whether inode `inum` was free; it is allocated then -/
def tryInode (inum : ℕ) (type : BitVec 16) : Bool × St :=
  if (s.disk.inode inum).type = 0 then (true, s.setDisk (s.disk.setInode inum { Dinode.empty with type := type }))
  else (false, s)

/-- `bmap` of the inode in the cache -/
def bmap (ip : Fin NINODE) (bn : ℕ) : Except Stop (ℕ × St) :=
  match Fs.bmap s.disk (s.icache ip).din bn with
  | .ok (b, x, d) => .ok (b, (s.setDisk d).setEntry ip { s.icache ip with din := x })
  | .error p => .error (.panic p)

def itrunc (ip : Fin NINODE) : Except Stop (Unit × St) :=
  match Fs.itrunc s.disk (s.icache ip).inum (s.icache ip).din with
  | .ok (x, d) => .ok ((), (s.setDisk d).setEntry ip { s.icache ip with din := x })
  | .error p => .error (.panic p)

end St

/-- what a step does -/
def Op.step : (o : Op) → St → Except Stop (o.Res × St)
  | .beginTrans, s => if s.trans then .error .sleeps else .ok ((), { s with trans := true })
  | .commitTrans, s => .ok ((), { s with trans := false })
  | .readsb, s => .ok (Fs.readsb s.disk, s)
  | .bread b, s => .ok (s.disk b, s)
  | .store b off src, s => .ok ((), s.setDisk (Function.update s.disk b (splice (s.disk b) off src)))
  | .devread major n, s => .ok ((Devsw.entry s.devsw.read major).bind fun f => f n, s)
  | .devwrite major src, s => .ok ((Devsw.entry s.devsw.write major).bind fun f => f src, s)
  | .tryInode inum type, s => .ok (s.tryInode inum type)
  | .iupdate ip, s => .ok ((), s.setDisk (s.disk.setInode (s.icache ip).inum (s.icache ip).din))
  | .iget dev inum, s => s.iget dev inum
  | .idup ip, s => .ok ((), s.setEntry ip { s.icache ip with ref := (s.icache ip).ref + 1 })
  | .lock ip, s => s.lock ip
  | .load ip, s => s.load ip
  | .iunlock ip, s => s.iunlock ip
  | .dropRef ip, s => s.dropRef ip
  | .itrunc ip, s => s.itrunc ip
  | .recycle ip, s => .ok ((), s.recycle ip)
  | .bmap ip bn, s => s.bmap ip bn
  | .inode ip, s => .ok (s.icache ip, s)
  | .setDin ip x, s => .ok ((), s.setEntry ip { s.icache ip with din := x })
  | .panic p, _ => .error (.panic p)

def steps : Signature := ⟨Op, Op.Res⟩

/-- the programs of the file system -/
abbrev FsProg := Prog steps

namespace FsProg

/-- a program that runs alone -/
def exec {α : Type} (p : FsProg α) (s : St) : Except Stop (α × St) := Prog.exec Op.step p s

def perform (o : Op) : FsProg o.Res := Prog.perform (σ := steps) o

def panic {α : Type} (p : Panic) : FsProg α := .call (σ := steps) (.panic p) Empty.elim

def beginTrans : FsProg Unit := perform .beginTrans
def commitTrans : FsProg Unit := perform .commitTrans
def readsb : FsProg Superblock := perform .readsb
def bread (b : ℕ) : FsProg Block := perform (.bread b)
def store (b off : ℕ) (src : List Byte) : FsProg Unit := perform (.store b off src)
def devread (major : BitVec 16) (n : ℕ) : FsProg (Option (List Byte)) := perform (.devread major n)
def devwrite (major : BitVec 16) (src : List Byte) : FsProg (Option ℕ) := perform (.devwrite major src)
def tryInode (inum : ℕ) (type : BitVec 16) : FsProg Bool := perform (.tryInode inum type)
def iupdate (ip : Fin NINODE) : FsProg Unit := perform (.iupdate ip)
def iget (dev inum : ℕ) : FsProg (Fin NINODE) := perform (.iget dev inum)
def idup (ip : Fin NINODE) : FsProg Unit := perform (.idup ip)
def lock (ip : Fin NINODE) : FsProg Unit := perform (.lock ip)
def load (ip : Fin NINODE) : FsProg Unit := perform (.load ip)
def iunlock (ip : Fin NINODE) : FsProg Unit := perform (.iunlock ip)
def dropRef (ip : Fin NINODE) : FsProg Bool := perform (.dropRef ip)
def itrunc (ip : Fin NINODE) : FsProg Unit := perform (.itrunc ip)
def recycle (ip : Fin NINODE) : FsProg Unit := perform (.recycle ip)
def bmap (ip : Fin NINODE) (bn : ℕ) : FsProg ℕ := perform (.bmap ip bn)
def inode (ip : Fin NINODE) : FsProg Inode := perform (.inode ip)
def setDin (ip : Fin NINODE) (x : Dinode) : FsProg Unit := perform (.setDin ip x)

/-! ## Inodes -/

/-- the loop of `ialloc`, from `inum` on -/
def iallocLoop (type : BitVec 16) : ℕ → ℕ → FsProg (Fin NINODE)
  | 0, _ => panic .iallocNoInodes
  | turns + 1, inum => do
    let isFree ← tryInode inum type
    if isFree then iget ROOTDEV inum else iallocLoop type turns (inum + 1)

def ialloc (type : BitVec 16) : FsProg (Fin NINODE) := do
  let sb ← readsb
  iallocLoop type (sb.ninodes.toNat - 1) 1

def ilock (ip : Fin NINODE) : FsProg Unit := do
  lock ip
  load ip

def iput (ip : Fin NINODE) : FsProg Unit := do
  let unlinked ← dropRef ip
  if unlinked then
    -- inode has no links: truncate and free inode
    itrunc ip
    let e ← inode ip
    setDin ip { e.din with type := 0 }
    iupdate ip
    recycle ip

def iunlockput (ip : Fin NINODE) : FsProg Unit := do
  iunlock ip
  iput ip

/-! ## Contents -/

/-- the loop of `readi` over `n` bytes from `off` on; every turn takes one at least, so `n` turns are enough -/
def readLoop (ip : Fin NINODE) : ℕ → ℕ → ℕ → FsProg (List Byte)
  | 0, _, _ => return []
  | turns + 1, off, n =>
    if n = 0 then return []
    else do
      let b ← bmap ip (off / BSIZE)
      let data ← bread b
      let m := min n (BSIZE - off % BSIZE)
      let rest ← readLoop ip turns (off + m) (n - m)
      return slice data (off % BSIZE) m ++ rest

/-- read data from inode: the bytes, or none for -1 -/
def readi (ip : Fin NINODE) (off n : ℕ) : FsProg (Option (List Byte)) := do
  let e ← inode ip
  if e.din.type = T_DEV then devread e.din.major n
  else if e.din.size.toNat < off ∨ 2 ^ 32 ≤ off + n then return none
  else do
    let n := if e.din.size.toNat < off + n then e.din.size.toNat - off else n
    let bytes ← readLoop ip n off n
    return some bytes

/-- the loop of `writei` -/
def writeLoop (ip : Fin NINODE) : ℕ → ℕ → List Byte → FsProg Unit
  | 0, _, _ => return ()
  | turns + 1, off, src =>
    if src = [] then return ()
    else do
      let b ← bmap ip (off / BSIZE)
      let m := min src.length (BSIZE - off % BSIZE)
      store b (off % BSIZE) (src.take m)
      writeLoop ip turns (off + m) (src.drop m)

/-- write data to inode: the number of bytes, or none for -1 -/
def writei (ip : Fin NINODE) (off : ℕ) (src : List Byte) : FsProg (Option ℕ) := do
  let e ← inode ip
  if e.din.type = T_DEV then devwrite e.din.major src
  else if e.din.size.toNat < off ∨ 2 ^ 32 ≤ off + src.length then return none
  else if MAXFILE * BSIZE < off + src.length then return none
  else do
    writeLoop ip src.length off src
    let e ← inode ip
    if 0 < src.length ∧ e.din.size.toNat < off + src.length then
      setDin ip { e.din with size := BitVec.ofNat 32 (off + src.length) }
      iupdate ip
    return some src.length

/-! ## Directories -/

/-- whether `strncmp` of two strings returns 0 -/
def strncmp : ℕ → (ℕ → Byte) → (ℕ → Byte) → Bool
  | 0, _, _ => true
  | n + 1, p, q => if p 0 ≠ 0 ∧ p 0 = q 0 then strncmp n (fun k => p (k + 1)) (fun k => q (k + 1)) else p 0 = q 0

/-- whether a name is that of a directory entry -/
def namecmp (s : List Byte) (t : Fin DIRSIZ → Byte) : Bool := strncmp DIRSIZ (fun k => s.getD k 0) (fun k => rd t k)

/-- `sizeof(struct dirent)` -/
def direntSize : ℕ := 16

/-- the directory entry at `off`, if a read of it returns all of its bytes -/
def readDirent (dp : Fin NINODE) (off : ℕ) (fails : Panic) : FsProg Dirent := do
  let r ← readi dp off direntSize
  match r with
  | some bytes => if bytes.length = direntSize then return dirent.decode fun k => bytes.getD k 0 else panic fails
  | none => panic fails

/-- the loop of `dirlookup` -/
def dirlookupLoop (dp : Fin NINODE) (name : List Byte) (size : ℕ) : ℕ → ℕ → FsProg (Option (Fin NINODE × ℕ))
  | 0, _ => return none
  | turns + 1, off =>
    if off < size then do
      let de ← readDirent dp off .dirlinkRead
      if de.inum ≠ 0 ∧ namecmp name de.name then do
        -- entry matches path element
        let e ← inode dp
        let ip ← iget e.dev de.inum.toNat
        return some (ip, off)
      else dirlookupLoop dp name size turns (off + direntSize)
    else return none

/-- look for a directory entry in a directory: its inode and its offset -/
def dirlookup (dp : Fin NINODE) (name : List Byte) : FsProg (Option (Fin NINODE × ℕ)) := do
  let e ← inode dp
  if e.din.type ≠ T_DIR then panic .dirlookupNotDir
  else dirlookupLoop dp name e.din.size.toNat (e.din.size.toNat / direntSize + 1) 0

/-- the loop of `dirlink`: the offset of an empty entry, or that of the end -/
def emptyDirent (dp : Fin NINODE) (size : ℕ) : ℕ → ℕ → FsProg ℕ
  | 0, off => return off
  | turns + 1, off =>
    if off < size then do
      let de ← readDirent dp off .dirlinkRead
      if de.inum = 0 then return off else emptyDirent dp size turns (off + direntSize)
    else return off

/-- the entry that `strncpy` and the store of the number make -/
def mkDirent (name : List Byte) (inum : ℕ) : Dirent := ⟨BitVec.ofNat 16 inum, fun k => name.getD k 0⟩

/-- the bytes of an entry -/
def direntBytes (de : Dirent) : List Byte := List.ofFn (dirent.encode de)

/-- write a new directory entry into the directory `dp`; whether it returns 0 -/
def dirlink (dp : Fin NINODE) (name : List Byte) (inum : ℕ) : FsProg Bool := do
  -- check that name is not present
  let found ← dirlookup dp name
  match found with
  | some (ip, _) => do
    iput ip
    return false
  | none => do
    let e ← inode dp
    let off ← emptyDirent dp e.din.size.toNat (e.din.size.toNat / direntSize + 1) 0
    let r ← writei dp off (direntBytes (mkDirent name inum))
    if r = some direntSize then return true else panic .dirlink

/-! ## Paths -/

def slash : Byte := 47

/-- the next path element, and what follows it -/
def skipelem (path : List Byte) : Option (List Byte × List Byte) :=
  let path := path.dropWhile (· = slash)
  if path = [] then none
  else some ((path.takeWhile (· ≠ slash)).take DIRSIZ, (path.dropWhile (· ≠ slash)).dropWhile (· = slash))

/-- the loop of `namex`; every turn takes an element of the path, so as many turns as bytes are enough -/
def namexLoop (nameiparent : Bool) : ℕ → Fin NINODE → List Byte → List Byte → FsProg (Option (Fin NINODE × List Byte))
  | 0, ip, _, name => return some (ip, name)
  | turns + 1, ip, path, name =>
    match skipelem path with
    | none =>
      if nameiparent then do
        iput ip
        return none
      else return some (ip, name)
    | some (name, path) => do
      ilock ip
      let e ← inode ip
      if e.din.type ≠ T_DIR then
        iunlockput ip
        return none
      else if nameiparent ∧ path = [] then
        -- stop one level early
        iunlock ip
        return some (ip, name)
      else do
        let found ← dirlookup ip name
        iunlockput ip
        match found with
        | none => return none
        | some (next, _) => namexLoop nameiparent turns next path name

/-- where a path starts; `cwd` is the current directory -/
def startOf (cwd : Fin NINODE) (path : List Byte) : FsProg (Fin NINODE) :=
  if path.head? = some slash then iget ROOTDEV ROOTINO
  else do
    idup cwd
    return cwd

/-- the inode for a path name, or for its parent with the last element -/
def namex (cwd : Fin NINODE) (path : List Byte) (nameiparent : Bool) : FsProg (Option (Fin NINODE × List Byte)) := do
  let ip ← startOf cwd path
  namexLoop nameiparent (path.length + 1) ip path []

def namei (cwd : Fin NINODE) (path : List Byte) : FsProg (Option (Fin NINODE)) := do
  let r ← namex cwd path false
  return r.map Prod.fst

def nameiparent (cwd : Fin NINODE) (path : List Byte) : FsProg (Option (Fin NINODE × List Byte)) := namex cwd path true

end FsProg

end Xv6Threads.Fs
