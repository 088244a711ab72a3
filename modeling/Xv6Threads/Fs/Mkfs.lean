/-
mkfs.c: the program that writes the first image of the file system.

`main` takes the files named on the command line, with what is in them, and fails if an assert of the program does. What
is written beyond the end of the disk is kept too: the program does not check that there is room.
-/
import Xv6Threads.Fs.Owners

namespace Xv6Threads.Fs.Mkfs

open Xv6Threads.Core

def nblocks : ℕ := 985
/-- LOGSIZE -/
def nlog : ℕ := 10
def ninodes : ℕ := 200
def size : ℕ := 1024
def bitblocks : ℕ := size / (512 * 8) + 1

/-- the asserts -/
inductive Failed where
  | layout
  | rootino
  | slash
  | maxfile
  | used
  deriving DecidableEq

structure St where
  disk : Disk
  freeblock : ℕ
  usedblocks : ℕ
  freeinode : ℕ

namespace St

def wsect (s : St) (sec : ℕ) (buf : Block) : St := { s with disk := Function.update s.disk sec buf }

def winode (s : St) (inum : ℕ) (ip : Dinode) : St := { s with disk := s.disk.setInode inum ip }

def ialloc (s : St) (type : BitVec 16) : ℕ × St :=
  (s.freeinode, { s with freeinode := s.freeinode + 1 }.winode s.freeinode { Dinode.empty with type := type, nlink := 1 })

/-- `xint(freeblock++)`, with `usedblocks++` -/
def fresh (s : St) : BitVec 32 × St :=
  (BitVec.ofNat 32 s.freeblock, { s with freeblock := s.freeblock + 1, usedblocks := s.usedblocks + 1 })

/-- block `fbn` of the file, if it is one of the first NDIRECT: `x` and the inode -/
def direct (s : St) (din : Dinode) (fbn : Fin NDIRECT) : ℕ × Dinode × St :=
  if din.addrs fbn.castSucc = 0 then
    let (a, s) := s.fresh
    (a.toNat, din.setAddr fbn.castSucc a, s)
  else ((din.addrs fbn.castSucc).toNat, din, s)

/-- the indirect block -/
def indirect (s : St) (din : Dinode) : Dinode × St :=
  if din.addrs (Fin.last NDIRECT) = 0 then
    let (a, s) := s.fresh
    (din.setAddr (Fin.last NDIRECT) a, s)
  else (din, s)

/-- block `j` of those in the indirect block -/
def entry (s : St) (din : Dinode) (j : Fin NINDIRECT) : ℕ × St :=
  let ind := s.disk din.indirect
  if word.get ind j = 0 then
    let (a, s) := s.fresh
    (a.toNat, s.wsect din.indirect (word.set ind j a))
  else ((word.get ind j).toNat, s)

/-- block `fbn` of the file -/
def place (s : St) (din : Dinode) (fbn : ℕ) : Except Failed (ℕ × Dinode × St) :=
  if h : fbn < NDIRECT then .ok (s.direct din ⟨fbn, h⟩)
  else if h : fbn - NDIRECT < NINDIRECT then
    let (din, s) := s.indirect din
    let (x, s) := s.entry din ⟨fbn - NDIRECT, h⟩
    .ok (x, din, s)
  -- assert(fbn < MAXFILE)
  else .error .maxfile

/-- the loop of `iappend`: the bytes `p` from `off` on; every turn takes one at least, so `p.length` turns are enough -/
def appendLoop : ℕ → St → Dinode → ℕ → List Byte → Except Failed (Dinode × ℕ × St)
  | 0, s, din, off, _ => .ok (din, off, s)
  | turns + 1, s, din, off, p =>
    if p = [] then .ok (din, off, s)
    else do
      let fbn := off / 512
      let (x, din, s) ← s.place din fbn
      let n1 := min p.length ((fbn + 1) * 512 - off)
      appendLoop turns (s.wsect x (splice (s.disk x) (off - fbn * 512) (p.take n1))) din (off + n1) (p.drop n1)

def iappend (s : St) (inum : ℕ) (p : List Byte) : Except Failed St := do
  let din := s.disk.inode inum
  let (din, off, s) ← appendLoop p.length s din din.size.toNat p
  return s.winode inum { din with size := BitVec.ofNat 32 off }

/-- `while((cc = read(fd, buf, sizeof(buf))) > 0) iappend(inum, buf, cc)` -/
def appendFile : ℕ → St → ℕ → List Byte → Except Failed St
  | 0, s, _, _ => .ok s
  | turns + 1, s, inum, bytes =>
    if bytes = [] then .ok s
    else do
      let s ← s.iappend inum (bytes.take 512)
      appendFile turns s inum (bytes.drop 512)

/-- the bitmap block with the first `used` bits set -/
def bitmap (used : ℕ) : Block := (List.range used).foldl setBit zeroes

def balloc (s : St) (used : ℕ) : Except Failed St :=
  if used < 512 * 8 then .ok (s.wsect (ninodes / IPB + 3) (bitmap used)) else .error .used

end St

/-- `strncpy(de.name, name, DIRSIZ)` into a zeroed entry, as its bytes -/
def entryBytes (inum : ℕ) (name : List Byte) : List Byte :=
  List.ofFn (dirent.encode ⟨BitVec.ofNat 16 inum, fun k => name.getD k 0⟩)

/-- the image before the first file -/
def blank : St where
  disk := Function.update (fun _ => zeroes) 1
    (superblock.set zeroes 0 ⟨BitVec.ofNat 32 size, BitVec.ofNat 32 nblocks, BitVec.ofNat 32 ninodes, BitVec.ofNat 32 nlog⟩)
  freeblock := ninodes / IPB + 3 + bitblocks
  usedblocks := ninodes / IPB + 3 + bitblocks
  freeinode := 1

def slash : Byte := 47
def dot : Byte := 46
def underscore : Byte := 95

/-- one file of the command line -/
def addFile (s : St) (rootino : ℕ) (name bytes : List Byte) : Except Failed St := do
  if slash ∈ name then throw .slash
  -- skip leading _ in name when writing to file system
  let name := if name.head? = some underscore then name.drop 1 else name
  let (inum, s) := s.ialloc T_FILE
  let s ← s.iappend rootino (entryBytes inum name)
  s.appendFile (bytes.length + 1) inum bytes

def addFiles : St → ℕ → List (List Byte × List Byte) → Except Failed St
  | s, _, [] => .ok s
  | s, rootino, (name, bytes) :: files => do
    let s ← addFile s rootino name bytes
    addFiles s rootino files

/-- `main` with the files of the command line -/
@[irreducible] def main (files : List (List Byte × List Byte)) : Except Failed St := do
  let s := blank
  if nblocks + s.usedblocks + nlog ≠ size then throw .layout
  let (rootino, s) := s.ialloc T_DIR
  if rootino ≠ ROOTINO then throw .rootino
  let s ← s.iappend rootino (entryBytes rootino [dot])
  let s ← s.iappend rootino (entryBytes rootino [dot, dot])
  let s ← addFiles s rootino files
  -- fix size of root inode dir
  let din := s.disk.inode rootino
  let s := s.winode rootino { din with size := BitVec.ofNat 32 ((din.size.toNat / BSIZE + 1) * BSIZE) }
  s.balloc s.usedblocks

end Xv6Threads.Fs.Mkfs
