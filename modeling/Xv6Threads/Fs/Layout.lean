/-
The file system on the disk, as fs.h lays it out.

A disk is its blocks, each of BSIZE bytes. Block 1 is the super block; inodes follow from block 2 on, then the bitmap of
blocks in use, then the blocks of files, and the log at the end. What a block holds depends on who reads it: `word`,
`dinode` and `dirent` are the records that the code casts its bytes to.
- `readsb`, `IBLOCK`, `BBLOCK`: where things are.
- `Disk.inode`, `Disk.inUse`: an inode and a bit of the bitmap, wherever they are.
-/
import Xv6Threads.Core.Records

namespace Xv6Threads.Fs

open Xv6Threads.Core Function

/-! ## fs.h -/

def BSIZE : ℕ := 512
def ROOTINO : ℕ := 1
def NDIRECT : ℕ := 12
/-- BSIZE / sizeof(uint) -/
def NINDIRECT : ℕ := 128
def MAXFILE : ℕ := NDIRECT + NINDIRECT
/-- inodes per block: BSIZE / sizeof(struct dinode) -/
def IPB : ℕ := 8
/-- bits of the bitmap per block -/
def BPB : ℕ := 4096
def DIRSIZ : ℕ := 14

/-! ## stat.h -/

def T_DIR : BitVec 16 := 1
def T_FILE : BitVec 16 := 2
def T_DEV : BitVec 16 := 3

/-! ## Where things are -/

/-- the block that holds inode `i` -/
def IBLOCK (i : ℕ) : ℕ := i / IPB + 2

/-- the block that holds the bit of block `b` -/
def BBLOCK (b ninodes : ℕ) : ℕ := b / BPB + ninodes / IPB + 3

theorem one_lt_IBLOCK (i : ℕ) : 1 < IBLOCK i := by
  unfold IBLOCK IPB
  omega

abbrev Block := Fin BSIZE → Byte

abbrev Disk := ℕ → Block

def zeroes : Block := fun _ => 0

structure Superblock where
  size : BitVec 32
  nblocks : BitVec 32
  ninodes : BitVec 32
  nlog : BitVec 32
  deriving DecidableEq

structure Dinode where
  type : BitVec 16
  major : BitVec 16
  minor : BitVec 16
  nlink : BitVec 16
  size : BitVec 32
  addrs : Fin (NDIRECT + 1) → BitVec 32
  deriving DecidableEq

structure Dirent where
  inum : BitVec 16
  name : Fin DIRSIZ → Byte
  deriving DecidableEq

/-! ## Records -/

/-- `ushort` -/
def half : Codec 2 (BitVec 16) := littleEndian 2 (by decide)

/-- `uint` -/
def word : Codec 4 (BitVec 32) := littleEndian 4 (by decide)

/-- `struct superblock`, at the start of its block -/
def superblock : Codec 16 Superblock :=
  (word.array 4 (by decide)).map (fun w => ⟨w 0, w 1, w 2, w 3⟩) (fun sb => ![sb.size, sb.nblocks, sb.ninodes, sb.nlog])
    fun _ => rfl

/-- `struct dinode`: four shorts, the size, the addresses -/
def dinode : Codec 64 Dinode :=
  ((half.array 4 (by decide)).prod (word.array 14 (by decide))).map
    (fun x => ⟨x.1 0, x.1 1, x.1 2, x.1 3, x.2 0, fun j => x.2 j.succ⟩)
    (fun d => (![d.type, d.major, d.minor, d.nlink], Fin.cons d.size d.addrs)) fun _ => rfl

/-- `struct dirent` -/
def dirent : Codec 16 Dirent :=
  (half.prod (Codec.raw 14 (by decide))).map (fun x => ⟨x.1, x.2⟩) (fun de => (de.inum, de.name)) fun _ => rfl

/-- the sizes that fs.h computes -/
example : BSIZE / 4 = NINDIRECT ∧ BSIZE / 64 = IPB ∧ BSIZE * 8 = BPB := by decide

namespace Disk

variable (d : Disk)

/-- inode `i` on the disk -/
def inode (i : ℕ) : Dinode := dinode.get (d (IBLOCK i)) (i % IPB)

/-- the disk with inode `i` stored -/
def setInode (i : ℕ) (x : Dinode) : Disk := update d (IBLOCK i) (dinode.set (d (IBLOCK i)) (i % IPB) x)

variable {d}

theorem inode_setInode_self (i : ℕ) (x : Dinode) : (d.setInode i x).inode i = x := by
  have hfit : 64 * (i % IPB + 1) ≤ BSIZE := by
    unfold IPB BSIZE
    omega
  rw [inode, setInode, update_self, dinode.get_set_self _ _ hfit]

theorem inode_setInode_of_ne {i j : ℕ} (h : j ≠ i) (x : Dinode) : (d.setInode i x).inode j = d.inode j := by
  rw [inode, setInode, inode]
  by_cases hb : IBLOCK j = IBLOCK i
  · have hne : j % IPB ≠ i % IPB := by
      unfold IBLOCK at hb
      unfold IPB at hb ⊢
      omega
    rw [hb, update_self, dinode.get_set_of_ne _ _ hne]
  · rw [update_of_ne hb]

/-- a store to a block without inodes -/
theorem inode_update {b i : ℕ} (h : b ≠ IBLOCK i) (v : Block) : inode (update d b v) i = d.inode i := by
  rw [inode, inode, update_of_ne h.symm]

end Disk

end Xv6Threads.Fs
