import Vexfs.Fs.Disk

/-!
# The dynamic inode table

The inode table is a list of blocks of 1024 slots of 256 bytes.  Block 0 lies at a fixed
offset; the others are appended at the end of the data region when every slot of the
blocks so far is in use.  The offsets of the blocks are kept in a directory of 64 pointers,
in the block of the superblock.
-/

namespace Vexfs

open Bytes Storage

def inodesPerBlock : Nat := 1024

def maxInodeBlocks : Nat := 64

def maxInodesTotal : Nat := inodesPerBlock * maxInodeBlocks

/-- The size of an inode block on disk. -/
def inodeBlockSize : Nat := inodesPerBlock * inodeBytes

def blockDirBytes : Nat := maxInodeBlocks * 8

def inodeBlockDirOffset : Nat := 3584

/-- The offsets of the inode blocks, 0 for a block that is not allocated, and the offset at
which the next block is appended. -/
structure InodeTable where
  blockOffsets : Vector UInt64 64
  nextDiskEnd : UInt64

namespace InodeTable

/-- The table of a new image, with block 0 alone. -/
def new (originalOffset nextDiskEnd : UInt64) : InodeTable where
  blockOffsets := (Vector.replicate 64 0).set 0 originalOffset
  nextDiskEnd := nextDiskEnd

/-- The offset of block 0, the one block that every table has. -/
def firstBlock (table : InodeTable) : UInt64 := table.blockOffsets[0]

/-- The offsets that the bytes of a block directory hold, except that of block 0. -/
def parseDirectory (dirBuf : List UInt8) (originalOffset : UInt64) : Vector UInt64 64 :=
  (Vector.ofFn fun i : Fin 64 => leToU64 (field dirBuf (i * 8) (i * 8 + 8))).set 0
    originalOffset

theorem parseDirectory_zero (dirBuf : List UInt8) (originalOffset next : UInt64) :
  (InodeTable.mk (parseDirectory dirBuf originalOffset) next).firstBlock = originalOffset
  := Vector.getElem_set_self _

theorem parseDirectory_pos {dirBuf : List UInt8} {originalOffset : UInt64} {i : Nat}
    (hi : i < 64) (hpos : 0 < i) :
  (parseDirectory dirBuf originalOffset)[i] = leToU64 (field dirBuf (i * 8) (i * 8 + 8))
  := by
  rw [parseDirectory, Vector.getElem_set_ne _ _ (Nat.ne_of_lt hpos), Vector.getElem_ofFn]

/-- The table with the offsets read from the directory, except that of block 0. -/
def «open» (file : File) (originalOffset nextDiskEnd : UInt64) : DiskResult InodeTable := do
  let dirBuf ← readBytes file inodeBlockDirOffset blockDirBytes
  return { blockOffsets := parseDirectory dirBuf originalOffset, nextDiskEnd }

/-- The bytes of the block directory. -/
def dirBytes (table : InodeTable) : List UInt8 :=
  table.blockOffsets.toList.flatMap u64ToLe

def saveDirectory (table : InodeTable) (file : File) : File :=
  file.write inodeBlockDirOffset table.dirBytes

def blockFor (index : Nat) : Nat := index / inodesPerBlock

def slotInBlock (index : Nat) : Nat := index % inodesPerBlock

/-- The offset of the slot of an inode, if its block is allocated. -/
def inodeOffset (table : InodeTable) (index : Nat) : Option UInt64 :=
  let base := (table.blockOffsets[blockFor index]?).getD 0
  if base = 0 then none
  else some (base + UInt64.ofNat (slotInBlock index * inodeBytes))

/-- The number of blocks allocated, block 0 included. -/
def blockCount (table : InodeTable) : Nat :=
  table.blockOffsets.toList.countP (· != 0)

def capacity (table : InodeTable) : Nat := table.blockCount * inodesPerBlock

/-- Where a block at an offset ends. -/
def blockEnd (offset : UInt64) : UInt64 := offset + UInt64.ofNat inodeBlockSize

theorem toNat_blockEnd {offset : UInt64} (h : offset.toNat + inodeBlockSize < 2 ^ 64) :
  (blockEnd offset).toNat = offset.toNat + inodeBlockSize
  := by
  rw [blockEnd, UInt64.toNat_add, UInt64.toNat_ofNat_of_lt' (by decide), Nat.mod_eq_of_lt h]

/-- Append a block of zeros at the end of the image and save the directory. -/
def allocBlock (table : InodeTable) (file : File) : Option Nat × InodeTable × File :=
  match (table.blockOffsets.toList.drop 1).findIdx? (· == 0) with
  | none => (none, table, file)
  | some i =>
      let slot := i + 1
      let newOffset := table.nextDiskEnd
      let file := file.write newOffset.toNat (zeros inodeBlockSize)
      let table := {
        blockOffsets := table.blockOffsets.setIfInBounds slot newOffset
        nextDiskEnd := blockEnd table.nextDiskEnd }
      (some slot, table, table.saveDirectory file)

variable [Crc32]

/-- Read an inode.  A slot of an unallocated block, or one that does not decode, reads as
the empty inode. -/
def readInode (table : InodeTable) (file : File) (index : Nat) : DiskResult InodeRaw :=
  match table.inodeOffset index with
  | none => .ok InodeRaw.empty
  | some offset =>
      match readBytes file offset.toNat inodeBytes with
      | .error e => .error e
      | .ok buf =>
          match InodeRaw.fromBytes buf with
          | .ok inode => .ok inode
          | .error _ => .ok InodeRaw.empty

/-- The record in an allocated slot. -/
theorem readInode_of_read {table : InodeTable} {file : File} {index : Nat} {offset : UInt64}
    {buf : List UInt8} {inode : InodeRaw} (hoffset : table.inodeOffset index = some offset)
    (hread : readBytes file offset.toNat inodeBytes = .ok buf)
    (hdecode : InodeRaw.fromBytes buf = .ok inode) :
  table.readInode file index = .ok inode
  := by
  unfold readInode
  rw [hoffset]
  dsimp only
  rw [hread]
  dsimp only
  rw [hdecode]

def writeInode (table : InodeTable) (file : File) (index : Nat) (inode : InodeRaw) :
    DiskResult Unit × File :=
  match table.inodeOffset index with
  | none => (.error (.io .invalidInput
      ("inode index " ++ toString index ++ " maps to an unallocated block")), file)
  | some offset => (.ok (), file.write offset.toNat inode.toBytes)

/-- The first of the `n` slots from slot `index` on that is not in use. -/
def firstFree (table : InodeTable) (file : File) : Nat → Nat → DiskResult (Option Nat)
  | 0, _ => .ok none
  | n + 1, index =>
      match table.readInode file index with
      | .error e => .error e
      | .ok inode =>
          if inode.isUsed = 0 then .ok (some index) else table.firstFree file n (index + 1)

/-- Find the first free slot, appending a block when there is none.  The flag tells
whether a block was appended. -/
def allocInode (table : InodeTable) (file : File) :
    DiskResult (Option (Nat × Bool)) × InodeTable × File :=
  match table.firstFree file table.capacity 0 with
  | .error e => (.error e, table, file)
  | .ok (some index) => (.ok (some (index, false)), table, file)
  | .ok none =>
      match table.allocBlock file with
      | (none, table', file) => (.ok none, table', file)
      | (some _, table', file) => (.ok (some (table.capacity, true)), table', file)

/-- Mark an inode as free, in place. -/
def freeInode (table : InodeTable) (file : File) (index : Nat) : DiskResult Unit × File :=
  match table.readInode file index with
  | .error e => (.error e, file)
  | .ok inode => table.writeInode file index { inode with isUsed := 0 }

end InodeTable

end Vexfs
