import Vexfs.Fs.Journal
import Vexfs.Fs.FreeList
import Vexfs.Fs.InodeTable

/-!
# The disk manager

`DiskManager` holds the file of an image together with the superblock, the journal, the
free list and the inode table.  Inode writes and data writes are logged and committed in
the journal before they are made in place; the journal is cleared when it is nearly full.
`open` replays the committed entries of the journal, `flush` saves the superblock, the free
list and the block directory.
-/

namespace Vexfs

open Bytes Storage

/-! ### Layout -/

def magic : UInt64 := 0x5645584653000001

def blockSize : Nat := 4096

def maxFiles : Nat := maxInodesTotal

def superblockOffset : Nat := 0

def inodeTableOffset : Nat := 4096

def inodeSize : Nat := 256

def inodeTableSize : Nat := inodeBlockSize

def snapshotTableOffset : Nat := inodeTableOffset + inodeTableSize

def snapshotTableSize : Nat := 256 * 512

/-- The journal lies right after the snapshot table. -/
def journalStart : Nat := snapshotTableOffset + snapshotTableSize

/-- The data region starts after the journal. -/
def dataOffset : Nat := journalStart + journalRegionSize

def maxSnapshotSlots : Nat := 256

def snapshotRecordSize : Nat := 512

theorem journalOffset_eq :
  journalOffset = journalStart
  := rfl

/-! ### The manager -/

structure DiskManager where
  file : File
  superblock : SuperblockRaw
  journal : Journal
  freeList : FreeList
  inodeTable : InodeTable

namespace DiskManager

/-- The bytes the image holds now. -/
def image (dm : DiskManager) : Image := dm.file.image

/-- The manager after a write that is not logged. -/
def write (dm : DiskManager) (w : FileWrite) : DiskManager :=
  { dm with file := dm.file.write w.offset w.data }

theorem image_write (dm : DiskManager) (w : FileWrite) :
  (dm.write w).image = dm.image.write w
  := File.image_write _ _ _

/-! #### Data allocation -/

/-- A position rounded up to a multiple of 512. -/
def align512 (v : UInt64) : UInt64 :=
  if v % 512 ≠ 0 then v + (512 - v % 512) else v

/-- Allocate space for file data: from the free list, or at the end of the data region. -/
def allocData (dm : DiskManager) (size : Nat) : UInt64 × DiskManager :=
  match dm.freeList.alloc size with
  | some (offset, freeList) => (offset, { dm with freeList })
  | none =>
      let offset := dm.superblock.nextDataOffset
      let next := offset + UInt64.ofNat size
      -- the table's own pointer follows the end before alignment
      let nextDiskEnd := if dm.inodeTable.nextDiskEnd < next then next
        else dm.inodeTable.nextDiskEnd
      (offset, { dm with
        superblock := { dm.superblock with nextDataOffset := align512 next }
        inodeTable := { dm.inodeTable with nextDiskEnd } })

/-- Return a data extent to the free list. -/
def freeData (dm : DiskManager) (offset length : UInt64) : DiskManager :=
  { dm with freeList := dm.freeList.free offset length }

def inodeCapacity (dm : DiskManager) : Nat := dm.inodeTable.capacity

def readFileData (dm : DiskManager) (offset : UInt64) (size : Nat) : DiskResult (List UInt8) :=
  readBytes dm.file offset.toNat size

variable [Crc32]

/-! #### Journaled writes -/

/-- Clear the journal when it is nearly full. -/
def checkpoint (dm : DiskManager) : DiskManager :=
  if dm.journal.needsCheckpoint then
    let (journal, file) := dm.journal.clear dm.file
    { dm with journal, file }
  else dm

/-- Write an inode: log it, commit, write it in place. -/
def writeInode (dm : DiskManager) (index : Nat) (inode : InodeRaw) :
    DiskResult Unit × DiskManager :=
  if maxFiles ≤ index then (.error (.panic "inode index out of bounds"), dm)
  else
    match dm.inodeTable.inodeOffset index with
    | none => (.error (.io .invalidInput
        ("inode " ++ toString index ++ " maps to an unallocated block")), dm)
    | some diskOffset =>
        let (tx, journal) := dm.journal.begin
        match journal.logInodeWriteAt dm.file tx diskOffset inode.toBytes with
        | (.error e, journal, file) => (.error e, { dm with journal, file })
        | (.ok _, journal, file) =>
            match journal.commit file tx with
            | (.error e, journal, file) => (.error e, { dm with journal, file })
            | (.ok _, journal, file) =>
                match dm.inodeTable.writeInode file index inode with
                | (.error e, file) => (.error e, { dm with journal, file })
                | (.ok _, file) => (.ok (), checkpoint { dm with journal, file })

def readInode (dm : DiskManager) (index : Nat) : DiskResult InodeRaw :=
  if maxFiles ≤ index then .error (.panic "inode index out of bounds")
  else dm.inodeTable.readInode dm.file index

/-- Write file data: log it in chunks, commit, write it in place. -/
def writeFileData (dm : DiskManager) (offset : UInt64) (data : List UInt8) :
    DiskResult Unit × DiskManager :=
  if data = [] then (.ok (), dm)
  else
    let (tx, journal) := dm.journal.begin
    match journal.logDataWriteAll dm.file tx offset data with
    | (.error e, journal, file) => (.error e, { dm with journal, file })
    | (.ok _, journal, file) =>
        match journal.commit file tx with
        | (.error e, journal, file) => (.error e, { dm with journal, file })
        | (.ok _, journal, file) =>
            (.ok (), checkpoint { dm with journal, file := file.write offset.toNat data })

/-! A journaled write changes the journal and the file alone. -/

theorem checkpoint_frame (dm : DiskManager) :
  ∃ journal file, dm.checkpoint = { dm with journal, file }
  := by
  unfold checkpoint
  split
  · exact ⟨_, _, rfl⟩
  · exact ⟨dm.journal, dm.file, rfl⟩

theorem writeInode_frame (dm : DiskManager) (index : Nat) (inode : InodeRaw) :
  ∃ journal file, (dm.writeInode index inode).2 = { dm with journal, file }
  := by
  unfold writeInode
  split
  · exact ⟨dm.journal, dm.file, rfl⟩
  · split
    · exact ⟨dm.journal, dm.file, rfl⟩
    · dsimp only
      split
      · exact ⟨_, _, rfl⟩
      · split
        · exact ⟨_, _, rfl⟩
        · split
          · exact ⟨_, _, rfl⟩
          · apply checkpoint_frame

theorem writeFileData_frame (dm : DiskManager) (offset : UInt64) (data : List UInt8) :
  ∃ journal file, (dm.writeFileData offset data).2 = { dm with journal, file }
  := by
  unfold writeFileData
  split
  · exact ⟨dm.journal, dm.file, rfl⟩
  · dsimp only
    split
    · exact ⟨_, _, rfl⟩
    · split
      · exact ⟨_, _, rfl⟩
      · apply checkpoint_frame

/-! #### Metadata -/

def superblockWrite (dm : DiskManager) : FileWrite :=
  ⟨superblockOffset, dm.superblock.toBytes⟩

def writeSuperblock (dm : DiskManager) : DiskManager :=
  dm.write dm.superblockWrite

omit [Crc32] in
def directoryWrite (dm : DiskManager) : FileWrite :=
  ⟨inodeBlockDirOffset, dm.inodeTable.dirBytes⟩

/-- Find a free inode slot, appending a block to the inode table when there is none. -/
def allocInode (dm : DiskManager) : Option Nat × DiskManager :=
  let table := { dm.inodeTable with nextDiskEnd := dm.superblock.nextDataOffset }
  match table.allocInode dm.file with
  | (.ok (some (index, newBlock)), inodeTable, file) =>
      let dm := { dm with inodeTable, file }
      if newBlock then
        (some index, writeSuperblock { dm with
          superblock := { dm.superblock with nextDataOffset := inodeTable.nextDiskEnd } })
      else (some index, dm)
  | (.ok none, inodeTable, file) => (none, { dm with inodeTable, file })
  | (.error _, inodeTable, file) => (none, { dm with inodeTable, file })

/-- Mark an inode as free on disk.  This write is not logged. -/
def freeInode (dm : DiskManager) (index : Nat) : DiskResult Unit × DiskManager :=
  match dm.inodeTable.freeInode dm.file index with
  | (r, file) => (r, { dm with file })

/-- Save the superblock, the free list and the block directory. -/
def flush (dm : DiskManager) : DiskManager :=
  let dm := dm.writeSuperblock
  let file := dm.freeList.save dm.file
  { dm with file := dm.inodeTable.saveDirectory file }

/-! #### The snapshot table -/

def snapshotOffset (index : Nat) : Nat := snapshotTableOffset + index * snapshotRecordSize

def writeSnapshot (dm : DiskManager) (index : Nat) (snap : SnapshotRaw) :
    DiskResult Unit × DiskManager :=
  if maxSnapshotSlots ≤ index then (.error (.panic "snapshot index out of bounds"), dm)
  else
    let file := dm.file.write (snapshotOffset index) snap.toBytes
    (.ok (), { dm with file })

def readSnapshot (dm : DiskManager) (index : Nat) : DiskResult SnapshotRaw :=
  if maxSnapshotSlots ≤ index then .error (.panic "snapshot index out of bounds")
  else
    match readBytes dm.file (snapshotOffset index) snapshotBytes with
    | .error e => .error e
    | .ok buf =>
        match SnapshotRaw.fromBytes buf with
        | .ok snap => .ok snap
        | .error _ => .ok SnapshotRaw.empty

omit [Crc32] in
def zeroSnapshotSlot (dm : DiskManager) (index : Nat) : DiskResult Unit × DiskManager :=
  if maxSnapshotSlots ≤ index then (.error (.panic "snapshot index out of bounds"), dm)
  else
    let file := dm.file.write (snapshotOffset index) (zeros snapshotRecordSize)
    (.ok (), { dm with file })

/-- The first slot of the snapshot table that reads as unused. -/
def findFreeSnapshotSlot (dm : DiskManager) : Option Nat :=
  (List.range maxSnapshotSlots).find? fun i =>
    match dm.readSnapshot i with
    | .ok snap => snap.isUsed == 0
    | .error _ => false

/-! #### Opening and formatting -/

omit [Crc32] in
/-- Apply one entry of the journal to the image. -/
def replayEntry (file : File) (entry : JournalEntry) : DiskResult File :=
  if entry.entryType = entryWriteInode ∨ entry.entryType = entryWriteData then
    let plen := entry.payloadLen.toNat
    if journalPayloadSize < plen then
      .error (.panic "range end index out of range for slice of length 490")
    else .ok (file.write entry.diskOffset.toNat (entry.payload.1.take plen))
  else .ok file

/-- Open an image: check the superblock, replay the journal and clear it if anything was
replayed, then load the free list and the inode table. -/
def «open» (image : Image) : DiskResult DiskManager := do
  let file := File.ofImage image
  let sbBytes ← readBytes file superblockOffset superblockBytes
  let superblock ← SuperblockRaw.fromBytes sbBytes
  if superblock.magic ≠ magic then throw (.badMagic magic superblock.magic)
  let (journal, toReplay) ← Journal.open file
  let file ← toReplay.foldlM replayEntry file
  let (journal, file) := if toReplay = [] then (journal, file) else journal.clear file
  let freeList := match FreeList.load file with
    | .ok fl => fl
    | .error _ => FreeList.new
  let inodeTable ← InodeTable.open file (UInt64.ofNat inodeTableOffset)
    superblock.nextDataOffset
  return { file, superblock, journal, freeList, inodeTable }

/-- Format an image of `sizeBytes` bytes at time `now`. -/
def format (image : Image) (sizeBytes now : UInt64) : DiskManager :=
  let totalBlocks := sizeBytes / UInt64.ofNat blockSize
  let superblock : SuperblockRaw := {
    magic
    version := 1
    blockSize := UInt32.ofNat blockSize
    totalBlocks
    freeBlocks := totalBlocks
    inodeCount := 0
    nextDataOffset := UInt64.ofNat dataOffset
    createdAt := now
    crc32 := 0 }
  let file := (File.ofImage image).write superblockOffset superblock.toBytes
  let file := file.write inodeTableOffset (zeros (inodesPerBlock * inodeSize))
  let file := file.write snapshotTableOffset (zeros (maxSnapshotSlots * snapshotRecordSize))
  let (journal, file) := Journal.format file
  let inodeTable := InodeTable.new (UInt64.ofNat inodeTableOffset) (UInt64.ofNat dataOffset)
  let file := inodeTable.saveDirectory file
  { file, superblock, journal, freeList := FreeList.new, inodeTable }

end DiskManager

end Vexfs
