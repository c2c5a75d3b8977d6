import Vexfs.Fs.FreeSpace
import Vexfs.Fuse.Session

/-!
# What the pieces do to the disk

The disk manager is called by some of the pieces of a session.  `Call.diskCalls` lists the
calls that a piece makes, and `Call.disk_run` says that they are all it does to the disk.  So
what is said of the disk of a session is proved once for each `DiskCall`, where it is done in
a state that is in order and asks for space that there is (`DiskCall.Fits`).
-/

namespace Vexfs

open Storage DiskManager

/-! ### Calls -/

/-- A call of the disk manager, or the few of them that store a file. -/
inductive DiskCall where
  | freeData (offset length : UInt64)
  /-- Space is taken for some bytes, they are written there, and an inode is written that
  records where they are. -/
  | store (bytes : List UInt8) (diskIndex : ℕ) (inode : UInt64 → InodeRaw)
  | writeInode (diskIndex : ℕ) (inode : InodeRaw)
  | freeInode (diskIndex : ℕ)
  | allocInode
  | flush
  | writeSnapshot (slot : ℕ) (record : SnapshotRaw)
  | zeroSnapshotSlot (slot : ℕ)

namespace DiskCall

/-- What a call does. -/
def run [Crc32] (dm : DiskManager) : DiskCall → DiskManager
  | .freeData offset length => dm.freeData offset length
  | .store bytes diskIndex inode =>
      let (offset, disk) := VexFS.allocFor dm bytes
      VexFS.store disk offset bytes diskIndex (inode offset)
  | .writeInode diskIndex inode => (dm.writeInode diskIndex inode).2
  | .freeInode diskIndex => (dm.freeInode diskIndex).2
  | .allocInode => dm.allocInode.2
  | .flush => dm.flush
  | .writeSnapshot slot record => (dm.writeSnapshot slot record).2
  | .zeroSnapshotSlot slot => (dm.zeroSnapshotSlot slot).2

def runAll [Crc32] (dm : DiskManager) (calls : List DiskCall) : DiskManager :=
  calls.foldl run dm

/-- The positions a call asks for or returns are those of data. -/
def Fits (dm : DiskManager) : DiskCall → Prop
  | .freeData offset length => dataRange offset length.toNat ⊆ dataRegion
  | .store bytes _ _ => dm.superblock.nextDataOffset.toNat + bytes.length + 512 ≤ 2 ^ 63
  | .allocInode => dm.superblock.nextDataOffset.toNat + inodeBlockSize ≤ 2 ^ 63
  | _ => True

/-- A call does not free a position of a set. -/
def Avoids (R : Set ℕ) : DiskCall → Prop
  | .freeData offset length => Disjoint (dataRange offset length.toNat) R
  | _ => True

/-- The positions a call writes to, besides the journal. -/
def range (dm : DiskManager) : DiskCall → Set ℕ
  | .freeData _ _ => ∅
  | .store bytes diskIndex _ => dataRange (VexFS.allocFor dm bytes).1 bytes.length
      ∪ dm.inodeTable.slotRange diskIndex ∪ metadataRange
  | .writeInode diskIndex _ => dm.inodeTable.slotRange diskIndex
  | .freeInode diskIndex => dm.inodeTable.slotRange diskIndex
  | .allocInode => metadataRange ∪ dataRange dm.superblock.nextDataOffset inodeBlockSize
  | .flush => metadataRange
  | .writeSnapshot slot _ => snapshotRange slot
  | .zeroSnapshotSlot slot => snapshotRange slot

/-- Every call is done in a state that `G` allows it in. -/
def Guarded [Crc32] (G : DiskManager → DiskCall → Prop) : DiskManager → List DiskCall → Prop
  | _, [] => True
  | dm, call :: calls => G dm call ∧ Guarded G (call.run dm) calls

end DiskCall

/-! ### The calls of a piece -/

/-- The calls that free an extent, if there is one. -/
def freeCalls : Option (UInt64 × UInt64) → List DiskCall
  | none => []
  | some (offset, length) => [.freeData offset length]

/-- The calls that zero the slot of a snapshot and free its extent. -/
def reclaimCalls (freed : ℕ × UInt64 × UInt64) : List DiskCall :=
  if maxSnapshotSlots ≤ freed.1 then []
  else .zeroSnapshotSlot freed.1
    :: if 0 < freed.2.1 ∧ 0 < freed.2.2 then [.freeData freed.2.1 freed.2.2] else []

namespace VexFS

/-- The entry under a name, with its file. -/
def target (fs : VexFS) (parent : UInt64) (name : String) : Option (Value × VexFile) :=
  (fs.index.get parent name).bind fun val => (fs.files.get val.ino).map fun f => (val, f)

/-- The calls that persist a file. -/
def persistCalls [Zstd] (fs : VexFS) (p : Persistence) (ino : UInt64) (name : String)
    (data : List UInt8) (diskIndex : ℕ) : List DiskCall :=
  freeCalls (fs.oldExtent ino)
    ++ [.store (p.dataToWrite name data) diskIndex (fs.persistedInode p ino name data)]

/-- The record of a snapshot that is taken now, and its slot. -/
def newSnapshotRecord [Crc32] (fs : VexFS) (ino : UInt64) (data : List UInt8)
    (takenAt recordedAt : UInt64) : Option (ℕ × SnapshotRaw) :=
  (fs.files.get ino).bind fun f => fs.disk.findFreeSnapshotSlot.map fun slot =>
    (slot, snapshotRecord ino f.name data f.dataOffset recordedAt
      ((fs.snapshots.snapshot ino f.name data f.dataOffset takenAt).lastId ino))

/-- The snapshots that a collection drops from the disk. -/
def collected (fs : VexFS) (order : Arrangement UInt64) : List (ℕ × UInt64 × UInt64) :=
  if fs.snapshots.totalSnapshots < snapshotGcThreshold then []
  else (fs.snapshots.gcKeepPerFile order snapshotGcKeep).1

end VexFS

variable [Crc32]

open VexFS in
/-- The calls of the disk manager that a piece makes. -/
@[simp]
def Call.diskCalls [Zstd] (fs : VexFS) : Call → List DiskCall
  | .persistBuffered p ino =>
      match fs.writeBuffer.get ino with
      | none => []
      | some w => fs.persistCalls p ino w.name w.data w.diskIndex
  | .persistCached p ino =>
      match fs.files.get ino, fs.cache.contents ino with
      | some f, some data => fs.persistCalls p ino f.name data f.diskIndex
      | _, _ => []
  | .persistRecovered p ino =>
      match fs.files.get ino with
      | none => []
      | some f =>
          match fs.disk.readFileData f.dataOffset f.attr.size.toNat with
          | .error _ => []
          | .ok raw => fs.persistCalls p ino f.name (decompress raw) f.diskIndex
  | .takeSnapshot ino data takenAt recordedAt =>
      match fs.newSnapshotRecord ino data takenAt recordedAt with
      | none => []
      | some (slot, record) => [.writeSnapshot slot record]
  | .maybeGcSnapshots order => (fs.collected order).flatMap reclaimCalls
  | .addEntry _ _ _ => [.allocInode]
  | .writeNewInode ino createdAt modifiedAt =>
      match fs.files.get ino with
      | none => []
      | some f => [.writeInode f.diskIndex (newInode ino f createdAt modifiedAt)]
  | .flushDisk => [.flush]
  | .unlink parent name =>
      match fs.target parent name with
      | none => []
      | some (val, f) => freeCalls (fs.oldExtent val.ino) ++ [.freeInode f.diskIndex]
  | .rmdir parent name =>
      match fs.target parent name with
      | none => []
      | some (_, f) => [.freeInode f.diskIndex, .flush]
  | .rename parent name newparent newname now =>
      match fs.index.get parent name with
      | none => []
      | some val =>
          match fs.disk.readInode val.diskIndex with
          | .error _ => []
          | .ok inode => [.writeInode val.diskIndex (InodeRaw.setName
              { inode with parentIno := newparent, modifiedAt := now } newname), .flush]
  | _ => []

omit [Crc32] in
theorem mem_freeCalls {extent : Option (UInt64 × UInt64)} {call : DiskCall}
    (h : call ∈ freeCalls extent) :
  ∃ offset length, extent = some (offset, length) ∧ call = .freeData offset length
  := by
  cases extent with
  | none => cases h
  | some extent => exact ⟨extent.1, extent.2, rfl, List.mem_singleton.mp h⟩

/-- A piece that may free an extent or remove a file. -/
def Call.Releases : Call → Prop
  | .persistBuffered _ _ | .persistCached _ _ | .persistRecovered _ _ => True
  | .maybeGcSnapshots _ | .unlink _ _ | .rmdir _ _ => True
  | _ => False

/-! ### Running the calls -/

namespace DiskCall

variable {dm : DiskManager}

theorem runAll_append (dm : DiskManager) (calls calls' : List DiskCall) :
  runAll dm (calls ++ calls') = runAll (runAll dm calls) calls'
  := List.foldl_append

theorem runAll_freeCalls (dm : DiskManager) (extent : Option (UInt64 × UInt64)) :
  runAll dm (freeCalls extent) = VexFS.freeExtent dm extent
  := by
  cases extent <;> rfl

theorem runAll_reclaimCalls (dm : DiskManager) (freed : ℕ × UInt64 × UInt64) :
  runAll dm (reclaimCalls freed) = VexFS.reclaim dm freed
  := by
  obtain ⟨slot, offset, size⟩ := freed
  unfold reclaimCalls VexFS.reclaim
  dsimp only
  by_cases hslot : maxSnapshotSlots ≤ slot
  · rw [if_pos hslot, DiskManager.zeroSnapshotSlot, if_pos hslot]
    rfl
  · have hzero : run dm (.zeroSnapshotSlot slot) = { dm with
        file := dm.file.write (snapshotOffset slot) (Bytes.zeros snapshotRecordSize) } := by
      rw [run, DiskManager.zeroSnapshotSlot, if_neg hslot]
    rw [if_neg hslot, DiskManager.zeroSnapshotSlot, if_neg hslot]
    dsimp only
    rw [← hzero]
    split <;> rfl

theorem runAll_flatMap_reclaimCalls (dm : DiskManager) (freed : List (ℕ × UInt64 × UInt64)) :
  runAll dm (freed.flatMap reclaimCalls) = freed.foldl VexFS.reclaim dm
  := by
  induction freed generalizing dm with
  | nil => rfl
  | cons x freed ih =>
      rw [List.flatMap_cons, runAll_append, runAll_reclaimCalls, ih]
      rfl

end DiskCall

variable [Zstd]

namespace VexFS

/-- Persisting a file does nothing else to the disk. -/
theorem disk_persistToDisk (fs : VexFS) (p : Persistence) (ino : UInt64) (name : String)
    (data : List UInt8) (diskIndex : ℕ) :
  (fs.persistToDisk p ino name data diskIndex).disk
    = DiskCall.runAll fs.disk (fs.persistCalls p ino name data diskIndex)
  := by
  rw [persistCalls, DiskCall.runAll_append, DiskCall.runAll_freeCalls]
  rfl

omit [Crc32] [Zstd] in
theorem disk_stage (fs : VexFS) (ino now : UInt64) :
  (fs.stage ino now).disk = fs.disk
  := by
  unfold stage
  split
  · rfl
  · split
    · split <;> rfl
    · rfl

theorem disk_persistBuffered (fs : VexFS) (p : Persistence) (ino : UInt64) :
  (fs.persistBuffered p ino).disk
    = DiskCall.runAll fs.disk ((Call.persistBuffered p ino).diskCalls fs)
  := by
  rw [persistBuffered, Call.diskCalls, WriteBuffer.take, WriteBuffer.get]
  cases fs.writeBuffer.pending.get ino with
  | none => rfl
  | some w => exact disk_persistToDisk _ _ _ _ _ _

theorem disk_persistCached (fs : VexFS) (p : Persistence) (ino : UInt64) :
  (fs.persistCached p ino).disk
    = DiskCall.runAll fs.disk ((Call.persistCached p ino).diskCalls fs)
  := by
  rw [persistCached, Call.diskCalls]
  cases fs.files.get ino with
  | none => rfl
  | some f =>
      have hget := fs.cache.fst_get ino
      cases hcache : fs.cache.get ino with
      | mk data cache =>
          rw [hcache] at hget
          obtain rfl := hget
          dsimp only
          cases fs.cache.contents ino with
          | none => rfl
          | some data => exact disk_persistToDisk _ _ _ _ _ _

theorem disk_persistRecovered (fs : VexFS) (p : Persistence) (ino : UInt64) :
  (fs.persistRecovered p ino).disk
    = DiskCall.runAll fs.disk ((Call.persistRecovered p ino).diskCalls fs)
  := by
  rw [persistRecovered, Call.diskCalls]
  cases fs.files.get ino with
  | none => rfl
  | some f =>
      dsimp only
      cases fs.disk.readFileData f.dataOffset f.attr.size.toNat with
      | error e => rfl
      | ok raw => exact disk_persistToDisk _ _ _ _ _ _

theorem disk_takeSnapshot (fs : VexFS) (ino : UInt64) (data : List UInt8)
    (takenAt recordedAt : UInt64) :
  (fs.takeSnapshot ino data takenAt recordedAt).disk
    = DiskCall.runAll fs.disk ((Call.takeSnapshot ino data takenAt recordedAt).diskCalls fs)
  := by
  rw [takeSnapshot, Call.diskCalls, newSnapshotRecord]
  cases fs.files.get ino with
  | none => rfl
  | some f =>
      dsimp only [Option.bind_some]
      cases fs.disk.findFreeSnapshotSlot <;> rfl

theorem disk_maybeGcSnapshots (fs : VexFS) (order : Arrangement UInt64) :
  (fs.maybeGcSnapshots order).disk
    = DiskCall.runAll fs.disk ((Call.maybeGcSnapshots order).diskCalls fs)
  := by
  rw [maybeGcSnapshots, Call.diskCalls, collected]
  split
  · rfl
  · exact (DiskCall.runAll_flatMap_reclaimCalls _ _).symm

omit [Zstd] in
theorem disk_addEntry (fs : VexFS) (parent : UInt64) (name : String) (isDir : Bool) :
  (fs.addEntry parent name isDir).disk = fs.disk.allocInode.2
  := by
  rw [addEntry]
  cases fs.disk.allocInode with
  | mk slot disk => cases slot <;> rfl

theorem disk_writeNewInode (fs : VexFS) (ino createdAt modifiedAt : UInt64) :
  (fs.writeNewInode ino createdAt modifiedAt).disk
    = DiskCall.runAll fs.disk ((Call.writeNewInode ino createdAt modifiedAt).diskCalls fs)
  := by
  rw [writeNewInode, Call.diskCalls]
  cases fs.files.get ino <;> rfl

theorem disk_unlink (fs : VexFS) (parent : UInt64) (name : String) :
  (fs.unlink parent name).disk
    = DiskCall.runAll fs.disk ((Call.unlink parent name).diskCalls fs)
  := by
  rw [unlink, Call.diskCalls, target, Index.get_eq, ← Index.fst_remove]
  cases fs.index.remove parent name with
  | mk found index =>
      cases found with
      | none => rfl
      | some val =>
          dsimp only [Option.bind_some]
          cases fs.files.get val.ino with
          | none => rfl
          | some f =>
              dsimp only [Option.map_some]
              rw [DiskCall.runAll_append, DiskCall.runAll_freeCalls]
              rfl

theorem disk_rmdir (fs : VexFS) (parent : UInt64) (name : String) :
  (fs.rmdir parent name).disk
    = DiskCall.runAll fs.disk ((Call.rmdir parent name).diskCalls fs)
  := by
  rw [rmdir, Call.diskCalls, target, Index.get_eq, ← Index.fst_remove]
  cases fs.index.remove parent name with
  | mk found index =>
      cases found with
      | none => rfl
      | some val =>
          dsimp only [Option.bind_some]
          cases fs.files.get val.ino <;> rfl

theorem disk_rename (fs : VexFS) (parent : UInt64) (name : String) (newparent : UInt64)
    (newname : String) (now : UInt64) :
  (fs.rename parent name newparent newname now).disk
    = DiskCall.runAll fs.disk ((Call.rename parent name newparent newname now).diskCalls fs)
  := by
  rw [rename, Call.diskCalls, Index.get_eq, ← Index.fst_remove]
  cases fs.index.remove parent name with
  | mk found index =>
      cases found with
      | none => rfl
      | some val =>
          dsimp only
          cases fs.disk.readInode val.diskIndex <;> rfl

end VexFS

/-- A piece does to the disk what its calls do. -/
theorem Call.disk_run (fs : VexFS) (c : Call) :
  (c.run fs).disk = DiskCall.runAll fs.disk (c.diskCalls fs)
  := by
  cases c with
  | request request => rfl
  | cacheGet ino => rfl
  | cachePut ino data => rfl
  | drainEvicted => rfl
  | stage ino now => exact VexFS.disk_stage fs ino now
  | clean ino => rfl
  | persistBuffered p ino => exact fs.disk_persistBuffered p ino
  | persistCached p ino => exact fs.disk_persistCached p ino
  | persistRecovered p ino => exact fs.disk_persistRecovered p ino
  | setSize ino size => rfl
  | takeSnapshot ino data takenAt recordedAt =>
      exact fs.disk_takeSnapshot ino data takenAt recordedAt
  | maybeGcSnapshots order => exact fs.disk_maybeGcSnapshots order
  | addEntry parent name isDir => exact fs.disk_addEntry parent name isDir
  | writeNewInode ino createdAt modifiedAt =>
      exact fs.disk_writeNewInode ino createdAt modifiedAt
  | flushDisk => rfl
  | unlink parent name => exact fs.disk_unlink parent name
  | rmdir parent name => exact fs.disk_rmdir parent name
  | rename parent name newparent newname now =>
      exact fs.disk_rename parent name newparent newname now

/-! ### What a call keeps -/

omit [Zstd]

namespace DiskManager

/-- A disk whose journal and tables are in order, and whose free extents are in the data
region. -/
structure InOrder (dm : DiskManager) : Prop where
  kept : dm.Kept
  free : dm.freeList.Inside dataRegion

variable {dm dm' : DiskManager} {R : Set ℕ}

theorem Kept.size_le (h : dm.Kept) :
  dataOffset ≤ dm.image.size
  := by
  obtain ⟨_, _, hh, -⟩ := h.replayable
  exact hh.size_le

omit [Crc32] in
/-- A call that changes the journal and the file alone takes no space and frees none. -/
theorem Spares.frame (hframe : ∃ journal file, dm' = { dm with journal, file })
    (h : dm.Spares R) :
  dm'.Spares R
  := by
  obtain ⟨journal, file, rfl⟩ := hframe
  exact ⟨h.free, h.below⟩

omit [Crc32] in
/-- What is known of the free list alone. -/
theorem inside_of_spares (h : dm.Spares R) :
  dm.freeList.Inside dataRegion
  := h.free.mono Set.sdiff_subset

/-- Space for a file is free space before; nothing is written yet. -/
theorem Spares.allocFor {bytes : List UInt8} (hkept : dm.Kept)
    (hfar : dm.superblock.nextDataOffset.toNat + bytes.length + 512 ≤ 2 ^ 63)
    (h : dm.Spares R) :
  dataRange (VexFS.allocFor dm bytes).1 bytes.length ⊆ dataRegion \ R
    ∧ (VexFS.allocFor dm bytes).2.Spares R ∧ (VexFS.allocFor dm bytes).2.Kept
  := by
  unfold VexFS.allocFor
  split
  · obtain ⟨hrange, hspares⟩ := h.allocData hkept.base_le hfar
    exact ⟨hrange, hspares, hkept.allocData hfar⟩
  · next hnil =>
    rw [not_not.mp hnil]
    refine ⟨?_, h, hkept⟩
    rintro i ⟨hlo, hhi⟩
    exact absurd hhi (Nat.not_lt.mpr hlo)

omit [Crc32] in
theorem allocFor_frame (dm : DiskManager) (bytes : List UInt8) :
  (VexFS.allocFor dm bytes).2.file = dm.file
    ∧ (VexFS.allocFor dm bytes).2.journal = dm.journal
    ∧ (VexFS.allocFor dm bytes).2.inodeTable.blockOffsets = dm.inodeTable.blockOffsets
  := by
  unfold VexFS.allocFor
  split
  · obtain ⟨superblock, freeList, next, hframe, -⟩ := dm.allocData_frame bytes.length
    rw [hframe]
    exact ⟨rfl, rfl, rfl⟩
  · exact ⟨rfl, rfl, rfl⟩

theorem store_frame (dm : DiskManager) (offset : UInt64) (bytes : List UInt8) (diskIndex : ℕ)
    (inode : InodeRaw) :
  ∃ journal file, VexFS.store dm offset bytes diskIndex inode = { dm with journal, file }
  := by
  unfold VexFS.store
  split
  · obtain ⟨journal, file, hdata⟩ := dm.writeFileData_frame offset bytes
    rw [hdata]
    obtain ⟨journal', file', hinode⟩ := DiskManager.writeInode_frame
      { dm with journal, file } diskIndex inode
    dsimp only
    rw [hinode]
    exact ⟨journal', _, rfl⟩
  · obtain ⟨journal, file, hinode⟩ := dm.writeInode_frame diskIndex inode
    dsimp only
    rw [hinode]
    exact ⟨journal, _, rfl⟩

/-- Data is written to a range of the data region. -/
theorem Kept.writeData {offset : UInt64} {bytes : List UInt8}
    (hrange : dataRange offset bytes.length ⊆ dataRegion) (hne : bytes ≠ []) (h : dm.Kept) :
  (dm.writeFileData offset bytes).2.Kept
  := by
  have hpos : 0 < bytes.length := List.length_pos_iff.mpr hne
  obtain ⟨hlo, -⟩ := hrange ⟨Nat.le_refl _, Nat.lt_add_of_pos_right hpos⟩
  obtain ⟨-, hhi⟩ := hrange (show offset.toNat + bytes.length - 1
    ∈ dataRange offset bytes.length from ⟨by omega, by omega⟩)
  exact h.writeFileData hlo (by omega)

/-- Data is written where it belongs. -/
theorem Kept.store {offset : UInt64} {bytes : List UInt8} (diskIndex : ℕ) (inode : InodeRaw)
    (hrange : dataRange offset bytes.length ⊆ dataRegion) (h : dm.Kept) :
  (VexFS.store dm offset bytes diskIndex inode).Kept
  := by
  unfold VexFS.store
  apply Kept.flush
  apply Kept.writeInode
  split
  · next hne => exact h.writeData hrange hne
  · exact h

/-- An inode that was written is there after a flush. -/
theorem readInode_writeInode_flush {i : ℕ} {inode : InodeRaw} (hplaced : dm.inodeTable.Placed)
    (hroom : dm.journal.nextSlot ≤ 510) (hslot : dm.inodeTable.inodeOffset i ≠ none) :
  (dm.writeInode i inode).2.flush.readInode i = .ok inode
  := by
  have hframe : (dm.writeInode i inode).2.inodeTable = dm.inodeTable := by
    obtain ⟨journal, file, hframe⟩ := dm.writeInode_frame i inode
    rw [hframe]
  apply (changesIn_flush _).readInode rfl (hframe ▸ hplaced)
  · exact readInode_writeInode hslot hplaced hroom
  · exact disjoint_slotRange_metadataRange (hframe ▸ hplaced) i

/-- The inode of a file that is stored is there. -/
theorem Kept.readInode_store {offset : UInt64} {bytes : List UInt8} {diskIndex : ℕ}
    {inode : InodeRaw} (hrange : dataRange offset bytes.length ⊆ dataRegion)
    (hslot : dm.inodeTable.inodeOffset diskIndex ≠ none) (h : dm.Kept) :
  (VexFS.store dm offset bytes diskIndex inode).readInode diskIndex = .ok inode
  := by
  unfold VexFS.store
  split
  · next hne =>
    have hkept := h.writeData hrange hne
    obtain ⟨journal, file, hframe⟩ := dm.writeFileData_frame offset bytes
    rw [hframe] at hkept ⊢
    exact readInode_writeInode_flush hkept.placed (hkept.room.trans (by decide)) hslot
  · exact readInode_writeInode_flush h.placed (h.room.trans (by decide)) hslot

/-- Storing a file changes the range of its data, its slot and the block of the
superblock. -/
theorem changesIn_store {offset : UInt64} {bytes : List UInt8} (diskIndex : ℕ)
    (inode : InodeRaw) (hrange : dataRange offset bytes.length ⊆ dataRegion) (h : dm.Kept) :
  ChangesIn (dataRange offset bytes.length ∪ dm.inodeTable.slotRange diskIndex ∪ metadataRange)
    dm (VexFS.store dm offset bytes diskIndex inode)
  := by
  have hroom := h.room
  unfold VexFS.store
  apply ChangesIn.trans _ (changesIn_flush _)
  split
  · next hne =>
    have hkept := h.writeData hrange hne
    obtain ⟨journal, file, hframe⟩ := dm.writeFileData_frame offset bytes
    have hdata : ChangesIn _ dm (dm.writeFileData offset bytes).2 :=
      changesIn_writeFileData offset bytes (by omega)
    have hinode := changesIn_writeInode diskIndex inode (hkept.room.trans (by decide))
    rw [hframe] at hdata hinode ⊢
    exact hdata.trans hinode
  · have hinode : ChangesIn _ dm (dm.writeInode diskIndex inode).2 :=
      changesIn_writeInode diskIndex inode (by omega)
    exact hinode.mono Set.subset_union_right

end DiskManager

namespace DiskCall

variable {dm : DiskManager} {R : Set ℕ} {call : DiskCall}

theorem inOrder_run (hfits : call.Fits dm) (h : dm.InOrder) :
  (call.run dm).InOrder
  := by
  obtain ⟨hkept, hfree⟩ := h
  cases call with
  | freeData offset length =>
      exact ⟨⟨hkept.replayable, hkept.valid, hkept.room, hkept.placed, hkept.base_le⟩,
        hfree.free Set.Subset.rfl hfits⟩
  | store bytes diskIndex inode =>
      obtain ⟨hrange, hspares, hkept'⟩ := (spares_empty hfree).allocFor hkept hfits
      use hkept'.store diskIndex _ (hrange.trans Set.sdiff_subset)
      exact inside_of_spares (hspares.frame (store_frame _ _ _ _ _))
  | writeInode diskIndex inode =>
      use hkept.writeInode diskIndex inode
      exact inside_of_spares ((spares_empty hfree).frame (dm.writeInode_frame diskIndex inode))
  | freeInode diskIndex => exact ⟨hkept.freeInode diskIndex, hfree⟩
  | allocInode =>
      use hkept.allocInode hfits
      exact inside_of_spares ((spares_empty hfree).allocInode hfits)
  | flush => exact ⟨hkept.flush, hfree⟩
  | writeSnapshot slot record =>
      show (dm.writeSnapshot slot record).2.InOrder
      unfold DiskManager.writeSnapshot
      split
      · exact ⟨hkept, hfree⟩
      · next hslot =>
        exact ⟨hkept.write_snapshot (Nat.not_le.mp hslot) record.length_toBytes, hfree⟩
  | zeroSnapshotSlot slot =>
      show (dm.zeroSnapshotSlot slot).2.InOrder
      unfold DiskManager.zeroSnapshotSlot
      split
      · exact ⟨hkept, hfree⟩
      · next hslot =>
        have hlen : (Bytes.zeros snapshotRecordSize).length = snapshotRecordSize :=
          Bytes.length_zeros _
        exact ⟨hkept.write_snapshot (Nat.not_le.mp hslot) hlen, hfree⟩

/-- A set that is not free stays so until some of it is freed. -/
theorem spares_run (hkept : dm.Kept) (hfits : call.Fits dm) (havoids : call.Avoids R)
    (h : dm.Spares R) :
  (call.run dm).Spares R
  := by
  cases call with
  | freeData offset length => exact h.freeData hfits havoids
  | store bytes diskIndex inode =>
      obtain ⟨-, hspares, -⟩ := h.allocFor hkept hfits
      exact hspares.frame (store_frame _ _ _ _ _)
  | writeInode diskIndex inode => exact h.frame (dm.writeInode_frame diskIndex inode)
  | freeInode diskIndex => exact ⟨h.free, h.below⟩
  | allocInode => exact h.allocInode hfits
  | flush => exact ⟨h.free, h.below⟩
  | writeSnapshot slot record =>
      show (dm.writeSnapshot slot record).2.Spares R
      unfold DiskManager.writeSnapshot
      split <;> exact ⟨h.free, h.below⟩
  | zeroSnapshotSlot slot =>
      show (dm.zeroSnapshotSlot slot).2.Spares R
      unfold DiskManager.zeroSnapshotSlot
      split <;> exact ⟨h.free, h.below⟩

/-- A call writes to its range alone. -/
theorem changesIn_run (hfits : call.Fits dm) (h : dm.InOrder) :
  ChangesIn (call.range dm) dm (call.run dm)
  := by
  obtain ⟨hkept, hfree⟩ := h
  have hroom := hkept.room
  cases call with
  | freeData offset length => exact .of_image rfl
  | store bytes diskIndex inode =>
      obtain ⟨hrange, -, hkept'⟩ := (spares_empty hfree).allocFor hkept hfits
      obtain ⟨hfile, -, hblocks⟩ := allocFor_frame dm bytes
      have hstore := changesIn_store diskIndex (inode (VexFS.allocFor dm bytes).1)
        (hrange.trans Set.sdiff_subset) hkept'
      rw [InodeTable.slotRange_congr hblocks] at hstore
      have halloc : ChangesIn ∅ dm (VexFS.allocFor dm bytes).2 := by
        apply ChangesIn.of_image
        rw [image, image, hfile]
      have hboth := halloc.trans hstore
      rw [Set.empty_union] at hboth
      exact hboth
  | writeInode diskIndex inode => exact changesIn_writeInode diskIndex inode (by omega)
  | freeInode diskIndex => exact changesIn_freeInode dm diskIndex
  | allocInode => exact changesIn_allocInode dm
  | flush => exact changesIn_flush dm
  | writeSnapshot slot record => exact changesIn_writeSnapshot dm slot record
  | zeroSnapshotSlot slot => exact changesIn_zeroSnapshotSlot dm slot

/-- Data is stored in what was free. -/
theorem disjoint_store {bytes : List UInt8} (hkept : dm.Kept)
    (hfar : dm.superblock.nextDataOffset.toNat + bytes.length + 512 ≤ 2 ^ 63)
    (h : dm.Spares R) :
  Disjoint (dataRange (VexFS.allocFor dm bytes).1 bytes.length) R
  := (Set.subset_sdiff.mp (h.allocFor hkept hfar).1).2

/-- The blocks of inodes are as before, unless one is appended. -/
theorem blockOffsets_run (hnot : call ≠ .allocInode) :
  (call.run dm).inodeTable.blockOffsets = dm.inodeTable.blockOffsets
  := by
  cases call with
  | freeData offset length => rfl
  | store bytes diskIndex inode =>
      obtain ⟨-, -, hblocks⟩ := allocFor_frame dm bytes
      rw [run, ← hblocks]
      dsimp only
      obtain ⟨journal, file, hframe⟩ := store_frame (VexFS.allocFor dm bytes).2
        (VexFS.allocFor dm bytes).1 bytes diskIndex (inode (VexFS.allocFor dm bytes).1)
      rw [hframe]
  | writeInode diskIndex inode =>
      obtain ⟨journal, file, hframe⟩ := dm.writeInode_frame diskIndex inode
      show (dm.writeInode diskIndex inode).2.inodeTable.blockOffsets = _
      rw [hframe]
  | freeInode diskIndex => rfl
  | allocInode => exact absurd rfl hnot
  | flush => rfl
  | writeSnapshot slot record =>
      show (dm.writeSnapshot slot record).2.inodeTable.blockOffsets = _
      unfold DiskManager.writeSnapshot
      split <;> rfl
  | zeroSnapshotSlot slot =>
      show (dm.zeroSnapshotSlot slot).2.inodeTable.blockOffsets = _
      unfold DiskManager.zeroSnapshotSlot
      split <;> rfl

/-! ### Calls one after the other -/

namespace Guarded

variable {G : DiskManager → DiskCall → Prop} {I : DiskManager → Prop}
  {calls calls' : List DiskCall}

/-- What every call keeps where `G` allows it, all of them keep. -/
theorem holds (hstep : ∀ dm call, G dm call → I dm → I (call.run dm))
    (h : Guarded G dm calls) (hI : I dm) :
  I (runAll dm calls)
  := by
  induction calls generalizing dm with
  | nil => exact hI
  | cons call calls ih =>
      obtain ⟨hcall, hcalls⟩ := h
      exact ih hcalls (hstep dm call hcall hI)

theorem mono {G' : DiskManager → DiskCall → Prop} (hsub : ∀ dm call, G dm call → G' dm call)
    (h : Guarded G dm calls) :
  Guarded G' dm calls
  := by
  induction calls generalizing dm with
  | nil => trivial
  | cons call calls ih => exact ⟨hsub _ _ h.1, ih h.2⟩

/-- What is said of every call alone goes along with what is said of its state. -/
theorem and_mem {P : DiskCall → Prop} (h : Guarded G dm calls) (hP : ∀ call ∈ calls, P call) :
  Guarded (fun dm call => G dm call ∧ P call) dm calls
  := by
  induction calls generalizing dm with
  | nil => trivial
  | cons call calls ih =>
      exact ⟨⟨h.1, hP call List.mem_cons_self⟩,
        ih h.2 fun call hcall => hP call (List.mem_cons_of_mem _ hcall)⟩

theorem append :
  Guarded G dm (calls ++ calls') ↔ Guarded G dm calls ∧ Guarded G (runAll dm calls) calls'
  := by
  induction calls generalizing dm with
  | nil => simp [Guarded, runAll]
  | cons call calls ih =>
      rw [List.cons_append, Guarded, ih, Guarded, and_assoc]
      exact Iff.rfl

end Guarded

end DiskCall

/-- The disk stays in order when the calls of a piece fit. -/
theorem Call.inOrder_run [Zstd] {fs : VexFS} {c : Call}
    (hfits : DiskCall.Guarded (fun dm call => call.Fits dm) fs.disk (c.diskCalls fs))
    (h : fs.disk.InOrder) :
  (c.run fs).disk.InOrder
  := by
  rw [c.disk_run fs]
  exact hfits.holds (fun _ _ hcall horder => DiskCall.inOrder_run hcall horder) h

/-- Every piece of a log asks for and returns positions of the data region. -/
def FitsDisk (log : List (VexFS × Call)) : Prop :=
  ∀ e ∈ log, DiskCall.Guarded (fun dm call => call.Fits dm) e.1.disk (e.2.diskCalls e.1)

theorem FitsDisk.perform [Zstd] {s : Session} {c : Call}
    (hfits : DiskCall.Guarded (fun dm call => call.Fits dm) s.fs.disk (c.diskCalls s.fs))
    (h : FitsDisk s.log) :
  FitsDisk (s.perform c).log
  := Session.forall_log_perform.mpr ⟨h, hfits⟩

end Vexfs
