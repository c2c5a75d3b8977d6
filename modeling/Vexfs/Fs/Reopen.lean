import Vexfs.Fs.Crash
import Vexfs.Fs.Allocation

/-!
# Reopening a closed image

Closing leaves the committed entries in the journal, and opening replays them.  The replay
changes nothing as long as every write that bypasses the journal, that of `free_inode` and
the zeros of a new inode block, agrees with what the journal holds for the same bytes.  Then
a closed image opens to a manager that reads the same inodes and the same data; without the
condition an inode that was freed is back.
-/

namespace Vexfs

open Bytes Storage

variable [Crc32]

/-! ### Writes past the journal -/

/-- The writes that opening the image of a manager would replay. -/
def DiskManager.pending (dm : DiskManager) : List FileWrite :=
  match Journal.open dm.file with
  | .ok (_, entries) => entries.map JournalEntry.write
  | .error _ => []

/-- A write agrees with what opening would replay over it. -/
def DiskManager.Unopposed (dm : DiskManager) (w : FileWrite) : Prop :=
  ∀ i b c, written dm.pending i = some b → w.byteAt i = some c → c = b

namespace Logged

variable {dm : DiskManager} {es : List JournalEntry} {w : FileWrite}

theorem pending_eq (hs : Logged dm es) :
  dm.pending = replayed es
  := by
  rw [DiskManager.pending, hs.tidy.toReadable.open]
  rfl

/-- A write past the journal that agrees with it leaves its replay without effect. -/
theorem write (havoids : AvoidsJournal w) (hun : dm.Unopposed w) (hs : Logged dm es) :
  Logged (dm.write w) es
  := by
  have hsize := Image.size_le_size_write dm.image w
  constructor
  · rw [dm.image_write]
    apply hs.tidy.congr hsize
    intro i hlo hhi
    apply havoids.byte_eq _ hlo hhi
  · apply hs.nextSlot_eq
  · apply hs.fits
  · apply hs.recent
  · rw [dm.image_write]
    apply hs.settled.write_unlogged
    intro i _ b hb c hc
    apply hun i b c _ hc
    rw [hs.pending_eq, hb]
  · intro v hv
    rw [dm.image_write]
    apply Nat.le_trans (hs.stop_le v hv) hsize
  · apply hs.offset_ge

/-- The journal and the file alone matter. -/
theorem congr {dm' : DiskManager} (hs : Logged dm es) (hfile : dm'.file = dm.file)
    (hjournal : dm'.journal = dm.journal) :
  Logged dm' es
  := by
  have himage : dm'.image = dm.image := by rw [DiskManager.image, DiskManager.image, hfile]
  constructor
  · rw [himage, hjournal]
    apply hs.tidy
  · rw [hjournal]
    apply hs.nextSlot_eq
  · apply hs.fits
  · rw [hjournal]
    apply hs.recent
  · rw [himage]
    apply hs.settled
  · rw [himage]
    apply hs.stop_le
  · apply hs.offset_ge

/-- Nothing is replayed over the block of the superblock. -/
theorem unopposed_low (hlow : w.stop ≤ inodeTableOffset) (hs : Logged dm es) :
  dm.Unopposed w
  := by
  intro i b c hb hc
  rw [hs.pending_eq] at hb
  obtain ⟨v, hv, hvb⟩ := exists_of_written hb
  have hlo := hs.offset_ge v hv
  have hi := (FileWrite.byteAt_isSome.mp (Option.isSome_of_eq_some hvb)).1
  have hi' := (FileWrite.byteAt_isSome.mp (Option.isSome_of_eq_some hc)).2
  omega

/-- A write to the block of the superblock leaves the replay without effect. -/
theorem write_low (hlow : w.stop ≤ inodeTableOffset) (hs : Logged dm es) :
  Logged (dm.write w) es
  := by
  have htable : inodeTableOffset ≤ journalOffset := by decide
  apply hs.write _ (hs.unopposed_low hlow)
  left
  omega

end Logged

theorem Steady.congr {dm dm' : DiskManager} {es : List JournalEntry} (hs : Steady dm es)
    (hfile : dm'.file = dm.file) (hjournal : dm'.journal = dm.journal) :
  Steady dm' es
  := ⟨hs.toLogged.congr hfile hjournal, hs.room⟩

/-! ### Flushing -/

namespace DiskManager

variable {dm : DiskManager} {es : List JournalEntry}

def freeListHeaderWrite (dm : DiskManager) : FileWrite :=
  ⟨freeListOffset, dm.freeList.headerBytes⟩

omit [Crc32] in
def freeListExtentsWrite (dm : DiskManager) : FileWrite :=
  ⟨freeListOffset + freeListHeader, dm.freeList.extentsBytes⟩

theorem flush_eq (dm : DiskManager) :
  dm.flush = (((dm.write dm.superblockWrite).write dm.freeListHeaderWrite).write
    dm.freeListExtentsWrite).write dm.directoryWrite
  := rfl

theorem stop_superblockWrite (dm : DiskManager) :
  dm.superblockWrite.stop = 64
  := by
  rw [FileWrite.stop, superblockWrite, SuperblockRaw.length_toBytes]
  rfl

theorem stop_freeListHeaderWrite (dm : DiskManager) :
  dm.freeListHeaderWrite.stop = 544
  := by
  simp [FileWrite.stop, freeListHeaderWrite, FreeList.headerBytes, FreeList.headerHead,
    freeListOffset]

omit [Crc32] in
theorem stop_freeListExtentsWrite (dm : DiskManager) :
  dm.freeListExtentsWrite.stop ≤ 3744
  := by
  have hlen : dm.freeList.extentsBytes.length = dm.freeList.savedCount * 16 := by
    simp [FreeList.extentsBytes, List.length_flatMap, List.map_const', freeExtentSize,
      FreeList.savedCount]
  have hcount : dm.freeList.savedCount ≤ 200 := Nat.min_le_right _ _
  simp only [FileWrite.stop, freeListExtentsWrite, freeListOffset, freeListHeader, hlen]
  omega

omit [Crc32] in
theorem stop_directoryWrite (dm : DiskManager) :
  dm.directoryWrite.stop = 4096
  := by
  rw [FileWrite.stop, directoryWrite, length_dirBytes]
  rfl

/-- The writes of saving the superblock, the free list and the block directory. -/
def flushWrites (dm : DiskManager) : List FileWrite :=
  [dm.superblockWrite, dm.freeListHeaderWrite, dm.freeListExtentsWrite, dm.directoryWrite]

theorem file_flush (dm : DiskManager) :
  dm.flush.file = dm.file.append dm.flushWrites
  := by
  rw [flushWrites, File.append_cons, File.append_cons, File.append_cons, File.append_cons,
    File.append_nil]
  rfl

theorem image_flush (dm : DiskManager) :
  dm.flush.image = dm.image.writeAll dm.flushWrites
  := by
  rw [image, file_flush, File.image_append]
  rfl

/-- They lie in the block of the superblock. -/
theorem stop_le_of_mem_flushWrites (dm : DiskManager) {w : FileWrite}
    (hw : w ∈ dm.flushWrites) :
  w.stop ≤ inodeTableOffset
  := by
  have htable : inodeTableOffset = 4096 := rfl
  have hsb := dm.stop_superblockWrite
  have hhead := dm.stop_freeListHeaderWrite
  have hext := dm.stop_freeListExtentsWrite
  have hdir := dm.stop_directoryWrite
  simp only [flushWrites, List.mem_cons, List.not_mem_nil, or_false] at hw
  obtain rfl | rfl | rfl | rfl := hw <;> omega

/-- Flushing keeps the size of an image that has the block of the superblock. -/
theorem size_flush (hsize : inodeTableOffset ≤ dm.image.size) :
  dm.flush.image.size = dm.image.size
  := by
  rw [image_flush]
  apply Image.size_writeAll_of_stop_le
  intro w hw
  exact Nat.le_trans (dm.stop_le_of_mem_flushWrites hw) hsize

/-- Flushing keeps the journal and its replay without effect. -/
theorem logged_flush (hs : Logged dm es) :
  Logged dm.flush es
  := by
  have htable : inodeTableOffset = 4096 := rfl
  have hsb := dm.stop_superblockWrite
  have hhead := dm.stop_freeListHeaderWrite
  have hext := dm.stop_freeListExtentsWrite
  have hdir := dm.stop_directoryWrite
  rw [flush_eq]
  apply Logged.write_low (by omega)
  apply Logged.write_low (by omega)
  apply Logged.write_low (by omega)
  apply hs.write_low (by omega)

/-- Flushing changes the block of the superblock alone. -/
theorem byte_flush (dm : DiskManager) {i : Nat} (hi : inodeTableOffset ≤ i) :
  dm.flush.image.byte i = dm.image.byte i
  := by
  rw [image_flush, Image.byte_writeAll, written_eq_none.mpr, Option.getD_none]
  intro w hw
  apply FileWrite.byteAt_eq_none.mpr (Or.inr (Nat.le_trans (dm.stop_le_of_mem_flushWrites hw) hi))

theorem size_le_flush (dm : DiskManager) :
  dm.image.size ≤ dm.flush.image.size
  := by
  rw [image_flush]
  apply Image.size_le_size_writeAll

/-- The superblock is on the disk after flushing. -/
theorem slice_superblock_flush (dm : DiskManager) :
  dm.flush.image.slice superblockOffset superblockBytes = dm.superblock.toBytes
  := by
  have hself := Image.slice_write_self dm.image dm.superblockWrite
  simp only [superblockWrite, SuperblockRaw.length_toBytes] at hself
  have hhead : 64 ≤ dm.freeListHeaderWrite.offset := by
    show 64 ≤ freeListOffset
    decide
  have hext : 64 ≤ dm.freeListExtentsWrite.offset := by
    show 64 ≤ freeListOffset + freeListHeader
    decide
  have hdir : 64 ≤ dm.directoryWrite.offset := by
    show 64 ≤ inodeBlockDirOffset
    decide
  rw [flush_eq, image_write, image_write, image_write, image_write, slice_superblock_write hdir,
    slice_superblock_write hext, slice_superblock_write hhead]
  exact hself

/-- The directory is on the disk after flushing. -/
theorem slice_directory_flush (dm : DiskManager) :
  dm.flush.image.slice inodeBlockDirOffset blockDirBytes = dm.inodeTable.dirBytes
  := by
  have hself := fun img => Image.slice_write_self img dm.directoryWrite
  simp only [directoryWrite, length_dirBytes] at hself
  rw [flush_eq, image_write]
  apply hself

end DiskManager

/-- Appending a block by a write that agrees with the journal keeps its replay without
effect. -/
theorem Logged.appendBlock {dm : DiskManager} {es : List JournalEntry} {next : UInt64}
    {table : InodeTable} {w : FileWrite} (havoids : AvoidsJournal w) (hun : dm.Unopposed w)
    (hs : Logged dm es) :
  Logged (dm.appendBlock next table w) es
  := by
  have hw : Logged (dm.withTable next table) es := hs.congr rfl rfl
  have hdir : (dm.withTable next table).directoryWrite.stop ≤ inodeTableOffset := by
    rw [DiskManager.stop_directoryWrite]
    exact Nat.le_refl _
  have hsb : (dm.withTable next table).superblockWrite.stop ≤ inodeTableOffset := by
    rw [DiskManager.stop_superblockWrite]
    decide
  have hun' : (dm.withTable next table).Unopposed w := hun
  apply ((hw.write havoids hun').write_low hdir).write_low hsb

theorem DiskManager.superblock_appendBlock (dm : DiskManager) (next : UInt64)
    (table : InodeTable) (w : FileWrite) :
  (dm.appendBlock next table w).superblock = { dm.superblock with nextDataOffset := next }
  := rfl

theorem DiskManager.inodeTable_appendBlock (dm : DiskManager) (next : UInt64)
    (table : InodeTable) (w : FileWrite) :
  (dm.appendBlock next table w).inodeTable = table
  := rfl

/-! ### The directory -/

namespace InodeTable

omit [Crc32]

/-- A field of a list of encoded integers. -/
theorem field_flatMap_u64ToLe {l : List UInt64} {i : Nat} (hi : i < l.length) :
  field (l.flatMap u64ToLe) (i * 8) (i * 8 + 8) = u64ToLe l[i]
  := by
  induction l generalizing i with
  | nil => cases hi
  | cons v l ih =>
      rw [List.flatMap_cons]
      cases i with
      | zero =>
          rw [Nat.zero_mul, Nat.zero_add, field_head (length_u64ToLe v)]
          rfl
      | succ i =>
          rw [List.length_cons] at hi
          rw [field_append_right (by rw [length_u64ToLe]; omega), length_u64ToLe]
          have hlo : (i + 1) * 8 - 8 = i * 8 := by omega
          have hhi : (i + 1) * 8 + 8 - 8 = i * 8 + 8 := by omega
          rw [hlo, hhi, ih (by omega)]
          rfl

/-- The bytes of a directory hold its offsets. -/
theorem parseDirectory_dirBytes (table : InodeTable) :
  parseDirectory table.dirBytes table.firstBlock = table.blockOffsets
  := by
  apply Vector.ext
  intro i hi
  obtain rfl | hpos := Nat.eq_zero_or_pos i
  · exact parseDirectory_zero _ _ 0
  · have hlen : i < table.blockOffsets.toList.length := by simpa using hi
    rw [parseDirectory_pos hi hpos, dirBytes, field_flatMap_u64ToLe hlen, leToU64_u64ToLe,
      Vector.getElem_toList]

/-- Reading a saved directory gives the table back. -/
theorem blockOffsets_ofImage {table : InodeTable} {img : Image} {next : UInt64}
    (hfirst : table.firstBlock = UInt64.ofNat inodeTableOffset)
    (hdir : img.slice inodeBlockDirOffset blockDirBytes = table.dirBytes) :
  (InodeTable.ofImage img (UInt64.ofNat inodeTableOffset) next).blockOffsets
    = table.blockOffsets
  := by
  simp only [InodeTable.ofImage, hdir]
  rw [← hfirst, parseDirectory_dirBytes]

/-- Tables with the same blocks read the same inodes from files that agree outside the
journal. -/
theorem readInode_congr [Crc32] {table table' : InodeTable} {file file' : File} (index : Nat)
    (hplaced : table.Placed) (hblocks : table'.blockOffsets = table.blockOffsets)
    (hsize : file'.image.size = file.image.size)
    (hbytes : Set.EqOn file'.image.byte file.image.byte outsideJournal) :
  table'.readInode file' index = table.readInode file index
  := by
  have hoffset : table'.inodeOffset index = table.inodeOffset index := by
    rw [inodeOffset, inodeOffset, hblocks]
  have hsnapshots : snapshotTableOffset ≤ journalOffset := by decide
  unfold readInode
  rw [hoffset]
  cases hslot : table.inodeOffset index with
  | none => rfl
  | some offset =>
      have hread : readBytes file' offset.toNat inodeBytes
          = readBytes file offset.toNat inodeBytes := by
        apply readBytes_congr
        apply Image.read_congr hsize
        intro i hlo hhi
        have hbytes256 : inodeBytes = 256 := rfl
        apply hbytes
        obtain ⟨-, hend⟩ | ⟨hstart, -⟩ := hplaced.slot hslot
        · left
          omega
        · right
          omega
      simp only [hread]

end InodeTable

/-! ### Closing and opening -/

/-- `dm'` reads the same inodes and the same data as `dm`. -/
structure SameReads (dm dm' : DiskManager) : Prop where
  inodes : ∀ index, dm'.readInode index = dm.readInode index
  data : ∀ offset n, dataOffset ≤ offset.toNat →
    dm'.readFileData offset n = dm.readFileData offset n

/-- What holds of a manager that can be closed and opened again. -/
structure Reopenable (dm : DiskManager) : Prop where
  steady : ∃ es, Steady dm es
  placed : dm.inodeTable.Placed
  base_le : dataOffset ≤ dm.superblock.nextDataOffset.toNat
  magic_eq : dm.superblock.magic = magic

/-- Opening the image of a settled journal does not change its size. -/
theorem Logged.size_recoveredFile {dm : DiskManager} {es : List JournalEntry}
    (hs : Logged dm es) :
  (recoveredFile dm.image dm.journal.header es).image.size = dm.image.size
  := by
  have hreplay := Image.size_writeAll_of_stop_le hs.stop_le
  unfold recoveredFile
  split
  · rfl
  · rw [File.image_append, File.image_append, File.image_ofImage,
      WithinJournal.size_writeAll (withinJournal_clearWrites _), hreplay]
    rw [hreplay]
    apply hs.tidy.size_le

/-- A closed image opens to a manager that reads the same, with the same inode table. -/
theorem Reopenable.reopen_table {dm : DiskManager} (h : Reopenable dm) :
  ∃ dm', DiskManager.open dm.flush.image = .ok dm' ∧ SameReads dm.flush dm'
    ∧ dm'.inodeTable.blockOffsets = dm.inodeTable.blockOffsets
  := by
  obtain ⟨es, hs⟩ := h.steady
  have hflush := DiskManager.logged_flush hs.toLogged
  have hsize := hflush.size_recoveredFile
  have hbytes : Set.EqOn (recoveredFile dm.flush.image dm.flush.journal.header es).image.byte
      dm.flush.image.byte outsideJournal :=
    (byte_recoveredFile _ _ _).trans hflush.settled.eqOn
  have hplaced : dm.flush.inodeTable.Placed := h.placed
  use recovered dm.flush.image dm.flush.journal.header es dm.superblock
  use open_of_readable hflush.tidy.toReadable hflush.fits dm.slice_superblock_flush h.magic_eq
  have hdir : (recoveredFile dm.flush.image dm.flush.journal.header es).image.slice
      inodeBlockDirOffset blockDirBytes = dm.flush.inodeTable.dirBytes := by
    apply Eq.trans _ dm.slice_directory_flush
    apply Image.slice_congr
    intro i _ hi
    apply hbytes
    left
    apply Nat.lt_trans hi
    decide
  refine ⟨⟨?_, ?_⟩, InodeTable.blockOffsets_ofImage hplaced.first hdir⟩
  · intro index
    simp only [DiskManager.readInode, recovered]
    rw [InodeTable.readInode_congr index hplaced
      (InodeTable.blockOffsets_ofImage hplaced.first hdir) hsize hbytes]
  · intro offset n hlo
    unfold DiskManager.readFileData
    apply readBytes_congr
    apply Image.read_congr hsize
    intro i hi _
    apply hbytes
    right
    apply Nat.le_trans hlo hi

/-- A closed image opens to a manager that reads the same. -/
theorem Reopenable.reopen {dm : DiskManager} (h : Reopenable dm) :
  ∃ dm', DiskManager.open dm.flush.image = .ok dm' ∧ SameReads dm.flush dm'
  := by
  obtain ⟨dm', hopen, hsame, -⟩ := h.reopen_table
  exact ⟨dm', hopen, hsame⟩

/-! ### Runs -/

/-- The operations of the disk manager. -/
inductive DiskOp where
  | writeInode (index : Nat) (inode : InodeRaw)
  | freeInode (index : Nat)
  | allocInode
  | allocData (size : Nat)
  | freeData (offset length : UInt64)
  | writeFileData (offset : UInt64) (data : List UInt8)

namespace DiskOp

def run (dm : DiskManager) : DiskOp → DiskManager
  | writeInode index inode => (dm.writeInode index inode).2
  | freeInode index => (dm.freeInode index).2
  | allocInode => dm.allocInode.2
  | allocData size => (dm.allocData size).2
  | freeData offset length => dm.freeData offset length
  | writeFileData offset data => (dm.writeFileData offset data).2

/-- Whether the operation returns without an error. -/
def Succeeds (dm : DiskManager) : DiskOp → Prop
  | writeInode index inode => (dm.writeInode index inode).1 = .ok ()
  | freeInode index => (dm.freeInode index).1 = .ok ()
  | allocInode => dm.allocInode.1.isSome
  | allocData _ => True
  | freeData _ _ => True
  | writeFileData offset data => (dm.writeFileData offset data).1 = .ok ()

omit [Crc32] in
/-- Data is written to the data region, and all positions are those of a file. -/
def Allowed (dm : DiskManager) : DiskOp → Prop
  | allocInode => dm.superblock.nextDataOffset.toNat + inodeBlockSize ≤ 2 ^ 63
  | allocData size => dm.superblock.nextDataOffset.toNat + size + 512 ≤ 2 ^ 63
  | writeFileData offset data => dataOffset ≤ offset.toNat ∧ offset.toNat + data.length ≤ 2 ^ 63
  | _ => True

/-- The bytes the operation writes past the journal agree with what opening would replay
over them: the slot of a freed inode, and the zeros of a block appended to the table when
no slot is free. -/
def Quiet (dm : DiskManager) : DiskOp → Prop
  | freeInode index => ∀ inode offset, dm.inodeTable.readInode dm.file index = .ok inode →
      dm.inodeTable.inodeOffset index = some offset →
      dm.Unopposed ⟨offset.toNat, { inode with isUsed := 0 : InodeRaw }.toBytes⟩
  | allocInode => dm.inodeTable.firstFree dm.file dm.inodeTable.capacity 0 = .ok none →
      dm.Unopposed ⟨dm.superblock.nextDataOffset.toNat, zeros inodeBlockSize⟩
  | _ => True

end DiskOp

/-- One operation that succeeds. -/
def DiskStep (dm dm' : DiskManager) : Prop :=
  ∃ op : DiskOp, op.Allowed dm ∧ op.Succeeds dm ∧ dm' = op.run dm

/-- One operation that succeeds and whose writes past the journal agree with it. -/
def QuietStep (dm dm' : DiskManager) : Prop :=
  ∃ op : DiskOp, op.Allowed dm ∧ op.Succeeds dm ∧ op.Quiet dm ∧ dm' = op.run dm

namespace DiskManager

omit [Crc32] in
/-- Allocating data changes the superblock, the free list and the pointer of the table. -/
theorem allocData_frame (dm : DiskManager) (size : Nat) :
  ∃ superblock freeList next, (dm.allocData size).2 = { dm with
      superblock, freeList, inodeTable := { dm.inodeTable with nextDiskEnd := next } }
    ∧ superblock.magic = dm.superblock.magic
  := by
  unfold allocData
  split
  · exact ⟨dm.superblock, _, dm.inodeTable.nextDiskEnd, rfl, rfl⟩
  · exact ⟨_, dm.freeList, _, rfl, rfl⟩

omit [Crc32] in
/-- The end of the data region stays in the data region. -/
theorem le_nextDataOffset_allocData (dm : DiskManager) {size : Nat}
    (hfar : dm.superblock.nextDataOffset.toNat + size + 512 ≤ 2 ^ 63)
    (hbase : dataOffset ≤ dm.superblock.nextDataOffset.toNat) :
  dataOffset ≤ (dm.allocData size).2.superblock.nextDataOffset.toNat
  := by
  unfold allocData
  split
  · exact hbase
  · have hofNat : (UInt64.ofNat size).toNat = size := by
      apply UInt64.toNat_ofNat_of_lt'
      have hsize : UInt64.size = 2 ^ 64 := rfl
      omega
    have hsum : (dm.superblock.nextDataOffset + UInt64.ofNat size).toNat
        = dm.superblock.nextDataOffset.toNat + size := by
      rw [UInt64.toNat_add, hofNat, Nat.mod_eq_of_lt (by omega)]
    have halign := toNat_align512
      (v := dm.superblock.nextDataOffset + UInt64.ofNat size) (by omega)
    dsimp only
    omega

end DiskManager

namespace Reopenable

variable {dm : DiskManager}

theorem format (image : Image) (sizeBytes now : UInt64) :
  Reopenable (DiskManager.format image sizeBytes now)
  := by
  constructor
  · exact ⟨[], DiskManager.steady_format image sizeBytes now⟩
  · apply InodeTable.placed_new
  · exact Nat.le_refl _
  · rfl

/-- A journaled call keeps a manager reopenable. -/
theorem journaled {c : JournaledCall} (hallowed : c.Allowed dm)
    (hok : (c.run dm).1 = .ok ()) (h : Reopenable dm) :
  Reopenable (c.run dm).2
  := by
  obtain ⟨es, hs⟩ := h.steady
  have hsteady := (JournaledCall.steady_run hallowed h.placed hok hs).1
  obtain ⟨journal, file, hframe⟩ := c.run_frame dm
  rw [hframe] at hsteady ⊢
  exact ⟨hsteady, h.placed, h.base_le, h.magic_eq⟩

/-- A write past the journal that agrees with it keeps a manager reopenable. -/
theorem write {w : FileWrite} (havoids : AvoidsJournal w) (hun : dm.Unopposed w)
    (h : Reopenable dm) :
  Reopenable (dm.write w)
  := by
  obtain ⟨es, hs⟩ := h.steady
  exact ⟨⟨es, hs.toLogged.write havoids hun, hs.room⟩, h.placed, h.base_le, h.magic_eq⟩

/-- Allocating data keeps a manager reopenable. -/
theorem allocData {size : Nat}
    (hfar : dm.superblock.nextDataOffset.toNat + size + 512 ≤ 2 ^ 63) (h : Reopenable dm) :
  Reopenable (dm.allocData size).2
  := by
  obtain ⟨es, hs⟩ := h.steady
  have hbase := dm.le_nextDataOffset_allocData hfar h.base_le
  obtain ⟨superblock, freeList, next, hframe, hmagic⟩ := dm.allocData_frame size
  rw [hframe] at hbase ⊢
  exact ⟨⟨es, hs.congr rfl rfl⟩, ⟨h.placed.first, h.placed.rest⟩, hbase,
    hmagic.trans h.magic_eq⟩

omit [Crc32] in
/-- The table with a block appended in the data region is placed. -/
theorem placed_set {table : InodeTable} {i : Nat} {offset next : UInt64}
    (hlo : dataOffset ≤ offset.toNat) (hhi : offset.toNat + inodeBlockSize ≤ 2 ^ 63)
    (hplaced : table.Placed) :
  (InodeTable.mk (table.blockOffsets.setIfInBounds (i + 1) offset) next).Placed
  := by
  constructor
  · exact (Vector.getElem_setIfInBounds_ne _ (Nat.succ_ne_zero i)).trans hplaced.first
  · intro j hj hpos
    simp only [Vector.getElem_setIfInBounds hj]
    split
    · right
      exact ⟨hlo, hhi⟩
    · apply hplaced.rest j hj hpos

/-- Appending a block of inodes keeps a manager reopenable, when its zeros agree with the
journal. -/
theorem growTable {i : Nat}
    (hfar : dm.superblock.nextDataOffset.toNat + inodeBlockSize ≤ 2 ^ 63)
    (hun : dm.Unopposed ⟨dm.superblock.nextDataOffset.toNat, zeros inodeBlockSize⟩)
    (h : Reopenable dm) :
  Reopenable (dm.growTable i)
  := by
  have hblock : inodeBlockSize = 262144 := rfl
  have hbase := h.base_le
  obtain ⟨es, hs⟩ := h.steady
  have hsum := InodeTable.toNat_blockEnd (show
    dm.superblock.nextDataOffset.toNat + inodeBlockSize < 2 ^ 64 by omega)
  unfold DiskManager.growTable
  constructor
  · exact ⟨es, hs.toLogged.appendBlock (Or.inr h.base_le) hun, hs.room⟩
  · rw [DiskManager.inodeTable_appendBlock]
    apply placed_set h.base_le hfar h.placed
  · rw [DiskManager.superblock_appendBlock]
    dsimp only
    omega
  · rw [DiskManager.superblock_appendBlock]
    apply h.magic_eq

end Reopenable

/-- What marking an inode as free writes. -/
theorem DiskManager.freeInode_ok {dm : DiskManager} {index : Nat}
    (hok : (dm.freeInode index).1 = .ok ()) :
  ∃ inode offset, dm.inodeTable.readInode dm.file index = .ok inode
    ∧ dm.inodeTable.inodeOffset index = some offset
    ∧ (dm.freeInode index).2
      = dm.write ⟨offset.toNat, { inode with isUsed := 0 : InodeRaw }.toBytes⟩
  := by
  unfold DiskManager.freeInode InodeTable.freeInode at hok ⊢
  cases hread : dm.inodeTable.readInode dm.file index with
  | error e =>
      simp only [hread] at hok
      cases hok
  | ok inode =>
      cases hslot : dm.inodeTable.inodeOffset index with
      | none =>
          simp only [hread, InodeTable.writeInode, hslot] at hok
          cases hok
      | some offset =>
          use inode, offset, rfl, rfl
          simp only [InodeTable.writeInode, hslot]
          rfl

/-- An inode write that succeeds is one to a slot of the table. -/
theorem DiskManager.isSome_of_writeInode {dm : DiskManager} {index : Nat} {inode : InodeRaw}
    (hok : (dm.writeInode index inode).1 = .ok ()) :
  (dm.inodeTable.inodeOffset index).isSome
  := by
  unfold DiskManager.writeInode at hok
  split at hok
  · cases hok
  · cases hslot : dm.inodeTable.inodeOffset index with
    | none =>
        simp only [hslot] at hok
        cases hok
    | some offset => rfl

/-- Every operation that succeeds and agrees with the journal keeps a manager
reopenable. -/
theorem Reopenable.step {dm dm' : DiskManager} (hstep : QuietStep dm dm')
    (h : Reopenable dm) :
  Reopenable dm'
  := by
  obtain ⟨op, hallowed, hok, hquiet, rfl⟩ := hstep
  cases op with
  | writeInode index inode =>
      apply h.journaled (c := .writeInode index inode) _ hok
      apply DiskManager.isSome_of_writeInode hok
  | writeFileData offset data =>
      apply h.journaled (c := .writeFileData offset data) hallowed hok
  | freeInode index =>
      obtain ⟨inode, offset, hread, hslot, hrun⟩ := DiskManager.freeInode_ok hok
      simp only [DiskOp.run, hrun]
      apply h.write (h.placed.avoidsJournal hslot) (hquiet inode offset hread hslot)
  | allocInode =>
      obtain ⟨es, hs⟩ := h.steady
      obtain hrun | ⟨i, -, hfull, hrun⟩ := dm.allocInode_cases
      · simp only [DiskOp.run, hrun]
        exact ⟨⟨es, hs.congr rfl rfl⟩, ⟨h.placed.first, h.placed.rest⟩, h.base_le, h.magic_eq⟩
      · simp only [DiskOp.run, hrun]
        apply h.growTable hallowed (hquiet hfull)
  | allocData size => apply h.allocData hallowed
  | freeData offset length =>
      obtain ⟨es, hs⟩ := h.steady
      exact ⟨⟨es, hs.congr rfl rfl⟩, h.placed, h.base_le, h.magic_eq⟩

theorem reopenable_of_run {image : Image} {sizeBytes now : UInt64} {dm : DiskManager}
    (h : Relation.ReflTransGen QuietStep (DiskManager.format image sizeBytes now) dm) :
  Reopenable dm
  := by
  induction h with
  | refl => apply Reopenable.format
  | tail _ hstep ih => apply ih.step hstep

/-- After operations whose writes past the journal agree with it, closing and opening the
image changes no inode and no data. -/
theorem reopen_unchanged (image : Image) (sizeBytes now : UInt64) (dm : DiskManager)
    (h : Relation.ReflTransGen QuietStep (DiskManager.format image sizeBytes now) dm) :
  ∃ dm', DiskManager.open dm.flush.image = .ok dm' ∧ SameReads dm.flush dm'
  := (reopenable_of_run h).reopen

theorem DiskManager.checkpoint_of_lt {dm : DiskManager} (h : dm.journal.nextSlot < 496) :
  dm.checkpoint = dm
  := by
  have hroom : dm.journal.needsCheckpoint = false := decide_eq_false (Nat.not_le.mpr h)
  rw [checkpoint, hroom]
  rfl

/-- The first inode write to a formatted image. -/
theorem writeInode_format (image : Image) (sizeBytes now : UInt64) (inode : InodeRaw) :
  (DiskManager.format image sizeBytes now).writeInode 0 inode
    = (.ok (), (DiskManager.format image sizeBytes now).transact
        ((DiskManager.format image sizeBytes now).inodeEntries
          (UInt64.ofNat inodeTableOffset) inode) ⟨inodeTableOffset, inode.toBytes⟩)
  := by
  have hslot : (DiskManager.format image sizeBytes now).inodeTable.inodeOffset 0
      = some (UInt64.ofNat inodeTableOffset) := rfl
  have hok := (DiskManager.format image sizeBytes now).writeInode_ok inode (by decide) hslot
    (show 0 + 2 ≤ 512 by decide)
  rw [hok, DiskManager.checkpoint_of_lt (show 0 + 2 < 496 by decide)]
  rfl

omit [Crc32] in
/-- Closing and opening an image with one inode. -/
theorem reopen_unchanged_inode :
  let _ := Crc32.ieee
  let dm := ((DiskManager.format Image.empty 0 0).writeInode 0 InodeRaw.empty).2
  ∃ dm', DiskManager.open dm.flush.image = .ok dm' ∧ SameReads dm.flush dm'
  := by
  intro _ dm
  apply reopen_unchanged Image.empty 0 0 dm
  apply Relation.ReflTransGen.single
  use .writeInode 0 InodeRaw.empty, trivial
  use congrArg Prod.fst (writeInode_format Image.empty 0 0 InodeRaw.empty), trivial
  rfl

/-! ### A freed inode that is back -/

/-- A slot that holds the bytes of an inode reads as it. -/
theorem InodeTable.readInode_of_slice {table : InodeTable} {file : File} {index : Nat}
    {offset : UInt64} {inode : InodeRaw} (hslot : table.inodeOffset index = some offset)
    (hsize : offset.toNat + 256 ≤ file.image.size)
    (hslice : file.image.slice offset.toNat 256 = inode.toBytes) :
  table.readInode file index = .ok inode
  := by
  have hread : readBytes file offset.toNat inodeBytes = .ok inode.toBytes := by
    rw [← hslice]
    apply readBytes_of_le hsize
  simp only [readInode, hslot, hread, InodeRaw.fromBytes_toBytes]

omit [Crc32] in
/-- The slot of inode 0 lies at the start of the table. -/
theorem InodeTable.inodeOffset_zero {table : InodeTable}
    (hfirst : table.firstBlock = UInt64.ofNat inodeTableOffset) :
  table.inodeOffset 0 = some (UInt64.ofNat inodeTableOffset)
  := by
  have hbase : (table.blockOffsets[blockFor 0]?).getD 0 = UInt64.ofNat inodeTableOffset := by
    rw [← hfirst]
    rfl
  unfold inodeOffset
  dsimp only
  rw [hbase]
  rfl

/-- A manager whose journal holds a write of inode 0 that was freed since: the inode reads
as free, and opening the closed image gives it back. -/
theorem reopen_freed {dm : DiskManager} {es : List JournalEntry} {inode : InodeRaw}
    (hs : Logged dm es) (hplaced : dm.inodeTable.Placed)
    (hmagic : dm.superblock.magic = magic)
    (hrep : replayed es = [⟨inodeTableOffset, inode.toBytes⟩]) :
  (dm.freeInode 0).1 = .ok ()
    ∧ (dm.freeInode 0).2.flush.readInode 0 = .ok { inode with isUsed := 0 }
    ∧ ∃ dm', DiskManager.open (dm.freeInode 0).2.flush.image = .ok dm'
      ∧ dm'.readInode 0 = .ok inode
  := by
  have hlen : inode.toBytes.length = 256 := inode.length_toBytes
  have hlow : inodeTableOffset + 256 ≤ dataOffset := by decide
  have hjournal : inodeTableOffset + 256 ≤ journalOffset := by decide
  have hbase : (UInt64.ofNat inodeTableOffset).toNat = inodeTableOffset := rfl
  have hslot := InodeTable.inodeOffset_zero hplaced.first
  have hsize := hs.tidy.size_le
  have hfits : ∀ img : Image, dataOffset ≤ img.size →
      (UInt64.ofNat inodeTableOffset).toNat + 256 ≤ img.size := by
    intro img himg
    rw [hbase]
    apply Nat.le_trans hlow himg
  -- the replay writes what the slot already holds
  have hslice : dm.image.slice inodeTableOffset 256 = inode.toBytes := by
    apply Image.slice_eq_of_write dm.image hlen
    intro i _ hi
    have heq := hs.settled.eqOn
    rw [hrep] at heq
    apply (heq _).symm
    left
    apply Nat.lt_of_lt_of_le hi hjournal
  have hread : dm.inodeTable.readInode dm.file 0 = .ok inode :=
    InodeTable.readInode_of_slice hslot (hfits dm.image hsize) hslice
  have hfree : dm.freeInode 0 = (.ok (), dm.write ⟨inodeTableOffset,
      { inode with isUsed := 0 : InodeRaw }.toBytes⟩) := by
    unfold DiskManager.freeInode InodeTable.freeInode
    simp only [hread, InodeTable.writeInode, hslot]
    rfl
  rw [hfree]
  use rfl
  generalize hdm' : dm.write ⟨inodeTableOffset, { inode with isUsed := 0 : InodeRaw }.toBytes⟩
    = freed
  have himage : freed.flush.image.slice inodeTableOffset 256
      = { inode with isUsed := 0 : InodeRaw }.toBytes := by
    apply Image.slice_eq_of_write dm.image (InodeRaw.length_toBytes _)
    intro i hlo _
    rw [← dm.image_write, hdm']
    apply freed.byte_flush hlo
  have htidy : Tidy freed.flush.image dm.journal.header es := by
    apply hs.tidy.congr
    · apply Nat.le_trans _ freed.size_le_flush
      rw [← hdm', dm.image_write]
      apply Image.size_le_size_write
    · intro i hlo hhi
      have htable := Nat.le_trans (Nat.le_of_add_right_le hjournal) hlo
      rw [freed.byte_flush htable, ← hdm', dm.image_write]
      apply Image.byte_write_of_stop_le
      rw [FileWrite.stop, InodeRaw.length_toBytes]
      exact Nat.le_trans hjournal hlo
  have hopen := open_of_readable htidy.toReadable hs.fits
    freed.slice_superblock_flush (by rw [← hdm']; exact hmagic)
  have htab : freed.flush.inodeTable = dm.inodeTable := by
    rw [← hdm']
    rfl
  have hnow : freed.flush.inodeTable.readInode freed.flush.file 0
      = .ok { inode with isUsed := 0 } := by
    apply InodeTable.readInode_of_slice _ (hfits _ htidy.size_le) himage
    rw [htab, hslot]
  have hthen : InodeTable.readInode
      (recovered freed.flush.image dm.journal.header es freed.superblock).inodeTable
      (recoveredFile freed.flush.image dm.journal.header es) 0 = .ok inode := by
    have hslice' : (recoveredFile freed.flush.image dm.journal.header es).image.slice
        inodeTableOffset 256 = inode.toBytes := by
      apply Image.slice_eq_of_write freed.flush.image hlen
      intro i _ hi
      have heq := byte_recoveredFile freed.flush.image dm.journal.header es
      rw [hrep] at heq
      apply heq
      left
      apply Nat.lt_of_lt_of_le hi hjournal
    refine InodeTable.readInode_of_slice (InodeTable.inodeOffset_zero ?_) ?_ hslice'
    · apply InodeTable.parseDirectory_zero
    · apply hfits _ (Nat.le_trans htidy.size_le (size_le_recoveredFile _ _ _))
  have hindex : ¬ maxFiles ≤ 0 := by decide
  refine ⟨?_, _, hopen, ?_⟩
  · rw [DiskManager.readInode, if_neg hindex, hnow]
  · rw [DiskManager.readInode, if_neg hindex]
    exact hthen

/-- What the journal replays after the first inode write to a formatted image. -/
theorem logged_first_inode (image : Image) (sizeBytes now : UInt64) (inode : InodeRaw) :
  ∃ es, Logged ((DiskManager.format image sizeBytes now).writeInode 0 inode).2 es
    ∧ replayed es = [⟨inodeTableOffset, inode.toBytes⟩]
  := by
  have hs := DiskManager.steady_format image sizeBytes now
  have hlen : inode.toBytes.length ≤ 490 := by
    rw [InodeRaw.length_toBytes]
    decide
  have hbefore : inodeTableOffset + inodeBytes ≤ journalOffset := by decide
  have havoids : AvoidsJournal ⟨inodeTableOffset, inode.toBytes⟩ := by
    left
    rw [FileWrite.stop, InodeRaw.length_toBytes]
    exact hbefore
  have hl : Loggable (DiskManager.format image sizeBytes now) []
      ((DiskManager.format image sizeBytes now).inodeEntries
        (UInt64.ofNat inodeTableOffset) inode) ⟨inodeTableOffset, inode.toBytes⟩ :=
    DiskManager.loggable_inode _ [] inode (Nat.le_refl _) havoids (by decide)
  rw [writeInode_format]
  refine ⟨_, hs.toLogged.transact hl, ?_⟩
  rw [hs.toLogged.replayed_entriesOf hl, DiskManager.inodeEntries, List.map_singleton,
    write_writeOf hlen]
  rfl

/-- A used inode that is written to a formatted image and then freed is used again after
closing and opening. -/
theorem exists_run_reopen_ne (image : Image) (sizeBytes now : UInt64) {inode : InodeRaw}
    (hused : inode.isUsed ≠ 0) :
  ∃ dm, Relation.ReflTransGen DiskStep (DiskManager.format image sizeBytes now) dm
    ∧ ∃ dm', DiskManager.open dm.flush.image = .ok dm'
      ∧ dm'.readInode 0 ≠ dm.flush.readInode 0
  := by
  have hformat := Reopenable.format image sizeBytes now
  have hok := writeInode_format image sizeBytes now inode
  obtain ⟨es, hs, hrep⟩ := logged_first_inode image sizeBytes now inode
  obtain ⟨journal, file, hframe⟩ :=
    (DiskManager.format image sizeBytes now).writeInode_frame 0 inode
  have hwrite : DiskStep (DiskManager.format image sizeBytes now)
      ((DiskManager.format image sizeBytes now).writeInode 0 inode).2 :=
    ⟨.writeInode 0 inode, trivial, congrArg Prod.fst hok, rfl⟩
  obtain ⟨hfree, hclosed, dm', hopen, hreopened⟩ := reopen_freed hs
    (by rw [hframe]; exact hformat.placed) (by rw [hframe]; exact hformat.magic_eq) hrep
  refine ⟨_, (Relation.ReflTransGen.single hwrite).tail ⟨.freeInode 0, trivial, hfree, rfl⟩,
    dm', hopen, ?_⟩
  intro hsame
  have hinode := Except.ok.inj (hreopened.symm.trans (hsame.trans hclosed))
  apply hused
  rw [hinode]

omit [Crc32] in
/-- Closing and opening an image is not always without effect: an inode that was written and
then freed is used again. -/
theorem not_reopen_unchanged :
  let _ := Crc32.ieee
  ¬ ∀ (image : Image) (sizeBytes now : UInt64) (dm : DiskManager),
    Relation.ReflTransGen DiskStep (DiskManager.format image sizeBytes now) dm →
    ∃ dm', DiskManager.open dm.flush.image = .ok dm' ∧ SameReads dm.flush dm'
  := by
  intro _ hall
  obtain ⟨dm, hrun, dm', hopen, hne⟩ := exists_run_reopen_ne Image.empty 0 0
    (show { InodeRaw.empty with isUsed := 1 : InodeRaw }.isUsed ≠ 0 by decide)
  obtain ⟨dm'', hopen', hsame⟩ := hall Image.empty 0 0 dm hrun
  obtain rfl : dm' = dm'' := Except.ok.inj (hopen.symm.trans hopen')
  exact hne (hsame.inodes 0)

end Vexfs
