import Vexfs.Fs.Formatted

/-!
# Where operations write

`ChangesIn S dm dm'` says that `dm'` has the bytes of `dm`, except in `S` and in the journal.
Every operation of the manager changes the bytes of one range in this sense: the slot it
writes, the range of its data, a slot of the snapshot table, the block of the superblock.
Whatever is read from elsewhere reads as before.
-/

namespace Vexfs

open Bytes Storage

/-- The positions of the block of the superblock, with the free list and the directory. -/
def metadataRange : Set ℕ := Set.Iio inodeTableOffset

/-- The positions of a slot of the snapshot table. -/
def snapshotRange (index : ℕ) : Set ℕ :=
  Set.Ico (DiskManager.snapshotOffset index)
    (DiskManager.snapshotOffset index + snapshotRecordSize)

/-- The positions of the slot of an inode; there are none when its block is not allocated. -/
def InodeTable.slotRange (table : InodeTable) (index : ℕ) : Set ℕ :=
  {i | ∃ offset, table.inodeOffset index = some offset
    ∧ offset.toNat ≤ i ∧ i < offset.toNat + inodeBytes}

theorem InodeTable.slotRange_eq {table : InodeTable} {index : ℕ} {offset : UInt64}
    (h : table.inodeOffset index = some offset) :
  table.slotRange index = Set.Ico offset.toNat (offset.toNat + inodeBytes)
  := by
  ext i
  constructor
  · rintro ⟨offset', h', hi⟩
    obtain rfl := Option.some.inj (h.symm.trans h')
    exact hi
  · exact fun hi => ⟨offset, h, hi⟩

theorem InodeTable.slotRange_congr {table table' : InodeTable}
    (h : table'.blockOffsets = table.blockOffsets) (index : ℕ) :
  table'.slotRange index = table.slotRange index
  := by
  unfold slotRange inodeOffset
  rw [h]

namespace DiskManager

/-- `dm'` has the bytes of `dm`, except in `S` and in the journal. -/
structure ChangesIn (S : Set ℕ) (dm dm' : DiskManager) : Prop where
  byte_eq : ∀ i ∈ outsideJournal, i ∉ S → dm'.image.byte i = dm.image.byte i
  size_le : dm.image.size ≤ dm'.image.size

namespace ChangesIn

variable {S T : Set ℕ} {dm dm' dm'' : DiskManager}

theorem of_image (h : dm'.image = dm.image) :
  ChangesIn S dm dm'
  := ⟨fun _ _ _ => by rw [h], by rw [h]⟩

theorem refl (dm : DiskManager) :
  ChangesIn S dm dm
  := of_image rfl

theorem mono (hsub : S ⊆ T) (h : ChangesIn S dm dm') :
  ChangesIn T dm dm'
  := ⟨fun i hi hT => h.byte_eq i hi fun hS => hT (hsub hS), h.size_le⟩

theorem trans (h : ChangesIn S dm dm') (h' : ChangesIn T dm' dm'') :
  ChangesIn (S ∪ T) dm dm''
  := by
  constructor
  · intro i hi hout
    rw [h'.byte_eq i hi fun hT => hout (Or.inr hT), h.byte_eq i hi fun hS => hout (Or.inl hS)]
  · exact h.size_le.trans h'.size_le

/-- A write changes the bytes of its range. -/
theorem write (dm : DiskManager) (w : FileWrite) :
  ChangesIn (Set.Ico w.offset w.stop) dm (dm.write w)
  := by
  constructor
  · intro i _ hout
    rw [image_write]
    obtain hlt | hle := Nat.lt_or_ge i w.offset
    · exact Image.byte_write_of_lt hlt
    · exact Image.byte_write_of_stop_le (Nat.not_lt.mp fun hlt => hout ⟨hle, hlt⟩)
  · rw [image_write]
    exact Image.size_le_size_write _ _

/-! #### What is read elsewhere -/

/-- Bytes that are read outside the journal and the changes read as before. -/
theorem readBytes {offset n : ℕ} {b : List UInt8} (h : ChangesIn S dm dm')
    (hread : readBytes dm.file offset n = .ok b)
    (hout : ∀ i ∈ Set.Ico offset (offset + n), i ∈ outsideJournal ∧ i ∉ S) :
  Vexfs.readBytes dm'.file offset n = .ok b
  := by
  unfold Vexfs.readBytes at hread ⊢
  split at hread
  · next d heq =>
    cases hread
    have heq' : dm'.file.image.read offset n = some b := by
      apply Image.read_mono h.size_le _ heq
      intro i hlo hhi
      obtain ⟨hi, hS⟩ := hout i ⟨hlo, hhi⟩
      exact (h.byte_eq i hi hS).symm
    rw [heq']
  · cases hread

variable [Crc32]

theorem readInode {index : ℕ} {inode : InodeRaw} (h : ChangesIn S dm dm')
    (htable : dm'.inodeTable.inodeOffset index = dm.inodeTable.inodeOffset index)
    (hplaced : dm.inodeTable.Placed) (hread : dm.readInode index = .ok inode)
    (hout : Disjoint (dm.inodeTable.slotRange index) S) :
  dm'.readInode index = .ok inode
  := by
  unfold DiskManager.readInode InodeTable.readInode at hread ⊢
  rw [htable]
  split at hread
  · cases hread
  next hmax =>
  rw [if_neg hmax]
  split at hread
  · exact hread
  next offset hoffset =>
  split at hread
  · cases hread
  next b hb =>
  have hb' : Vexfs.readBytes dm'.file offset.toNat inodeBytes = .ok b := by
    apply h.readBytes hb
    intro i hi
    constructor
    · have hsnapshots : snapshotTableOffset ≤ journalOffset := by decide
      have hbytes : inodeBytes = 256 := rfl
      obtain ⟨hlo, hhi⟩ := hi
      rw [hbytes] at hhi
      obtain hslot | hslot := hplaced.slot hoffset
      · exact Or.inl (by omega)
      · exact Or.inr (by omega)
    · rw [InodeTable.slotRange_eq hoffset] at hout
      exact Set.disjoint_left.mp hout hi
  rw [hb']
  exact hread

theorem readSnapshot {index : ℕ} {record : SnapshotRaw} (h : ChangesIn S dm dm')
    (hread : dm.readSnapshot index = .ok record) (hout : Disjoint (snapshotRange index) S) :
  dm'.readSnapshot index = .ok record
  := by
  unfold DiskManager.readSnapshot at hread ⊢
  split at hread
  · cases hread
  next hmax =>
  rw [if_neg hmax]
  split at hread
  · cases hread
  next b hb =>
  have hb' : Vexfs.readBytes dm'.file (snapshotOffset index) snapshotBytes = .ok b := by
    apply h.readBytes hb
    intro i hi
    constructor
    · have hjournal : journalOffset = snapshotTableOffset + 256 * 512 := rfl
      have hbytes : snapshotBytes = 512 := rfl
      have hrecord : snapshotRecordSize = 512 := rfl
      have hslots : maxSnapshotSlots = 256 := rfl
      obtain ⟨-, hhi⟩ := hi
      rw [hbytes, snapshotOffset, hrecord] at hhi
      exact Or.inl (by omega)
    · exact Set.disjoint_left.mp hout hi
  rw [hb']
  exact hread

omit [Crc32] in
theorem readFileData {offset : UInt64} {n : ℕ} {b : List UInt8} (h : ChangesIn S dm dm')
    (hoffset : dataOffset ≤ offset.toNat) (hread : dm.readFileData offset n = .ok b)
    (hout : Disjoint (dataRange offset n) S) :
  dm'.readFileData offset n = .ok b
  := by
  apply h.readBytes hread
  intro i hi
  exact ⟨Or.inr (hoffset.trans hi.1), Set.disjoint_left.mp hout hi⟩

end ChangesIn

/-! ### The operations -/

variable [Crc32] {dm : DiskManager}

/-- A checkpoint changes the journal alone. -/
theorem changesIn_checkpoint (dm : DiskManager) :
  ChangesIn ∅ dm dm.checkpoint
  := ⟨fun _ hi _ => (dm.eqOn_checkpoint).1 hi, (dm.eqOn_checkpoint).2⟩

/-- Logging entries changes the journal alone. -/
theorem changesIn_logFile {new : List JournalEntry}
    (hroom : dm.journal.nextSlot + new.length + 1 ≤ 512) :
  ChangesIn ∅ dm { dm with file := dm.logFile new }
  := by
  have hslots : dm.journal.begin.2.nextSlot + (dm.entriesOf new).length ≤ 512 := by
    rw [length_entriesOf]
    exact hroom
  have himage : (DiskManager.mk (dm.logFile new) dm.superblock dm.journal dm.freeList
      dm.inodeTable).image
      = dm.image.writeAll (dm.journal.begin.2.appendWrites (dm.entriesOf new)) :=
    File.image_append _ _
  constructor
  · intro i hi _
    rw [himage]
    exact WithinJournal.eqOn_writeAll (Journal.withinJournal_appendWrites hslots) _ hi
  · rw [himage]
    exact Image.size_le_size_writeAll _ _

/-- A transaction changes the range of its write, whose bytes it leaves there. -/
theorem changesIn_transact (dm : DiskManager) {new : List JournalEntry} (w : FileWrite)
    (hroom : dm.journal.nextSlot + new.length + 1 ≤ 512) :
  ChangesIn (Set.Ico w.offset w.stop) dm (dm.transact new w).checkpoint
  := by
  have hwrite := ChangesIn.write { dm with file := dm.logFile new } w
  have himage : (dm.transact new w).image
      = (({ dm with file := dm.logFile new } : DiskManager).write w).image := by
    rw [image_transact, image_write]
    rfl
  have h := ((changesIn_logFile hroom).trans hwrite).trans
    ((ChangesIn.of_image (S := ∅) himage).trans (changesIn_checkpoint _))
  exact h.mono (by simp)

/-- The bytes a transaction writes outside the journal are there. -/
theorem slice_transact (new : List JournalEntry) {w : FileWrite} (hne : w.data ≠ [])
    (hout : ∀ i ∈ Set.Ico w.offset w.stop, i ∈ outsideJournal) :
  (dm.transact new w).checkpoint.image.slice w.offset w.data.length = w.data
    ∧ w.stop ≤ (dm.transact new w).checkpoint.image.size
  := by
  obtain ⟨heq, hsize⟩ := (dm.transact new w).eqOn_checkpoint
  rw [image_transact] at heq hsize
  constructor
  · apply Eq.trans _ (Image.slice_write_self (dm.logFile new).image w)
    apply Image.slice_congr
    intro i hlo hhi
    exact heq (hout i ⟨hlo, hhi⟩)
  · exact (Image.stop_le_size_write hne).trans hsize

/-! #### Inodes -/

/-- An inode write changes the slot of the inode. -/
theorem changesIn_writeInode (index : ℕ) (inode : InodeRaw)
    (hroom : dm.journal.nextSlot ≤ 510) :
  ChangesIn (dm.inodeTable.slotRange index) dm (dm.writeInode index inode).2
  := by
  cases hoffset : dm.inodeTable.inodeOffset index with
  | none =>
      unfold writeInode
      rw [hoffset]
      split <;> exact .refl dm
  | some offset =>
      have hmax := InodeTable.lt_maxFiles_of_inodeOffset hoffset
      rw [dm.writeInode_ok inode hmax hoffset (by omega), InodeTable.slotRange_eq hoffset]
      have hlen : (dm.inodeEntries offset inode).length = 1 := rfl
      have h := dm.changesIn_transact ⟨offset.toNat, inode.toBytes⟩
        (by omega : dm.journal.nextSlot + (dm.inodeEntries offset inode).length + 1 ≤ 512)
      rwa [FileWrite.stop, inode.length_toBytes] at h

/-- An inode that was written to an allocated block is read again. -/
theorem readInode_writeInode {index : ℕ} {inode : InodeRaw}
    (hindex : dm.inodeTable.inodeOffset index ≠ none) (hplaced : dm.inodeTable.Placed)
    (hroom : dm.journal.nextSlot ≤ 510) :
  (dm.writeInode index inode).2.readInode index = .ok inode
  := by
  obtain ⟨offset, hoffset⟩ := Option.ne_none_iff_exists'.mp hindex
  have hmax := InodeTable.lt_maxFiles_of_inodeOffset hoffset
  rw [dm.writeInode_ok inode hmax hoffset (by omega)]
  have hlen : inode.toBytes.length = inodeBytes := inode.length_toBytes
  obtain ⟨hslice, hsize⟩ := dm.slice_transact
    (dm.inodeEntries offset inode) (w := ⟨offset.toNat, inode.toBytes⟩)
    (List.ne_nil_of_length_pos (by rw [hlen]; decide)) (by
      intro i hi
      have havoids : AvoidsJournal ⟨offset.toNat, inode.toBytes⟩ := hplaced.avoidsJournal hoffset
      obtain hbefore | hbehind := havoids
      · exact Or.inl (Nat.lt_of_lt_of_le hi.2 hbefore)
      · exact Or.inr (hbehind.trans hi.1))
  have hstop : offset.toNat + inodeBytes ≤ (dm.transact (dm.inodeEntries offset inode)
      ⟨offset.toNat, inode.toBytes⟩).checkpoint.image.size := by
    rw [FileWrite.stop, hlen] at hsize
    exact hsize
  obtain ⟨journal, file, hframe⟩ := checkpoint_frame
    (dm.transact (dm.inodeEntries offset inode) ⟨offset.toNat, inode.toBytes⟩)
  have htable : (dm.transact (dm.inodeEntries offset inode)
      ⟨offset.toNat, inode.toBytes⟩).checkpoint.inodeTable.inodeOffset index = some offset := by
    rw [hframe]
    exact hoffset
  rw [hlen] at hslice
  have hread : readBytes (dm.transact (dm.inodeEntries offset inode)
      ⟨offset.toNat, inode.toBytes⟩).checkpoint.file offset.toNat inodeBytes
      = .ok inode.toBytes :=
    (readBytes_of_le hstop).trans (congrArg Except.ok hslice)
  rw [readInode, if_neg (Nat.not_le.mpr hmax)]
  exact InodeTable.readInode_of_read htable hread (InodeRaw.fromBytes_toBytes inode)

/-- Freeing an inode changes its slot. -/
theorem changesIn_freeInode (dm : DiskManager) (index : ℕ) :
  ChangesIn (dm.inodeTable.slotRange index) dm (dm.freeInode index).2
  := by
  unfold DiskManager.freeInode InodeTable.freeInode InodeTable.writeInode
  split
  next r file heq =>
  split at heq
  · cases heq
    exact .refl dm
  next inode _ =>
  split at heq
  · cases heq
    exact .refl dm
  next offset hoffset =>
  cases heq
  rw [InodeTable.slotRange_eq hoffset]
  have h := ChangesIn.write dm
    ⟨offset.toNat, { inode with isUsed := 0 : InodeRaw }.toBytes⟩
  rwa [FileWrite.stop, InodeRaw.length_toBytes] at h

/-! #### Data -/

/-- A data write changes its range. -/
theorem changesIn_writeFileData (offset : UInt64) (data : List UInt8)
    (hroom : dm.journal.nextSlot ≤ 511) :
  ChangesIn (dataRange offset data.length) dm (dm.writeFileData offset data).2
  := by
  by_cases hnil : data = []
  · have hrun : dm.writeFileData offset data = (.ok (), dm) := by
      simp [writeFileData, hnil]
    rw [hrun]
    exact .refl dm
  by_cases hfits : dm.journal.nextSlot + (chunks journalPayloadSize data).length + 1 ≤ 512
  · rw [dm.writeFileData_ok offset hnil hfits]
    apply changesIn_transact (w := ⟨offset.toNat, data⟩)
    rw [dataEntries, length_pieceEntries]
    exact hfits
  · obtain ⟨e, hrun⟩ := dm.writeFileData_full offset hfits hroom
    rw [hrun]
    exact .of_image rfl

/-! #### Metadata -/

/-- Flushing changes the block of the superblock. -/
theorem changesIn_flush (dm : DiskManager) :
  ChangesIn metadataRange dm dm.flush
  := by
  constructor
  · intro i _ hout
    exact dm.byte_flush (Nat.not_lt.mp hout)
  · exact dm.size_le_flush

/-- Appending a block changes the range of the block and the block of the superblock. -/
theorem changesIn_appendBlock (dm : DiskManager) (next : UInt64) (table : InodeTable)
    (w : FileWrite) :
  ChangesIn (Set.Ico w.offset w.stop ∪ metadataRange) dm (dm.appendBlock next table w)
  := by
  have hlow : ∀ (dm' : DiskManager) (v : FileWrite), v.stop ≤ inodeTableOffset →
      ChangesIn metadataRange dm' (dm'.write v) := by
    intro dm' v hstop
    apply (ChangesIn.write dm' v).mono
    exact fun i hi => hi.2.trans_le hstop
  have htable : ChangesIn ∅ dm (dm.withTable next table) := .of_image rfl
  have hdir : (dm.withTable next table).directoryWrite.stop ≤ inodeTableOffset := by
    rw [stop_directoryWrite]
    exact Nat.le_refl _
  have hsb : (dm.withTable next table).superblockWrite.stop ≤ inodeTableOffset := by
    rw [stop_superblockWrite]
    decide
  have h := ((htable.trans (ChangesIn.write _ w)).trans (hlow _ _ hdir)).trans (hlow _ _ hsb)
  apply h.mono
  rw [Set.empty_union, Set.union_assoc, Set.union_self]

/-- The search for a free inode changes the block of the superblock and the block it
appends. -/
theorem changesIn_allocInode (dm : DiskManager) :
  ChangesIn (metadataRange ∪ dataRange dm.superblock.nextDataOffset inodeBlockSize) dm
    dm.allocInode.2
  := by
  obtain hrun | ⟨i, -, -, hrun⟩ := dm.allocInode_cases
  · rw [hrun]
    exact .of_image rfl
  · rw [hrun]
    unfold growTable
    have h := dm.changesIn_appendBlock
      (InodeTable.blockEnd dm.superblock.nextDataOffset)
      ⟨dm.inodeTable.blockOffsets.setIfInBounds (i + 1) dm.superblock.nextDataOffset,
        InodeTable.blockEnd dm.superblock.nextDataOffset⟩
      ⟨dm.superblock.nextDataOffset.toNat, zeros inodeBlockSize⟩
    rw [FileWrite.stop, length_zeros, Set.union_comm] at h
    exact h

/-! #### The snapshot table -/

theorem changesIn_writeSnapshot (dm : DiskManager) (index : ℕ) (record : SnapshotRaw) :
  ChangesIn (snapshotRange index) dm (dm.writeSnapshot index record).2
  := by
  unfold writeSnapshot
  split
  · exact .refl dm
  · have h := ChangesIn.write dm ⟨snapshotOffset index, record.toBytes⟩
    rwa [FileWrite.stop, SnapshotRaw.length_toBytes] at h

omit [Crc32] in
theorem changesIn_zeroSnapshotSlot (dm : DiskManager) (index : ℕ) :
  ChangesIn (snapshotRange index) dm (dm.zeroSnapshotSlot index).2
  := by
  unfold zeroSnapshotSlot
  split
  · exact .refl dm
  · have h := ChangesIn.write dm ⟨snapshotOffset index, zeros snapshotRecordSize⟩
    rwa [FileWrite.stop, length_zeros] at h


/-! #### Reading the snapshot table -/

/-- Every slot of the snapshot table can be read. -/
theorem exists_readSnapshot (hsize : dataOffset ≤ dm.image.size) {k : ℕ}
    (hk : k < maxSnapshotSlots) :
  ∃ record, dm.readSnapshot k = .ok record
  := by
  have hstop : snapshotOffset k + snapshotBytes ≤ dm.file.image.size := by
    have hoffset : snapshotOffset k = 266240 + k * 512 := rfl
    have hbytes : snapshotBytes = 512 := rfl
    have hslots : maxSnapshotSlots = 256 := rfl
    have hdata : 266240 + 256 * 512 ≤ dataOffset := by decide
    have hfile : dm.file.image.size = dm.image.size := rfl
    omega
  unfold readSnapshot
  rw [if_neg (Nat.not_le.mpr hk), readBytes_of_le hstop]
  dsimp only
  split
  · exact ⟨_, rfl⟩
  · exact ⟨_, rfl⟩

/-- The snapshot table reads as before when it is not changed. -/
theorem ChangesIn.readSnapshot_eq {S : Set ℕ} {dm' : DiskManager} {k : ℕ}
    (hsize : dataOffset ≤ dm.image.size)
    (hout : k < maxSnapshotSlots → Disjoint (snapshotRange k) S) (h : ChangesIn S dm dm') :
  dm'.readSnapshot k = dm.readSnapshot k
  := by
  by_cases hk : k < maxSnapshotSlots
  · obtain ⟨record, hread⟩ := exists_readSnapshot hsize hk
    rw [hread, h.readSnapshot hread (hout hk)]
  · unfold DiskManager.readSnapshot
    rw [if_pos (Nat.not_lt.mp hk), if_pos (Nat.not_lt.mp hk)]

omit [Crc32] in
/-- Bytes that were written are read again. -/
theorem readBytes_write (dm : DiskManager) {w : FileWrite} (hne : w.data ≠ []) :
  readBytes (dm.write w).file w.offset w.data.length = .ok w.data
  := by
  have himage : (dm.write w).file.image = dm.image.write w := dm.image_write w
  have hstop : w.offset + w.data.length ≤ (dm.write w).file.image.size := by
    rw [himage]
    exact Image.stop_le_size_write hne
  rw [readBytes_of_le hstop, himage, Image.slice_write_self]

/-- A record that was written is read again. -/
theorem readSnapshot_writeSnapshot {slot : ℕ} (hslot : slot < maxSnapshotSlots)
    (record : SnapshotRaw) :
  (dm.writeSnapshot slot record).2.readSnapshot slot = .ok record
  := by
  have hlen : record.toBytes.length = snapshotBytes := record.length_toBytes
  have hne : record.toBytes ≠ [] := by
    apply List.ne_nil_of_length_pos
    rw [hlen]
    decide
  have hread := dm.readBytes_write (w := ⟨snapshotOffset slot, record.toBytes⟩) hne
  dsimp only at hread
  rw [hlen] at hread
  have hwritten : (dm.writeSnapshot slot record).2
      = dm.write ⟨snapshotOffset slot, record.toBytes⟩ := by
    rw [writeSnapshot, if_neg (Nat.not_le.mpr hslot)]
    rfl
  rw [hwritten, readSnapshot, if_neg (Nat.not_le.mpr hslot), hread]
  dsimp only
  rw [SnapshotRaw.fromBytes_toBytes]

/-- A slot that was zeroed is not used. -/
theorem isUsed_of_zeroSnapshotSlot {slot : ℕ} {record : SnapshotRaw}
    (hslot : slot < maxSnapshotSlots)
    (hread : (dm.zeroSnapshotSlot slot).2.readSnapshot slot = .ok record) :
  record.isUsed = 0
  := by
  have hlen : (zeros snapshotRecordSize).length = snapshotBytes := length_zeros _
  have hne : zeros snapshotRecordSize ≠ [] := by
    apply List.ne_nil_of_length_pos
    rw [hlen]
    decide
  have hzeros := dm.readBytes_write (w := ⟨snapshotOffset slot, zeros snapshotRecordSize⟩) hne
  dsimp only at hzeros
  rw [hlen] at hzeros
  have hwritten : (dm.zeroSnapshotSlot slot).2
      = dm.write ⟨snapshotOffset slot, zeros snapshotRecordSize⟩ := by
    rw [zeroSnapshotSlot, if_neg (Nat.not_le.mpr hslot)]
    rfl
  rw [hwritten, readSnapshot, if_neg (Nat.not_le.mpr hslot), hzeros] at hread
  dsimp only at hread
  split at hread
  · next x hx =>
    obtain rfl := Except.ok.inj hread
    exact isUsed_snapshot_of_zeros hx
  · obtain rfl := Except.ok.inj hread
    rfl

end DiskManager

/-- The slots of the snapshot table lie between the inode table and the journal. -/
theorem mem_snapshotRange {k i : ℕ} (hk : k < maxSnapshotSlots) (hi : i ∈ snapshotRange k) :
  snapshotTableOffset ≤ i ∧ i < journalOffset
  := by
  have hjournal : journalOffset = snapshotTableOffset + 256 * 512 := rfl
  have hrecord : snapshotRecordSize = 512 := rfl
  have hslots : maxSnapshotSlots = 256 := rfl
  obtain ⟨hlo, hhi⟩ := hi
  rw [DiskManager.snapshotOffset, hrecord] at hlo hhi
  omega

/-- Different slots of the snapshot table do not meet. -/
theorem disjoint_snapshotRange {k k' : ℕ} (hne : k ≠ k') :
  Disjoint (snapshotRange k) (snapshotRange k')
  := by
  rw [Set.disjoint_left]
  rintro i ⟨hlo, hhi⟩ ⟨hlo', hhi'⟩
  have hrecord : snapshotRecordSize = 512 := rfl
  rw [DiskManager.snapshotOffset, hrecord] at hlo hhi hlo' hhi'
  omega

theorem disjoint_snapshotRange_metadataRange (k : ℕ) :
  Disjoint (snapshotRange k) metadataRange
  := by
  rw [Set.disjoint_left]
  intro i hi hlow
  have hlo : snapshotTableOffset + k * snapshotRecordSize ≤ i := hi.1
  have htable : inodeTableOffset ≤ snapshotTableOffset := by decide
  have hlow' : i < inodeTableOffset := hlow
  omega

/-- The slots of inodes lie behind the block of the superblock. -/
theorem disjoint_slotRange_metadataRange {table : InodeTable} (hplaced : table.Placed)
    (index : ℕ) :
  Disjoint (table.slotRange index) metadataRange
  := by
  rw [Set.disjoint_left]
  rintro i ⟨offset, hoffset, hlo, -⟩ hlow
  exact absurd ((hplaced.le_slot hoffset).trans hlo) (Nat.not_le.mpr hlow)

/-- The slots of inodes lie before or behind the snapshot table. -/
theorem disjoint_snapshotRange_slotRange {table : InodeTable} (hplaced : table.Placed) {k : ℕ}
    (hk : k < maxSnapshotSlots) (index : ℕ) :
  Disjoint (snapshotRange k) (table.slotRange index)
  := by
  rw [Set.disjoint_left]
  rintro i hi ⟨offset, hoffset, hlo, hhi⟩
  obtain ⟨hfirst, hlast⟩ := mem_snapshotRange hk hi
  have hbytes : inodeBytes = 256 := rfl
  have hdata : journalOffset ≤ dataOffset := by decide
  rw [hbytes] at hhi
  obtain hslot | hslot := hplaced.slot hoffset
  · omega
  · omega

end Vexfs
