import Vexfs.Fs.Atomicity

/-!
# Crashes in journaled writes

A formatted image is steady, and every call of `write_inode` and `write_file_data` keeps it
so.  A crash in a further call leaves an image that opens to the bytes from before or to
those from after the call.
-/

namespace Vexfs

open Bytes Storage

variable [Crc32]

/-! ### A formatted image -/

namespace DiskManager

/-- The image with a superblock and empty inode and snapshot tables. -/
def layoutImage (image : Image) (superblock : SuperblockRaw) : Image :=
  ((image.write ⟨superblockOffset, superblock.toBytes⟩).write
    ⟨inodeTableOffset, zeros (inodesPerBlock * inodeSize)⟩).write
    ⟨snapshotTableOffset, zeros (maxSnapshotSlots * snapshotRecordSize)⟩

theorem image_format (image : Image) (sizeBytes now : UInt64) :
  (format image sizeBytes now).image
    = (((layoutImage image (format image sizeBytes now).superblock).write
        (headerWrite JournalHeader.new)).writeAll (zeroSlots 512)).write
        ⟨inodeBlockDirOffset, (format image sizeBytes now).inodeTable.dirBytes⟩
  := by
  simp only [DiskManager.image, format, Journal.format, InodeTable.saveDirectory,
    File.image_write, File.image_append, File.image_ofImage]
  rfl

omit [Crc32] in
theorem slice_superblock_write {img : Image} {w : FileWrite} (h : 64 ≤ w.offset) :
  (img.write w).slice superblockOffset superblockBytes
    = img.slice superblockOffset superblockBytes
  := Image.slice_write_disjoint (Or.inr h)

omit [Crc32] in
theorem slice_superblock_writeAll {img : Image} {ws : List FileWrite}
    (h : ∀ w ∈ ws, 64 ≤ w.offset) :
  (img.writeAll ws).slice superblockOffset superblockBytes
    = img.slice superblockOffset superblockBytes
  := by
  induction ws generalizing img with
  | nil => rfl
  | cons w ws ih =>
      rw [Image.writeAll_cons, ih fun v hv => h v (List.mem_cons_of_mem w hv),
        slice_superblock_write (h w List.mem_cons_self)]

/-- The superblock of a formatted image is on the disk. -/
theorem slice_superblock_format (image : Image) (sizeBytes now : UInt64) :
  (format image sizeBytes now).image.slice superblockOffset superblockBytes
    = (format image sizeBytes now).superblock.toBytes
  := by
  have hslots : ∀ w ∈ zeroSlots 512, 64 ≤ w.offset := by
    intro w hw
    obtain ⟨i, -, rfl⟩ := mem_zeroSlots.mp hw
    have hjournal : journalOffset = 397312 := rfl
    simp only [slotWrite, slotOffset_eq]
    omega
  have hlayout : ∀ sb : SuperblockRaw,
      (layoutImage image sb).slice superblockOffset superblockBytes = sb.toBytes := by
    intro sb
    have hself := Image.slice_write_self image ⟨superblockOffset, sb.toBytes⟩
    rw [SuperblockRaw.length_toBytes] at hself
    have htable : 64 ≤ inodeTableOffset := by decide
    have hsnapshots : 64 ≤ snapshotTableOffset := by decide
    rw [layoutImage, slice_superblock_write hsnapshots, slice_superblock_write htable]
    exact hself
  have hdir : 64 ≤ inodeBlockDirOffset := by decide
  have hhead : 64 ≤ journalOffset := by decide
  rw [image_format, slice_superblock_write hdir, slice_superblock_writeAll hslots,
    slice_superblock_write hhead, hlayout]

omit [Crc32] in
theorem length_dirBytes (table : InodeTable) :
  table.dirBytes.length = 512
  := by
  simp [InodeTable.dirBytes, List.length_flatMap, List.map_const']

/-- Writing the directory keeps the journal. -/
theorem Tidy.write_dir {img : Image} {h : JournalHeader} {es : List JournalEntry}
    (table : InodeTable) (ht : Tidy img h es) :
  Tidy (img.write ⟨inodeBlockDirOffset, table.dirBytes⟩) h es
  := by
  apply ht.congr (Image.size_le_size_write _ _)
  intro i hlo _
  apply Image.byte_write_of_stop_le
  have hjournal : journalOffset = 397312 := rfl
  have hstop : FileWrite.stop ⟨inodeBlockDirOffset, table.dirBytes⟩ = 3584 + 512 := by
    rw [FileWrite.stop, length_dirBytes]
    rfl
  omega

/-- A formatted image is steady, with an empty journal. -/
theorem steady_format (image : Image) (sizeBytes now : UInt64) :
  Steady (format image sizeBytes now) []
  := by
  have htidy : Tidy (format image sizeBytes now).image JournalHeader.new [] := by
    rw [image_format]
    apply Tidy.write_dir
    apply tidy_zeroSlots rfl (slice_header_headerWrite _)
  constructor
  · constructor
    · apply htidy
    · rfl
    · simp
    · simp
    · apply Settled.nil
    · simp [replayed, Journal.toReplay]
    · simp [replayed, Journal.toReplay]
  · simp

end DiskManager

/-! ### Journaled calls -/

/-- The operations that are journaled. -/
inductive JournaledCall where
  | writeInode (index : Nat) (inode : InodeRaw)
  | writeFileData (offset : UInt64) (data : List UInt8)

namespace JournaledCall

/-- The call on a manager. -/
def run (dm : DiskManager) : JournaledCall → DiskResult Unit × DiskManager
  | writeInode index inode => dm.writeInode index inode
  | writeFileData offset data => dm.writeFileData offset data

/-- The bytes a call writes and where. -/
def target (dm : DiskManager) : JournaledCall → FileWrite
  | writeInode index inode =>
      ⟨((dm.inodeTable.inodeOffset index).getD 0).toNat, inode.toBytes⟩
  | writeFileData offset data => ⟨offset.toNat, data⟩

omit [Crc32] in
/-- A call for a slot of the inode table, or for a range of the data region whose positions
are those of a file. -/
def Allowed (dm : DiskManager) : JournaledCall → Prop
  | writeInode index _ => (dm.inodeTable.inodeOffset index).isSome
  | writeFileData offset data => dataOffset ≤ offset.toNat ∧ offset.toNat + data.length ≤ 2 ^ 63

end JournaledCall

/-- One journaled call that returns without an error. -/
def JournaledStep (dm dm' : DiskManager) : Prop :=
  ∃ c : JournaledCall, c.Allowed dm ∧ c.run dm = (.ok (), dm')

namespace DiskManager

variable {dm : DiskManager} {es : List JournalEntry}

omit [Crc32] in
/-- The entries of a data write that fits into the journal record it. -/
theorem loggable_data {offset : UInt64} {data : List UInt8} (hne : data ≠ [])
    (hlo : dataOffset ≤ offset.toNat) (hhi : offset.toNat + data.length ≤ 2 ^ 63)
    (hroom : es.length + (chunks journalPayloadSize data).length + 1 ≤ 512) :
  Loggable dm es (dm.dataEntries offset data) ⟨offset.toNat, data⟩
  := by
  have hflat : (chunks journalPayloadSize data).flatten = data := flatten_chunks (by decide) data
  have hpieces : ∀ c ∈ chunks journalPayloadSize data, c.length ≤ 490 :=
    fun c hc => length_le_of_mem_chunks hc
  have hmap : (dm.dataEntries offset data).map JournalEntry.write
      = writesFrom offset.toNat (chunks journalPayloadSize data) := by
    apply map_write_pieceEntries hpieces
    rw [hflat]
    omega
  have hbounds : ∀ e ∈ dm.dataEntries offset data, offset.toNat ≤ e.write.offset
      ∧ e.write.stop ≤ offset.toNat + (chunks journalPayloadSize data).flatten.length := by
    intro e he
    apply bounds_of_mem_writesFrom
    rw [← hmap]
    apply List.mem_map_of_mem he
  constructor
  · apply writeIn_pieceEntries hpieces
  · intro i
    rw [hmap, written_writesFrom, hflat]
  · intro e he
    rw [← hflat]
    apply (hbounds e he).2
  · intro e he
    have htable : inodeTableOffset ≤ dataOffset := by decide
    have hge := (hbounds e he).1
    omega
  · rw [dataEntries, length_pieceEntries]
    exact hroom
  · exact hne
  · right
    exact hlo

/-- The entry of an inode write records it. -/
theorem loggable_inode (dm : DiskManager) (es : List JournalEntry) (inode : InodeRaw)
    {offset : UInt64}
    (hlo : inodeTableOffset ≤ offset.toNat)
    (havoids : AvoidsJournal ⟨offset.toNat, inode.toBytes⟩) (hroom : es.length + 2 ≤ 512) :
  Loggable dm es (dm.inodeEntries offset inode) ⟨offset.toNat, inode.toBytes⟩
  := by
  have hlen : inode.toBytes.length ≤ 490 := by
    rw [InodeRaw.length_toBytes]
    decide
  have hwrite : (Journal.writeOf entryWriteInode dm.journal.header.nextTxId offset
      inode.toBytes).write = ⟨offset.toNat, inode.toBytes⟩ :=
    write_writeOf hlen
  constructor
  · intro e he
    rw [List.mem_singleton.mp he]
    apply writeIn_writeOf hlen (Or.inl rfl)
  · intro i
    rw [inodeEntries, List.map_singleton, hwrite, written_singleton]
  · intro e he
    rw [List.mem_singleton.mp he, hwrite]
  · intro e he
    rw [List.mem_singleton.mp he, hwrite]
    exact hlo
  · exact hroom
  · apply List.ne_nil_of_length_pos
    rw [InodeRaw.length_toBytes]
    decide
  · exact havoids

end DiskManager

/-! ### The place of the inode table -/

/-- The first block of the table lies at its fixed place, and the others in the data
region. -/
structure InodeTable.Placed (table : InodeTable) : Prop where
  first : table.firstBlock = UInt64.ofNat inodeTableOffset
  rest : ∀ i (hi : i < 64), 0 < i → table.blockOffsets[i] = 0
    ∨ dataOffset ≤ table.blockOffsets[i].toNat
      ∧ table.blockOffsets[i].toNat + inodeBlockSize ≤ 2 ^ 63

namespace InodeTable

omit [Crc32]

theorem placed_new (next : UInt64) :
  (InodeTable.new (UInt64.ofNat inodeTableOffset) next).Placed
  := by
  constructor
  · rfl
  · intro i hi hpos
    left
    simp only [InodeTable.new]
    rw [Vector.getElem_set_ne _ _ (Nat.ne_of_lt hpos), Vector.getElem_replicate]

/-- A slot that has an offset is one of an allocated block. -/
theorem inodeOffset_eq_some {table : InodeTable} {index : Nat} {offset : UInt64}
    (h : table.inodeOffset index = some offset) :
  ∃ hb : index / 1024 < 64, table.blockOffsets[index / 1024] ≠ 0
    ∧ offset = table.blockOffsets[index / 1024] + UInt64.ofNat (index % 1024 * 256)
  := by
  unfold inodeOffset at h
  dsimp only at h
  split at h
  · cases h
  · rename_i hne
    by_cases hb : index / 1024 < 64
    · have hbase : (table.blockOffsets[blockFor index]?).getD 0
          = table.blockOffsets[index / 1024] := by
        rw [blockFor, inodesPerBlock, Vector.getElem?_eq_getElem hb, Option.getD_some]
      rw [hbase] at hne h
      use hb, hne
      exact (Option.some.inj h).symm
    · have hbase : (table.blockOffsets[blockFor index]?).getD 0 = 0 := by
        rw [blockFor, inodesPerBlock, Vector.getElem?_eq_none (Nat.not_lt.mp hb),
          Option.getD_none]
      exact absurd hbase hne

theorem lt_maxFiles_of_inodeOffset {table : InodeTable} {index : Nat} {offset : UInt64}
    (h : table.inodeOffset index = some offset) :
  index < maxFiles
  := by
  obtain ⟨hb, -⟩ := inodeOffset_eq_some h
  have hmax : maxFiles = 65536 := rfl
  omega

/-- The slots lie in the inode table or in the data region. -/
theorem Placed.slot {table : InodeTable} {index : Nat} {offset : UInt64}
    (h : table.inodeOffset index = some offset) (hplaced : table.Placed) :
  inodeTableOffset ≤ offset.toNat ∧ offset.toNat + 256 ≤ snapshotTableOffset
    ∨ dataOffset ≤ offset.toNat ∧ offset.toNat + 256 ≤ 2 ^ 63
  := by
  obtain ⟨hb, hne, rfl⟩ := inodeOffset_eq_some h
  have hslot : index % 1024 < 1024 := Nat.mod_lt _ (by decide)
  have hofNat : (UInt64.ofNat (index % 1024 * 256)).toNat = index % 1024 * 256 := by
    apply UInt64.toNat_ofNat_of_lt'
    have hsize : UInt64.size = 2 ^ 64 := rfl
    omega
  have htable : inodeTableOffset = 4096 := rfl
  have hsnapshots : snapshotTableOffset = 266240 := rfl
  have hblock : inodeBlockSize = 262144 := rfl
  rw [UInt64.toNat_add, hofNat]
  obtain h0 | hpos := Nat.eq_zero_or_pos (index / 1024)
  · left
    have hfirst : table.blockOffsets[index / 1024] = UInt64.ofNat inodeTableOffset := by
      rw [← hplaced.first]
      congr 1
    have hbase : (UInt64.ofNat inodeTableOffset).toNat = 4096 := rfl
    rw [hfirst, hbase, Nat.mod_eq_of_lt (by omega)]
    omega
  · right
    obtain hzero | ⟨hlo, hhi⟩ := hplaced.rest _ hb hpos
    · exact absurd hzero hne
    · rw [Nat.mod_eq_of_lt (by omega)]
      omega

/-- The slots lie after the block of the superblock. -/
theorem Placed.le_slot {table : InodeTable} {index : Nat} {offset : UInt64}
    (h : table.inodeOffset index = some offset) (hplaced : table.Placed) :
  inodeTableOffset ≤ offset.toNat
  := by
  have htable : inodeTableOffset ≤ dataOffset := by decide
  obtain hslot | hslot := hplaced.slot h <;> omega

/-- An inode is not written to the journal. -/
theorem Placed.avoidsJournal [Crc32] {table : InodeTable} {index : Nat} {offset : UInt64}
    {inode : InodeRaw} (h : table.inodeOffset index = some offset) (hplaced : table.Placed) :
  AvoidsJournal ⟨offset.toNat, inode.toBytes⟩
  := by
  have hlen : inode.toBytes.length = 256 := inode.length_toBytes
  have hsnapshots : snapshotTableOffset ≤ journalOffset := by decide
  simp only [AvoidsJournal, FileWrite.stop, hlen]
  obtain hslot | hslot := hplaced.slot h <;> omega

end InodeTable

/-! ### Crashes -/

namespace JournaledCall

variable {dm : DiskManager} {es : List JournalEntry} {c : JournaledCall}

/-- At rest an image recovers to itself. -/
theorem atomic_refl (w : FileWrite) (hs : Logged dm es) :
  Atomic dm.image w dm.image
  := by
  constructor
  · left
    apply hs.recovers (Set.eqOn_refl _ _)
  · intro i _ _
    rfl

/-- A call that returns without an error keeps the manager steady and makes its write. -/
theorem steady_run (hallowed : c.Allowed dm) (hplaced : dm.inodeTable.Placed)
    (hok : (c.run dm).1 = .ok ()) (hs : Steady dm es) :
  (∃ es', Steady (c.run dm).2 es')
    ∧ Set.EqOn (c.run dm).2.image.byte (dm.image.write (c.target dm)).byte outsideJournal
  := by
  have hroom := hs.room
  have hnext := hs.nextSlot_eq
  cases c with
  | writeInode index inode =>
      obtain ⟨offset, hoffset⟩ := Option.isSome_iff_exists.mp hallowed
      have hrun := dm.writeInode_ok inode
        (InodeTable.lt_maxFiles_of_inodeOffset hoffset) hoffset (by omega)
      have hl := DiskManager.loggable_inode dm es inode
        (hplaced.le_slot hoffset) (hplaced.avoidsJournal hoffset) (by omega)
      obtain ⟨hsteady, hout, -⟩ := hs.transaction hl
      simp only [run, hrun, target, hoffset, Option.getD_some]
      exact ⟨hsteady, hout⟩
  | writeFileData offset data =>
      obtain ⟨hlo, hhi⟩ := hallowed
      by_cases hne : data = []
      · subst hne
        have hrun : dm.writeFileData offset [] = (.ok (), dm) := by
          simp [DiskManager.writeFileData]
        simp only [run, hrun]
        refine ⟨⟨es, hs⟩, ?_⟩
        intro i _
        rw [Image.byte_write, target, FileWrite.byteAt_nil, Option.getD_none]
      · by_cases hfull : dm.journal.nextSlot + (chunks journalPayloadSize data).length + 1 ≤ 512
        · have hrun := dm.writeFileData_ok offset hne hfull
          rw [hnext] at hfull
          have hl : Loggable dm es _ _ := DiskManager.loggable_data hne hlo hhi hfull
          obtain ⟨hsteady, hout, -⟩ := hs.transaction hl
          simp only [run, hrun, target]
          exact ⟨hsteady, hout⟩
        · obtain ⟨e, hrun⟩ := dm.writeFileData_full offset hfull (by omega)
          simp only [run, hrun] at hok
          cases hok

/-- At each file write of a call, whatever it returns, the image recovers to the bytes from
before or from after the write of the call. -/
theorem through_run (hallowed : c.Allowed dm) (hplaced : dm.inodeTable.Placed)
    (hs : Steady dm es) :
  File.Through (Atomic dm.image (c.target dm)) dm.file (c.run dm).2.file
  := by
  have hroom := hs.room
  have hnext := hs.nextSlot_eq
  have hrefl := atomic_refl (c.target dm) hs.toLogged
  cases c with
  | writeInode index inode =>
      obtain ⟨offset, hoffset⟩ := Option.isSome_iff_exists.mp hallowed
      have hrun := dm.writeInode_ok inode
        (InodeTable.lt_maxFiles_of_inodeOffset hoffset) hoffset (by omega)
      have hl := DiskManager.loggable_inode dm es inode
        (hplaced.le_slot hoffset) (hplaced.avoidsJournal hoffset) (by omega)
      simp only [run, hrun, target, hoffset, Option.getD_some]
      apply (hs.transaction hl).2.2
  | writeFileData offset data =>
      obtain ⟨hlo, hhi⟩ := hallowed
      by_cases hne : data = []
      · subst hne
        have hrun : dm.writeFileData offset [] = (.ok (), dm) := by
          simp [DiskManager.writeFileData]
        simp only [run, hrun]
        apply File.Through.refl hrefl
      · by_cases hfull : dm.journal.nextSlot + (chunks journalPayloadSize data).length + 1 ≤ 512
        · have hrun := dm.writeFileData_ok offset hne hfull
          rw [hnext] at hfull
          have hl : Loggable dm es _ _ := DiskManager.loggable_data hne hlo hhi hfull
          simp only [run, hrun, target]
          apply (hs.transaction hl).2.2
        · obtain ⟨e, hrun⟩ := dm.writeFileData_full offset hfull (by omega)
          simp only [run, hrun]
          apply File.Through.refl hrefl

/-- A call changes the journal and the file of a manager alone. -/
theorem run_frame (c : JournaledCall) (dm : DiskManager) :
  ∃ journal file, (c.run dm).2 = { dm with journal, file }
  := by
  cases c with
  | writeInode index inode => apply dm.writeInode_frame
  | writeFileData offset data => apply dm.writeFileData_frame

omit [Crc32] in
/-- A call writes after the block of the superblock. -/
theorem inodeTableOffset_le_target [Crc32] (hallowed : c.Allowed dm)
    (hplaced : dm.inodeTable.Placed) :
  inodeTableOffset ≤ (c.target dm).offset
  := by
  have htable : inodeTableOffset ≤ dataOffset := by decide
  cases c with
  | writeInode index inode =>
      obtain ⟨offset, hoffset⟩ := Option.isSome_iff_exists.mp hallowed
      simp only [target, hoffset, Option.getD_some]
      apply hplaced.le_slot hoffset
  | writeFileData offset data =>
      obtain ⟨hlo, -⟩ := hallowed
      simp only [target]
      omega

/-- A call writes outside the journal. -/
theorem target_outsideJournal (hallowed : c.Allowed dm) (hplaced : dm.inodeTable.Placed) :
  ∀ i, (c.target dm).offset ≤ i → i < (c.target dm).offset + (c.target dm).data.length →
    i ∈ outsideJournal
  := by
  intro i hi hhi
  cases c with
  | writeInode index inode =>
      obtain ⟨offset, hoffset⟩ := Option.isSome_iff_exists.mp hallowed
      have hlen : inode.toBytes.length = 256 := inode.length_toBytes
      have hsnapshots : snapshotTableOffset ≤ journalOffset := by decide
      simp only [target, hoffset, Option.getD_some, hlen] at hi hhi
      obtain hslot | hslot := hplaced.slot hoffset
      · left
        omega
      · right
        omega
  | writeFileData offset data =>
      right
      apply Nat.le_trans hallowed.1 hi

end JournaledCall

/-- The superblock of the manager is on the disk. -/
structure SuperblockSaved (dm : DiskManager) (img : Image) : Prop where
  slice_eq : img.slice superblockOffset superblockBytes = dm.superblock.toBytes
  magic_eq : dm.superblock.magic = magic

theorem SuperblockSaved.congr {dm : DiskManager} {img img' : Image}
    (heq : ∀ i < 64, img'.byte i = img.byte i) (h : SuperblockSaved dm img) :
  SuperblockSaved dm img'
  := by
  constructor
  · rw [← h.slice_eq]
    apply Image.slice_congr
    intro i _ hi
    apply heq i
    simpa [superblockOffset, superblockBytes] using hi
  · apply h.magic_eq

/-- An image a crash leaves in a journaled call still holds the superblock. -/
theorem SuperblockSaved.atomic {dm : DiskManager} {c : JournaledCall} {img : Image}
    (hallowed : c.Allowed dm) (hplaced : dm.inodeTable.Placed)
    (hatomic : Atomic dm.image (c.target dm) img) (h : SuperblockSaved dm dm.image) :
  SuperblockSaved dm img
  := by
  have hlo := c.inodeTableOffset_le_target hallowed hplaced
  have htable : inodeTableOffset = 4096 := rfl
  have hjournal : journalOffset = 397312 := rfl
  apply h.congr
  intro i hi
  apply hatomic.2 i
  · left
    omega
  · apply FileWrite.byteAt_eq_none.mpr
    left
    omega

/-- What holds of a manager after journaled calls. -/
structure Intact (dm : DiskManager) : Prop where
  steady : ∃ es, Steady dm es
  placed : dm.inodeTable.Placed
  superblock : SuperblockSaved dm dm.image

theorem intact_format (image : Image) (sizeBytes now : UInt64) :
  Intact (DiskManager.format image sizeBytes now)
  := by
  constructor
  · exact ⟨[], DiskManager.steady_format image sizeBytes now⟩
  · apply InodeTable.placed_new
  · use DiskManager.slice_superblock_format image sizeBytes now
    rfl

/-- A journaled call keeps the manager intact. -/
theorem Intact.step {dm dm' : DiskManager} (hstep : JournaledStep dm dm') (h : Intact dm) :
  Intact dm'
  := by
  obtain ⟨c, hallowed, hrun⟩ := hstep
  obtain ⟨es, hs⟩ := h.steady
  obtain rfl : (c.run dm).2 = dm' := by rw [hrun]
  have hthrough := JournaledCall.through_run hallowed h.placed hs
  have hsb := h.superblock.atomic hallowed h.placed hthrough.last
  have hsteady := (JournaledCall.steady_run hallowed h.placed (by rw [hrun]) hs).1
  obtain ⟨journal, file, hframe⟩ := c.run_frame dm
  rw [hframe] at hsteady hsb ⊢
  exact ⟨hsteady, h.placed, ⟨hsb.slice_eq, hsb.magic_eq⟩⟩

theorem intact_of_run {image : Image} {sizeBytes now : UInt64} {dm : DiskManager}
    (h : Relation.ReflTransGen JournaledStep (DiskManager.format image sizeBytes now) dm) :
  Intact dm
  := by
  induction h with
  | refl => apply intact_format
  | tail _ hstep ih => apply ih.step hstep

/-- After journaled calls that returned without an error, a crash at any file write of a
further call leaves an image that opens; the range of the call then holds the bytes from
before or the new ones, and every other byte outside the journal is what it was. -/
theorem crash_atomic (image : Image) (sizeBytes now : UInt64) (dm : DiskManager)
    (hreach : Relation.ReflTransGen JournaledStep (DiskManager.format image sizeBytes now) dm)
    (c : JournaledCall) (hallowed : c.Allowed dm) (img : Image)
    (hcrash : File.Crash dm.file (c.run dm).2.file img) :
  ∃ dm', DiskManager.open img = .ok dm'
    ∧ (dm'.image.slice (c.target dm).offset (c.target dm).data.length
          = dm.image.slice (c.target dm).offset (c.target dm).data.length
        ∨ dm'.image.slice (c.target dm).offset (c.target dm).data.length = (c.target dm).data)
    ∧ ∀ i ∈ outsideJournal, (i < (c.target dm).offset ∨ (c.target dm).stop ≤ i) →
        dm'.image.byte i = dm.image.byte i
  := by
  obtain ⟨⟨es, hs⟩, hplaced, hsaved⟩ := intact_of_run hreach
  have hatomic := (JournaledCall.through_run hallowed hplaced hs).crash hcrash
  have hsb := hsaved.atomic hallowed hplaced hatomic
  have havoids := c.target_outsideJournal hallowed hplaced
  obtain ⟨hold | hnew, -⟩ := hatomic
  · obtain ⟨dm', hopen, hbytes, -⟩ := hold.open hsb.slice_eq hsb.magic_eq
    use dm', hopen
    constructor
    · left
      apply Image.slice_congr
      intro i hlo hhi
      apply hbytes (havoids i hlo hhi)
    · intro i hi _
      apply hbytes hi
  · obtain ⟨dm', hopen, hbytes, -⟩ := hnew.open hsb.slice_eq hsb.magic_eq
    use dm', hopen
    constructor
    · right
      apply Eq.trans _ (Image.slice_write_self dm.image (c.target dm))
      apply Image.slice_congr
      intro i hlo hhi
      apply hbytes (havoids i hlo hhi)
    · intro i hi hout
      rw [hbytes hi, Image.byte_write, FileWrite.byteAt_eq_none.mpr hout, Option.getD_none]

omit [Crc32] in
/-- A crash at the end of a data write of one byte to a formatted image. -/
theorem crash_atomic_one_byte :
  let _ := Crc32.ieee
  let dm := DiskManager.format Image.empty 0 0
  let c := JournaledCall.writeFileData (UInt64.ofNat dataOffset) [7]
  ∃ dm', DiskManager.open (c.run dm).2.image = .ok dm'
    ∧ (dm'.image.slice (c.target dm).offset (c.target dm).data.length
          = dm.image.slice (c.target dm).offset (c.target dm).data.length
        ∨ dm'.image.slice (c.target dm).offset (c.target dm).data.length = (c.target dm).data)
    ∧ ∀ i ∈ outsideJournal, (i < (c.target dm).offset ∨ (c.target dm).stop ≤ i) →
        dm'.image.byte i = dm.image.byte i
  := by
  intro _ dm c
  have hallowed : c.Allowed dm := ⟨Nat.le_refl _, by decide⟩
  have hintact := intact_format Image.empty 0 0
  obtain ⟨es, hs⟩ := hintact.steady
  have hthrough := JournaledCall.through_run hallowed hintact.placed hs
  apply crash_atomic Image.empty 0 0 dm Relation.ReflTransGen.refl c hallowed
  apply File.Crash.last hthrough.extended

end Vexfs
