import Vexfs.Fs.Capacity
import Vexfs.Fs.Slots

/-!
# Metadata that is saved and loaded

Closing saves the superblock, the free list and the directory of the inode blocks in the
first 4096 bytes of the image, in this order.  The free list starts at byte 512, its extents
at byte 544, and the directory at byte 3584, so the extents from the 191st on lie where the
directory is written after them.  Opening gives the metadata back exactly when the bytes of
these extents are those of the directory.
-/

namespace Vexfs

open Bytes Storage

/-! ### Extents as bytes -/

theorem u64ToLe_leToU64 {b : List UInt8} (h : b.length = 8) :
  u64ToLe (leToU64 b) = b
  := by
  have hlt := leValue_lt b
  rw [h] at hlt
  have hvalue : (leToU64 b).toNat = leValue b := UInt64.toNat_ofNat_of_lt' hlt
  rw [u64ToLe, hvalue, ← h, leBytes_leValue]

namespace FreeExtent

/-- Encoding what was decoded from 16 bytes gives them back. -/
theorem toBytes_fromBytes {b : List UInt8} (h : b.length = freeExtentSize) :
  (fromBytes b).toBytes = b
  := by
  have hlen : b.length = 16 := h
  have hhead : (field b 0 8).length = 8 := length_field (by omega)
  have htail : (field b 8 16).length = 8 := length_field (by omega)
  rw [toBytes, fromBytes, u64ToLe_leToU64 hhead, u64ToLe_leToU64 htail, field, field,
    List.drop_zero, List.take_of_length_le (Nat.le_of_eq hlen), List.take_append_drop]

end FreeExtent

/-- Every piece of a list whose length is a multiple of `n` has length `n`. -/
theorem length_eq_of_mem_chunks {α : Type} {n k : ℕ} (hn : 0 < n) {l c : List α}
    (hlen : l.length = k * n) (h : c ∈ chunks n l) :
  c.length = n
  := by
  induction k generalizing l with
  | zero =>
      rw [Nat.zero_mul] at hlen
      rw [List.length_eq_zero_iff.mp hlen, chunks_nil] at h
      cases h
  | succ k ih =>
      rw [Nat.add_mul, Nat.one_mul] at hlen
      have hne : l ≠ [] := List.ne_nil_of_length_pos (by omega)
      rw [chunks_of_ne_nil hn hne] at h
      obtain rfl | h := List.mem_cons.mp h
      · rw [List.length_take]
        omega
      · apply ih _ h
        rw [List.length_drop]
        omega

/-- Pieces of equal length come apart again. -/
theorem chunks_flatMap {α β : Type} {n : ℕ} (hn : 0 < n) {f : α → List β}
    (hf : ∀ a, (f a).length = n) (l : List α) :
  chunks n (l.flatMap f) = l.map f
  := by
  induction l with
  | nil => exact chunks_nil n
  | cons a l ih =>
      have hne : f a ++ l.flatMap f ≠ [] := by
        apply List.ne_nil_of_length_pos
        rw [List.length_append, hf a]
        omega
      rw [List.flatMap_cons, chunks_of_ne_nil hn hne, List.take_left' (hf a),
        List.drop_left' (hf a), ih, List.map_cons]

/-- Extents read from bytes are those whose bytes they are. -/
theorem map_fromBytes_eq_iff {b : List UInt8} {extents : List FreeExtent}
    (hlen : b.length = extents.length * freeExtentSize) :
  (chunks freeExtentSize b).map FreeExtent.fromBytes = extents
    ↔ b = extents.flatMap FreeExtent.toBytes
  := by
  have hpos : 0 < freeExtentSize := by decide
  constructor
  · rintro rfl
    have hself : (chunks freeExtentSize b).map (FreeExtent.toBytes ∘ FreeExtent.fromBytes)
        = chunks freeExtentSize b := by
      apply Eq.trans _ (List.map_id _)
      apply List.map_congr_left
      intro c hc
      exact FreeExtent.toBytes_fromBytes (length_eq_of_mem_chunks hpos hlen hc)
    rw [List.flatMap_def, List.map_map, hself, flatten_chunks hpos]
  · rintro rfl
    rw [chunks_flatMap hpos FreeExtent.length_toBytes, List.map_map]
    apply List.map_id''
    exact FreeExtent.fromBytes_toBytes

/-! ### Loading a free list -/

namespace FreeList

theorem savedCount_of_le {fl : FreeList} (h : fl.extents.length ≤ maxPersistedExtents) :
  fl.savedCount = fl.extents.length
  := Nat.min_eq_left h

theorem extentsBytes_of_le {fl : FreeList} (h : fl.extents.length ≤ maxPersistedExtents) :
  fl.extentsBytes = fl.extents.flatMap FreeExtent.toBytes
  := by
  rw [extentsBytes, savedCount_of_le h, List.take_length]

theorem length_extentsBytes (fl : FreeList) :
  fl.extentsBytes.length = fl.savedCount * freeExtentSize
  := by
  simp [extentsBytes, List.length_flatMap, List.map_const', freeExtentSize, savedCount]

variable [Crc32]

theorem length_headerBytes (fl : FreeList) :
  fl.headerBytes.length = freeListHeader
  := by
  simp [headerBytes, headerHead, freeListHeader]

/-- Loading a saved header with any bytes in the place of the extents. -/
theorem load_eq {fl : FreeList} {file : File}
    (hsize : freeListOffset + freeListHeader + fl.savedCount * freeExtentSize ≤ file.image.size)
    (hheader : file.image.slice freeListOffset freeListHeader = fl.headerBytes) :
  load file
    = .ok (match verifyCrc32 (fl.headerHead ++ file.image.slice (freeListOffset + freeListHeader)
          (fl.savedCount * freeExtentSize)) (crc32 (fl.headerHead ++ fl.extentsBytes)) with
      | .error _ => new
      | .ok _ => ⟨(chunks freeExtentSize (file.image.slice (freeListOffset + freeListHeader)
          (fl.savedCount * freeExtentSize))).map FreeExtent.fromBytes⟩)
  := by
  have hhead : fl.headerHead.length = 12 := by simp [headerHead]
  have htake : fl.headerBytes.take 12 = fl.headerHead := by
    rw [headerBytes, List.take_left' hhead]
  have hcrc : field fl.headerBytes 12 16 = u32ToLe (crc32 (fl.headerHead ++ fl.extentsBytes)) := by
    rw [headerBytes, field_append_right (Nat.le_of_eq hhead), hhead]
    exact field_head (length_u32ToLe _)
  have hmagic : field fl.headerBytes 0 8 = u64ToLe freeListMagic := by
    rw [headerBytes, headerHead, List.append_assoc]
    exact field_head (length_u64ToLe _)
  have hcount : field fl.headerBytes 8 12 = u32ToLe (UInt32.ofNat fl.savedCount) := by
    rw [headerBytes, headerHead, List.append_assoc,
      field_append_right (Nat.le_of_eq (length_u64ToLe _)), length_u64ToLe]
    exact field_head (length_u32ToLe _)
  have hle : fl.savedCount ≤ maxPersistedExtents := Nat.min_le_right _ _
  have hnat : (UInt32.ofNat fl.savedCount).toNat = fl.savedCount :=
    UInt32.toNat_ofNat_of_lt' (Nat.lt_of_le_of_lt hle (by decide))
  have hread : readBytes file freeListOffset freeListHeader = .ok fl.headerBytes := by
    rw [← hheader]
    apply readBytes_of_le
    omega
  unfold load
  simp only [hread, bind, Except.bind, hmagic, hcount, hcrc, htake, leToU64_u64ToLe,
    leToU32_u32ToLe, hnat, ne_eq, not_true_eq_false, if_false, if_neg (Nat.not_lt.mpr hle),
    readBytes_of_le hsize]
  generalize verifyCrc32 _ _ = verified
  cases verified <;> rfl

/-- A saved free list is loaded again exactly when the bytes of its extents are still
there. -/
theorem load_eq_iff {fl : FreeList} {file : File}
    (hcount : fl.extents.length ≤ maxPersistedExtents)
    (hsize : freeListOffset + freeListHeader + fl.savedCount * freeExtentSize ≤ file.image.size)
    (hheader : file.image.slice freeListOffset freeListHeader = fl.headerBytes) :
  load file = .ok fl ↔ file.image.slice (freeListOffset + freeListHeader)
    (fl.savedCount * freeExtentSize) = fl.extentsBytes
  := by
  rw [load_eq hsize hheader]
  generalize hbytes : file.image.slice (freeListOffset + freeListHeader)
    (fl.savedCount * freeExtentSize) = b
  have hlen : b.length = fl.extents.length * freeExtentSize := by
    rw [← hbytes, Image.length_slice, savedCount_of_le hcount]
  rw [extentsBytes_of_le hcount, ← map_fromBytes_eq_iff hlen]
  constructor
  · intro h
    have h := Except.ok.inj h
    split at h
    · -- Nothing is loaded: then the list was empty, and there are no bytes.
      rw [← h] at hlen ⊢
      rw [List.length_eq_zero_iff.mp (hlen.trans (Nat.zero_mul _)), chunks_nil]
      rfl
    · rw [← h]
  · intro h
    have hb := (map_fromBytes_eq_iff hlen).mp h
    have hok : verifyCrc32 (fl.headerHead ++ b)
        (crc32 (fl.headerHead ++ fl.extents.flatMap FreeExtent.toBytes)) = .ok () := by
      rw [hb, verifyCrc32_crc32]
    rw [hok]
    dsimp only
    rw [h]

end FreeList

/-! ### Round trips -/

section RoundTrips

variable [Crc32]

/-- A free list that was saved to a file is loaded again. -/
theorem FreeList.load_saved {fl : FreeList} (hcount : fl.extents.length ≤ maxPersistedExtents)
    (file : File) :
  load (fl.save file) = .ok fl
  := by
  have hheader := fl.length_headerBytes
  have hextents := fl.length_extentsBytes
  have himage : (fl.save file).image = (file.image.write ⟨freeListOffset, fl.headerBytes⟩).write
      ⟨freeListOffset + freeListHeader, fl.extentsBytes⟩ := by
    rw [save, File.image_write, File.image_write]
  have hfirst : freeListOffset + freeListHeader
      ≤ (file.image.write ⟨freeListOffset, fl.headerBytes⟩).size := by
    have hne : fl.headerBytes ≠ [] := List.ne_nil_of_length_pos (by rw [hheader]; decide)
    have hstop : (FileWrite.mk freeListOffset fl.headerBytes).stop
        ≤ (file.image.write ⟨freeListOffset, fl.headerBytes⟩).size :=
      Image.stop_le_size_write hne
    rwa [FileWrite.stop, hheader] at hstop
  have hsize : freeListOffset + freeListHeader + fl.savedCount * freeExtentSize
      ≤ (fl.save file).image.size := by
    rw [himage, ← hextents]
    by_cases hnil : fl.extentsBytes = []
    · rw [hnil, List.length_nil, Nat.add_zero]
      exact hfirst.trans (Image.size_le_size_write _ _)
    · exact Image.stop_le_size_write (w := ⟨freeListOffset + freeListHeader, fl.extentsBytes⟩)
        hnil
  apply (load_eq_iff hcount hsize _).mpr
  · rw [himage, ← hextents]
    exact Image.slice_write_self _ ⟨freeListOffset + freeListHeader, fl.extentsBytes⟩
  · rw [himage, ← hheader]
    rw [Image.slice_write_disjoint (Or.inr (by rw [hheader]))]
    exact Image.slice_write_self _ ⟨freeListOffset, fl.headerBytes⟩

/-- Decoding the bytes of a record gives the record back, whatever its fields are, for a
superblock with the checksum computed; and a free list that was saved is loaded again. -/
theorem records_round_trip :
  (∀ sb : SuperblockRaw,
      SuperblockRaw.fromBytes sb.toBytes = .ok { sb with crc32 := crc32 sb.body })
    ∧ (∀ inode : InodeRaw, InodeRaw.fromBytes inode.toBytes = .ok inode)
    ∧ (∀ snap : SnapshotRaw, SnapshotRaw.fromBytes snap.toBytes = .ok snap)
    ∧ (∀ h : JournalHeader, JournalHeader.fromBytes h.toBytes = .ok h)
    ∧ (∀ e : JournalEntry, JournalEntry.fromBytes e.toBytes = .ok e)
    ∧ (∀ e : FreeExtent, FreeExtent.fromBytes e.toBytes = e)
    ∧ ∀ (fl : FreeList) (file : File), fl.extents.length ≤ maxPersistedExtents →
      FreeList.load (fl.save file) = .ok fl
  := ⟨SuperblockRaw.fromBytes_toBytes, InodeRaw.fromBytes_toBytes, SnapshotRaw.fromBytes_toBytes,
    JournalHeader.fromBytes_toBytes, JournalEntry.fromBytes_toBytes,
    FreeExtent.fromBytes_toBytes, fun _ file hcount => FreeList.load_saved hcount file⟩

omit [Crc32] in
/-- A free list of two extents is saved to an empty file and loaded again. -/
theorem records_round_trip_two_extents :
  let _ := Crc32.ieee
  let fl : FreeList := ⟨[⟨1000000, 512⟩, ⟨2000000, 1024⟩]⟩
  FreeList.load (fl.save (File.ofImage Image.empty)) = .ok fl
  := by
  intro _ fl
  obtain ⟨-, -, -, -, -, -, hload⟩ := records_round_trip
  exact hload fl (File.ofImage Image.empty) (by decide)

end RoundTrips

/-! ### The first 4096 bytes -/

namespace DiskManager

/-- The number of bytes between the start of the extents and the directory. -/
def extentsRoom : ℕ := inodeBlockDirOffset - (freeListOffset + freeListHeader)

variable [Crc32] {dm : DiskManager}

/-- The first part of the extents is on the disk after flushing, and then the directory. -/
theorem byte_flush_extents {k : ℕ} (hk : k < dm.freeList.extentsBytes.length) :
  dm.flush.image.byte (freeListOffset + freeListHeader + k)
    = if k < extentsRoom then dm.freeList.extentsBytes[k]
      else (dm.directoryWrite.byteAt (freeListOffset + freeListHeader + k)).getD 0
  := by
  have hroom : extentsRoom = 3040 := rfl
  have hdir : dm.directoryWrite.offset = 3584 := rfl
  have hstop := dm.stop_directoryWrite
  have hext := dm.stop_freeListExtentsWrite
  have hlt : freeListOffset + freeListHeader + k < dm.freeListExtentsWrite.stop :=
    Nat.add_lt_add_left hk _
  have hbase : freeListOffset + freeListHeader = 544 := rfl
  rw [flush_eq, image_write, Image.byte_write]
  split
  · have hnone : dm.directoryWrite.byteAt (freeListOffset + freeListHeader + k) = none := by
      apply FileWrite.byteAt_eq_none.mpr
      left
      omega
    have hself : dm.freeListExtentsWrite.byteAt (freeListOffset + freeListHeader + k)
        = some dm.freeList.extentsBytes[k] :=
      FileWrite.byteAt_add hk
    rw [hnone, Option.getD_none, image_write, Image.byte_write, hself, Option.getD_some]
  · have hsome : (dm.directoryWrite.byteAt (freeListOffset + freeListHeader + k)).isSome := by
      apply FileWrite.byteAt_isSome.mpr
      omega
    obtain ⟨b, hb⟩ := Option.isSome_iff_exists.mp hsome
    rw [hb, Option.getD_some, Option.getD_some]

/-- The extents are on the disk after flushing when those that lie behind the start of the
directory have its bytes. -/
theorem slice_extents_flush_iff :
  dm.flush.image.slice (freeListOffset + freeListHeader)
      (dm.freeList.savedCount * freeExtentSize) = dm.freeList.extentsBytes
    ↔ dm.freeList.extentsBytes.drop extentsRoom <+: dm.inodeTable.dirBytes
  := by
  have hroom : extentsRoom = 3040 := rfl
  have hbase : freeListOffset + freeListHeader = 544 := rfl
  have hdir : dm.directoryWrite.offset = 3584 := rfl
  have hstop := dm.stop_directoryWrite
  have hext := dm.stop_freeListExtentsWrite
  have hlen : dm.inodeTable.dirBytes.length = 512 := length_dirBytes _
  have hend : dm.freeListExtentsWrite.stop = 544 + dm.freeList.extentsBytes.length := rfl
  rw [Image.slice_eq_iff dm.freeList.length_extentsBytes, List.prefix_iff_getElem?]
  have hdirbyte : ∀ j (hj : j < 512), dm.directoryWrite.byteAt (544 + (extentsRoom + j))
      = some (dm.inodeTable.dirBytes[j]) := by
    intro j hj
    have hsame : 544 + (extentsRoom + j) = dm.directoryWrite.offset + j := by omega
    rw [hsame]
    exact FileWrite.byteAt_add (show j < dm.inodeTable.dirBytes.length by omega)
  constructor
  · intro h j hj
    rw [List.length_drop] at hj
    have hbyte := h (extentsRoom + j) (by omega)
    rw [byte_flush_extents (by omega), if_neg (by omega), hbase, hdirbyte j (by omega),
      Option.getD_some] at hbyte
    rw [List.getElem?_eq_getElem (by omega), hbyte, List.getElem_drop]
  · intro h k hk
    rw [byte_flush_extents hk]
    split
    · rfl
    · obtain ⟨j, rfl⟩ : ∃ j, k = extentsRoom + j := ⟨k - extentsRoom, by omega⟩
      have hj : j < (dm.freeList.extentsBytes.drop extentsRoom).length := by
        rw [List.length_drop]
        omega
      have hbyte := h j hj
      rw [List.getElem?_eq_getElem (by omega), List.getElem_drop] at hbyte
      rw [hbase, hdirbyte j (by omega), Option.getD_some, Option.some.inj hbyte]

/-- The header of the free list is on the disk after flushing. -/
theorem slice_freeListHeader_flush :
  dm.flush.image.slice freeListOffset freeListHeader = dm.freeList.headerBytes
  := by
  have hself := fun img => Image.slice_write_self img dm.freeListHeaderWrite
  simp only [freeListHeaderWrite, FreeList.length_headerBytes] at hself
  have hlow : freeListOffset + freeListHeader ≤ inodeBlockDirOffset := by decide
  rw [flush_eq, image_write, image_write, image_write,
    Image.slice_write_disjoint (Or.inr hlow),
    Image.slice_write_disjoint (Or.inr (Nat.le_refl _))]
  apply hself

end DiskManager

/-! ### Opening what was flushed -/

section Opening

variable [Crc32]

/-- The journal of a manager can be read and has nothing to replay over the first 4096
bytes, and the first inode block is at its place. -/
structure DiskManager.Openable (dm : DiskManager) : Prop where
  journal : ∃ h es, Readable dm.image h es ∧ (∀ e ∈ es, e.Fits)
    ∧ ∀ w ∈ replayed es, inodeTableOffset ≤ w.offset
  first : dm.inodeTable.firstBlock = UInt64.ofNat inodeTableOffset

/-- `dm'` has the superblock, up to its checksum, the free extents and the inode blocks of
`dm`. -/
structure SameMetadata (dm dm' : DiskManager) : Prop where
  superblock : { dm'.superblock with crc32 := dm.superblock.crc32 } = dm.superblock
  freeList : dm'.freeList = dm.freeList
  blocks : dm'.inodeTable.blockOffsets = dm.inodeTable.blockOffsets

omit [Crc32] in
/-- Replaying writes to the rest of the image leaves the first 4096 bytes. -/
theorem byte_writeAll_low {img : Image} {ws : List FileWrite}
    (h : ∀ w ∈ ws, inodeTableOffset ≤ w.offset) {i : ℕ} (hi : i < inodeTableOffset) :
  (img.writeAll ws).byte i = img.byte i
  := by
  have hnone : written ws i = none := by
    apply written_eq_none.mpr
    intro w hw
    apply FileWrite.byteAt_eq_none.mpr
    left
    exact Nat.lt_of_lt_of_le hi (h w hw)
  rw [Image.byte_writeAll, hnone, Option.getD_none]

/-- The free list that is loaded is `fl` when loading gives `fl`. -/
theorem FreeList.ofFile_eq_iff {fl fl' : FreeList} {file : File} (h : load file = .ok fl') :
  ofFile file = fl ↔ load file = .ok fl
  := by
  rw [ofFile, h]
  constructor
  · exact congrArg Except.ok
  · exact Except.ok.inj

/-- A flushed image opens, and the metadata is that of the first 4096 bytes as they were
flushed. -/
theorem DiskManager.Openable.open_flush {dm : DiskManager} (hmagic : dm.superblock.magic = magic)
    (hcount : dm.freeList.extents.length ≤ maxPersistedExtents) (h : dm.Openable) :
  ∃ dm', DiskManager.open dm.flush.image = .ok dm'
    ∧ dm'.superblock = { dm.superblock with crc32 := crc32 dm.superblock.body }
    ∧ dm'.inodeTable.blockOffsets = dm.inodeTable.blockOffsets
    ∧ (dm'.freeList = dm.freeList
      ↔ dm.freeList.extentsBytes.drop extentsRoom <+: dm.inodeTable.dirBytes)
  := by
  obtain ⟨⟨hd, es, hr, hfits, hoffset⟩, hfirst⟩ := h
  have hjournal : inodeTableOffset ≤ journalOffset := by decide
  have hdata : inodeTableOffset ≤ dataOffset := by decide
  have hflush : Readable dm.flush.image hd es := by
    apply hr.congr dm.size_le_flush
    intro i hlo _
    exact dm.byte_flush (Nat.le_trans hjournal hlo)
  have hopen := open_of_readable hflush hfits dm.slice_superblock_flush hmagic
  have hsize : inodeTableOffset ≤ (recoveredFile dm.flush.image hd es).image.size :=
    Nat.le_trans hdata (Nat.le_trans hflush.size_le (size_le_recoveredFile _ _ _))
  have hslice : ∀ o n, o + n ≤ inodeTableOffset →
      (recoveredFile dm.flush.image hd es).image.slice o n = dm.flush.image.slice o n := by
    intro o n hn
    apply Image.slice_congr
    intro i _ hi
    have hlow : i < inodeTableOffset := Nat.lt_of_lt_of_le hi hn
    rw [byte_recoveredFile _ _ _ (Or.inl (Nat.lt_of_lt_of_le hlow hjournal))]
    exact byte_writeAll_low hoffset hlow
  have hext : freeListOffset + freeListHeader + dm.freeList.savedCount * freeExtentSize
      ≤ inodeTableOffset := by
    have hstop := dm.stop_freeListExtentsWrite
    have hlow : 3744 ≤ inodeTableOffset := by decide
    rw [FileWrite.stop, freeListExtentsWrite, FreeList.length_extentsBytes] at hstop
    exact Nat.le_trans hstop hlow
  have hheader : (recoveredFile dm.flush.image hd es).image.slice freeListOffset freeListHeader
      = dm.freeList.headerBytes := by
    rw [hslice _ _ (by decide), dm.slice_freeListHeader_flush]
  have hload := FreeList.load_eq (Nat.le_trans hext hsize) hheader
  refine ⟨_, hopen, rfl, ?_, ?_⟩
  · apply InodeTable.blockOffsets_ofImage hfirst
    rw [hslice _ _ (by decide), dm.slice_directory_flush]
  · rw [← dm.slice_extents_flush_iff, ← hslice _ _ hext,
      ← FreeList.load_eq_iff hcount (Nat.le_trans hext hsize) hheader]
    exact FreeList.ofFile_eq_iff hload

/-! ### Managers can be opened -/

/-- Whether an operation stays within the region its data belongs to. -/
def ManagerOp.Allowed (dm : DiskManager) : ManagerOp → Prop
  | .disk op => op.Allowed dm
  | _ => True

/-- One operation, which may fail. -/
def ManagerStep (dm dm' : DiskManager) : Prop :=
  ∃ op : ManagerOp, op.Allowed dm ∧ dm' = op.run dm

/-- An entry that is safe to replay: its payload is one, and a write is not one to the first
4096 bytes. -/
def JournalEntry.Replayable (e : JournalEntry) : Prop :=
  e.Fits ∧ (e.entryType = entryWriteInode ∨ e.entryType = entryWriteData →
    inodeTableOffset ≤ e.write.offset)

/-- Every slot of the journal on the disk is free or holds an entry that is safe to
replay. -/
def Image.Replayable (img : Image) : Prop :=
  ∃ h slots, Holds img h slots ∧ ∀ i e, slots i = some e → e.Replayable

/-- What the operations keep, on the way to a manager whose image opens. -/
structure DiskManager.Kept (dm : DiskManager) : Prop where
  replayable : Image.Replayable dm.image
  valid : dm.journal.header.isValid = true
  room : dm.journal.nextSlot ≤ 495
  placed : dm.inodeTable.Placed
  base_le : dataOffset ≤ dm.superblock.nextDataOffset.toNat

theorem Image.Replayable.write {img : Image} {w : FileWrite} (havoids : AvoidsJournal w)
    (h : Replayable img) :
  Replayable (img.write w)
  := by
  obtain ⟨hd, slots, hh, hslots⟩ := h
  exact ⟨hd, slots, hh.write havoids, hslots⟩

theorem Image.replayable_of_tidy {img : Image} {h : JournalHeader} (ht : Tidy img h []) :
  Replayable img
  := by
  refine ⟨h, _, Holds.of_tidy ht, ?_⟩
  intro i e he
  cases he

theorem Image.Replayable.readable {img : Image} (h : Replayable img) :
  ∃ hd es, Readable img hd es ∧ (∀ e ∈ es, e.Fits) ∧ ∀ w ∈ replayed es, inodeTableOffset ≤ w.offset
  := by
  obtain ⟨hd, slots, hh, hslots⟩ := h
  have hmem : ∀ e ∈ leading slots, e.Replayable := by
    intro e he
    obtain ⟨i, hi, rfl⟩ := List.getElem_of_mem he
    exact hslots _ _ (getElem_leadingFrom 512 0 hi)
  refine ⟨hd, leading slots, hh.readable, fun e he => (hmem e he).1, ?_⟩
  intro w hw
  obtain ⟨e, he, rfl⟩ := List.mem_map.mp hw
  obtain ⟨hes, htype⟩ := Journal.isWrite_of_mem_toReplay he
  exact (hmem e hes).2 htype

namespace DiskManager.Kept

variable {dm : DiskManager}

theorem openable (h : dm.Kept) :
  dm.Openable
  := ⟨h.replayable.readable, h.placed.first⟩

/-- A write past the journal. -/
theorem write {w : FileWrite} (havoids : AvoidsJournal w) (h : dm.Kept) :
  (dm.write w).Kept
  := by
  refine ⟨?_, h.valid, h.room, h.placed, h.base_le⟩
  rw [image_write]
  exact h.replayable.write havoids

/-- A write to the first 4096 bytes. -/
theorem write_low {w : FileWrite} (hlow : w.stop ≤ inodeTableOffset) (h : dm.Kept) :
  (dm.write w).Kept
  := h.write (Or.inl (Nat.le_trans hlow (by decide)))

theorem flush (h : dm.Kept) :
  dm.flush.Kept
  := by
  have htable : inodeTableOffset = 4096 := rfl
  have hsb := dm.stop_superblockWrite
  have hhead := dm.stop_freeListHeaderWrite
  have hext := dm.stop_freeListExtentsWrite
  have hdir := dm.stop_directoryWrite
  rw [flush_eq]
  apply write_low (by omega)
  apply write_low (by omega)
  apply write_low (by omega)
  apply h.write_low (by omega)

/-- Clearing the journal when it is nearly full. -/
theorem checkpoint (hreplayable : Image.Replayable dm.image)
    (hvalid : dm.journal.header.isValid = true) (hplaced : dm.inodeTable.Placed)
    (hbase : dataOffset ≤ dm.superblock.nextDataOffset.toNat) :
  dm.checkpoint.Kept
  := by
  unfold DiskManager.checkpoint
  split
  · obtain ⟨hd, slots, hh, -⟩ := hreplayable
    have htidy : Tidy (dm.image.writeAll (clearWrites dm.journal.header))
        { dm.journal.header with entryCount := 0 } [] :=
      hh.clear hvalid
    rw [Journal.clear_eq]
    refine ⟨?_, hvalid, Nat.zero_le _, hplaced, hbase⟩
    rw [image, File.image_append]
    exact Image.replayable_of_tidy htidy
  · next hroom =>
    have hlt : ¬ 512 - 16 ≤ dm.journal.nextSlot := fun hle => hroom (decide_eq_true hle)
    exact ⟨hreplayable, hvalid, by omega, hplaced, hbase⟩

/-- A transaction. -/
theorem transact {new : List JournalEntry} {w : FileWrite} (hl : Loggable dm [] new w)
    (h : dm.Kept) :
  (dm.transact new w).checkpoint.Kept
  := by
  obtain ⟨hd, slots, hh, hslots⟩ := h.replayable
  have hvalid : dm.journal.begin.2.header.isValid = true := h.valid
  obtain ⟨hd', hlog⟩ := hh.appendWrites hvalid (isFree_of_mem_entries hl.writeIn)
  apply checkpoint
  · rw [dm.image_transact, logFile, File.image_append]
    refine Image.Replayable.write hl.avoids ⟨hd', _, hlog, ?_⟩
    intro i e he
    obtain he | he := mem_of_fill he
    · obtain he | he := List.mem_append.mp he
      · exact ⟨(hl.writeIn e he).fits, fun _ => hl.offset_ge e he⟩
      · obtain rfl := List.mem_singleton.mp he
        refine ⟨Nat.zero_le _, fun htype => ?_⟩
        have htype' : entryCommit = entryWriteInode ∨ entryCommit = entryWriteData := htype
        exact absurd htype' (by decide)
    · exact hslots i e he
  · exact (Journal.isValid_advance _ _).trans hvalid
  · exact h.placed
  · exact h.base_le

theorem writeInode (index : ℕ) (inode : InodeRaw) (h : dm.Kept) :
  (dm.writeInode index inode).2.Kept
  := by
  cases hslot : dm.inodeTable.inodeOffset index with
  | none =>
      unfold DiskManager.writeInode
      rw [hslot]
      split <;> exact h
  | some offset =>
      have hroom := h.room
      rw [dm.writeInode_ok inode (InodeTable.lt_maxFiles_of_inodeOffset hslot) hslot (by omega)]
      exact h.transact (loggable_inode dm [] inode (h.placed.le_slot hslot)
        (h.placed.avoidsJournal hslot) (by decide))

theorem writeFileData {offset : UInt64} {data : List UInt8} (hlo : dataOffset ≤ offset.toNat)
    (hhi : offset.toNat + data.length ≤ 2 ^ 63) (h : dm.Kept) :
  (dm.writeFileData offset data).2.Kept
  := by
  have hnext := h.room
  by_cases hne : data = []
  · have hrun : dm.writeFileData offset data = (.ok (), dm) := by
      simp [DiskManager.writeFileData, hne]
    rw [hrun]
    exact h
  by_cases hroom : dm.journal.nextSlot + (chunks journalPayloadSize data).length + 1 ≤ 512
  · rw [dm.writeFileData_ok offset hne hroom]
    exact h.transact (loggable_data hne hlo hhi (by rw [List.length_nil]; omega))
  · obtain ⟨e, hrun⟩ := dm.writeFileData_full offset hroom (by omega)
    rw [hrun]
    exact ⟨h.replayable, h.valid, h.room, h.placed, h.base_le⟩

theorem freeInode (index : ℕ) (h : dm.Kept) :
  (dm.freeInode index).2.Kept
  := by
  unfold DiskManager.freeInode InodeTable.freeInode InodeTable.writeInode
  split
  next r file heq =>
    split at heq
    · cases heq
      exact h
    · split at heq
      · cases heq
        exact h
      · next inode hread offset hslot =>
        cases heq
        exact h.write (h.placed.avoidsJournal hslot)

theorem allocData {size : ℕ} (hfar : dm.superblock.nextDataOffset.toNat + size + 512 ≤ 2 ^ 63)
    (h : dm.Kept) :
  (dm.allocData size).2.Kept
  := by
  have hbase := dm.le_nextDataOffset_allocData hfar h.base_le
  obtain ⟨superblock, freeList, next, hframe, -⟩ := dm.allocData_frame size
  rw [hframe] at hbase ⊢
  exact ⟨h.replayable, h.valid, h.room, ⟨h.placed.first, h.placed.rest⟩, hbase⟩

/-- Appending a block and saving the directory and the superblock. -/
theorem appendBlock {next : UInt64} {table : InodeTable} {w : FileWrite}
    (havoids : AvoidsJournal w) (hplaced : table.Placed) (hbase : dataOffset ≤ next.toNat)
    (h : dm.Kept) :
  (dm.appendBlock next table w).Kept
  := by
  have hdir : (dm.withTable next table).directoryWrite.stop ≤ inodeTableOffset := by
    rw [stop_directoryWrite]
    exact Nat.le_refl _
  have hsb : (dm.withTable next table).superblockWrite.stop ≤ inodeTableOffset := by
    rw [stop_superblockWrite]
    decide
  have htable : (dm.withTable next table).Kept :=
    ⟨h.replayable, h.valid, h.room, hplaced, hbase⟩
  exact ((htable.write havoids).write_low hdir).write_low hsb

theorem growTable {i : ℕ}
    (hfar : dm.superblock.nextDataOffset.toNat + inodeBlockSize ≤ 2 ^ 63) (h : dm.Kept) :
  (dm.growTable i).Kept
  := by
  have hblock : inodeBlockSize = 262144 := rfl
  have hbase := h.base_le
  have hsum := InodeTable.toNat_blockEnd (show
    dm.superblock.nextDataOffset.toNat + inodeBlockSize < 2 ^ 64 by omega)
  have hbase' : dataOffset ≤ (InodeTable.blockEnd dm.superblock.nextDataOffset).toNat := by
    omega
  unfold DiskManager.growTable
  apply h.appendBlock _ _ hbase'
  · exact Or.inr h.base_le
  · exact Reopenable.placed_set h.base_le hfar h.placed

theorem allocInode (hfar : dm.superblock.nextDataOffset.toNat + inodeBlockSize ≤ 2 ^ 63)
    (h : dm.Kept) :
  dm.allocInode.2.Kept
  := by
  obtain hrun | ⟨i, -, -, hrun⟩ := dm.allocInode_cases
  · rw [hrun]
    exact ⟨h.replayable, h.valid, h.room, ⟨h.placed.first, h.placed.rest⟩, h.base_le⟩
  · rw [hrun]
    exact h.growTable hfar

/-- A write to the snapshot table. -/
theorem write_snapshot {index : ℕ} {data : List UInt8} (hindex : index < maxSnapshotSlots)
    (hlen : data.length = snapshotRecordSize) (h : dm.Kept) :
  (dm.write ⟨snapshotOffset index, data⟩).Kept
  := by
  apply h.write
  left
  have hsize : snapshotRecordSize = 512 := rfl
  have hslots : maxSnapshotSlots = 256 := rfl
  have hjournal : journalOffset = snapshotTableOffset + 256 * 512 := rfl
  have hstop : (FileWrite.mk (snapshotOffset index) data).stop
      = snapshotTableOffset + index * snapshotRecordSize + data.length := rfl
  rw [hlen, hsize] at hstop
  omega

/-- Every operation keeps what it takes. -/
theorem step {dm' : DiskManager} (hstep : ManagerStep dm dm') (h : dm.Kept) :
  dm'.Kept
  := by
  obtain ⟨op, hallowed, rfl⟩ := hstep
  cases op with
  | disk op =>
      cases op with
      | writeInode index inode => exact h.writeInode index inode
      | freeInode index => exact h.freeInode index
      | allocInode => exact h.allocInode hallowed
      | allocData size => exact h.allocData hallowed
      | freeData offset length =>
          exact ⟨h.replayable, h.valid, h.room, h.placed, h.base_le⟩
      | writeFileData offset data => exact h.writeFileData hallowed.1 hallowed.2
  | flush => exact h.flush
  | writeSuperblock =>
      have hsb := dm.stop_superblockWrite
      have htable : 64 ≤ inodeTableOffset := by decide
      exact h.write_low (by omega)
  | writeSnapshot index snap =>
      rw [ManagerOp.run, writeSnapshot]
      split
      · exact h
      · next hindex =>
        exact h.write_snapshot (Nat.not_le.mp hindex) snap.length_toBytes
  | zeroSnapshotSlot index =>
      rw [ManagerOp.run, zeroSnapshotSlot]
      split
      · exact h
      · next hindex =>
        exact h.write_snapshot (Nat.not_le.mp hindex) (length_zeros snapshotRecordSize)

theorem format (image : Image) (sizeBytes now : UInt64) :
  (DiskManager.format image sizeBytes now).Kept
  := by
  have hs := steady_format image sizeBytes now
  exact ⟨Image.replayable_of_tidy hs.tidy, rfl, Nat.zero_le _, InodeTable.placed_new _,
    Nat.le_refl _⟩

end DiskManager.Kept

/-- Every manager that operations lead to from a formatted image is openable after flushing. -/
theorem ManagerStep.openable {image : Image} {sizeBytes now : UInt64} {dm : DiskManager}
    (h : Relation.ReflTransGen ManagerStep (DiskManager.format image sizeBytes now) dm) :
  dm.Openable
  := by
  suffices hkept : dm.Kept from hkept.openable
  induction h with
  | refl => exact DiskManager.Kept.format image sizeBytes now
  | tail _ hstep ih => exact ih.step hstep

/-! ### More than 190 extents -/

omit [Crc32] in
/-- Up to 190 extents lie before the directory. -/
theorem drop_extentsBytes_of_le {fl : FreeList} (h : fl.extents.length ≤ 190) :
  fl.extentsBytes.drop DiskManager.extentsRoom = []
  := by
  have hroom : DiskManager.extentsRoom = 3040 := rfl
  have hsize : freeExtentSize = 16 := rfl
  apply List.drop_eq_nil_of_le
  rw [fl.length_extentsBytes, FreeList.savedCount_of_le (Nat.le_trans h (by decide)), hsize]
  omega

omit [Crc32] in
/-- When the 191st extent is loaded as it was saved, it starts where the first inode block
does. -/
theorem offset_of_prefix {fl : FreeList} {table : InodeTable} {es rest : List FreeExtent}
    {e : FreeExtent} (heq : fl.extents = es ++ e :: rest) (hes : es.length = 190)
    (hcount : fl.extents.length ≤ maxPersistedExtents)
    (h : fl.extentsBytes.drop DiskManager.extentsRoom <+: table.dirBytes) :
  e.offset = table.firstBlock
  := by
  have hlen : (es.flatMap FreeExtent.toBytes).length = DiskManager.extentsRoom := by
    simp only [List.length_flatMap, FreeExtent.length_toBytes, List.map_const', hes,
      List.sum_replicate]
    rfl
  have hdrop : fl.extentsBytes.drop DiskManager.extentsRoom
      = u64ToLe e.offset ++ (u64ToLe e.length ++ rest.flatMap FreeExtent.toBytes) := by
    rw [FreeList.extentsBytes_of_le hcount, heq, List.flatMap_append, List.drop_left' hlen,
      List.flatMap_cons, FreeExtent.toBytes, List.append_assoc]
  obtain ⟨t, ht⟩ := h
  have hfirst : field table.dirBytes 0 8 = u64ToLe table.firstBlock := by
    have hfield := InodeTable.field_flatMap_u64ToLe (l := table.blockOffsets.toList) (i := 0)
      (by simp)
    rw [Nat.zero_mul, Nat.zero_add] at hfield
    exact hfield
  rw [← ht, hdrop, List.append_assoc, field_head (length_u64ToLe _)] at hfirst
  have hvalue := congrArg leToU64 hfirst
  rwa [leToU64_u64ToLe, leToU64_u64ToLe] at hvalue

/-! ### What is loaded -/

/-- Opening gives the flushed metadata back exactly when the extents from the 191st on, if
there are any, have the bytes of the block directory. -/
theorem open_flush_iff {dm : DiskManager} (hmagic : dm.superblock.magic = magic)
    (hcount : dm.freeList.extents.length ≤ maxPersistedExtents) (h : dm.Openable) :
  (∃ dm', DiskManager.open dm.flush.image = .ok dm' ∧ SameMetadata dm dm')
    ↔ dm.freeList.extentsBytes.drop DiskManager.extentsRoom <+: dm.inodeTable.dirBytes
  := by
  obtain ⟨dm', hopen, hsuper, hblocks, hfree⟩ := h.open_flush hmagic hcount
  rw [← hfree]
  constructor
  · rintro ⟨dm'', hopen', hsame⟩
    obtain rfl : dm' = dm'' := Except.ok.inj (hopen.symm.trans hopen')
    exact hsame.freeList
  · intro heq
    refine ⟨dm', hopen, ?_, heq, hblocks⟩
    rw [hsuper]

omit [Crc32] in
/-- A formatted image that is flushed opens to the same metadata. -/
theorem open_flush_format :
  let _ := Crc32.ieee
  let dm := DiskManager.format Image.empty 0 0
  ∃ dm', DiskManager.open dm.flush.image = .ok dm' ∧ SameMetadata dm dm'
  := by
  intro _ dm
  have hnil : dm.freeList.extentsBytes.drop DiskManager.extentsRoom = [] :=
    drop_extentsBytes_of_le (Nat.zero_le _)
  apply (open_flush_iff rfl (Nat.zero_le _) (DiskManager.Kept.format _ _ _).openable).mpr
  rw [hnil]
  exact List.nil_prefix

/-- A formatted manager with 191 extents of 512 bytes that were freed, each followed by 512
bytes in use. -/
def manyFreed : DiskManager :=
  { DiskManager.format Image.empty 0 0 with
    superblock := { (DiskManager.format Image.empty 0 0).superblock with
      nextDataOffset := UInt64.ofNat (dataOffset + 191 * 1024) }
    freeList := ⟨(List.range 191).map fun i => ⟨UInt64.ofNat (dataOffset + i * 1024), 512⟩⟩ }

omit [Crc32] in
/-- Not every free list of at most 200 extents is loaded as it was saved. -/
theorem not_open_flush :
  let _ := Crc32.ieee
  ¬ ∀ dm : DiskManager, dm.superblock.magic = magic →
    dm.freeList.extents.length ≤ maxPersistedExtents → dm.Openable →
    ∃ dm', DiskManager.open dm.flush.image = .ok dm' ∧ SameMetadata dm dm'
  := by
  intro _ hall
  have hkept := DiskManager.Kept.format Image.empty 0 0
  have hopenable : manyFreed.Openable := ⟨hkept.replayable.readable, hkept.placed.first⟩
  have hcount : manyFreed.freeList.extents.length ≤ maxPersistedExtents := by
    simp [manyFreed, maxPersistedExtents]
  have hsame := (open_flush_iff rfl hcount hopenable).mp (hall manyFreed rfl hcount hopenable)
  have hextents : manyFreed.freeList.extents
      = ((List.range 190).map fun i => ⟨UInt64.ofNat (dataOffset + i * 1024), 512⟩)
        ++ [⟨UInt64.ofNat (dataOffset + 190 * 1024), 512⟩] := by
    rw [manyFreed, List.range_succ, List.map_append]
    rfl
  have hoffset := offset_of_prefix hextents (by simp) hcount hsame
  rw [show manyFreed.inodeTable.firstBlock = UInt64.ofNat inodeTableOffset from
    hkept.placed.first] at hoffset
  exact absurd hoffset (by decide)

end Opening

end Vexfs
