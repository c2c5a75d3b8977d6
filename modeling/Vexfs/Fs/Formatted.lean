import Vexfs.Fs.Metadata

/-!
# Formatted images

Formatting writes zeros to the first block of the inode table and to the snapshot table, so
every inode and every snapshot record reads as unused.
-/

namespace Vexfs

open Bytes Storage

variable [Crc32]

/-! ### Records of zeros -/

omit [Crc32] in
theorem field_zeros {n lo hi : ℕ} (h : hi ≤ n) :
  field (zeros n) lo hi = zeros (hi - lo)
  := by
  simp [field, zeros, List.take_replicate, Nat.min_eq_left h]

/-- A record of zeros that decodes is unused. -/
theorem isUsed_of_zeros {inode : InodeRaw}
    (h : InodeRaw.fromBytes (zeros inodeBytes) = .ok inode) :
  inode.isUsed = 0
  := by
  unfold InodeRaw.fromBytes at h
  simp only [bind, Except.bind] at h
  split at h
  · cases h
  · obtain rfl := Except.ok.inj h
    simp only [field_zeros (show 49 ≤ inodeBytes by decide)]
    rfl

theorem isUsed_snapshot_of_zeros {snap : SnapshotRaw}
    (h : SnapshotRaw.fromBytes (zeros snapshotBytes) = .ok snap) :
  snap.isUsed = 0
  := by
  unfold SnapshotRaw.fromBytes at h
  simp only [bind, Except.bind] at h
  split at h
  · cases h
  · obtain rfl := Except.ok.inj h
    simp only [field_zeros (show 45 ≤ snapshotBytes by decide)]
    rfl

/-! ### The tables of a formatted image -/

omit [Crc32] in
/-- A table with its first block alone has no slots in the data region. -/
theorem InodeTable.slot_new {next offset : UInt64} {i : ℕ}
    (h : (InodeTable.new (UInt64.ofNat inodeTableOffset) next).inodeOffset i = some offset) :
  inodeTableOffset ≤ offset.toNat ∧ offset.toNat + inodeBytes ≤ snapshotTableOffset
  := by
  have hplaced := InodeTable.placed_new next
  have htable : inodeTableOffset = 4096 := rfl
  have hdata := dataOffset_eq
  have hjournal : journalOffset = 397312 := rfl
  have hsnapshots : snapshotTableOffset = 266240 := rfl
  have hbytes : inodeBytes = 256 := rfl
  obtain hslot | hslot := hplaced.slot h
  · omega
  · exfalso
    obtain ⟨hb, hne, rfl⟩ := inodeOffset_eq_some h
    obtain hzero | hpos := Nat.eq_zero_or_pos (i / 1024)
    · have hmod : i % 1024 < 1024 := Nat.mod_lt _ (by decide)
      have hfirst : (InodeTable.new (UInt64.ofNat inodeTableOffset) next).blockOffsets[i / 1024]
          = UInt64.ofNat inodeTableOffset := by
        rw [← hplaced.first]
        congr 1
      have hbase : (UInt64.ofNat inodeTableOffset).toNat = 4096 := rfl
      have hofNat : (UInt64.ofNat (i % 1024 * 256)).toNat = i % 1024 * 256 := by
        apply UInt64.toNat_ofNat_of_lt'
        have hsize : UInt64.size = 2 ^ 64 := rfl
        omega
      rw [hfirst, UInt64.toNat_add, hbase, hofNat, Nat.mod_eq_of_lt (by omega)] at hslot
      omega
    · apply hne
      simp only [InodeTable.new]
      rw [Vector.getElem_set_ne _ _ (Nat.ne_of_lt hpos), Vector.getElem_replicate]

namespace DiskManager

/-- The tables are zero up to the journal. -/
theorem byte_format (image : Image) (sizeBytes now : UInt64) {i : ℕ}
    (hlo : inodeTableOffset ≤ i) (hhi : i < journalOffset) :
  (format image sizeBytes now).image.byte i = 0
  := by
  have hdir := (format image sizeBytes now).stop_directoryWrite
  have htable : inodeTableOffset = 4096 := rfl
  have hsnapshots : snapshotTableOffset = 266240 := rfl
  have hjournal : journalOffset = 397312 := rfl
  have hslots : written (zeroSlots 512) i = none := by
    apply written_eq_none.mpr
    intro w hw
    obtain ⟨j, -, rfl⟩ := mem_zeroSlots.mp hw
    apply FileWrite.byteAt_eq_none.mpr
    left
    simp only [slotWrite, slotOffset_eq]
    omega
  have hput : ∀ (img : Image) (o n : ℕ), o ≤ i → i < o + n →
      (img.write ⟨o, zeros n⟩).byte i = 0 := by
    intro img o n hon hin
    obtain ⟨k, rfl⟩ := Nat.exists_eq_add_of_le hon
    rw [Image.byte_write, FileWrite.byteAt_add (by rw [length_zeros]; omega)]
    simp [zeros]
  rw [image_format, Image.byte_write_of_stop_le (by rw [← directoryWrite, hdir]; omega),
    Image.byte_writeAll, hslots, Option.getD_none,
    Image.byte_write_of_lt (by show i < journalOffset; exact hhi), layoutImage]
  obtain hinode | hsnapshot := Nat.lt_or_ge i snapshotTableOffset
  · have hstop : i < inodeTableOffset + inodesPerBlock * inodeSize := by
      show i < 4096 + 1024 * 256
      omega
    rw [Image.byte_write_of_lt hinode]
    exact hput _ inodeTableOffset (inodesPerBlock * inodeSize) hlo hstop
  · have hstop : i < snapshotTableOffset + maxSnapshotSlots * snapshotRecordSize := by
      show i < 266240 + 256 * 512
      omega
    exact hput _ snapshotTableOffset (maxSnapshotSlots * snapshotRecordSize) hsnapshot hstop

/-- A record of a table of a formatted image holds zeros. -/
theorem readBytes_format (image : Image) (sizeBytes now : UInt64) {offset n : ℕ}
    (hlo : inodeTableOffset ≤ offset) (hhi : offset + n ≤ journalOffset) :
  readBytes (format image sizeBytes now).file offset n = .ok (zeros n)
  := by
  have himage : ∀ dm : DiskManager, dm.file.image = dm.image := fun _ => rfl
  have hsize : offset + n ≤ (format image sizeBytes now).file.image.size := by
    have hdata := (steady_format image sizeBytes now).tidy.size_le
    exact Nat.le_trans (Nat.le_trans hhi (by decide)) hdata
  rw [readBytes_of_le hsize]
  congr 1
  apply (Image.slice_eq_iff (length_zeros n)).mpr
  intro k hk
  have hlt : k < n := by simpa using hk
  have hbyte := byte_format image sizeBytes now (Nat.le_add_right_of_le hlo)
    (show offset + k < journalOffset by omega)
  have hzero : (zeros n)[k] = 0 := List.getElem_replicate _
  rw [hzero, himage]
  exact hbyte

/-- No inode of a formatted image is used. -/
theorem readInode_format (image : Image) (sizeBytes now : UInt64) {i : ℕ} {inode : InodeRaw}
    (h : (format image sizeBytes now).readInode i = .ok inode) :
  inode.isUsed = 0
  := by
  unfold DiskManager.readInode at h
  split at h
  · cases h
  unfold InodeTable.readInode at h
  split at h
  · obtain rfl := Except.ok.inj h
    rfl
  next offset hoffset =>
  obtain ⟨hlo, hhi⟩ := InodeTable.slot_new hoffset
  rw [readBytes_format image sizeBytes now hlo (Nat.le_trans hhi (by decide))] at h
  dsimp only at h
  split at h
  · next x hx =>
    obtain rfl := Except.ok.inj h
    exact isUsed_of_zeros hx
  · obtain rfl := Except.ok.inj h
    rfl

/-- No snapshot record of a formatted image is used. -/
theorem readSnapshot_format (image : Image) (sizeBytes now : UInt64) {i : ℕ}
    {snap : SnapshotRaw} (h : (format image sizeBytes now).readSnapshot i = .ok snap) :
  snap.isUsed = 0
  := by
  unfold DiskManager.readSnapshot at h
  split at h
  · cases h
  next hlt =>
  have hi : i < 256 := Nat.not_le.mp hlt
  have hlo : inodeTableOffset ≤ snapshotOffset i := by
    show 4096 ≤ 266240 + i * 512
    omega
  have hhi : snapshotOffset i + snapshotBytes ≤ journalOffset := by
    show 266240 + i * 512 + 512 ≤ 397312
    omega
  rw [readBytes_format image sizeBytes now hlo hhi] at h
  dsimp only at h
  split at h
  · next x hx =>
    obtain rfl := Except.ok.inj h
    exact isUsed_snapshot_of_zeros hx
  · obtain rfl := Except.ok.inj h
    rfl

end DiskManager

end Vexfs
