import Vexfs.Fs.Effects
import Vexfs.Fs.Metadata

/-!
# Closing an image and opening it again

A manager whose journal is in order is flushed, its image is opened, and what comes out is in
order again: it has the same metadata and, outside the journal and the block of the
superblock, the same bytes (`Reopenable.remount`).  So everything that is read from the tables
and from the data region reads as before.
-/

namespace Vexfs

open Bytes Storage

variable [Crc32]

/-! ### The journal that opening leaves -/

/-- A journal that is cleared is tidy, whatever it held. -/
theorem tidy_clearWrites {h : JournalHeader} (hvalid : h.isValid = true) (img : Image) :
  Tidy (img.writeAll (clearWrites h)) { h with entryCount := 0 } []
  := by
  rw [clearWrites, Image.writeAll_cons]
  exact tidy_zeroSlots hvalid (slice_header_headerWrite _)

/-- Opening the image of a steady manager gives a steady manager, and the slots of its journal
are safe to replay when they were before. -/
theorem Steady.recovered {dm : DiskManager} {es : List JournalEntry} (hs : Steady dm es)
    (hreplayable : Image.Replayable dm.image) (superblock : SuperblockRaw) :
  (∃ es', Steady (recovered dm.image dm.journal.header es superblock) es')
    ∧ Image.Replayable (Vexfs.recovered dm.image dm.journal.header es superblock).image
    ∧ (Vexfs.recovered dm.image dm.journal.header es superblock).journal.header.isValid = true
  := by
  by_cases hnil : Journal.toReplay es = []
  · have hfile : recoveredFile dm.image dm.journal.header es = File.ofImage dm.image :=
      if_pos hnil
    have hjournal : recoveredJournal dm.journal.header es = ⟨dm.journal.header, es.length⟩ :=
      if_pos hnil
    have himage : (Vexfs.recovered dm.image dm.journal.header es superblock).image
        = dm.image := by
      rw [DiskManager.image, Vexfs.recovered, hfile, File.image_ofImage]
    have hheader : (Vexfs.recovered dm.image dm.journal.header es superblock).journal
        = ⟨dm.journal.header, es.length⟩ := hjournal
    rw [himage, hheader]
    refine ⟨⟨es, ⟨?_, ?_, hs.fits, ?_, ?_, ?_, hs.offset_ge⟩, hs.room⟩, hreplayable,
      hs.tidy.valid⟩
    · rw [himage, hheader]
      exact hs.tidy
    · rw [hheader]
    · rw [hheader]
      exact hs.recent
    · rw [himage]
      exact hs.settled
    · rw [himage]
      exact hs.stop_le
  · have hfile : recoveredFile dm.image dm.journal.header es
        = ((File.ofImage dm.image).append (replayed es)).append
          (clearWrites dm.journal.header) := if_neg hnil
    have hheader : (Vexfs.recovered dm.image dm.journal.header es superblock).journal
        = ⟨{ dm.journal.header with entryCount := 0 }, 0⟩ := if_neg hnil
    have htidy : Tidy (Vexfs.recovered dm.image dm.journal.header es superblock).image
        { dm.journal.header with entryCount := 0 } [] := by
      rw [DiskManager.image, Vexfs.recovered, hfile, File.image_append]
      exact tidy_clearWrites hs.tidy.valid _
    refine ⟨⟨[], ⟨?_, ?_, ?_, ?_, Settled.nil _ _, ?_, ?_⟩, ?_⟩, Image.replayable_of_tidy htidy, ?_⟩
    · rw [hheader]
      exact htidy
    · rw [hheader]
      rfl
    · simp
    · simp
    · simp [replayed, Journal.toReplay]
    · simp [replayed, Journal.toReplay]
    · simp
    · rw [hheader]
      exact hs.tidy.valid

/-! ### Opening again -/

/-- The pointer of the table does not matter. -/
theorem Reopenable.congr_table {dm : DiskManager} (h : Reopenable dm) (next : UInt64) :
  Reopenable { dm with inodeTable := { dm.inodeTable with nextDiskEnd := next } }
  := by
  obtain ⟨es, hs⟩ := h.steady
  exact ⟨⟨es, ⟨hs.toLogged.congr rfl rfl, hs.room⟩⟩, ⟨h.placed.first, h.placed.rest⟩, h.base_le,
    h.magic_eq⟩

omit [Crc32] in
/-- The slots of a table are those of its blocks. -/
theorem InodeTable.inodeOffset_congr {table table' : InodeTable}
    (heq : table'.blockOffsets = table.blockOffsets) (index : ℕ) :
  table'.inodeOffset index = table.inodeOffset index
  := by
  rw [inodeOffset, inodeOffset, heq]

omit [Crc32] in
/-- The place of a table is that of its blocks. -/
theorem InodeTable.Placed.congr {table table' : InodeTable}
    (heq : table'.blockOffsets = table.blockOffsets) (h : table.Placed) :
  table'.Placed
  := by
  constructor
  · rw [firstBlock, heq]
    exact h.first
  · rw [heq]
    exact h.rest

/-- `dm'` is what opening the image of `dm` gives, once `dm` was flushed. -/
structure Remounted (dm dm' : DiskManager) : Prop where
  kept : dm'.Kept
  reopenable : Reopenable dm'
  metadata : SameMetadata dm dm'
  changesIn : DiskManager.ChangesIn metadataRange dm dm'

/-- A manager that can be closed and opened again comes out in order, when all extents of its
free list are saved. -/
theorem Reopenable.remount {dm : DiskManager} (hkept : dm.Kept) (h : Reopenable dm)
    (hextents : dm.freeList.extents.length ≤ 190) :
  ∃ dm', DiskManager.open dm.flush.image = .ok dm' ∧ Remounted dm dm'
  := by
  obtain ⟨es, hs⟩ := h.steady
  have hflush : Steady dm.flush es := ⟨DiskManager.logged_flush hs.toLogged, hs.room⟩
  have hopen := open_of_readable hflush.tidy.toReadable hflush.fits dm.slice_superblock_flush
    h.magic_eq
  obtain ⟨⟨es', hs'⟩, hreplayable, hvalid⟩ :=
    hflush.recovered hkept.flush.replayable dm.superblock
  have hnil := drop_extentsBytes_of_le hextents
  obtain ⟨dm', hopen', hsame⟩ := (open_flush_iff h.magic_eq (hextents.trans (by decide))
    hkept.openable).mpr (hnil ▸ List.nil_prefix)
  obtain rfl := Except.ok.inj (hopen'.symm.trans hopen)
  have hplaced := h.placed.congr hsame.blocks
  have hbytes := (byte_recoveredFile dm.flush.image dm.flush.journal.header es).trans
    hflush.settled.eqOn
  refine ⟨_, hopen', ⟨hreplayable, hvalid, ?_, hplaced, h.base_le⟩,
    ⟨⟨es', hs'⟩, hplaced, h.base_le, h.magic_eq⟩, hsame, ?_, ?_⟩
  · rw [hs'.nextSlot_eq]
    exact Nat.le_of_lt_succ hs'.room
  · intro i hi hlow
    exact (hbytes hi).trans (dm.byte_flush (Nat.not_lt.mp hlow))
  · exact dm.size_le_flush.trans hflush.size_recoveredFile.ge

end Vexfs
