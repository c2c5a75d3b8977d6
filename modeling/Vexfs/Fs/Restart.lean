import Vexfs.Fs.Interrupted
import Vexfs.Fs.Remount

/-!
# Opening after any crash

Every file write of an operation of the disk manager is harmless: it is an entry or a header
of the journal, a zeroed slot, a write past the journal and the first 4096 bytes, or one of
the records in these.  Harmless writes keep an image bootable, so whenever a crash comes,
also in an opening, the image opens.  An opening that was interrupted, any number of times, is
completed by the next one, with the bytes that one opening without a crash gives
(`recovery_restarts`).
-/

namespace Vexfs

open Bytes Storage

variable [Crc32]

/-! ### Harmless writes -/

omit [Crc32] in
/-- An entry whose payload is one, and whose write, if it is the entry of a write, is outside
the journal and the first 4096 bytes. -/
structure JournalEntry.Harmless (e : JournalEntry) : Prop where
  fits : e.Fits
  past : e.isWrite = true → AvoidsJournal e.write ∧ inodeTableOffset ≤ e.write.offset

omit [Crc32] in
/-- A superblock that opening accepts, and behind whose pointer there is only data. -/
structure SuperblockRaw.Harmless (superblock : SuperblockRaw) : Prop where
  magic_eq : superblock.magic = Vexfs.magic
  next_ge : dataOffset ≤ superblock.nextDataOffset.toNat

/-- A file write that keeps an image bootable. -/
inductive Harmless : FileWrite → Prop where
  | entry {e : JournalEntry} (i : ℕ) (hused : e.isFree = false) (he : e.Harmless) :
      Harmless (slotWrite i e.toBytes)
  | zero (i : ℕ) : Harmless (slotWrite i (zeros 512))
  | header {h : JournalHeader} (hvalid : h.isValid = true) : Harmless (headerWrite h)
  | past {w : FileWrite} (havoids : AvoidsJournal w) (hlow : inodeTableOffset ≤ w.offset) :
      Harmless w
  | superblock {superblock : SuperblockRaw} (hsuper : superblock.Harmless) :
      Harmless ⟨superblockOffset, superblock.toBytes⟩
  | freeList {w : FileWrite} (hlo : 64 ≤ w.offset) (hhi : w.stop ≤ inodeBlockDirOffset) :
      Harmless w
  | directory {table : InodeTable} (hplaced : table.Placed) :
      Harmless ⟨inodeBlockDirOffset, table.dirBytes⟩

/-- An image whose journal can be read and is harmless, with a superblock and a directory of
placed inode blocks. -/
structure Bootable (img : Image) : Prop where
  journal : ∃ h slots, Holds img h slots ∧ ∀ i e, slots i = some e → e.Harmless
  superblock : ∃ superblock : SuperblockRaw, superblock.Harmless
    ∧ img.slice superblockOffset superblockBytes = superblock.toBytes
  directory : ∃ table : InodeTable, table.Placed
    ∧ img.slice inodeBlockDirOffset blockDirBytes = table.dirBytes

namespace Bootable

variable {img img' : Image}

/-- A write past the first 4096 bytes keeps the records in them. -/
theorem write_past {w : FileWrite} (hlow : inodeTableOffset ≤ w.offset)
    (hjournal : ∃ h slots, Holds (img.write w) h slots ∧ ∀ i e, slots i = some e → e.Harmless)
    (h : Bootable img) :
  Bootable (img.write w)
  := by
  have hsuper : superblockOffset + superblockBytes ≤ inodeTableOffset := by decide
  have hdir : inodeBlockDirOffset + blockDirBytes ≤ inodeTableOffset := by decide
  refine ⟨hjournal, ?_, ?_⟩
  · rw [Image.slice_write_disjoint (Or.inr (hsuper.trans hlow))]
    exact h.superblock
  · rw [Image.slice_write_disjoint (Or.inr (hdir.trans hlow))]
    exact h.directory

/-- A write that avoids the journal keeps its slots. -/
theorem journal_write {w : FileWrite} (havoids : AvoidsJournal w) (h : Bootable img) :
  ∃ hd slots, Holds (img.write w) hd slots ∧ ∀ i e, slots i = some e → e.Harmless
  := by
  obtain ⟨hd, slots, hh, hslots⟩ := h.journal
  exact ⟨hd, slots, hh.write havoids, hslots⟩

/-- Harmless writes keep an image bootable. -/
theorem write {w : FileWrite} (hw : Harmless w) (h : Bootable img) :
  Bootable (img.write w)
  := by
  obtain ⟨hd, slots, hh, hslots⟩ := h.journal
  have hslot : ∀ i, inodeTableOffset ≤ slotOffset i := by
    intro i
    rw [slotOffset_eq]
    exact (show inodeTableOffset ≤ journalOffset by decide).trans (by omega)
  have hbefore : inodeTableOffset ≤ journalOffset := by decide
  cases hw with
  | @entry e i hused he =>
      apply h.write_past (hslot i) ⟨hd, _, hh.write_slot hused, ?_⟩
      intro j x hx
      by_cases hj : j = i
      · rw [hj, Function.update_self] at hx
        exact Option.some.inj hx ▸ he
      · rw [Function.update_of_ne hj] at hx
        exact hslots j x hx
  | zero i =>
      apply h.write_past (hslot i) ⟨hd, _, hh.zero_slot, ?_⟩
      intro j x hx
      by_cases hj : j = i
      · rw [hj, Function.update_self] at hx
        cases hx
      · rw [Function.update_of_ne hj] at hx
        exact hslots j x hx
  | header hvalid =>
      exact h.write_past hbefore ⟨_, slots, hh.write_header hvalid, hslots⟩
  | past havoids hlow =>
      exact h.write_past hlow (h.journal_write havoids)
  | @superblock superblock hsuper =>
      have hlen := superblock.length_toBytes
      refine ⟨h.journal_write (Or.inl ?_), ⟨superblock, hsuper, ?_⟩, ?_⟩
      · rw [FileWrite.stop, hlen]
        exact (show superblockOffset + superblockBytes ≤ journalOffset by decide)
      · exact Image.slice_write_eq img superblockOffset hlen
      · rw [Image.slice_write_disjoint (Or.inl _)]
        · exact h.directory
        · rw [FileWrite.stop, hlen]
          exact (show superblockOffset + superblockBytes ≤ inodeBlockDirOffset by decide)
  | freeList hlo hhi =>
      have hdir : inodeBlockDirOffset ≤ journalOffset := by decide
      refine ⟨h.journal_write (Or.inl (hhi.trans hdir)), ?_, ?_⟩
      · rw [Image.slice_write_disjoint (Or.inr hlo)]
        exact h.superblock
      · rw [Image.slice_write_disjoint (Or.inl hhi)]
        exact h.directory
  | @directory table hplaced =>
      have hlen := DiskManager.length_dirBytes table
      have hsuper : superblockOffset + superblockBytes ≤ inodeBlockDirOffset := by decide
      refine ⟨h.journal_write (Or.inl ?_), ?_, ⟨table, hplaced, ?_⟩⟩
      · rw [FileWrite.stop, hlen]
        exact (show inodeBlockDirOffset + 512 ≤ journalOffset by decide)
      · rw [Image.slice_write_disjoint (Or.inr hsuper)]
        exact h.superblock
      · exact Image.slice_write_eq img inodeBlockDirOffset hlen

theorem writeAll {ws : List FileWrite} (hws : ∀ w ∈ ws, Harmless w) (h : Bootable img) :
  Bootable (img.writeAll ws)
  := by
  induction ws generalizing img with
  | nil => exact h
  | cons w ws ih =>
      obtain ⟨hw, hws⟩ := List.forall_mem_cons.mp hws
      exact ih hws (h.write hw)

end Bootable

/-- `g` is `f` after harmless writes. -/
def HarmlessTo (f g : File) : Prop :=
  ∃ ws, g = f.append ws ∧ ∀ w ∈ ws, Harmless w

namespace HarmlessTo

variable {f g k : File} {img : Image}

theorem refl (f : File) :
  HarmlessTo f f
  := ⟨[], (File.append_nil f).symm, fun _ hw => (nomatch hw)⟩

theorem trans (hfg : HarmlessTo f g) (hgk : HarmlessTo g k) :
  HarmlessTo f k
  := by
  obtain ⟨ws, rfl, hws⟩ := hfg
  obtain ⟨vs, rfl, hvs⟩ := hgk
  exact ⟨ws ++ vs, File.append_append f ws vs, List.forall_mem_append.mpr ⟨hws, hvs⟩⟩

theorem append {ws : List FileWrite} (hws : ∀ w ∈ ws, Harmless w) (h : HarmlessTo f g) :
  HarmlessTo f (g.append ws)
  := h.trans ⟨ws, rfl, hws⟩

theorem write {w : FileWrite} (hw : Harmless w) (h : HarmlessTo f g) :
  HarmlessTo f (g.write w.offset w.data)
  := h.append (List.forall_mem_singleton.mpr hw)

/-- A file stays bootable through harmless writes. -/
theorem through (hboot : Bootable f.image) (h : HarmlessTo f g) :
  File.Through Bootable f g
  := by
  obtain ⟨ws, rfl, hws⟩ := h
  exact ⟨ws, rfl, fun vs hvs => hboot.writeAll fun w hw => hws w (hvs.subset hw)⟩

theorem bootable (hboot : Bootable f.image) (h : HarmlessTo f g) :
  Bootable g.image
  := (h.through hboot).last

end HarmlessTo

/-! ### The journal -/

section Entries

omit [Crc32]

variable {tx : UInt32} {offset : UInt64}

/-- The entry of a write that is past the journal and the first 4096 bytes. -/
theorem harmless_writeOf {entryType : UInt8} {bytes : List UInt8} (hlen : bytes.length ≤ 490)
    (htype : entryType = entryWriteInode ∨ entryType = entryWriteData)
    (havoids : AvoidsJournal ⟨offset.toNat, bytes⟩) (hlow : inodeTableOffset ≤ offset.toNat) :
  (Journal.writeOf entryType tx offset bytes).Harmless
  := by
  refine ⟨(writeIn_writeOf hlen htype).fits, fun _ => ?_⟩
  rw [write_writeOf hlen]
  exact ⟨havoids, hlow⟩

theorem harmless_commitOf (tx : UInt32) :
  (Journal.commitOf tx).Harmless
  := by
  refine ⟨Nat.zero_le _, fun hwrite => ?_⟩
  have hnot : (Journal.commitOf tx).isWrite = false := by
    show (entryCommit == entryWriteInode || entryCommit == entryWriteData) = false
    decide
  rw [hnot] at hwrite
  cases hwrite

end Entries

/-- A journal that is valid, and its file after harmless writes. -/
structure Journal.Proper (file : File) (r : Journal × File) : Prop where
  harmless : HarmlessTo file r.2
  valid : r.1.header.isValid = true

namespace Journal.Proper

variable {file : File} {r : Journal × File} {tx : UInt32}

theorem writeEntry {e : JournalEntry} (hused : e.isFree = false) (he : e.Harmless)
    (h : Proper file r) :
  Proper file (r.1.writeEntry r.2 e).2
  := by
  unfold Journal.writeEntry
  split
  · exact h
  · have hnext : r.1.next.header.isValid = true := h.valid
    exact ⟨(h.harmless.write (.entry r.1.nextSlot hused he)).write (.header hnext), hnext⟩

theorem commit (tx : UInt32) (h : Proper file r) :
  Proper file (r.1.commit r.2 tx).2
  := h.writeEntry rfl (harmless_commitOf tx)

theorem logInodeWriteAt {offset : UInt64} {bytes : List UInt8}
    (havoids : AvoidsJournal ⟨offset.toNat, bytes⟩) (hlow : inodeTableOffset ≤ offset.toNat)
    (h : Proper file r) :
  Proper file (r.1.logInodeWriteAt r.2 tx offset bytes).2
  := by
  unfold Journal.logInodeWriteAt
  split
  · exact h
  · next hlen =>
    have hlen : bytes.length ≤ 490 := Nat.not_lt.mp hlen
    exact h.writeEntry (writeIn_writeOf hlen (Or.inl rfl)).isFree_eq
      (harmless_writeOf hlen (Or.inl rfl) havoids hlow)

theorem logDataWriteChunks {offset : UInt64} {pieces : List (List UInt8)}
    (hpieces : ∀ c ∈ pieces, c.length ≤ 490) (hlo : dataOffset ≤ offset.toNat)
    (hhi : offset.toNat + pieces.flatten.length ≤ 2 ^ 63) (h : Proper file r) :
  Proper file (r.1.logDataWriteChunks r.2 tx offset pieces).2
  := by
  induction pieces generalizing r offset with
  | nil => exact h
  | cons c pieces ih =>
      obtain ⟨hc, hpieces⟩ := List.forall_mem_cons.mp hpieces
      rw [List.flatten_cons, List.length_append] at hhi
      have hlow : inodeTableOffset ≤ dataOffset := by decide
      have hlog : Proper file (r.1.logDataWriteChunk r.2 tx offset c).2 :=
        h.writeEntry (writeIn_writeOf hc (Or.inr rfl)).isFree_eq
          (harmless_writeOf hc (Or.inr rfl) (Or.inr hlo) (hlow.trans hlo))
      unfold Journal.logDataWriteChunks
      split
      · next heq =>
        rw [heq] at hlog
        exact hlog
      · next heq =>
        rw [heq] at hlog
        have hlen : (UInt64.ofNat c.length).toNat = c.length := by
          apply UInt64.toNat_ofNat_of_lt'
          have hsize : UInt64.size = 2 ^ 64 := rfl
          omega
        have hsum : (offset + UInt64.ofNat c.length).toNat = offset.toNat + c.length := by
          rw [UInt64.toNat_add, hlen, Nat.mod_eq_of_lt (by omega)]
        exact ih hpieces (by omega) (by omega) hlog

theorem logDataWriteAll {offset : UInt64} {data : List UInt8} (hlo : dataOffset ≤ offset.toNat)
    (hhi : offset.toNat + data.length ≤ 2 ^ 63) (h : Proper file r) :
  Proper file (r.1.logDataWriteAll r.2 tx offset data).2
  := by
  have hflat : (chunks journalPayloadSize data).flatten = data := flatten_chunks (by decide) data
  have hlog : Proper file (r.1.logDataWriteChunks r.2 tx offset
      (chunks journalPayloadSize data)).2 :=
    h.logDataWriteChunks (fun c hc => length_le_of_mem_chunks hc) hlo (by rwa [hflat])
  unfold Journal.logDataWriteAll
  split
  · exact h
  · dsimp only
    split
    · exact h
    · split <;> next heq =>
        rw [heq] at hlog
        exact hlog

end Journal.Proper

/-- The writes that clear a journal. -/
theorem harmless_of_mem_clearWrites {h : JournalHeader} (hvalid : h.isValid = true) :
  ∀ w ∈ clearWrites h, Harmless w
  := by
  intro w hw
  obtain rfl | hw := List.mem_cons.mp hw
  · exact .header hvalid
  · obtain ⟨i, -, rfl⟩ := mem_zeroSlots.mp hw
    exact .zero i

/-! ### The disk manager -/

/-- What holds of a manager between operations. -/
structure DiskManager.Proper (dm : DiskManager) : Prop where
  image : Bootable dm.image
  valid : dm.journal.header.isValid = true
  placed : dm.inodeTable.Placed
  superblock : dm.superblock.Harmless

namespace DiskManager

variable {dm : DiskManager}

/-- Clearing the journal when it is nearly full. -/
theorem checkpoint_proper {file : File} (h : Journal.Proper file (dm.journal, dm.file)) :
  Journal.Proper file (dm.checkpoint.journal, dm.checkpoint.file)
  := by
  unfold checkpoint
  split
  · rw [Journal.clear_eq]
    exact ⟨h.harmless.append (harmless_of_mem_clearWrites h.valid), h.valid⟩
  · exact h

theorem writeInode_proper (index : ℕ) (inode : InodeRaw) (hplaced : dm.inodeTable.Placed)
    (hvalid : dm.journal.header.isValid = true) :
  Journal.Proper dm.file
    ((dm.writeInode index inode).2.journal, (dm.writeInode index inode).2.file)
  := by
  have hstart : Journal.Proper dm.file (dm.journal, dm.file) := ⟨.refl _, hvalid⟩
  unfold writeInode
  split
  · exact hstart
  · split
    · exact hstart
    · next diskOffset hoffset =>
      have havoids : AvoidsJournal ⟨diskOffset.toNat, inode.toBytes⟩ :=
        hplaced.avoidsJournal hoffset
      have hlow := hplaced.le_slot hoffset
      have hbegin : Journal.Proper dm.file (dm.journal.begin.2, dm.file) := ⟨.refl _, hvalid⟩
      have hlog := @Journal.Proper.logInodeWriteAt _ _ _ dm.journal.begin.1 _ _ havoids hlow hbegin
      dsimp only at hlog ⊢
      split
      · next heq =>
        rw [heq] at hlog
        exact hlog
      · next heq =>
        rw [heq] at hlog
        have hcommit := hlog.commit dm.journal.begin.1
        dsimp only at hcommit
        split
        · next heq =>
          rw [heq] at hcommit
          exact hcommit
        · next heq =>
          rw [heq] at hcommit
          simp only [InodeTable.writeInode, hoffset]
          exact checkpoint_proper ⟨hcommit.harmless.write (.past havoids hlow), hcommit.valid⟩

theorem writeFileData_proper {offset : UInt64} {data : List UInt8}
    (hlo : dataOffset ≤ offset.toNat) (hhi : offset.toNat + data.length ≤ 2 ^ 63)
    (hvalid : dm.journal.header.isValid = true) :
  Journal.Proper dm.file
    ((dm.writeFileData offset data).2.journal, (dm.writeFileData offset data).2.file)
  := by
  unfold writeFileData
  split
  · exact ⟨.refl _, hvalid⟩
  · have hbegin : Journal.Proper dm.file (dm.journal.begin.2, dm.file) := ⟨.refl _, hvalid⟩
    have hlog := @Journal.Proper.logDataWriteAll _ _ _ dm.journal.begin.1 _ _ hlo hhi hbegin
    have hlow : inodeTableOffset ≤ dataOffset := by decide
    dsimp only at hlog ⊢
    split
    · next heq =>
      rw [heq] at hlog
      exact hlog
    · next heq =>
      rw [heq] at hlog
      have hcommit := hlog.commit dm.journal.begin.1
      dsimp only at hcommit
      split
      · next heq =>
        rw [heq] at hcommit
        exact hcommit
      · next heq =>
        rw [heq] at hcommit
        exact checkpoint_proper ⟨hcommit.harmless.write
          (w := ⟨offset.toNat, data⟩) (.past (Or.inr hlo) (hlow.trans hlo)), hcommit.valid⟩

/-- One manager is another after harmless writes, and proper. -/
structure Goes (dm dm' : DiskManager) : Prop where
  harmless : HarmlessTo dm.file dm'.file
  proper : dm'.Proper

namespace Goes

variable {dm' dm'' : DiskManager}

theorem refl (h : dm.Proper) :
  Goes dm dm
  := ⟨.refl dm.file, h⟩

/-- What is in memory beside the file and the journal changes. -/
theorem congr (h : Goes dm dm') (hfile : dm''.file = dm'.file)
    (hjournal : dm''.journal = dm'.journal) (hplaced : dm''.inodeTable.Placed)
    (hsuper : dm''.superblock.Harmless) :
  Goes dm dm''
  := by
  have himage : dm''.image = dm'.image := congrArg File.image hfile
  exact ⟨hfile ▸ h.harmless, himage ▸ h.proper.image, hjournal ▸ h.proper.valid, hplaced, hsuper⟩

theorem write {w : FileWrite} (hw : Harmless w) (h : Goes dm dm') :
  Goes dm (dm'.write w)
  := by
  refine ⟨h.harmless.write hw, ?_, h.proper.valid, h.proper.placed, h.proper.superblock⟩
  rw [image_write]
  exact h.proper.image.write hw

/-- A journaled operation changes the journal and the file alone. -/
theorem journaled (hframe : ∃ journal file, dm' = { dm with journal, file })
    (hjournal : Journal.Proper dm.file (dm'.journal, dm'.file)) (h : dm.Proper) :
  Goes dm dm'
  := by
  have hboot := hjournal.harmless.bootable h.image
  obtain ⟨journal, file, rfl⟩ := hframe
  exact ⟨hjournal.harmless, hboot, hjournal.valid, h.placed, h.superblock⟩

theorem superblockWrite (h : Goes dm dm') :
  Goes dm dm'.writeSuperblock
  := h.write (.superblock h.proper.superblock)

/-- A free list that ends in front of the directory is saved. -/
theorem flush (hfew : dm'.freeList.extents.length ≤ 190) (h : Goes dm dm') :
  Goes dm dm'.flush
  := by
  have hhead := dm'.stop_freeListHeaderWrite
  have hdir : inodeBlockDirOffset = 3584 := rfl
  have hext : dm'.freeListExtentsWrite.stop ≤ inodeBlockDirOffset := by
    have hcount := FreeList.savedCount_of_le (hfew.trans (show 190 ≤ maxPersistedExtents by decide))
    have hstop : dm'.freeListExtentsWrite.stop
        = freeListOffset + freeListHeader + dm'.freeList.extentsBytes.length := rfl
    have hsize : freeListOffset + freeListHeader + 190 * freeExtentSize = inodeBlockDirOffset := rfl
    rw [FreeList.length_extentsBytes, hcount] at hstop
    have hmul := Nat.mul_le_mul_right freeExtentSize hfew
    omega
  rw [flush_eq]
  have hsaved := h.superblockWrite
  have hheader : Goes dm (dm'.writeSuperblock.write dm'.freeListHeaderWrite) :=
    hsaved.write (.freeList (show 64 ≤ freeListOffset by decide) (by omega))
  have hextents := hheader.write
    (.freeList (show 64 ≤ freeListOffset + freeListHeader by decide) hext)
  exact hextents.write (.directory h.proper.placed)

/-- A block is appended to the table. -/
theorem appendBlock {next : UInt64} {table : InodeTable} {w : FileWrite} (hw : Harmless w)
    (hplaced : table.Placed) (hnext : dataOffset ≤ next.toNat) (h : Goes dm dm') :
  Goes dm (dm'.appendBlock next table w)
  := by
  have hsuper : SuperblockRaw.Harmless { dm'.superblock with nextDataOffset := next } :=
    ⟨h.proper.superblock.magic_eq, hnext⟩
  have htable : Goes dm (dm'.withTable next table) := h.congr rfl rfl hplaced hsuper
  exact ((htable.write hw).write (.directory hplaced)).write (.superblock hsuper)

theorem growTable {i : ℕ} (hfar : dm.superblock.nextDataOffset.toNat + inodeBlockSize ≤ 2 ^ 63)
    (h : dm.Proper) :
  Goes dm (dm.growTable i)
  := by
  have hnext := h.superblock.next_ge
  have hlow : inodeTableOffset ≤ dataOffset := by decide
  have hsum := InodeTable.toNat_blockEnd (show
    dm.superblock.nextDataOffset.toNat + inodeBlockSize < 2 ^ 64 by omega)
  have hstay := refl h
  unfold DiskManager.growTable
  apply hstay.appendBlock (.past (Or.inr hnext) (hlow.trans hnext))
  · exact Reopenable.placed_set hnext hfar h.placed
  · omega

/-- A write to the snapshot table. -/
theorem write_snapshot {index : ℕ} {data : List UInt8} (hindex : index < maxSnapshotSlots)
    (hlen : data.length = snapshotRecordSize) (h : Goes dm dm') :
  Goes dm (dm'.write ⟨snapshotOffset index, data⟩)
  := by
  have hsize : snapshotRecordSize = 512 := rfl
  have hslots : maxSnapshotSlots = 256 := rfl
  have hjournal : journalOffset = snapshotTableOffset + 256 * 512 := rfl
  have hlow : inodeTableOffset ≤ snapshotTableOffset := by decide
  have hstart : snapshotOffset index = snapshotTableOffset + index * 512 := rfl
  rw [hsize] at hlen
  apply h.write
  apply Harmless.past
  · left
    show snapshotOffset index + data.length ≤ journalOffset
    omega
  · show inodeTableOffset ≤ snapshotOffset index
    omega

end Goes

end DiskManager

/-- Data is written to the data region, all positions are those of a file, and the free list
that is saved ends in front of the directory. -/
def ManagerOp.Orderly (dm : DiskManager) : ManagerOp → Prop
  | .disk op => op.Allowed dm
  | .flush => dm.freeList.extents.length ≤ 190
  | _ => True

/-- An orderly operation, whatever it returns, makes harmless writes. -/
theorem DiskManager.Goes.run {dm : DiskManager} {op : ManagerOp} (horderly : op.Orderly dm)
    (h : dm.Proper) :
  DiskManager.Goes dm (op.run dm)
  := by
  have hstay := DiskManager.Goes.refl h
  cases op with
  | disk op =>
      cases op with
      | writeInode index inode =>
          exact .journaled (dm.writeInode_frame index inode)
            (DiskManager.writeInode_proper index inode h.placed h.valid) h
      | freeInode index =>
          show DiskManager.Goes dm (dm.freeInode index).2
          unfold DiskManager.freeInode InodeTable.freeInode InodeTable.writeInode
          split
          next r file heq =>
            split at heq
            · cases heq
              exact hstay
            · split at heq
              · cases heq
                exact hstay
              · next inode hread offset hslot =>
                cases heq
                exact hstay.write (.past (h.placed.avoidsJournal hslot) (h.placed.le_slot hslot))
      | allocInode =>
          show DiskManager.Goes dm dm.allocInode.2
          obtain hrun | ⟨i, -, -, hrun⟩ := dm.allocInode_cases
          · rw [hrun]
            exact hstay.congr rfl rfl ⟨h.placed.first, h.placed.rest⟩ h.superblock
          · rw [hrun]
            exact .growTable horderly h
      | allocData size =>
          have hnext := dm.le_nextDataOffset_allocData horderly h.superblock.next_ge
          show DiskManager.Goes dm (dm.allocData size).2
          obtain ⟨superblock, freeList, next, hframe, hmagic⟩ := dm.allocData_frame size
          rw [hframe] at hnext ⊢
          exact hstay.congr rfl rfl ⟨h.placed.first, h.placed.rest⟩ ⟨hmagic.trans h.superblock.magic_eq, hnext⟩
      | freeData offset length =>
          exact hstay.congr rfl rfl h.placed h.superblock
      | writeFileData offset data =>
          exact .journaled (dm.writeFileData_frame offset data)
            (DiskManager.writeFileData_proper horderly.1 horderly.2 h.valid) h
  | flush => exact hstay.flush horderly
  | writeSuperblock => exact hstay.superblockWrite
  | writeSnapshot index snap =>
      rw [ManagerOp.run, DiskManager.writeSnapshot]
      split
      · exact hstay
      · next hindex =>
        exact hstay.write_snapshot (Nat.not_le.mp hindex) snap.length_toBytes
  | zeroSnapshotSlot index =>
      rw [ManagerOp.run, DiskManager.zeroSnapshotSlot]
      split
      · exact hstay
      · next hindex =>
        exact hstay.write_snapshot (Nat.not_le.mp hindex)
          (length_zeros snapshotRecordSize)

/-! ### Opening -/

/-- The entries of a journal that is read are determined. -/
theorem Readable.unique {img : Image} {h h' : JournalHeader} {es es' : List JournalEntry}
    (hr : Readable img h es) (hr' : Readable img h' es') :
  es = es'
  := by
  have hread := @Readable.readEntries _ _ _ (File.ofImage img) hr 512 0 (Nat.zero_le _) rfl
  rw [@Readable.readEntries _ _ _ (File.ofImage img) hr' 512 0 (Nat.zero_le _) rfl] at hread
  exact (Except.ok.inj hread).symm

omit [Crc32] in
/-- Replaying harmless entries writes past the journal and the first 4096 bytes. -/
theorem past_of_mem_replayed {es : List JournalEntry} (hes : ∀ e ∈ es, e.Harmless)
    {w : FileWrite} (hw : w ∈ replayed es) :
  AvoidsJournal w ∧ inodeTableOffset ≤ w.offset
  := by
  obtain ⟨e, he, rfl⟩ := List.mem_map.mp hw
  obtain ⟨hmem, htype⟩ := Journal.isWrite_of_mem_toReplay he
  apply (hes e hmem).past
  simp only [JournalEntry.isWrite, Bool.or_eq_true, beq_iff_eq]
  exact htype

namespace Bootable

variable {img : Image} {hd : JournalHeader} {es : List JournalEntry}

/-- What opening reads of a bootable image. -/
theorem readable (h : Bootable img) :
  ∃ hd es, Readable img hd es ∧ ∀ e ∈ es, e.Harmless
  := by
  obtain ⟨hd, slots, hh, hslots⟩ := h.journal
  refine ⟨hd, leading slots, hh.readable, ?_⟩
  intro e he
  obtain ⟨i, hi, rfl⟩ := List.getElem_of_mem he
  exact hslots _ _ (getElem_leadingFrom 512 0 hi)

/-- Opening makes harmless writes. -/
theorem harmlessTo_recoveredFile (hvalid : hd.isValid = true) (hes : ∀ e ∈ es, e.Harmless) :
  HarmlessTo (File.ofImage img) (recoveredFile img hd es)
  := by
  unfold recoveredFile
  split
  · exact .refl _
  · apply HarmlessTo.append (harmless_of_mem_clearWrites hvalid)
    apply HarmlessTo.append _ (.refl _)
    intro w hw
    obtain ⟨havoids, hlow⟩ := past_of_mem_replayed hes hw
    exact .past havoids hlow

/-- A bootable image opens, by harmless writes, to a proper manager. -/
theorem open_eq (hr : Readable img hd es) (h : Bootable img) :
  ∃ superblock, img.slice superblockOffset superblockBytes = superblock.toBytes
    ∧ DiskManager.open img = .ok (recovered img hd es superblock)
    ∧ HarmlessTo (File.ofImage img) (recoveredFile img hd es)
    ∧ (recovered img hd es superblock).Proper
  := by
  obtain ⟨superblock, hsuper, hslice⟩ := h.superblock
  have hes : ∀ e ∈ es, e.Harmless := by
    obtain ⟨hd', es', hr', hes'⟩ := h.readable
    rw [hr.unique hr']
    exact hes'
  have hto := @harmlessTo_recoveredFile _ img _ _ hr.valid hes
  have hboot := @HarmlessTo.bootable _ (File.ofImage img) _ h hto
  have hopen := open_of_readable hr (fun e he => (hes e he).fits) hslice hsuper.magic_eq
  refine ⟨superblock, hslice, hopen, hto, hboot, ?_, ?_,
    ⟨hsuper.magic_eq, hsuper.next_ge⟩⟩
  · show (recoveredJournal hd es).header.isValid = true
    unfold recoveredJournal
    split <;> exact hr.valid
  · obtain ⟨table, hplaced, hdir⟩ := hboot.directory
    exact hplaced.congr (InodeTable.blockOffsets_ofImage hplaced.first hdir)

/-- What opening a bootable image gives. -/
theorem «open» {dm : DiskManager} (hopen : DiskManager.open img = .ok dm) (h : Bootable img) :
  HarmlessTo (File.ofImage img) dm.file ∧ dm.Proper
  := by
  obtain ⟨hd, es, hr, -⟩ := h.readable
  obtain ⟨superblock, -, hopen', hto, hproper⟩ := h.open_eq hr
  obtain rfl := Except.ok.inj (hopen.symm.trans hopen')
  exact ⟨hto, hproper⟩

end Bootable

/-! ### Lives of an image -/

/-- The lives of an image from formatting on in which every operation is orderly.  A crash may
come between any two file writes of an operation and of an opening; closing is a crash after
the last write. -/
inductive OrderlyLife : System → Prop where
  | format (image : Image) (sizeBytes now : UInt64) :
      OrderlyLife (.running (DiskManager.format image sizeBytes now))
  | op {dm : DiskManager} (op : ManagerOp) (horderly : op.Orderly dm)
      (h : OrderlyLife (.running dm)) : OrderlyLife (.running (op.run dm))
  | crash {dm : DiskManager} {img : Image} (op : ManagerOp) (horderly : op.Orderly dm)
      (h : OrderlyLife (.running dm)) (hcrash : File.Crash dm.file (op.run dm).file img) :
      OrderlyLife (.stopped img)
  | open {img : Image} {dm : DiskManager} (h : OrderlyLife (.stopped img))
      (hopen : DiskManager.open img = .ok dm) : OrderlyLife (.running dm)
  | crashOpen {img img' : Image} {dm : DiskManager} (h : OrderlyLife (.stopped img))
      (hopen : DiskManager.open img = .ok dm)
      (hcrash : File.Crash (File.ofImage img) dm.file img') : OrderlyLife (.stopped img')

/-- A proper manager, or a bootable image. -/
def System.Proper : System → Prop
  | .running dm => dm.Proper
  | .stopped img => Bootable img

/-- A formatted image is in order. -/
theorem DiskManager.Proper.format (image : Image) (sizeBytes now : UInt64) :
  (DiskManager.format image sizeBytes now).Proper
  := by
  have hs := steady_format image sizeBytes now
  have hplaced := InodeTable.placed_new (UInt64.ofNat dataOffset)
  have hsuper : (DiskManager.format image sizeBytes now).superblock.Harmless :=
    ⟨rfl, Nat.le_refl _⟩
  refine ⟨⟨⟨_, _, Holds.of_tidy hs.tidy, fun i e he => ?_⟩, ?_, ?_⟩, rfl, hplaced, hsuper⟩
  · cases he
  · exact ⟨_, hsuper, slice_superblock_format image sizeBytes now⟩
  · refine ⟨_, hplaced, ?_⟩
    rw [image_format]
    exact Image.slice_write_eq _ inodeBlockDirOffset (length_dirBytes _)

/-- Everything stays proper in an orderly life. -/
theorem OrderlyLife.proper {system : System} (h : OrderlyLife system) :
  system.Proper
  := by
  induction h with
  | format image sizeBytes now => exact .format image sizeBytes now
  | op op horderly h ih => exact (DiskManager.Goes.run horderly ih).proper
  | crash op horderly h hcrash ih =>
      exact ((DiskManager.Goes.run horderly ih).harmless.through ih.image).crash hcrash
  | «open» h hopen ih => exact (Bootable.open hopen ih).2
  | @crashOpen img _ _ h hopen hcrash ih =>
      have hto := (Bootable.open hopen ih).1
      exact (HarmlessTo.through (f := File.ofImage img) ih hto).crash hcrash

/-! ### Openings that are interrupted -/

/-- What a crash in an opening of an image leaves. -/
def CrashedOpening (img img' : Image) : Prop :=
  ∃ dm, DiskManager.open img = .ok dm ∧ File.Crash (File.ofImage img) dm.file img'

/-- Replaying harmless entries leaves the journal to be read again. -/
theorem Readable.writeAll_replayed {img : Image} {hd : JournalHeader} {es : List JournalEntry}
    {ws : List FileWrite} (hr : Readable img hd es) (hes : ∀ e ∈ es, e.Harmless)
    (hws : ws <+: replayed es) :
  Readable (img.writeAll ws) hd es
  := by
  apply hr.congr (Image.size_le_size_writeAll _ _)
  intro i hlo hhi
  rw [Image.byte_writeAll, written_eq_none.mpr, Option.getD_none]
  intro w hw
  obtain hstop | hoffset := (past_of_mem_replayed hes (hws.subset hw)).1
  · exact FileWrite.byteAt_eq_none.mpr (Or.inr (hstop.trans hlo))
  · exact FileWrite.byteAt_eq_none.mpr (Or.inl (Nat.lt_of_lt_of_le hhi hoffset))

/-- While the journal is replayed and cleared, the image recovers to what it did. -/
theorem Recovers.through_open {img target : Image} {hd : JournalHeader} {es : List JournalEntry}
    (hr : Readable img hd es) (hes : ∀ e ∈ es, e.Harmless) (h : Recovers img target) :
  File.Through (Recovers · target) (File.ofImage img) (recoveredFile img hd es)
  := by
  obtain ⟨hd', es', hr', hfits, heq⟩ := h
  obtain rfl := hr.unique hr'
  have hagain : ∀ ws, ws <+: replayed es →
      Set.EqOn ((img.writeAll ws).writeAll (replayed es)).byte target.byte outsideJournal := by
    intro ws hws i hi
    rw [byte_writeAll_of_isPrefix hws]
    exact heq hi
  unfold recoveredFile
  split
  · exact .refl ⟨hd, es, hr, hfits, heq⟩
  · refine File.Through.trans (g := (File.ofImage img).append (replayed es)) ?_ ?_
    · exact File.through_append fun ws hws =>
      ⟨hd, es, hr.writeAll_replayed hes hws, hfits, hagain ws hws⟩
    · have hall := hr.writeAll_replayed hes (List.prefix_refl _)
      have himage : ((File.ofImage img).append (replayed es)).image
          = img.writeAll (replayed es) := File.image_append _ _
      rw [← himage] at hall
      apply (hall.through_clear hr.valid).mono
      rintro img' ⟨hd', es', rfl | rfl, hr', hout⟩
      · refine ⟨hd', es', hr', hfits, ?_⟩
        rw [himage] at hout
        exact (Image.eqOn_writeAll _ hout).trans (hagain _ (List.prefix_refl _))
      · rw [himage] at hout
        exact recovers_of_nil hr' (hout.trans heq)

/-- However often opening is interrupted, the image stays bootable, and recovers to what it
did. -/
theorem Bootable.crashedOpenings {img img' target : Image} (h : Bootable img)
    (hrec : Recovers img target) (hagain : Relation.ReflTransGen CrashedOpening img img') :
  Bootable img' ∧ Recovers img' target
  := by
  induction hagain with
  | refl => exact ⟨h, hrec⟩
  | tail _ hcrashed ih =>
      obtain ⟨hboot, hrec⟩ := ih
      obtain ⟨dm, hopen, hcrash⟩ := hcrashed
      obtain ⟨hd, es, hr, hes⟩ := hboot.readable
      obtain ⟨superblock, -, hopen', hto, -⟩ := hboot.open_eq hr
      obtain rfl := Except.ok.inj (hopen.symm.trans hopen')
      exact ⟨(HarmlessTo.through (f := File.ofImage _) hboot hto).crash hcrash,
        (hrec.through_open hr hes).crash hcrash⟩

/-- The free list that is loaded depends on the first 4096 bytes alone. -/
theorem FreeList.load_congr {file file' : File} (hsize : inodeTableOffset ≤ file.image.size)
    (hsize' : inodeTableOffset ≤ file'.image.size)
    (hbytes : ∀ i < inodeTableOffset, file'.image.byte i = file.image.byte i) :
  load file' = load file
  := by
  have hread : ∀ offset n, offset + n ≤ inodeTableOffset →
      readBytes file' offset n = readBytes file offset n := by
    intro offset n hle
    rw [readBytes_of_le (hle.trans hsize), readBytes_of_le (hle.trans hsize')]
    congr 1
    apply Image.slice_congr
    intro i _ hi
    exact hbytes i (Nat.lt_of_lt_of_le hi hle)
  have hheader : readBytes file freeListOffset freeListHeader
      = .ok (file.image.slice freeListOffset freeListHeader) :=
    readBytes_of_le (Nat.le_trans (by decide) hsize)
  unfold load
  rw [hread freeListOffset freeListHeader (by decide), hheader]
  simp only [bind, Except.bind]
  split
  · rfl
  · split
    · rfl
    · next hcount =>
      have hsum : freeListOffset + freeListHeader + maxPersistedExtents * freeExtentSize
          ≤ inodeTableOffset := by decide
      have hmul := Nat.mul_le_mul_right freeExtentSize (Nat.not_lt.mp hcount)
      rw [hread _ _ (by omega)]

/-- Opening leaves nothing to replay. -/
theorem Readable.open_recoveredFile {img : Image} {hd : JournalHeader} {es : List JournalEntry}
    (hr : Readable img hd es) (hes : ∀ e ∈ es, e.Harmless) :
  ∃ journal, Journal.open (recoveredFile img hd es) = .ok (journal, [])
  := by
  unfold recoveredFile
  split
  · next hnil =>
    have hopen := @Readable.open _ _ _ (File.ofImage img) hr
    rw [hnil] at hopen
    exact ⟨_, hopen⟩
  · have hall : Readable ((img.writeAll (replayed es)).write
        (headerWrite { hd with entryCount := 0 })) { hd with entryCount := 0 } es :=
      (hr.writeAll_replayed hes (List.prefix_refl _)).write_header hr.valid
    have hempty := (tidy_zeroSlots hall.valid hall.header).toReadable
    have himage : (((File.ofImage img).append (replayed es)).append (clearWrites hd)).image
        = ((img.writeAll (replayed es)).write (headerWrite { hd with entryCount := 0 })).writeAll
          (Vexfs.zeroSlots 512) := by
      rw [File.image_append, File.image_append, clearWrites, Image.writeAll_cons]
      rfl
    rw [← himage] at hempty
    exact ⟨_, Readable.open hempty⟩

/-- However often the opening of an image is interrupted by a crash, it opens in the end, and
outside the journal it has the bytes, and the manager the superblock, the free list and the
inode table, that one opening without a crash gives.  Nothing is left to replay. -/
theorem recovery_restarts {img img' : Image} (h : OrderlyLife (.stopped img))
    (hagain : Relation.ReflTransGen CrashedOpening img img') :
  ∃ dm dm', DiskManager.open img = .ok dm ∧ DiskManager.open img' = .ok dm'
    ∧ Set.EqOn dm'.image.byte dm.image.byte outsideJournal
    ∧ dm'.superblock = dm.superblock ∧ dm'.freeList = dm.freeList
    ∧ dm'.inodeTable = dm.inodeTable
    ∧ ∃ journal, Journal.open dm'.file = .ok (journal, [])
  := by
  have hboot : Bootable img := h.proper
  obtain ⟨hd, es, hr, hes⟩ := hboot.readable
  have hfits : ∀ e ∈ es, e.Fits := fun e he => (hes e he).fits
  have hrec : Recovers img (img.writeAll (replayed es)) := ⟨hd, es, hr, hfits, Set.eqOn_refl _ _⟩
  obtain ⟨hboot', hrec'⟩ := hboot.crashedOpenings hrec hagain
  obtain ⟨hd', es', hr', hes'⟩ := hboot'.readable
  obtain ⟨superblock, hslice, hopen, -⟩ := hboot.open_eq hr
  obtain ⟨superblock', hslice', hopen', -⟩ := hboot'.open_eq hr'
  obtain ⟨hd'', es'', hr'', -, htarget⟩ := hrec'
  obtain rfl := hr'.unique hr''
  have hbytes : Set.EqOn (recovered img' hd' es' superblock').image.byte
      (recovered img hd es superblock).image.byte outsideJournal :=
    ((byte_recoveredFile img' hd' es').trans htarget).trans (byte_recoveredFile img hd es).symm
  have hout : ∀ i < inodeTableOffset, i ∈ outsideJournal := fun i hi =>
    Or.inl (Nat.lt_of_lt_of_le hi (by decide))
  have hlow : ∀ i < inodeTableOffset, img'.byte i = img.byte i := by
    intro i hi
    have hsame := htarget (hout i hi)
    rwa [byte_writeAll_low (fun w hw => (past_of_mem_replayed hes' hw).2) hi,
      byte_writeAll_low (fun w hw => (past_of_mem_replayed hes hw).2) hi] at hsame
  have hsuper : (recovered img' hd' es' superblock').superblock
      = (recovered img hd es superblock).superblock := by
    have hsame : superblock'.toBytes = superblock.toBytes := by
      rw [← hslice, ← hslice']
      apply Image.slice_congr
      intro i _ hi
      exact hlow i (Nat.lt_of_lt_of_le hi (by decide))
    have hdecode := SuperblockRaw.fromBytes_toBytes superblock'
    rw [hsame, SuperblockRaw.fromBytes_toBytes] at hdecode
    exact (Except.ok.inj hdecode).symm
  have hsize := hr.size_le.trans (size_le_recoveredFile img hd es)
  have hsize' := hr'.size_le.trans (size_le_recoveredFile img' hd' es')
  have hdata : inodeTableOffset ≤ dataOffset := by decide
  refine ⟨_, _, hopen, hopen', hbytes, hsuper, ?_, ?_, hr'.open_recoveredFile hes'⟩
  · show FreeList.ofFile (recoveredFile img' hd' es') = FreeList.ofFile (recoveredFile img hd es)
    rw [FreeList.ofFile, FreeList.ofFile, FreeList.load_congr (hdata.trans hsize)
      (hdata.trans hsize') fun i hi => hbytes (hout i hi)]
  · have hnext : (recovered img' hd' es' superblock').superblock.nextDataOffset
        = (recovered img hd es superblock).superblock.nextDataOffset := by rw [hsuper]
    have hdir : (recoveredFile img' hd' es').image.slice inodeBlockDirOffset blockDirBytes
        = (recoveredFile img hd es).image.slice inodeBlockDirOffset blockDirBytes := by
      apply Image.slice_congr
      intro i _ hi
      exact hbytes (hout i (Nat.lt_of_lt_of_le hi (by decide)))
    show InodeTable.ofImage (recoveredFile img' hd' es').image _ superblock'.nextDataOffset
      = InodeTable.ofImage (recoveredFile img hd es).image _ superblock.nextDataOffset
    rw [InodeTable.ofImage, InodeTable.ofImage, hdir, show superblock'.nextDataOffset
      = superblock.nextDataOffset from hnext]

omit [Crc32] in
/-- One byte is written to a formatted image, opening after a crash is itself interrupted, and
the image opens. -/
theorem recovery_restarts_one_byte :
  let _ := Crc32.ieee
  let dm := DiskManager.format Image.empty 0 0
  let img := (dm.writeFileData (UInt64.ofNat dataOffset) [7]).2.image
  ∃ dm₀, DiskManager.open img = .ok dm₀ ∧ ∀ img', File.Crash (File.ofImage img) dm₀.file img' →
    ∃ dm₁ dm₂, DiskManager.open img = .ok dm₁ ∧ DiskManager.open img' = .ok dm₂
      ∧ Set.EqOn dm₂.image.byte dm₁.image.byte outsideJournal
      ∧ dm₂.superblock = dm₁.superblock ∧ dm₂.freeList = dm₁.freeList
      ∧ dm₂.inodeTable = dm₁.inodeTable
      ∧ ∃ journal, Journal.open dm₂.file = .ok (journal, [])
  := by
  intro _ dm img
  let op := ManagerOp.disk (.writeFileData (UInt64.ofNat dataOffset) [7])
  have horderly : op.Orderly dm := ⟨Nat.le_refl _, by decide⟩
  have hformat : OrderlyLife (.running dm) := .format Image.empty 0 0
  have hgoes := DiskManager.Goes.run horderly (DiskManager.Proper.format Image.empty 0 0)
  have hext := (hgoes.harmless.through (DiskManager.Proper.format Image.empty 0 0).image).extended
  have hlife : OrderlyLife (.stopped img) := .crash op horderly hformat (File.Crash.last hext)
  obtain ⟨dm₀, -, hopen, -⟩ := recovery_restarts hlife .refl
  refine ⟨dm₀, hopen, fun img' hcrash => ?_⟩
  exact recovery_restarts hlife (.single ⟨dm₀, hopen, hcrash⟩)

end Vexfs
