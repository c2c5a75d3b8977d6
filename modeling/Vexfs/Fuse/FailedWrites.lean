import Vexfs.Fuse.DiskCall
import Vexfs.Fuse.StoredSize

/-!
# Data that cannot be written

Writing the data of a file fails when the journal has no room for it, and changes no byte then.
`persist_to_disk` has freed the old extent by that time, and it goes on: it writes the inode as
if the data were there.  So what was there before is kept only when the allocator gives back
the place the inode had, and the new data is held only where it was before
(`failed_write_iff`).
-/

namespace Vexfs

open Storage

variable [Crc32]

/-! ### The disk after a failed write -/

namespace DiskManager

variable {dm : DiskManager} {offset : UInt64} {bytes : List UInt8}

/-- A data write that fails changes no byte. -/
theorem snd_writeFileData_of_error {e : DiskError}
    (h : (dm.writeFileData offset bytes).1 = .error e) :
  (dm.writeFileData offset bytes).2 = { dm with journal := dm.journal.begin.2 }
  := by
  have hne : bytes ≠ [] := by
    rintro rfl
    cases h
  by_cases hroom : dm.journal.nextSlot + (chunks journalPayloadSize bytes).length + 1 ≤ 512
  · rw [dm.writeFileData_ok offset hne hroom] at h
    cases h
  · obtain ⟨e, hfull⟩ := dm.writeFileData_of_full offset hne hroom
    rw [hfull]

/-- The inode is written although its data is not. -/
theorem readInode_store_of_error {e : DiskError} {i : ℕ} {inode : InodeRaw}
    (hplaced : dm.inodeTable.Placed) (hroom : dm.journal.nextSlot ≤ 495)
    (hslot : dm.inodeTable.inodeOffset i ≠ none)
    (h : (dm.writeFileData offset bytes).1 = .error e) :
  (VexFS.store dm offset bytes i inode).readInode i = .ok inode
  := by
  have hne : bytes ≠ [] := by
    rintro rfl
    cases h
  let failed : DiskManager := { dm with journal := dm.journal.begin.2 }
  have hstore : VexFS.store dm offset bytes i inode = (failed.writeInode i inode).2.flush := by
    unfold VexFS.store
    rw [if_pos hne, snd_writeFileData_of_error h]
  rw [hstore]
  exact readInode_writeInode_flush hplaced (hroom.trans (by decide)) hslot

end DiskManager

variable [Zstd]

/-! ### What a piece leaves of the data it persists -/

omit [Crc32] [Zstd] in
/-- The piece that takes the write it persists out of the buffer. -/
def Call.TakesWrite : Call → Prop
  | .persistBuffered _ _ => True
  | _ => False

namespace PersistCall

variable {fs : VexFS} {c : Call} {pc : PersistCall} {f : VexFile}

/-- After a file is persisted, a write waits for it exactly if it was not the one that was
persisted. -/
theorem get_writeBuffer_persist (hcall : c.persistCall fs = some pc) {w : PendingWrite} :
  (c.run fs).writeBuffer.get pc.ino = some w
    ↔ ¬ c.TakesWrite ∧ fs.writeBuffer.get pc.ino = some w
  := by
  obtain ⟨p, ino, name, data, diskIndex⟩ := pc
  obtain ⟨rfl, w', hw, -⟩ | ⟨rfl, -⟩ | ⟨rfl, -⟩ := origin hcall
  · have htake : fs.writeBuffer.take ino = (some w', (fs.writeBuffer.take ino).2) :=
      Prod.ext hw rfl
    rw [Call.run, VexFS.persistBuffered, htake]
    show (fs.writeBuffer.take ino).2.get ino = some w ↔ _
    rw [WriteBuffer.get_take, if_pos rfl]
    exact iff_of_false (fun h => by cases h) fun h => h.1 trivial
  · have hbuffer : ((Call.persistCached p ino).run fs).writeBuffer = fs.writeBuffer := by
      rw [Call.run, VexFS.persistCached]
      split
      · rfl
      split <;> rfl
    rw [hbuffer]
    exact ⟨fun h => ⟨id, h⟩, fun h => h.2⟩
  · have hbuffer : ((Call.persistRecovered p ino).run fs).writeBuffer = fs.writeBuffer := by
      rw [Call.run, VexFS.persistRecovered]
      split
      · rfl
      split <;> rfl
    rw [hbuffer]
    exact ⟨fun h => ⟨id, h⟩, fun h => h.2⟩

/-- Persisting a file leaves what is cached. -/
theorem contents_persist (hcall : c.persistCall fs = some pc) :
  (c.run fs).cache.contents = fs.cache.contents
  := by
  obtain ⟨p, ino, name, data, diskIndex⟩ := pc
  obtain ⟨rfl, -⟩ | ⟨rfl, -⟩ | ⟨rfl, -⟩ := origin hcall
  · rw [Call.run, VexFS.persistBuffered]
    split <;> rfl
  · have hget := fs.cache.contents_get ino
    rw [Call.run, VexFS.persistCached]
    split
    · rfl
    split
    · next cache heq =>
      rw [heq] at hget
      exact hget
    · next bytes cache heq =>
      rw [heq] at hget
      exact hget
  · rw [Call.run, VexFS.persistRecovered]
    split
    · rfl
    split <;> rfl

/-- Nothing is freed or taken after the space for the data is. -/
theorem freeList_persist (hcall : c.persistCall fs = some pc) :
  (c.run fs).disk.freeList = (pc.placed fs).2.freeList
  := by
  rw [(run_eq hcall).1, disk_run]
  obtain ⟨journal, file, hframe⟩ := DiskManager.store_frame (pc.placed fs).2 (pc.placed fs).1
    pc.bytes pc.diskIndex (pc.record fs)
  rw [hframe]

/-! ### Keeping the old version -/

/-- The data of a file that is persisted cannot be written. -/
def WriteFails (fs : VexFS) (pc : PersistCall) : Prop :=
  ∃ e, ((pc.placed fs).2.writeFileData (pc.placed fs).1 pc.bytes).1 = .error e

/-- The state after a file is persisted, where the caller goes on to count the file as clean,
which those that evict do, or does not. -/
def settled (fs : VexFS) (c : Call) (pc : PersistCall) (cleaned : Bool) : VexFS :=
  if cleaned then (c.run fs).clean pc.ino else c.run fs

/-- In a state, the inode of a file refers to the extent that `old` does, which is not free,
and the data that was to be persisted is still held for the file. -/
structure KeepsOld (pc : PersistCall) (now : VexFS) (old : InodeRaw) : Prop where
  inode : ∃ new, now.disk.readInode pc.diskIndex = .ok new
    ∧ new.dataOffset = old.dataOffset ∧ new.size = old.size
  extent : ∀ e ∈ now.disk.freeList.extents,
    Disjoint e.bytes (dataRange old.dataOffset old.size.toNat)
  held : (∃ w, now.writeBuffer.get pc.ino = some w ∧ w.data = pc.data)
    ∨ ∃ f, now.files.get pc.ino = some f ∧ f.dirty = true
      ∧ now.cache.contents pc.ino = some pc.data

/-- Before a file is persisted: once its extent is freed, the allocator gives the extent of the
inode `old` for as many bytes again and leaves none of it free, and the data is held for the
file besides the write that is taken out of the buffer and the flag that is cleared. -/
structure Retains (pc : PersistCall) (fs : VexFS) (c : Call) (cleaned : Bool) (old : InodeRaw) :
    Prop where
  inode : (pc.placed fs).1 = old.dataOffset ∧ UInt64.ofNat pc.data.length = old.size
  extent : ∀ e ∈ (pc.placed fs).2.freeList.extents,
    Disjoint e.bytes (dataRange old.dataOffset old.size.toNat)
  held : (¬ c.TakesWrite ∧ ∃ w, fs.writeBuffer.get pc.ino = some w ∧ w.data = pc.data)
    ∨ cleaned = false ∧ ∃ f, fs.files.get pc.ino = some f ∧ f.dirty = true
      ∧ fs.cache.contents pc.ino = some pc.data

omit [Crc32] [Zstd] in
/-- A file that counts as clean is not dirty. -/
theorem not_dirty_of_clean {ino : UInt64} (h : (fs.clean ino).files.get ino = some f) :
  f.dirty = false
  := by
  obtain ⟨f₀, -, rfl⟩ := FiniteMap.get_of_get_modify h
  rw [if_pos rfl]

/-- The data is held after a file is persisted where it was before, besides what is taken and
cleared. -/
theorem held_settled_iff (hcall : c.persistCall fs = some pc) (cleaned : Bool) :
  ((∃ w, (pc.settled fs c cleaned).writeBuffer.get pc.ino = some w ∧ w.data = pc.data)
      ∨ ∃ f, (pc.settled fs c cleaned).files.get pc.ino = some f ∧ f.dirty = true
        ∧ (pc.settled fs c cleaned).cache.contents pc.ino = some pc.data)
    ↔ (¬ c.TakesWrite ∧ ∃ w, fs.writeBuffer.get pc.ino = some w ∧ w.data = pc.data)
      ∨ cleaned = false ∧ ∃ f, fs.files.get pc.ino = some f ∧ f.dirty = true
        ∧ fs.cache.contents pc.ino = some pc.data
  := by
  have hbuffer : (pc.settled fs c cleaned).writeBuffer = (c.run fs).writeBuffer := by
    cases cleaned <;> rfl
  apply or_congr
  · rw [hbuffer]
    constructor
    · rintro ⟨w, hw, hdata⟩
      obtain ⟨hnot, hw⟩ := (get_writeBuffer_persist hcall).mp hw
      exact ⟨hnot, w, hw, hdata⟩
    · rintro ⟨hnot, w, hw, hdata⟩
      exact ⟨w, (get_writeBuffer_persist hcall).mpr ⟨hnot, hw⟩, hdata⟩
  · cases cleaned with
    | true =>
        constructor
        · rintro ⟨f, hf, hdirty, -⟩
          rw [not_dirty_of_clean hf] at hdirty
          cases hdirty
        · exact fun h => by cases h.1
    | false =>
        show (∃ f, (c.run fs).files.get pc.ino = some f ∧ f.dirty = true
          ∧ (c.run fs).cache.contents pc.ino = some pc.data) ↔ _
        rw [contents_persist hcall, (run_eq hcall).2, files_run]
        constructor
        · rintro ⟨f, hf, hdirty, hcached⟩
          obtain ⟨f₀, hf₀, rfl⟩ := FiniteMap.get_of_get_modify hf
          rw [if_pos rfl] at hdirty
          exact ⟨rfl, f₀, hf₀, hdirty, hcached⟩
        · rintro ⟨-, f, hf, hdirty, hcached⟩
          refine ⟨{ f with dataOffset := (pc.placed fs).1 }, ?_, hdirty, hcached⟩
          rw [FiniteMap.get_modify, if_pos rfl, hf]
          rfl

/-- When the data of a file cannot be written, its slot has the record all the same. -/
theorem readInode_persist (hcall : c.persistCall fs = some pc) (hkept : fs.disk.Kept)
    {old : InodeRaw} (hold : fs.disk.readInode pc.diskIndex = .ok old) (hused : old.isUsed ≠ 0)
    (hfails : pc.WriteFails fs) :
  (c.run fs).disk.readInode pc.diskIndex = .ok (pc.record fs)
  := by
  obtain ⟨e, hfails⟩ := hfails
  have hfree : (VexFS.freeExtent fs.disk (fs.oldExtent pc.ino)).journal = fs.disk.journal
      ∧ (VexFS.freeExtent fs.disk (fs.oldExtent pc.ino)).inodeTable = fs.disk.inodeTable := by
    cases fs.oldExtent pc.ino with
    | none => exact ⟨rfl, rfl⟩
    | some extent => exact ⟨rfl, rfl⟩
  obtain ⟨-, hjournal, hblocks⟩ := DiskManager.allocFor_frame
    (VexFS.freeExtent fs.disk (fs.oldExtent pc.ino)) pc.bytes
  rw [hfree.1] at hjournal
  rw [hfree.2] at hblocks
  have hslot : (pc.placed fs).2.inodeTable.inodeOffset pc.diskIndex ≠ none := by
    show (VexFS.allocFor _ _).2.inodeTable.inodeOffset pc.diskIndex ≠ none
    rw [InodeTable.inodeOffset_congr hblocks]
    exact DiskManager.inodeOffset_ne_none_of_used hold hused
  rw [(run_eq hcall).1, disk_run]
  apply DiskManager.readInode_store_of_error (hkept.placed.congr hblocks) _ hslot hfails
  show (VexFS.allocFor _ _).2.journal.nextSlot ≤ 495
  rw [hjournal]
  exact hkept.room

/-- When the data of a file cannot be written, on a disk in order, the file keeps its old version
and the data is held exactly when the allocator gives back the extent of the inode and the data
is held besides what is taken and cleared. -/
theorem keepsOld_iff (hcall : c.persistCall fs = some pc) (hkept : fs.disk.Kept)
    {old : InodeRaw} (hold : fs.disk.readInode pc.diskIndex = .ok old) (hused : old.isUsed ≠ 0)
    (hfails : pc.WriteFails fs) (cleaned : Bool) :
  pc.KeepsOld (pc.settled fs c cleaned) old ↔ pc.Retains fs c cleaned old
  := by
  have hdisk : (pc.settled fs c cleaned).disk = (c.run fs).disk := by
    cases cleaned <;> rfl
  have hread := readInode_persist hcall hkept hold hused hfails
  have hfree := freeList_persist hcall
  have hheld := held_settled_iff hcall cleaned
  rw [← hdisk] at hread hfree
  constructor
  · rintro ⟨⟨new, hnew, hoffset, hsize⟩, hextent, hdata⟩
    rw [hread] at hnew
    obtain rfl := Except.ok.inj hnew
    rw [hfree] at hextent
    exact ⟨⟨hoffset, hsize⟩, hextent, hheld.mp hdata⟩
  · rintro ⟨⟨hoffset, hsize⟩, hextent, hdata⟩
    rw [← hfree] at hextent
    exact ⟨⟨_, hread, hoffset, hsize⟩, hextent, hheld.mpr hdata⟩

end PersistCall

/-! ### Sessions -/

/-- A disk that is in order stays so as long as the pieces fit. -/
theorem MountedSession.inOrder {dm : DiskManager} {s : Session} (h : MountedSession dm s)
    (horder : dm.InOrder) {log : List (VexFS × Call)} {now : VexFS} (hat : s.At log now)
    (hfits : FitsDisk log) :
  now.disk.InOrder
  := by
  obtain ⟨start, hload, hreach⟩ := h
  obtain ⟨hleads, -⟩ := hreach.leads_at hat
  have hstart : start.disk.InOrder := by
    rw [VexFS.disk_load hload]
    exact horder
  exact (hleads.holds (I := fun fs => fs.disk.InOrder)
    (fun e he => Call.inOrder_run (hfits e he)) hstart).1

/-- In every session of a disk in order whose pieces fit, when the data of a file that is
persisted cannot be written, the file keeps its old version and the data is held exactly when
the allocator gives back the extent of the inode and the data is held besides what is taken and
cleared. -/
theorem failed_write_iff {dm : DiskManager} {s : Session} (h : MountedSession dm s)
    (horder : dm.InOrder) {log : List (VexFS × Call)} {fs : VexFS} {c : Call} {pc : PersistCall}
    {old : InodeRaw} (hlog : log ++ [(fs, c)] <+: s.log) (hfits : FitsDisk log)
    (hcall : c.persistCall fs = some pc) (hold : fs.disk.readInode pc.diskIndex = .ok old)
    (hused : old.isUsed ≠ 0) (hfails : pc.WriteFails fs) (cleaned : Bool) :
  pc.KeepsOld (pc.settled fs c cleaned) old ↔ pc.Retains fs c cleaned old
  := by
  have hdisk := h.inOrder horder (Or.inr ⟨c, hlog⟩) hfits
  exact PersistCall.keepsOld_iff hcall hdisk.kept hold hused hfails cleaned

/-! ### Data for which the journal has no room -/

omit [Crc32] [Zstd] in
/-- Contents that take all slots of the journal, and so leave none for the commit. -/
def wideContents : List UInt8 := List.replicate (511 * journalPayloadSize + 1) 0

omit [Crc32] [Zstd] in
theorem length_wideContents :
  wideContents.length = 511 * journalPayloadSize + 1
  := List.length_replicate

omit [Zstd] in
/-- They can never be written. -/
theorem DiskManager.writeFileData_wideContents (dm : DiskManager) (offset : UInt64) :
  ∃ e, (dm.writeFileData offset wideContents).1 = .error e
  := by
  have hlength := length_wideContents
  have hne : wideContents ≠ [] := by
    intro hnil
    rw [hnil] at hlength
    cases hlength
  have hchunks : (chunks journalPayloadSize wideContents).length = 512 := by
    rw [length_chunks (by decide), hlength]
    rfl
  obtain ⟨e, hfull⟩ := dm.writeFileData_of_full offset hne (by omega)
  exact ⟨e, congrArg Prod.fst hfull⟩

/-- What the environment supplies, with the first file in the hot tier. -/
def Env.hot : Env := { Env.still with persistence := fun _ => ⟨[("a", "🔥 HOT")], 0, 0⟩ }

/-- In some session of a formatted disk, a write that was taken out of the buffer is persisted
and its data cannot be written, while the file counts as clean. -/
theorem exists_failed_write :
  ∃ s log fs c pc old f, MountedSession (DiskManager.format Image.empty 0 0) s
    ∧ log ++ [(fs, c)] <+: s.log ∧ FitsDisk log ∧ c.persistCall fs = some pc
    ∧ fs.disk.readInode pc.diskIndex = .ok old ∧ old.isUsed ≠ 0 ∧ pc.WriteFails fs
    ∧ c.TakesWrite ∧ fs.files.get pc.ino = some f ∧ f.dirty = false
  := by
  obtain ⟨s, i, hfirst, -, -, hrecord, hfits⟩ := exists_firstFile
  have hlength : wideContents.length ≤ Session.maxCapacity := by
    rw [length_wideContents]
    decide
  have hexec₁ := Session.exec_write_of_empty Env.still (by decide) (by decide) hfirst.file
    hfirst.contents (hfirst.room.mono (Nat.zero_le _)) wideContents hlength
  let s₁ := s.wrote 2 wideContents
  have hf₁ := Session.files_wrote hfirst.file wideContents
  have hcached₁ : s₁.fs.cache.contents 2 = some wideContents := by
    rw [Session.contents_wrote hfirst.contents, if_pos rfl]
  obtain ⟨s₂, hexec₂, hfs₂, -, hlog₂⟩ :=
    Session.exec_flush_of_dirty hf₁ rfl hcached₁ hfirst.buffer
  have hf₂ := congrArg (fun fs => fs.files.get 2) hfs₂
  dsimp only at hf₂
  rw [FiniteMap.get_insert_self] at hf₂
  have hread : s₂.fs.disk.readInode i = .ok (VexFS.newInode 2 (firstFile i) 0 0) := by
    rw [hfs₂]
    exact hrecord
  have hbuffer₂ : s₂.fs.writeBuffer = (WriteBuffer.new 32 5).write 2 "a" wideContents i 0 := by
    rw [hfs₂]
    rfl
  obtain ⟨s₃, c, hexec₃, -, hlog₃, hcall, rfl⟩ :=
    Session.exec_destroy_of_write Env.hot hbuffer₂
  have hprefix : (s₂.log ++ [(s₂.fs, .request .destroy)])
      ++ [(s₂.fs, .persistBuffered (Env.hot.persistence 2) 2)] <+: s₃.log := by
    rw [hlog₃]
  obtain ⟨start, hload, hreach⟩ := hfirst.fresh
  refine ⟨s₃, _, s₂.fs, _, _, _, _,
    ⟨start, hload, .exec _ _ (.exec _ _ (.exec _ _ hreach hexec₁) hexec₂) hexec₃⟩,
    hprefix, ?_, hcall, hread, ?_, ?_, trivial, hf₂, rfl⟩
  · have hfits₂ : FitsDisk s₂.log := hlog₂ (Session.fitsDisk_wrote 2 wideContents hfits)
    exact FitsDisk.perform (c := .request .destroy) trivial hfits₂
  · show (1 : UInt8) ≠ 0
    decide
  · have hraw : PersistCall.bytes ⟨Env.hot.persistence 2, 2, "a", wideContents, i⟩
        = wideContents := by
      apply PersistCall.bytes_of_not_compressed
      intro hcompressed
      exact absurd hcompressed.1 (show ¬ (Env.hot.persistence 2).isCold "a" = true by decide)
    unfold PersistCall.WriteFails
    rw [hraw]
    exact DiskManager.writeFileData_wideContents _ _

omit [Crc32] [Zstd] in
/-- Contents that take the whole journal are lost when they are persisted, and the record of the
file has their size. -/
theorem failed_write_wide_contents :
  let _ := Crc32.ieee
  let _ := Zstd.refusing
  ∃ dm s log fs c pc old, MountedSession dm s ∧ dm.InOrder ∧ log ++ [(fs, c)] <+: s.log
    ∧ FitsDisk log ∧ c.persistCall fs = some pc ∧ fs.disk.readInode pc.diskIndex = .ok old
    ∧ old.isUsed ≠ 0 ∧ pc.WriteFails fs ∧ ∀ cleaned, ¬ pc.KeepsOld (pc.settled fs c cleaned) old
  := by
  intro _ _
  obtain ⟨s, log, fs, c, pc, old, f, hmounted, hlog, hfits, hcall, hold, hused, hfails, htakes,
    hf, hclean⟩ := exists_failed_write
  have horder := DiskManager.inOrder_format Image.empty 0 0
  refine ⟨_, s, log, fs, c, pc, old, hmounted, horder, hlog, hfits, hcall, hold, hused, hfails, ?_⟩
  intro cleaned hkeeps
  have hretains := (failed_write_iff hmounted horder hlog hfits hcall hold hused hfails
    cleaned).mp hkeeps
  obtain ⟨hnot, -⟩ | ⟨-, f', hf', hdirty, -⟩ := hretains.held
  · exact hnot htakes
  · obtain rfl := Option.some.inj (hf'.symm.trans hf)
    rw [hclean] at hdirty
    cases hdirty

omit [Crc32] [Zstd] in
/-- A write that is taken out of the buffer and cannot be written is held nowhere. -/
theorem not_failed_write :
  let _ := Crc32.ieee
  let _ := Zstd.refusing
  ¬ ∀ dm s log fs c pc old, MountedSession dm s → log ++ [(fs, c)] <+: s.log →
      c.persistCall fs = some pc → fs.disk.readInode pc.diskIndex = .ok old → old.isUsed ≠ 0 →
      pc.WriteFails fs → pc.KeepsOld (pc.settled fs c false) old
  := by
  intro _ _ h
  obtain ⟨s, log, fs, c, pc, old, f, hmounted, hlog, -, hcall, hold, hused, hfails, htakes, hf,
    hclean⟩ := exists_failed_write
  have hkeeps := h _ s log fs c pc old hmounted hlog hcall hold hused hfails
  obtain ⟨hnot, -⟩ | ⟨-, f', hf', hdirty, -⟩ :=
    (PersistCall.held_settled_iff hcall false).mp hkeeps.held
  · exact hnot htakes
  · obtain rfl := Option.some.inj (hf'.symm.trans hf)
    rw [hclean] at hdirty
    cases hdirty

end Vexfs
