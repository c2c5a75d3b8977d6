import Vexfs.Fs.Formatted
import Vexfs.Fuse.Session

/-!
# Mounting a formatted disk

A formatted disk has no used inode and no used snapshot record, so mounting it gives an
empty file system.
-/

namespace Vexfs

open Storage

variable [Crc32] [Zstd]

/-- A mount loads the inodes, and then the snapshots. -/
theorem VexFS.load_ok {dm : DiskManager} {fs : VexFS} (h : VexFS.load dm = .ok fs) :
  ∃ start nextId, (VexFS.new dm).loadInodes (List.range dm.inodeTable.capacity) = .ok start
    ∧ fs = { start with snapshots := { loadSnapshots dm (.new 10) (List.range maxSnapshotSlots)
      with nextId } }
  := by
  cases hstart : (VexFS.new dm).loadInodes (List.range dm.inodeTable.capacity) with
  | error e =>
      rw [load, hstart] at h
      cases h
  | ok start =>
      cases hnext : restoredNextId (loadSnapshots dm (.new 10) (List.range maxSnapshotSlots)) with
      | error e =>
          rw [load, hstart] at h
          dsimp only [bind, Except.bind] at h
          rw [hnext] at h
          cases h
      | ok nextId =>
          rw [load, hstart] at h
          dsimp only [bind, Except.bind] at h
          rw [hnext] at h
          exact ⟨start, nextId, rfl, (Except.ok.inj h).symm⟩

omit [Crc32] in
theorem VexFS.disk_loadInode {fs fs' : VexFS} {i : ℕ} {inode : InodeRaw}
    (h : fs.loadInode i inode = .ok fs') :
  fs'.disk = fs.disk
  := by
  unfold loadInode at h
  dsimp only at h
  split at h
  · cases h
  · obtain rfl := Except.ok.inj h
    rfl

/-- What loading one inode keeps, loading some keeps. -/
theorem VexFS.loadInodes_holds {I : VexFS → Prop}
    (hstep : ∀ fs fs' i inode, fs.loadInode i inode = .ok fs' → I fs → I fs')
    {fs fs' : VexFS} {is : List ℕ} (h : fs.loadInodes is = .ok fs') (hI : I fs) :
  I fs'
  := by
  induction is generalizing fs with
  | nil =>
      obtain rfl := Except.ok.inj h
      exact hI
  | cons i is ih =>
      rw [loadInodes] at h
      split at h
      · obtain rfl := Except.ok.inj h
        exact hI
      next inode hread =>
      split at h
      · cases htake : fs.loadInode i inode with
        | error e =>
            rw [htake] at h
            cases h
        | ok next =>
            rw [htake] at h
            exact ih h (hstep fs next i inode htake hI)
      · exact ih h hI

theorem VexFS.disk_loadInodes {fs fs' : VexFS} {is : List ℕ} (h : fs.loadInodes is = .ok fs') :
  fs'.disk = fs.disk
  := loadInodes_holds (I := fun fs' => fs'.disk = fs.disk)
    (fun _ _ _ _ hload hI => (disk_loadInode hload).trans hI) h rfl

omit [Crc32] in
theorem VexFS.writeBuffer_loadInode {fs fs' : VexFS} {i : ℕ} {inode : InodeRaw}
    (h : fs.loadInode i inode = .ok fs') :
  fs'.writeBuffer = fs.writeBuffer
  := by
  unfold loadInode at h
  dsimp only at h
  split at h
  · cases h
  · obtain rfl := Except.ok.inj h
    rfl

/-- A mount leaves the disk alone. -/
theorem VexFS.disk_load {dm : DiskManager} {fs : VexFS} (h : load dm = .ok fs) :
  fs.disk = dm
  := by
  obtain ⟨start, nextId, hstart, rfl⟩ := load_ok h
  have hdisk : start.disk = (VexFS.new dm).disk := disk_loadInodes hstart
  exact hdisk

/-- Nothing waits to be written when a file system is mounted. -/
theorem VexFS.writeBuffer_load {dm : DiskManager} {fs : VexFS} (h : load dm = .ok fs) :
  fs.writeBuffer = .new 32 5
  := by
  obtain ⟨start, nextId, hstart, rfl⟩ := load_ok h
  have hbuffer : start.writeBuffer = (VexFS.new dm).writeBuffer :=
    loadInodes_holds (I := fun fs => fs.writeBuffer = (VexFS.new dm).writeBuffer)
      (fun _ _ _ _ hload hI => (writeBuffer_loadInode hload).trans hI) hstart rfl
  exact hbuffer

/-- Records that are not valid or have no name are not loaded. -/
theorem VexFS.loadInodes_of_skipped {fs : VexFS}
    (h : ∀ i inode, fs.disk.readInode i = .ok inode →
      ¬ (inode.isValid = true ∧ inode.getName ≠ "")) (is : List ℕ) :
  fs.loadInodes is = .ok fs
  := by
  induction is with
  | nil => rfl
  | cons i is ih =>
      rw [loadInodes]
      split
      · rfl
      · next inode hread => rw [if_neg (h i inode hread), ih]

omit [Crc32] [Zstd] in
theorem InodeRaw.isValid_of_unused {inode : InodeRaw} (h : inode.isUsed = 0) :
  ¬ inode.isValid = true
  := by simp [isValid, h]

omit [Zstd] in
/-- No snapshot record is used. -/
def DiskManager.NoSnapshots (dm : DiskManager) : Prop :=
  ∀ k record, dm.readSnapshot k = .ok record → record.isUsed = 0

omit [Zstd] in
theorem VexFS.loadSnapshots_of_unused {disk : DiskManager} (h : disk.NoSnapshots)
    (m : SnapshotManager) (is : List ℕ) :
  loadSnapshots disk m is = m
  := by
  induction is with
  | nil => rfl
  | cons i is ih =>
      rw [loadSnapshots]
      split
      · rfl
      · next record hread =>
        have hinvalid : ¬ record.isValid snapshotMagic = true := by
          simp [SnapshotRaw.isValid, h i record hread]
        rw [if_neg fun hvalid => hinvalid hvalid.1, ih]

/-- Mounting a disk of which nothing is loaded gives an empty file system. -/
theorem VexFS.load_of_skipped {dm : DiskManager}
    (h : ∀ i inode, dm.readInode i = .ok inode →
      ¬ (inode.isValid = true ∧ inode.getName ≠ "")) (hsnapshots : dm.NoSnapshots) :
  VexFS.load dm = .ok (VexFS.new dm)
  := by
  have hinodes : ∀ is, (VexFS.new dm).loadInodes is = .ok (VexFS.new dm) :=
    loadInodes_of_skipped h
  rw [VexFS.load, hinodes, loadSnapshots_of_unused hsnapshots]
  rfl

omit [Zstd] in
theorem noSnapshots_format (image : Image) (sizeBytes now : UInt64) :
  (DiskManager.format image sizeBytes now).NoSnapshots
  := fun _ _ h => DiskManager.readSnapshot_format image sizeBytes now h

/-- Mounting a formatted disk gives an empty file system. -/
theorem load_format (image : Image) (sizeBytes now : UInt64) :
  VexFS.load (DiskManager.format image sizeBytes now)
    = .ok (VexFS.new (DiskManager.format image sizeBytes now))
  := by
  apply VexFS.load_of_skipped _ (noSnapshots_format image sizeBytes now)
  intro i inode hread hnamed
  exact InodeRaw.isValid_of_unused (DiskManager.readInode_format image sizeBytes now hread)
    hnamed.1

/-- The sessions of a freshly formatted image. -/
def FreshSession (image : Image) (sizeBytes now : UInt64) (s : Session) : Prop :=
  ∃ start, VexFS.load (DiskManager.format image sizeBytes now) = .ok start ∧ Reachable start s

/-- They start with an empty file system. -/
theorem FreshSession.reachable {image : Image} {sizeBytes now : UInt64} {s : Session}
    (h : FreshSession image sizeBytes now s) :
  Reachable (VexFS.new (DiskManager.format image sizeBytes now)) s
  := by
  obtain ⟨start, hload, hreach⟩ := h
  obtain rfl : VexFS.new (DiskManager.format image sizeBytes now) = start :=
    Except.ok.inj ((load_format image sizeBytes now).symm.trans hload)
  exact hreach

theorem FreshSession.of_reachable {image : Image} {sizeBytes now : UInt64} {s : Session}
    (h : Reachable (VexFS.new (DiskManager.format image sizeBytes now)) s) :
  FreshSession image sizeBytes now s
  := ⟨_, load_format image sizeBytes now, h⟩

end Vexfs
