import Vexfs.Fs.Formatted
import Vexfs.Fs.Rebuild

/-!
# Checking and repairing an image

`fsck` scans the inode table for damaged records and collects the extents of the files it
accepts.  When the free list has not the size that these extents leave, a repair replaces it
by one rebuilt from them.  The rebuilt list knows nothing of inode blocks, of snapshots, of
files whose name does not decode, or of the bump pointer; `fsck_safe_iff` says when it hands
out none of their bytes nevertheless.
-/

namespace Vexfs

open Bytes Storage

/-! ### The scan -/

/-- What the checker reports. -/
inductive Finding where
  | slotReadError (slot : ℕ) (e : DiskError)
  | nameInvalid (slot : ℕ)
  | duplicateName (name : String) (parent : UInt64) (prev slot : ℕ)
  | duplicateInode (ino : UInt64) (prev slot : ℕ)
  | beforeDataRegion (ino : UInt64) (name : String) (dataOffset : UInt64)
  | beyondDisk (ino : UInt64) (name : String) (dataEnd diskSize : UInt64)
  | reservedInode (ino : UInt64) (name : String)
  | staleFreeList (current expected : UInt64)
  | badMagic (expected got : UInt64)
  | unusualBlockSize (size : UInt32)
  | nextBeforeDataRegion (next : UInt64)
  | snapshotNameInvalid (slot : ℕ)
  | snapshotReadError (slot : ℕ) (e : DiskError)

/-- The counts and the lists of a check. -/
structure FsckScan where
  validInodes : ℕ
  corruptInodes : ℕ
  orphanedInodes : ℕ
  duplicateNames : ℕ
  duplicateInos : ℕ
  badDataOffsets : ℕ
  validSnaps : ℕ
  corruptSnaps : ℕ
  /-- The slots in which names, scoped by their parent, were seen, the last one first. -/
  seenNames : List (String × ℕ)
  /-- The slots in which inode numbers were seen, the last one first. -/
  seenInos : List (UInt64 × ℕ)
  usedExtents : List (UInt64 × UInt64)
  errors : List Finding
  warnings : List Finding

namespace FsckScan

def start : FsckScan where
  validInodes := 0
  corruptInodes := 0
  orphanedInodes := 0
  duplicateNames := 0
  duplicateInos := 0
  badDataOffsets := 0
  validSnaps := 0
  corruptSnaps := 0
  seenNames := []
  seenInos := []
  usedExtents := []
  errors := []
  warnings := []

def error (scan : FsckScan) (f : Finding) : FsckScan :=
  { scan with errors := scan.errors ++ [f] }

def warn (scan : FsckScan) (f : Finding) : FsckScan :=
  { scan with warnings := scan.warnings ++ [f] }

/-- Note a name, scoped by its parent, and report an earlier slot with the same one. -/
def seeName (scan : FsckScan) (i : ℕ) (inode : InodeRaw) : FsckScan :=
  let scopedKey := toString inode.getParentIno ++ ":" ++ inode.getName
  let seen := { scan with seenNames := (scopedKey, i) :: scan.seenNames }
  match scan.seenNames.lookup scopedKey with
  | none => seen
  | some prev => { seen with duplicateNames := seen.duplicateNames + 1 }.error
      (.duplicateName inode.getName inode.getParentIno prev i)

/-- Note an inode number and report an earlier slot with the same one. -/
def seeIno (scan : FsckScan) (i : ℕ) (inode : InodeRaw) : FsckScan :=
  let seen := { scan with seenInos := (inode.ino, i) :: scan.seenInos }
  match scan.seenInos.lookup inode.ino with
  | none => seen
  | some prev => { seen with duplicateInos := seen.duplicateInos + 1 }.error
      (.duplicateInode inode.ino prev i)

/-- Collect the extent of a file that is not empty and lies in the data region. -/
def seeExtent (diskSize : UInt64) (scan : FsckScan) (inode : InodeRaw) : FsckScan :=
  if 0 < inode.size then
    let dataEnd := inode.dataOffset + inode.size
    if inode.dataOffset < UInt64.ofNat dataOffset then
      { scan with badDataOffsets := scan.badDataOffsets + 1 }.error
        (.beforeDataRegion inode.ino inode.getName inode.dataOffset)
    else if diskSize < dataEnd then
      { scan with badDataOffsets := scan.badDataOffsets + 1 }.error
        (.beyondDisk inode.ino inode.getName dataEnd diskSize)
    else { scan with usedExtents := scan.usedExtents ++ [(inode.dataOffset, inode.size)] }
  else scan

def seeReserved (scan : FsckScan) (inode : InodeRaw) : FsckScan :=
  if inode.ino < 2 then scan.warn (.reservedInode inode.ino inode.getName) else scan

/-- Pass 1 on slot `i`, which reads as `r`. -/
def slot (diskSize : UInt64) (scan : FsckScan) (i : ℕ) (r : DiskResult InodeRaw) : FsckScan :=
  match r with
  | .error e => { scan with corruptInodes := scan.corruptInodes + 1 }.error (.slotReadError i e)
  | .ok inode =>
      if inode.isUsed = 0 then scan
      else if inode.getName = "" then
        { scan with orphanedInodes := scan.orphanedInodes + 1 }.warn (.nameInvalid i)
      else
        (({ scan with validInodes := scan.validInodes + 1 }.seeName i inode).seeIno i inode
          |>.seeExtent diskSize inode).seeReserved inode

/-- Pass 4 on slot `i` of the snapshot table, which reads as `r`. -/
def snapshot (scan : FsckScan) (i : ℕ) (r : DiskResult SnapshotRaw) : FsckScan :=
  match r with
  | .error e => { scan with corruptSnaps := scan.corruptSnaps + 1 }.warn (.snapshotReadError i e)
  | .ok snap =>
      if snap.isUsed = 1 then
        if snap.getName = "" then
          { scan with corruptSnaps := scan.corruptSnaps + 1 }.warn (.snapshotNameInvalid i)
        else { scan with validSnaps := scan.validSnaps + 1 }
      else scan

end FsckScan

namespace DiskManager

def diskSize (dm : DiskManager) : UInt64 :=
  dm.superblock.totalBlocks * dm.superblock.blockSize.toUInt64

variable [Crc32]

/-- Pass 1: scan the inode table. -/
def scanInodes (dm : DiskManager) : FsckScan :=
  (List.range maxFiles).foldl (fun scan i => scan.slot dm.diskSize i (dm.readInode i)) .start

/-- The free list that the scan leaves. -/
def rebuiltFreeList (dm : DiskManager) : FreeList :=
  FreeList.rebuildFromInodes dm.scanInodes.usedExtents dm.diskSize (UInt64.ofNat dataOffset)

/-- Whether the free list has another size than the extents of the files leave. -/
def StaleFreeList (dm : DiskManager) : Prop :=
  4096 < (dm.freeList.totalFreeBytes.toInt64 - dm.rebuiltFreeList.totalFreeBytes.toInt64).abs

instance decidableStaleFreeList (dm : DiskManager) : Decidable dm.StaleFreeList :=
  inferInstanceAs (Decidable (_ < _))

/-- Pass 2: compare the size of the free list, and replace the list in a repair. -/
def checkFreeList (dm : DiskManager) (repair : Bool) (scan : FsckScan) :
    FsckScan × DiskManager :=
  if dm.StaleFreeList then
    (scan.warn (.staleFreeList dm.freeList.totalFreeBytes dm.rebuiltFreeList.totalFreeBytes),
      if repair then flush { dm with freeList := dm.rebuiltFreeList } else dm)
  else (scan, dm)

/-- Pass 3: check the superblock, and move the bump pointer into the data region in a
repair. -/
def checkSuperblock (dm : DiskManager) (repair : Bool) (scan : FsckScan) :
    FsckScan × DiskManager :=
  let scan := if dm.superblock.magic ≠ magic then
      scan.error (.badMagic magic dm.superblock.magic) else scan
  let scan := if dm.superblock.blockSize ≠ 4096 then
      scan.warn (.unusualBlockSize dm.superblock.blockSize) else scan
  if dm.superblock.nextDataOffset < UInt64.ofNat dataOffset then
    (scan.error (.nextBeforeDataRegion dm.superblock.nextDataOffset),
      if repair then writeSuperblock { dm with
        superblock := { dm.superblock with nextDataOffset := UInt64.ofNat dataOffset } }
      else dm)
  else (scan, dm)

/-- Pass 4: scan the snapshot table. -/
def checkSnapshots (dm : DiskManager) (scan : FsckScan) : FsckScan :=
  (List.range 256).foldl (fun scan i => scan.snapshot i (dm.readSnapshot i)) scan

/-- Check an image that was opened, and repair it if asked to. -/
def fsck (dm : DiskManager) (repair : Bool) : FsckScan × DiskManager :=
  let (scan, dm) := dm.checkFreeList repair dm.scanInodes
  let (scan, dm) := dm.checkSuperblock repair scan
  (dm.checkSnapshots scan, dm)

end DiskManager

/-- The command that checks an image. -/
def cmdFsck [Crc32] (image : Image) (repair : Bool) : DiskResult (FsckScan × DiskManager) := do
  let dm ← DiskManager.open image
  return dm.fsck repair

/-! ### The extents collected -/

namespace InodeRaw

/-- Whether the checker collects the extent of a record: it is used and named, and its data
is not empty and lies in the data region of the disk. -/
structure Accepted (diskSize : UInt64) (inode : InodeRaw) : Prop where
  used : inode.isUsed ≠ 0
  named : inode.getName ≠ ""
  pos : 0 < inode.size
  base_le : UInt64.ofNat Vexfs.dataOffset ≤ inode.dataOffset
  le_disk : inode.dataOffset + inode.size ≤ diskSize

end InodeRaw

namespace FsckScan

theorem usedExtents_seeName (scan : FsckScan) (i : ℕ) (inode : InodeRaw) :
  (scan.seeName i inode).usedExtents = scan.usedExtents
  := by
  unfold seeName
  dsimp only
  split <;> rfl

theorem usedExtents_seeIno (scan : FsckScan) (i : ℕ) (inode : InodeRaw) :
  (scan.seeIno i inode).usedExtents = scan.usedExtents
  := by
  unfold seeIno
  dsimp only
  split <;> rfl

theorem usedExtents_seeReserved (scan : FsckScan) (inode : InodeRaw) :
  (scan.seeReserved inode).usedExtents = scan.usedExtents
  := by
  unfold seeReserved
  split <;> rfl

/-- What is collected of a slot. -/
theorem mem_usedExtents_slot {diskSize : UInt64} {scan : FsckScan} {i : ℕ}
    {r : DiskResult InodeRaw} {extent : UInt64 × UInt64} :
  extent ∈ (scan.slot diskSize i r).usedExtents ↔ extent ∈ scan.usedExtents
    ∨ ∃ inode, r = .ok inode ∧ inode.Accepted diskSize
      ∧ extent = (inode.dataOffset, inode.size)
  := by
  unfold slot
  cases r with
  | error e => simp [FsckScan.error]
  | ok inode =>
      have hnone : ¬ inode.Accepted diskSize →
          (extent ∈ scan.usedExtents ↔ extent ∈ scan.usedExtents
            ∨ ∃ x, Except.ok inode = (.ok x : DiskResult InodeRaw) ∧ x.Accepted diskSize
              ∧ extent = (x.dataOffset, x.size)) := by
        intro hnot
        constructor
        · exact Or.inl
        · rintro (hmem | ⟨x, hx, hacc, -⟩)
          · exact hmem
          · rw [Except.ok.inj hx] at hnot
            exact absurd hacc hnot
      dsimp only
      split
      · next hunused => exact hnone fun hacc => hacc.used hunused
      split
      · next hname => exact hnone fun hacc => hacc.named hname
      next hused hnamed =>
      rw [usedExtents_seeReserved, seeExtent]
      split
      · next hpos =>
        dsimp only
        split
        · next hlow =>
          simp only [FsckScan.error, usedExtents_seeIno, usedExtents_seeName]
          exact hnone fun hacc => absurd hacc.base_le (UInt64.not_le.mpr hlow)
        split
        · next hhigh =>
          simp only [FsckScan.error, usedExtents_seeIno, usedExtents_seeName]
          exact hnone fun hacc => absurd hacc.le_disk (UInt64.not_le.mpr hhigh)
        · next hlow hhigh =>
          have hacc : inode.Accepted diskSize :=
            ⟨hused, hnamed, hpos, UInt64.not_lt.mp hlow, UInt64.not_lt.mp hhigh⟩
          simp only [usedExtents_seeIno, usedExtents_seeName, List.mem_append,
            List.mem_singleton]
          apply or_congr_right
          constructor
          · exact fun heq => ⟨inode, rfl, hacc, heq⟩
          · rintro ⟨x, hx, -, heq⟩
            rw [heq, ← Except.ok.inj hx]
      · next hempty =>
        rw [usedExtents_seeIno, usedExtents_seeName]
        exact hnone fun hacc => hempty hacc.pos

end FsckScan

namespace DiskManager

variable [Crc32] {dm : DiskManager} {x : ℕ}

/-- The extents collected are those of the slots with an accepted record. -/
theorem mem_usedExtents {extent : UInt64 × UInt64} :
  extent ∈ dm.scanInodes.usedExtents ↔ ∃ i < maxFiles, ∃ inode, dm.readInode i = .ok inode
    ∧ inode.Accepted dm.diskSize ∧ extent = (inode.dataOffset, inode.size)
  := by
  have hfold : ∀ (l : List ℕ) (scan : FsckScan),
      extent ∈ (l.foldl (fun scan i => scan.slot dm.diskSize i (dm.readInode i))
          scan).usedExtents
        ↔ extent ∈ scan.usedExtents ∨ ∃ i ∈ l, ∃ inode, dm.readInode i = .ok inode
          ∧ inode.Accepted dm.diskSize ∧ extent = (inode.dataOffset, inode.size) := by
    intro l
    induction l with
    | nil => simp
    | cons i l ih =>
        intro scan
        rw [List.foldl_cons, ih, FsckScan.mem_usedExtents_slot]
        simp only [List.mem_cons, exists_eq_or_imp, or_assoc]
  rw [scanInodes, hfold]
  simp [FsckScan.start]

/-! ### Bytes in use -/

/-- A byte of the data extent of a used inode. -/
def FileByte (dm : DiskManager) (x : ℕ) : Prop :=
  ∃ i < maxFiles, ∃ inode, dm.readInode i = .ok inode ∧ inode.isUsed ≠ 0
    ∧ x ∈ dataRange inode.dataOffset inode.size.toNat

omit [Crc32] in
/-- A byte of a block that was appended to the inode table. -/
def BlockByte (dm : DiskManager) (x : ℕ) : Prop := ∃ s ∈ dm.inodeTable.extensionBlocks, x ∈ s

/-- A byte of the data extent of a used snapshot record. -/
def SnapshotByte (dm : DiskManager) (x : ℕ) : Prop :=
  ∃ i < maxSnapshotSlots, ∃ snap, dm.readSnapshot i = .ok snap ∧ snap.isUsed = 1
    ∧ x ∈ dataRange snap.dataOffset snap.size.toNat

/-- A byte that must not be free: one of a file, an inode block or a snapshot, or one that
the bump pointer has not passed. -/
def InUse (dm : DiskManager) (x : ℕ) : Prop :=
  dm.FileByte x ∨ dm.BlockByte x ∨ dm.SnapshotByte x
    ∨ dm.superblock.nextDataOffset.toNat ≤ x

/-- No extent of the free list has a byte in use. -/
def FreeListSafe (dm : DiskManager) : Prop :=
  ∀ e ∈ dm.freeList.extents, ∀ x ∈ e.bytes, ¬ dm.InUse x

/-- The bytes of the extents that the checker collects. -/
def Collected (dm : DiskManager) : Set ℕ :=
  {x | ∃ i < maxFiles, ∃ inode, dm.readInode i = .ok inode ∧ inode.Accepted dm.diskSize
    ∧ x ∈ dataRange inode.dataOffset inode.size.toNat}

theorem claimed_usedExtents :
  claimed (FreeList.natExtents dm.scanInodes.usedExtents) = dm.Collected
  := by
  ext x
  simp only [claimed, FreeList.natExtents, List.mem_map, Set.mem_ofPred_eq, Collected]
  constructor
  · rintro ⟨r, ⟨extent, hextent, rfl⟩, hx⟩
    obtain ⟨i, hi, inode, hread, hacc, rfl⟩ := mem_usedExtents.mp hextent
    exact ⟨i, hi, inode, hread, hacc, hx⟩
  · rintro ⟨i, hi, inode, hread, hacc, hx⟩
    exact ⟨_, ⟨_, mem_usedExtents.mpr ⟨i, hi, inode, hread, hacc, rfl⟩, rfl⟩, hx⟩

/-- The used inodes have extents whose positions do not wrap around. -/
def EndsBelow (dm : DiskManager) : Prop :=
  ∀ i inode, dm.readInode i = .ok inode → inode.isUsed ≠ 0 →
    inode.dataOffset.toNat + inode.size.toNat < 2 ^ 64

/-- The extents collected end before the end of the disk. -/
theorem usedExtents_within (hends : dm.EndsBelow) :
  ∀ r ∈ dm.scanInodes.usedExtents, 0 < r.2.toNat ∧ r.1.toNat + r.2.toNat ≤ dm.diskSize.toNat
  := by
  intro r hr
  obtain ⟨i, -, inode, hread, hacc, rfl⟩ := mem_usedExtents.mp hr
  have hlt := hends i inode hread hacc.used
  have hpos := UInt64.lt_iff_toNat_lt.mp hacc.pos
  have hle := UInt64.le_iff_toNat_le.mp hacc.le_disk
  rw [UInt64.toNat_add, Nat.mod_eq_of_lt hlt] at hle
  exact ⟨hpos, hle⟩

/-- What the rebuilt list covers. -/
theorem mem_covered_rebuiltFreeList (hends : dm.EndsBelow) :
  x ∈ FreeList.covered dm.rebuiltFreeList.extents ↔ dataOffset ≤ x ∧ x < dm.diskSize.toNat
    ∧ x ∉ dm.Collected ∧ gapCount dataOffset dm.Collected x ≤ 200
  := by
  have hbase : (UInt64.ofNat dataOffset).toNat = dataOffset := rfl
  rw [rebuiltFreeList, FreeList.mem_covered_rebuild (by decide) (usedExtents_within hends),
    claimed_usedExtents, hbase]

end DiskManager

/-! ### The repair -/

namespace DiskManager

variable [Crc32] {dm : DiskManager} {x : ℕ}

omit [Crc32] in
theorem size_of_readBytes {file : File} {offset n : ℕ} {b : List UInt8} (hn : n ≠ 0)
    (h : readBytes file offset n = .ok b) :
  offset + n ≤ file.image.size
  := by
  by_contra hgt
  have hread : file.image.read offset n = none := if_neg (by omega)
  rw [readBytes, hread] at h
  cases h

/-- An image that was opened has the block of the superblock. -/
theorem size_of_open {img : Image} (hopen : DiskManager.open img = .ok dm) :
  inodeTableOffset ≤ dm.image.size
  := by
  unfold DiskManager.open at hopen
  simp only [bind, Except.bind] at hopen
  split at hopen
  · cases hopen
  split at hopen
  · cases hopen
  split at hopen
  · cases hopen
  split at hopen
  · cases hopen
  split at hopen
  · cases hopen
  split at hopen
  · cases hopen
  next table htable =>
  obtain rfl := Except.ok.inj hopen
  unfold InodeTable.open at htable
  simp only [bind, Except.bind] at htable
  split at htable
  · cases htable
  next buf hbuf => exact size_of_readBytes (by decide) hbuf

/-- Records behind the block of the superblock read the same after flushing. -/
theorem readBytes_flush {offset n : ℕ} (hsize : inodeTableOffset ≤ dm.image.size)
    (hlo : inodeTableOffset ≤ offset) :
  readBytes dm.flush.file offset n = readBytes dm.file offset n
  := by
  apply readBytes_congr
  apply Image.read_congr (dm.size_flush hsize)
  intro i hi _
  exact dm.byte_flush (Nat.le_trans hlo hi)

theorem readInode_flush (hsize : inodeTableOffset ≤ dm.image.size)
    (hplaced : dm.inodeTable.Placed) (i : ℕ) :
  dm.flush.readInode i = dm.readInode i
  := by
  unfold DiskManager.readInode InodeTable.readInode
  have htable : dm.flush.inodeTable = dm.inodeTable := rfl
  rw [htable]
  cases hoffset : dm.inodeTable.inodeOffset i with
  | none => rfl
  | some offset =>
      dsimp only
      rw [readBytes_flush hsize (hplaced.le_slot hoffset)]

theorem readSnapshot_flush (hsize : inodeTableOffset ≤ dm.image.size) (i : ℕ) :
  dm.flush.readSnapshot i = dm.readSnapshot i
  := by
  have hlo : inodeTableOffset ≤ snapshotOffset i := by
    rw [snapshotOffset]
    exact Nat.le_trans (by decide) (Nat.le_add_right _ _)
  unfold DiskManager.readSnapshot
  rw [readBytes_flush hsize hlo]

theorem freeList_flush (dm : DiskManager) :
  dm.flush.freeList = dm.freeList
  := rfl

theorem superblock_flush (dm : DiskManager) :
  dm.flush.superblock = dm.superblock
  := rfl

/-- The same bytes are in use after flushing, whatever the free list. -/
theorem inUse_flush (fl : FreeList) (hsize : inodeTableOffset ≤ dm.image.size)
    (hplaced : dm.inodeTable.Placed) :
  (flush { dm with freeList := fl }).InUse x ↔ dm.InUse x
  := by
  have hread : ∀ i, (flush { dm with freeList := fl }).readInode i = dm.readInode i :=
    @readInode_flush _ { dm with freeList := fl } hsize hplaced
  have hsnap : ∀ i, (flush { dm with freeList := fl }).readSnapshot i = dm.readSnapshot i :=
    @readSnapshot_flush _ { dm with freeList := fl } hsize
  simp only [InUse, FileByte, SnapshotByte, hread, hsnap]
  exact Iff.rfl

/-- A repair of a stale list saves the rebuilt one. -/
theorem fsck_stale (hbase : dataOffset ≤ dm.superblock.nextDataOffset.toNat)
    (hstale : dm.StaleFreeList) :
  (dm.fsck true).2 = flush { dm with freeList := dm.rebuiltFreeList }
  := by
  have hnext : ¬ (flush { dm with freeList := dm.rebuiltFreeList }).superblock.nextDataOffset
      < UInt64.ofNat dataOffset :=
    fun hlt => absurd (UInt64.lt_iff_toNat_lt.mp hlt) (Nat.not_lt.mpr hbase)
  simp only [fsck, checkFreeList, if_pos hstale, if_true, checkSuperblock, if_neg hnext]

end DiskManager

section Repair

variable [Crc32]

/-- The live extents and the inode blocks of a manager do not meet, lie in the data region
and have only bytes in use. -/
structure DiskManager.Owns (dm : DiskManager) (live : List (UInt64 × ℕ)) : Prop where
  apart : (live.map (fun p => dataRange p.1 p.2)
    ++ dm.inodeTable.extensionBlocks).Pairwise Disjoint
  within : ∀ s ∈ live.map (fun p => dataRange p.1 p.2) ++ dm.inodeTable.extensionBlocks,
    s ⊆ Set.Ico dataOffset dm.superblock.nextDataOffset.toNat
  inUse : ∀ p ∈ live, ∀ x ∈ dataRange p.1 p.2, dm.InUse x

/-- When no byte in use is free, the sets in use and the free list lay out the data
region. -/
theorem sound_of_safe {dm : DiskManager} {live : List (UInt64 × ℕ)}
    (hbase : dataOffset ≤ dm.superblock.nextDataOffset.toNat)
    (hapart : (dm.freeList.extents.map FreeExtent.bytes).Pairwise Disjoint)
    (hpos : ∀ e ∈ dm.freeList.extents, 0 < e.length.toNat)
    (hlow : ∀ e ∈ dm.freeList.extents, ∀ x ∈ e.bytes, dataOffset ≤ x)
    (hsafe : dm.FreeListSafe) (howns : dm.Owns live) :
  AllocState.Sound ⟨dm, live⟩
  := by
  refine ⟨hbase, ⟨⟨howns.apart, hapart, ?_, howns.within, ?_⟩, hpos⟩⟩
  · intro s hs t ht
    obtain ⟨e, he, rfl⟩ := List.mem_map.mp ht
    rw [Set.disjoint_left]
    intro x hxs hxe
    apply hsafe e he x hxe
    obtain hs | hs := List.mem_append.mp hs
    · obtain ⟨p, hp, rfl⟩ := List.mem_map.mp hs
      exact howns.inUse p hp x hxs
    · exact Or.inr (Or.inl ⟨s, hs, hxs⟩)
  · intro t ht x hx
    obtain ⟨e, he, rfl⟩ := List.mem_map.mp ht
    refine ⟨hlow e he x hx, ?_⟩
    by_contra hge
    exact hsafe e he x hx (Or.inr (Or.inr (Or.inr (Nat.not_lt.mp hge))))

/-- What a repair that rebuilds the free list leaves free and in use. -/
theorem cmdFsck_repaired {img : Image} {dm dm' : DiskManager} {scan : FsckScan}
    (hopen : DiskManager.open img = .ok dm) (hplaced : dm.inodeTable.Placed)
    (hbase : dataOffset ≤ dm.superblock.nextDataOffset.toNat) (hends : dm.EndsBelow)
    (hstale : dm.StaleFreeList) (hrun : cmdFsck img true = .ok (scan, dm')) :
  dm'.freeList = dm.rebuiltFreeList ∧ dm'.superblock = dm.superblock
    ∧ (∀ x, dm'.InUse x ↔ dm.InUse x)
    ∧ ∀ x, (∃ e ∈ dm'.freeList.extents, x ∈ e.bytes)
      ↔ dataOffset ≤ x ∧ x < dm.diskSize.toNat ∧ x ∉ dm.Collected
        ∧ gapCount dataOffset dm.Collected x ≤ 200
  := by
  have hfsck : dm.fsck true = (scan, dm') := by
    simp only [cmdFsck, hopen, bind, Except.bind, pure, Except.pure] at hrun
    exact Except.ok.inj hrun
  have heq : dm' = DiskManager.flush { dm with freeList := dm.rebuiltFreeList } := by
    rw [← DiskManager.fsck_stale hbase hstale, hfsck]
  have hlist : dm'.freeList = dm.rebuiltFreeList := by
    rw [heq, DiskManager.freeList_flush]
  refine ⟨hlist, ?_, ?_, ?_⟩
  · rw [heq, DiskManager.superblock_flush]
  · rw [heq]
    exact fun x => DiskManager.inUse_flush _ (DiskManager.size_of_open hopen) hplaced
  · rw [hlist]
    exact fun x => DiskManager.mem_covered_rebuiltFreeList hends

/-- After a repair that rebuilds the free list, no free extent has a byte in use exactly
when every byte in use, up to the end of the disk, lies in an extent that was collected or
behind more than 200 gaps.  Then no later run of the allocator hands out a byte in use, or
one byte twice. -/
theorem cmdFsck_safe_iff {img : Image} {dm dm' : DiskManager} {scan : FsckScan}
    (hopen : DiskManager.open img = .ok dm) (hplaced : dm.inodeTable.Placed)
    (hbase : dataOffset ≤ dm.superblock.nextDataOffset.toNat) (hends : dm.EndsBelow)
    (hstale : dm.StaleFreeList) (hrun : cmdFsck img true = .ok (scan, dm')) :
  (dm'.FreeListSafe ↔ ∀ x, dataOffset ≤ x → x < dm.diskSize.toNat → dm.InUse x →
      x ∈ dm.Collected ∨ 200 < gapCount dataOffset dm.Collected x)
    ∧ (dm'.FreeListSafe → dataOffset < dm.diskSize.toNat → ∀ live s, dm'.Owns live →
        Relation.ReflTransGen AllocStep ⟨dm', live⟩ s → s.Sound)
  := by
  obtain ⟨hlist, hsuper, huse, hfree⟩ :=
    cmdFsck_repaired hopen hplaced hbase hends hstale hrun
  constructor
  · constructor
    · intro hsafe x hlo hhi hx
      by_contra hnot
      obtain ⟨hcollected, hcount⟩ := not_or.mp hnot
      obtain ⟨e, he, hxe⟩ := (hfree x).mpr ⟨hlo, hhi, hcollected, Nat.not_lt.mp hcount⟩
      exact hsafe e he x hxe ((huse x).mpr hx)
    · intro hall e he x hxe hx
      obtain ⟨hlo, hhi, hcollected, hcount⟩ := (hfree x).mp ⟨e, he, hxe⟩
      obtain hin | hmany := hall x hlo hhi ((huse x).mp hx)
      · exact hcollected hin
      · omega
  · intro hsafe hdisk live s howns hsteps
    have hbuilt : (dm.rebuiltFreeList.extents.map FreeExtent.bytes).Pairwise Disjoint
        ∧ ∀ e ∈ dm.rebuiltFreeList.extents, 0 < e.length.toNat :=
      FreeList.rebuild_apart (by decide) (UInt64.lt_iff_toNat_lt.mpr hdisk)
        (DiskManager.usedExtents_within hends)
    rw [← hlist] at hbuilt
    rw [← hsuper] at hbase
    have hstart : AllocState.Sound ⟨dm', live⟩ :=
      sound_of_safe hbase hbuilt.1 hbuilt.2
        (fun e he x hx => ((hfree x).mp ⟨e, he, hx⟩).1) hsafe howns
    exact hstart.of_run hsteps

/-- A repair of an image that opens scans the opened disk. -/
theorem cmdFsck_of_open {image : Image} {dm : DiskManager}
    (hopen : DiskManager.open image = .ok dm) (repair : Bool) :
  cmdFsck image repair = .ok ((dm.fsck repair).1, (dm.fsck repair).2)
  := by
  rw [cmdFsck, hopen]
  show Except.ok (dm.fsck repair) = _
  rw [Prod.mk.eta]

/-- A closed image with a short free list opens to a manager with the same metadata, which
reads the same inodes. -/
theorem open_of_reopenable {dm : DiskManager} (hkept : dm.Kept) (h : Reopenable dm)
    (hextents : dm.freeList.extents.length ≤ 190) :
  ∃ dm', DiskManager.open dm.flush.image = .ok dm' ∧ SameMetadata dm dm'
    ∧ ∀ i, dm'.readInode i = dm.readInode i
  := by
  have hnil := drop_extentsBytes_of_le hextents
  obtain ⟨dm', hopen, hsame⟩ := (open_flush_iff h.magic_eq (hextents.trans (by decide))
    hkept.openable).mpr (hnil ▸ List.nil_prefix)
  obtain ⟨dm'', hopen', hreads⟩ := h.reopen
  obtain rfl : dm' = dm'' := Except.ok.inj (hopen.symm.trans hopen')
  obtain ⟨es, hsteady⟩ := h.steady
  have hsize : inodeTableOffset ≤ dm.image.size :=
    Nat.le_trans (by decide) hsteady.tidy.size_le
  use dm', hopen, hsame
  intro i
  rw [hreads.inodes, DiskManager.readInode_flush hsize h.placed]

/-- A formatted image that was flushed opens, and no record of it is used. -/
theorem open_formatted (image : Image) (sizeBytes now : UInt64) :
  ∃ dm, DiskManager.open (DiskManager.format image sizeBytes now).flush.image = .ok dm
    ∧ SameMetadata (DiskManager.format image sizeBytes now) dm
    ∧ (∀ i inode, dm.readInode i = .ok inode → inode.isUsed = 0)
    ∧ dm.inodeTable.Placed
  := by
  have hkept := DiskManager.Kept.format image sizeBytes now
  obtain ⟨dm, hopen, hsame, hreads⟩ := open_of_reopenable hkept
    (Reopenable.format image sizeBytes now) (Nat.zero_le _)
  refine ⟨dm, hopen, hsame, ?_, ?_⟩
  · intro i inode hread
    rw [hreads] at hread
    exact DiskManager.readInode_format image sizeBytes now hread
  · constructor
    · rw [InodeTable.firstBlock, hsame.blocks]
      exact hkept.placed.first
    · intro i hi hpos
      rw [hsame.blocks]
      exact hkept.placed.rest i hi hpos

/-- A repair of a formatted image finds its free list stale when the disk reaches more than
4096 bytes into the data region. -/
theorem stale_formatted {dm : DiskManager} (hlist : dm.freeList = FreeList.new)
    (hunused : ∀ i inode, dm.readInode i = .ok inode → inode.isUsed = 0)
    (hdisk : dm.diskSize = 1048576) :
  dm.StaleFreeList
  := by
  have hextents : dm.scanInodes.usedExtents = [] := by
    apply List.eq_nil_iff_forall_not_mem.mpr
    intro extent hextent
    obtain ⟨i, -, inode, hread, hacc, -⟩ := DiskManager.mem_usedExtents.mp hextent
    exact hacc.used (hunused i inode hread)
  rw [DiskManager.StaleFreeList, DiskManager.rebuiltFreeList, hextents, hlist, hdisk]
  decide

/-- A formatted image of 1048576 bytes that was flushed opens with a stale free list and
nothing to collect. -/
theorem open_formatted_disk :
  ∃ dm, DiskManager.open (DiskManager.format Image.empty 1048576 0).flush.image = .ok dm
    ∧ dm.inodeTable.Placed ∧ dm.superblock.nextDataOffset.toNat = dataOffset
    ∧ dm.diskSize = 1048576 ∧ dm.EndsBelow ∧ dm.StaleFreeList ∧ dm.Collected = ∅
  := by
  obtain ⟨dm, hopen, hsame, hunused, hplaced⟩ := open_formatted Image.empty 1048576 0
  have hnext : dm.superblock.nextDataOffset = UInt64.ofNat dataOffset :=
    congrArg SuperblockRaw.nextDataOffset hsame.superblock
  have htotal : dm.superblock.totalBlocks = 1048576 / UInt64.ofNat blockSize :=
    congrArg SuperblockRaw.totalBlocks hsame.superblock
  have hblock : dm.superblock.blockSize = UInt32.ofNat blockSize :=
    congrArg SuperblockRaw.blockSize hsame.superblock
  have hdisk : dm.diskSize = 1048576 := by
    rw [DiskManager.diskSize, htotal, hblock]
    decide
  refine ⟨dm, hopen, hplaced, by rw [hnext]; rfl, hdisk, ?_,
    stale_formatted hsame.freeList hunused hdisk, ?_⟩
  · exact fun i inode hread hused => absurd (hunused i inode hread) hused
  · apply Set.eq_empty_of_forall_notMem
    rintro x ⟨i, -, inode, hread, hacc, -⟩
    exact hacc.used (hunused i inode hread)

omit [Crc32] in
/-- The repair of a formatted image. -/
theorem cmdFsck_safe_iff_formatted :
  let _ := Crc32.ieee
  ∃ dm scan dm', DiskManager.open (DiskManager.format Image.empty 1048576 0).flush.image = .ok dm
    ∧ cmdFsck (DiskManager.format Image.empty 1048576 0).flush.image true = .ok (scan, dm')
    ∧ (dm'.FreeListSafe ↔ ∀ x, dataOffset ≤ x → x < dm.diskSize.toNat → dm.InUse x →
      x ∈ dm.Collected ∨ 200 < gapCount dataOffset dm.Collected x)
  := by
  intro _
  obtain ⟨dm, hopen, hplaced, hnext, -, hends, hstale, -⟩ := open_formatted_disk
  have hrun := cmdFsck_of_open hopen true
  exact ⟨dm, _, _, hopen, hrun,
    (cmdFsck_safe_iff hopen hplaced hnext.ge hends hstale hrun).1⟩

omit [Crc32] in
/-- After the repair of a formatted image the bytes from the bump pointer on are free, so
that they can be handed out twice. -/
theorem not_cmdFsck_safe :
  let _ := Crc32.ieee
  ∃ dm scan dm', DiskManager.open (DiskManager.format Image.empty 1048576 0).flush.image = .ok dm
    ∧ dm.StaleFreeList
    ∧ cmdFsck (DiskManager.format Image.empty 1048576 0).flush.image true = .ok (scan, dm')
    ∧ ¬ dm'.FreeListSafe
  := by
  intro _
  obtain ⟨dm, hopen, hplaced, hnext, hdisk, hends, hstale, hcollected⟩ := open_formatted_disk
  have hrun := cmdFsck_of_open hopen true
  obtain ⟨-, -, huse, hfree⟩ := cmdFsck_repaired hopen hplaced hnext.ge hends hstale hrun
  refine ⟨dm, _, _, hopen, hstale, hrun, ?_⟩
  intro hsafe
  have hcount : gapCount dataOffset dm.Collected dataOffset ≤ 200 := by
    rw [gapCount_first (fun y _ _ => by rw [hcollected]; exact Set.notMem_empty y) (Nat.le_refl _)]
    decide
  obtain ⟨e, he, hx⟩ := (hfree dataOffset).mpr
    ⟨Nat.le_refl _, by rw [hdisk]; decide, by rw [hcollected]; exact Set.notMem_empty _, hcount⟩
  exact hsafe e he _ hx ((huse _).mpr (Or.inr (Or.inr (Or.inr hnext.le))))

end Repair

end Vexfs
