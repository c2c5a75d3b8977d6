import Vexfs.Fs.Fsck
import Vexfs.Fuse.Roomy

/-!
# The verdict of a check

When a check reports no error, the inodes that a mount would load have different numbers and
different places, and the extents of those that are not empty begin in the data region and end
in the image, unless their end wraps around (`clean_verdict`).  The checker never compares two
extents, so a clean verdict does not say that they do not meet (`not_clean_verdict`).
-/

namespace Vexfs

open Bytes Storage

/-! ### One slot -/

namespace InodeRaw

/-- Whether the checker counts a record. -/
def Counted (inode : InodeRaw) : Prop := inode.isUsed ≠ 0 ∧ inode.getName ≠ ""

/-- The name of a record, scoped by its parent. -/
def scopedKey (inode : InodeRaw) : String :=
  toString inode.getParentIno ++ ":" ++ inode.getName

end InodeRaw

namespace FsckScan

variable {scan : FsckScan} {i : ℕ} {inode : InodeRaw} {diskSize : UInt64}

theorem errors_seeName_iff :
  (scan.seeName i inode).errors = []
    ↔ scan.errors = [] ∧ scan.seenNames.lookup inode.scopedKey = none
  := by
  unfold seeName
  dsimp only
  split
  · next hlookup => exact (and_iff_left hlookup).symm
  · next prev hlookup =>
    have hsome : ¬ scan.seenNames.lookup inode.scopedKey = none := by
      rw [InodeRaw.scopedKey, hlookup]
      simp
    constructor
    · intro h
      exact absurd (List.append_eq_nil_iff.mp h).2 (by simp)
    · exact fun h => absurd h.2 hsome

theorem errors_seeIno_iff :
  (scan.seeIno i inode).errors = []
    ↔ scan.errors = [] ∧ scan.seenInos.lookup inode.ino = none
  := by
  unfold seeIno
  dsimp only
  split
  · next hlookup => exact (and_iff_left hlookup).symm
  · next prev hlookup =>
    constructor
    · intro h
      exact absurd (List.append_eq_nil_iff.mp h).2 (by simp)
    · intro h
      rw [hlookup] at h
      cases h.2

theorem errors_seeExtent_iff :
  (scan.seeExtent diskSize inode).errors = [] ↔ scan.errors = []
    ∧ (0 < inode.size → UInt64.ofNat dataOffset ≤ inode.dataOffset
      ∧ inode.dataOffset + inode.size ≤ diskSize)
  := by
  have hreport : ∀ f : Finding, ¬ scan.errors ++ [f] = [] := fun f => by simp
  unfold seeExtent
  split
  · next hpos =>
    dsimp only
    split
    · next hlow =>
      apply iff_of_false (hreport _)
      exact fun h => absurd (h.2 hpos).1 (UInt64.not_le.mpr hlow)
    split
    · next hhigh =>
      apply iff_of_false (hreport _)
      exact fun h => absurd (h.2 hpos).2 (UInt64.not_le.mpr hhigh)
    · next hlow hhigh =>
      exact (and_iff_left fun _ => ⟨UInt64.not_lt.mp hlow, UInt64.not_lt.mp hhigh⟩).symm
  · next hempty =>
    exact (and_iff_left fun hpos => absurd hpos hempty).symm

theorem errors_seeReserved :
  (scan.seeReserved inode).errors = scan.errors
  := by
  unfold seeReserved
  split <;> rfl

theorem seen_seeName :
  (scan.seeName i inode).seenNames = (inode.scopedKey, i) :: scan.seenNames
    ∧ (scan.seeName i inode).seenInos = scan.seenInos
  := by
  unfold seeName
  dsimp only
  split <;> exact ⟨rfl, rfl⟩

theorem seen_seeIno :
  (scan.seeIno i inode).seenNames = scan.seenNames
    ∧ (scan.seeIno i inode).seenInos = (inode.ino, i) :: scan.seenInos
  := by
  unfold seeIno
  dsimp only
  split <;> exact ⟨rfl, rfl⟩

theorem seen_seeExtent :
  (scan.seeExtent diskSize inode).seenNames = scan.seenNames
    ∧ (scan.seeExtent diskSize inode).seenInos = scan.seenInos
  := by
  unfold seeExtent
  split
  · dsimp only
    split
    · exact ⟨rfl, rfl⟩
    split <;> exact ⟨rfl, rfl⟩
  · exact ⟨rfl, rfl⟩

theorem seen_seeReserved :
  (scan.seeReserved inode).seenNames = scan.seenNames
    ∧ (scan.seeReserved inode).seenInos = scan.seenInos
  := by
  unfold seeReserved
  split <;> exact ⟨rfl, rfl⟩

/-- A record that is not counted is passed over. -/
theorem slot_of_not_counted (h : ¬ inode.Counted) :
  (scan.slot diskSize i (.ok inode)).errors = scan.errors
    ∧ (scan.slot diskSize i (.ok inode)).seenNames = scan.seenNames
    ∧ (scan.slot diskSize i (.ok inode)).seenInos = scan.seenInos
  := by
  unfold slot
  dsimp only
  split
  · exact ⟨rfl, rfl, rfl⟩
  split
  · exact ⟨rfl, rfl, rfl⟩
  · next hused hname => exact absurd ⟨hused, hname⟩ h

/-- A record that is counted is reported unless its name and its number are new and its data
lies in the data region of the disk. -/
theorem slot_of_counted (h : inode.Counted) :
  ((scan.slot diskSize i (.ok inode)).errors = [] ↔ scan.errors = []
      ∧ scan.seenNames.lookup inode.scopedKey = none ∧ scan.seenInos.lookup inode.ino = none
      ∧ (0 < inode.size → UInt64.ofNat dataOffset ≤ inode.dataOffset
        ∧ inode.dataOffset + inode.size ≤ diskSize))
    ∧ (scan.slot diskSize i (.ok inode)).seenNames = (inode.scopedKey, i) :: scan.seenNames
    ∧ (scan.slot diskSize i (.ok inode)).seenInos = (inode.ino, i) :: scan.seenInos
  := by
  unfold slot
  dsimp only
  rw [if_neg h.1, if_neg h.2]
  refine ⟨?_, ?_, ?_⟩
  · rw [errors_seeReserved, errors_seeExtent_iff, errors_seeIno_iff, errors_seeName_iff,
      seen_seeName.2]
    constructor
    · rintro ⟨⟨⟨herrors, hname⟩, hino⟩, hextent⟩
      exact ⟨herrors, hname, hino, hextent⟩
    · rintro ⟨herrors, hname, hino, hextent⟩
      exact ⟨⟨⟨herrors, hname⟩, hino⟩, hextent⟩
  · rw [seen_seeReserved.1, seen_seeExtent.1, seen_seeIno.1, seen_seeName.1]
  · rw [seen_seeReserved.2, seen_seeExtent.2, seen_seeIno.2, seen_seeName.2]

end FsckScan

/-! ### The scan -/

namespace DiskManager

variable [Crc32] {dm : DiskManager}

/-- The scan of the first slots. -/
def scanFirst (dm : DiskManager) (n : ℕ) : FsckScan :=
  (List.range n).foldl (fun scan i => scan.slot dm.diskSize i (dm.readInode i)) .start

theorem scanFirst_succ (dm : DiskManager) (n : ℕ) :
  dm.scanFirst (n + 1) = (dm.scanFirst n).slot dm.diskSize n (dm.readInode n)
  := by
  rw [scanFirst, List.range_succ, List.foldl_append]
  rfl

/-- What the scan of the first slots has found, when it reports nothing: every slot can be
read, and those that are counted are the ones seen with their names and numbers. -/
structure ScannedClean (dm : DiskManager) (n : ℕ) : Prop where
  readable : ∀ i < n, ∃ inode, dm.readInode i = .ok inode
  names : ∀ i < n, ∀ inode, dm.readInode i = .ok inode → inode.Counted →
    (dm.scanFirst n).seenNames.lookup inode.scopedKey = some i
  inos : ∀ i < n, ∀ inode, dm.readInode i = .ok inode → inode.Counted →
    (dm.scanFirst n).seenInos.lookup inode.ino = some i
  extents : ∀ i < n, ∀ inode, dm.readInode i = .ok inode → inode.Counted → 0 < inode.size →
    UInt64.ofNat dataOffset ≤ inode.dataOffset ∧ inode.dataOffset + inode.size ≤ dm.diskSize

omit [Crc32] in
/-- An entry found behind a new one is found with it in front. -/
theorem lookup_cons_of_none {κ ν : Type} [BEq κ] [LawfulBEq κ] {l : List (κ × ν)} {k k' : κ}
    {v w : ν} (hnew : l.lookup k = none) (hfound : l.lookup k' = some v) :
  ((k, w) :: l).lookup k' = some v
  := by
  have hne : k' ≠ k := by
    rintro rfl
    cases hnew.symm.trans hfound
  rw [List.lookup_cons, beq_false_of_ne hne]
  exact hfound

/-- A slot that is read without a report. -/
theorem ScannedClean.succ {n : ℕ} {inode : InodeRaw} (hread : dm.readInode n = .ok inode)
    (hclean : (dm.scanFirst (n + 1)).errors = [])
    (ih : (dm.scanFirst n).errors = [] → dm.ScannedClean n) :
  dm.ScannedClean (n + 1)
  := by
  have hsucc := dm.scanFirst_succ n
  rw [hread] at hsucc
  have hcases : ∀ {i}, i < n + 1 → i < n ∨ i = n := fun hi => Nat.lt_succ_iff_lt_or_eq.mp hi
  by_cases hcounted : inode.Counted
  · obtain ⟨herrors, hnames, hinos⟩ :=
      @FsckScan.slot_of_counted (dm.scanFirst n) n inode dm.diskSize hcounted
    rw [← hsucc] at hnames hinos herrors
    obtain ⟨hbefore, hname, hino, hextent⟩ := herrors.mp hclean
    have h := ih hbefore
    constructor
    · intro i hi
      obtain hi | rfl := hcases hi
      · exact h.readable i hi
      · exact ⟨inode, hread⟩
    · intro i hi x hx hcount
      rw [hnames]
      obtain hi | rfl := hcases hi
      · exact lookup_cons_of_none hname (h.names i hi x hx hcount)
      · rw [← Except.ok.inj (hread.symm.trans hx), List.lookup_cons_self]
    · intro i hi x hx hcount
      rw [hinos]
      obtain hi | rfl := hcases hi
      · exact lookup_cons_of_none hino (h.inos i hi x hx hcount)
      · rw [← Except.ok.inj (hread.symm.trans hx), List.lookup_cons_self]
    · intro i hi x hx hcount hpos
      obtain hi | rfl := hcases hi
      · exact h.extents i hi x hx hcount hpos
      · rw [← Except.ok.inj (hread.symm.trans hx)] at hpos ⊢
        exact hextent hpos
  · obtain ⟨herrors, hnames, hinos⟩ :=
      @FsckScan.slot_of_not_counted (dm.scanFirst n) n inode dm.diskSize hcounted
    rw [← hsucc] at hnames hinos herrors
    have h := ih (herrors.symm.trans hclean)
    have hskip : ∀ {i x}, i < n + 1 → dm.readInode i = .ok x → x.Counted → i < n := by
      intro i x hi hx hcount
      obtain hi | rfl := hcases hi
      · exact hi
      · rw [← Except.ok.inj (hread.symm.trans hx)] at hcount
        exact absurd hcount hcounted
    constructor
    · intro i hi
      obtain hi | rfl := hcases hi
      · exact h.readable i hi
      · exact ⟨inode, hread⟩
    · intro i hi x hx hcount
      rw [hnames]
      exact h.names i (hskip hi hx hcount) x hx hcount
    · intro i hi x hx hcount
      rw [hinos]
      exact h.inos i (hskip hi hx hcount) x hx hcount
    · exact fun i hi x hx hcount => h.extents i (hskip hi hx hcount) x hx hcount

/-- A scan that reports nothing has found every slot readable, and every name and number that
it counts once. -/
theorem scannedClean (n : ℕ) (hclean : (dm.scanFirst n).errors = []) :
  dm.ScannedClean n
  := by
  induction n with
  | zero =>
      exact ⟨fun i hi => absurd hi (Nat.not_lt_zero i), fun i hi => absurd hi (Nat.not_lt_zero i),
        fun i hi => absurd hi (Nat.not_lt_zero i), fun i hi => absurd hi (Nat.not_lt_zero i)⟩
  | succ n ih =>
      cases hread : dm.readInode n with
      | error e =>
          rw [scanFirst_succ, hread] at hclean
          exact absurd (List.append_eq_nil_iff.mp hclean).2 (by simp)
      | ok inode => exact ScannedClean.succ hread hclean ih

/-! ### The other passes -/

theorem errors_checkFreeList (dm : DiskManager) (repair : Bool) (scan : FsckScan) :
  (dm.checkFreeList repair scan).1.errors = scan.errors
  := by
  unfold checkFreeList
  split <;> rfl

theorem errors_checkSuperblock (dm : DiskManager) (repair : Bool) (scan : FsckScan) :
  (dm.checkSuperblock repair scan).1.errors = [] ↔ scan.errors = []
    ∧ dm.superblock.magic = magic
    ∧ UInt64.ofNat dataOffset ≤ dm.superblock.nextDataOffset
  := by
  have hreport : ∀ (scan : FsckScan) (f : Finding), ¬ (scan.error f).errors = [] := by
    intro scan f h
    exact absurd (List.append_eq_nil_iff.mp h).2 (by simp)
  -- a warning about the size of a block leaves the errors alone
  have hwarn : ∀ (scan : FsckScan) (p : Prop) [Decidable p] (f : Finding),
      (if p then scan.warn f else scan).errors = scan.errors := by
    intro scan p _ f
    split <;> rfl
  unfold checkSuperblock
  dsimp only
  split
  · next hlow =>
    apply iff_of_false (hreport _ _)
    exact fun h => absurd h.2.2 (UInt64.not_le.mpr hlow)
  · next hnext =>
    rw [hwarn]
    split
    · next hmagic =>
      apply iff_of_false (hreport _ _)
      exact fun h => hmagic h.2.1
    · next hmagic =>
      exact (and_iff_left ⟨not_not.mp hmagic, UInt64.not_lt.mp hnext⟩).symm

theorem errors_checkSnapshots (dm : DiskManager) (scan : FsckScan) :
  (dm.checkSnapshots scan).errors = scan.errors
  := by
  have hsnapshot : ∀ (scan : FsckScan) i r, (scan.snapshot i r).errors = scan.errors := by
    intro scan i r
    unfold FsckScan.snapshot
    split
    · rfl
    split
    · split <;> rfl
    · rfl
  unfold checkSnapshots
  induction List.range 256 generalizing scan with
  | nil => rfl
  | cons i is ih =>
      rw [List.foldl_cons, ih, hsnapshot]

theorem superblock_checkFreeList (dm : DiskManager) (repair : Bool) (scan : FsckScan) :
  (dm.checkFreeList repair scan).2.superblock = dm.superblock
  := by
  unfold checkFreeList
  split
  · cases repair <;> rfl
  · rfl

/-- A check reports nothing when the scan of the inodes reports nothing and the superblock is
as it should be. -/
theorem errors_fsck_iff (dm : DiskManager) (repair : Bool) :
  (dm.fsck repair).1.errors = [] ↔ dm.scanInodes.errors = []
    ∧ dm.superblock.magic = magic
    ∧ UInt64.ofNat dataOffset ≤ dm.superblock.nextDataOffset
  := by
  unfold fsck
  dsimp only
  rw [errors_checkSnapshots, errors_checkSuperblock, errors_checkFreeList,
    superblock_checkFreeList]

/-! ### The inodes of a mount -/

/-- A mount loads the inode of a slot: the slots up to it can be read, and it is valid and has
a name. -/
structure Loads (dm : DiskManager) (i : ℕ) (inode : InodeRaw) : Prop where
  lt : i < dm.inodeTable.capacity
  readable : ∀ j < i, ∃ x, dm.readInode j = .ok x
  read : dm.readInode i = .ok inode
  valid : inode.isValid = true
  named : inode.getName ≠ ""

theorem Loads.counted {i : ℕ} {inode : InodeRaw} (h : dm.Loads i inode) :
  inode.Counted
  := by
  refine ⟨?_, h.named⟩
  intro hunused
  have hvalid := h.valid
  simp [InodeRaw.isValid, hunused] at hvalid

/-! ### Slots that are gone through -/

/-- An inode in one of `n` slots from `k` on is listed: the slots up to it can be read, and it
is valid and has a name. -/
def ListsIn (dm : DiskManager) (k n : ℕ) (inode : InodeRaw) : Prop :=
  ∃ i, k ≤ i ∧ i < k + n ∧ (∀ j, k ≤ j → j < i → ∃ x, dm.readInode j = .ok x)
    ∧ dm.readInode i = .ok inode ∧ inode.isValid = true ∧ inode.getName ≠ ""

theorem not_listsIn_of_error {k n : ℕ} {e : DiskError} (hread : dm.readInode k = .error e)
    (inode : InodeRaw) :
  ¬ dm.ListsIn k n inode
  := by
  rintro ⟨i, hlo, -, hreadable, hi, -⟩
  obtain rfl | hlt := Nat.eq_or_lt_of_le hlo
  · cases hread.symm.trans hi
  · obtain ⟨x, hx⟩ := hreadable k le_rfl hlt
    cases hread.symm.trans hx

theorem listsIn_succ {k n : ℕ} {x : InodeRaw} (hread : dm.readInode k = .ok x)
    (inode : InodeRaw) :
  dm.ListsIn k (n + 1) inode
    ↔ (x = inode ∧ x.isValid = true ∧ x.getName ≠ "") ∨ dm.ListsIn (k + 1) n inode
  := by
  constructor
  · rintro ⟨i, hlo, hhi, hreadable, hi, hinode⟩
    obtain rfl | hlt := Nat.eq_or_lt_of_le hlo
    · obtain rfl := Except.ok.inj (hread.symm.trans hi)
      exact .inl ⟨rfl, hinode⟩
    · exact .inr ⟨i, hlt, by omega, fun j hj => hreadable j (by omega), hi, hinode⟩
  · rintro (⟨rfl, hx⟩ | ⟨i, hlo, hhi, hreadable, hi, hinode⟩)
    · exact ⟨k, le_rfl, by omega, fun j hj hlt => absurd hlt (Nat.not_lt.mpr hj), hread, hx⟩
    · refine ⟨i, by omega, by omega, ?_, hi, hinode⟩
      intro j hj hlt
      obtain rfl | hlt' := Nat.eq_or_lt_of_le hj
      · exact ⟨x, hread⟩
      · exact hreadable j hlt' hlt

end DiskManager

namespace VexFS

variable [Crc32] [Zstd] {fs fs' : VexFS} {ino : UInt64}

omit [Crc32] in
/-- Taking an inode adds its file. -/
theorem loadInode_ok (ino : UInt64) {i : ℕ} {inode : InodeRaw}
    (h : fs.loadInode i inode = .ok fs') :
  fs'.disk = fs.disk
    ∧ ((fs'.files.get ino).isSome ↔ (fs.files.get ino).isSome ∨ inode.ino = ino)
  := by
  unfold loadInode at h
  dsimp only at h
  split at h
  · cases h
  · obtain rfl := Except.ok.inj h
    use rfl
    rw [FiniteMap.get_insert]
    split
    · next heq => exact iff_of_true rfl (Or.inr heq.symm)
    · next hne => exact (or_iff_left fun heq => hne heq.symm).symm

omit [Zstd] in
/-- One of `n` slots from `k` on is loaded with a number. -/
def LoadsIn (disk : DiskManager) (k n : ℕ) (ino : UInt64) : Prop :=
  ∃ i inode, k ≤ i ∧ i < k + n ∧ (∀ j, k ≤ j → j < i → ∃ x, disk.readInode j = .ok x)
    ∧ disk.readInode i = .ok inode ∧ inode.isValid = true ∧ inode.getName ≠ ""
    ∧ inode.ino = ino

section LoadsIn

omit [Zstd]

variable {disk : DiskManager} {k n : ℕ}

/-- What is loaded is what is listed. -/
theorem loadsIn_iff :
  LoadsIn disk k n ino ↔ ∃ inode, disk.ListsIn k n inode ∧ inode.ino = ino
  := by
  constructor
  · rintro ⟨i, inode, hlo, hhi, hreadable, hread, hvalid, hnamed, hino⟩
    exact ⟨inode, ⟨i, hlo, hhi, hreadable, hread, hvalid, hnamed⟩, hino⟩
  · rintro ⟨inode, ⟨i, hlo, hhi, hreadable, hread, hvalid, hnamed⟩, hino⟩
    exact ⟨i, inode, hlo, hhi, hreadable, hread, hvalid, hnamed, hino⟩

/-- Nothing is loaded from a slot that cannot be read, or behind it. -/
theorem not_loadsIn_of_error {e : DiskError} (hread : disk.readInode k = .error e) :
  ¬ LoadsIn disk k n ino
  := by
  rw [loadsIn_iff]
  rintro ⟨inode, hlists, -⟩
  exact DiskManager.not_listsIn_of_error hread inode hlists

/-- What is loaded from slots of which the first can be read. -/
theorem loadsIn_succ {x : InodeRaw} (hread : disk.readInode k = .ok x) :
  LoadsIn disk k (n + 1) ino
    ↔ (x.isValid = true ∧ x.getName ≠ "" ∧ x.ino = ino) ∨ LoadsIn disk (k + 1) n ino
  := by
  rw [loadsIn_iff, loadsIn_iff]
  simp only [DiskManager.listsIn_succ hread]
  constructor
  · rintro ⟨inode, ⟨rfl, hvalid, hnamed⟩ | hlists, hino⟩
    · exact .inl ⟨hvalid, hnamed, hino⟩
    · exact .inr ⟨inode, hlists, hino⟩
  · rintro (⟨hvalid, hnamed, hino⟩ | ⟨inode, hlists, hino⟩)
    · exact ⟨x, .inl ⟨rfl, hvalid, hnamed⟩, hino⟩
    · exact ⟨inode, .inr hlists, hino⟩

end LoadsIn

/-- The files that are there once some slots were taken. -/
theorem loadInodes_range' {k n : ℕ} (h : fs.loadInodes (List.range' k n) = .ok fs') :
  (fs'.files.get ino).isSome ↔ (fs.files.get ino).isSome ∨ LoadsIn fs.disk k n ino
  := by
  induction n generalizing fs k with
  | zero =>
      obtain rfl := Except.ok.inj h
      apply (or_iff_left _).symm
      rintro ⟨i, inode, hlo, hhi, -⟩
      omega
  | succ n ih =>
      rw [List.range'_succ, loadInodes] at h
      cases hread : fs.disk.readInode k with
      | error e =>
          rw [hread] at h
          obtain rfl := Except.ok.inj h
          exact (or_iff_left (not_loadsIn_of_error hread)).symm
      | ok x =>
          rw [hread] at h
          rw [loadsIn_succ hread]
          dsimp only at h
          split at h
          · next hvalid =>
            cases htake : fs.loadInode k x with
            | error e =>
                rw [htake] at h
                cases h
            | ok next =>
                rw [htake] at h
                obtain ⟨hdisk, hfiles⟩ := loadInode_ok ino htake
                rw [ih h, hfiles, hdisk, or_assoc, and_iff_right hvalid.1, and_iff_right hvalid.2]
          · next hinvalid =>
            have hnot : ¬ (x.isValid = true ∧ x.getName ≠ "" ∧ x.ino = ino) :=
              fun hx => hinvalid ⟨hx.1, hx.2.1⟩
            rw [ih h, or_iff_right hnot]

/-- The files of a mount are those of the inodes it loads. -/
theorem load_files_iff {dm : DiskManager} (h : load dm = .ok fs) :
  (fs.files.get ino).isSome ↔ ∃ i inode, dm.Loads i inode ∧ inode.ino = ino
  := by
  obtain ⟨start, nextId, hstart, rfl⟩ := load_ok h
  rw [List.range_eq_range'] at hstart
  rw [loadInodes_range' hstart]
  constructor
  · rintro (hnone | ⟨i, inode, -, hlt, hreadable, hread, hvalid, hnamed, hino⟩)
    · cases hnone
    · rw [Nat.zero_add] at hlt
      exact ⟨i, inode, ⟨hlt, fun j hj => hreadable j (Nat.zero_le j) hj, hread, hvalid,
        hnamed⟩, hino⟩
  · rintro ⟨i, inode, hloads, hino⟩
    right
    exact ⟨i, inode, Nat.zero_le i, by rw [Nat.zero_add]; exact hloads.lt,
      fun j _ hj => hloads.readable j hj, hloads.read, hloads.valid, hloads.named, hino⟩

end VexFS

/-! ### The verdict -/

section Verdict

variable [Crc32]

/-- What a check without an error says of the inodes that a mount would load: their numbers and
their places differ, and data that is not empty begins in the data region and ends in the
image, unless its end wraps around. -/
theorem clean_verdict {image : Image} {dm dm' : DiskManager} {repair : Bool} {scan : FsckScan}
    (hopen : DiskManager.open image = .ok dm) (hrun : cmdFsck image repair = .ok (scan, dm'))
    (hclean : scan.errors = []) :
  (∀ i j a b, dm.Loads i a → dm.Loads j b → i ≠ j → a.ino ≠ b.ino)
    ∧ (∀ i j a b, dm.Loads i a → dm.Loads j b → i ≠ j →
        (a.getParentIno, a.getName) ≠ (b.getParentIno, b.getName))
    ∧ ∀ i a, dm.Loads i a → 0 < a.size → dataOffset ≤ a.dataOffset.toNat
      ∧ (a.dataOffset.toNat + a.size.toNat < 2 ^ 64 → a.dataOffset.toNat + a.size.toNat
        ≤ dm.superblock.totalBlocks.toNat * dm.superblock.blockSize.toNat)
  := by
  have hfsck : (dm.fsck repair).1.errors = [] := by
    rw [cmdFsck_of_open hopen] at hrun
    rw [congrArg Prod.fst (Except.ok.inj hrun)]
    exact hclean
  have hscan := dm.scannedClean maxFiles ((dm.errors_fsck_iff repair).mp hfsck).1
  have hlt : ∀ {i a}, dm.Loads i a → i < maxFiles :=
    fun h => h.lt.trans_le dm.capacity_le
  refine ⟨?_, ?_, ?_⟩
  · intro i j a b ha hb hne heq
    have hi := hscan.inos i (hlt ha) a ha.read ha.counted
    have hj := hscan.inos j (hlt hb) b hb.read hb.counted
    rw [heq] at hi
    exact hne (Option.some.inj (hi.symm.trans hj))
  · intro i j a b ha hb hne heq
    have hi := hscan.names i (hlt ha) a ha.read ha.counted
    have hj := hscan.names j (hlt hb) b hb.read hb.counted
    obtain ⟨hparent, hname⟩ := Prod.mk.inj heq
    rw [InodeRaw.scopedKey, hparent, hname] at hi
    exact hne (Option.some.inj (hi.symm.trans hj))
  · intro i a ha hpos
    obtain ⟨hlow, hhigh⟩ := hscan.extents i (hlt ha) a ha.read ha.counted hpos
    use UInt64.le_iff_toNat_le.mp hlow
    intro hwrap
    have hend := UInt64.le_iff_toNat_le.mp hhigh
    rw [UInt64.toNat_add, Nat.mod_eq_of_lt hwrap] at hend
    apply hend.trans
    rw [DiskManager.diskSize, UInt64.toNat_mul, UInt32.toNat_toUInt64]
    exact Nat.mod_le _ _

/-- The inodes that a mount would load are apart: their numbers and their places differ, and
their data lies in the data region of the image and does not meet. -/
structure DiskManager.LoadsApart (dm : DiskManager) : Prop where
  inos : ∀ i j a b, dm.Loads i a → dm.Loads j b → i ≠ j → a.ino ≠ b.ino
  places : ∀ i j a b, dm.Loads i a → dm.Loads j b → i ≠ j →
    (a.getParentIno, a.getName) ≠ (b.getParentIno, b.getName)
  within : ∀ i a, dm.Loads i a → 0 < a.size → dataOffset ≤ a.dataOffset.toNat
    ∧ a.dataOffset.toNat + a.size.toNat
      ≤ dm.superblock.totalBlocks.toNat * dm.superblock.blockSize.toNat
  apart : ∀ i j a b, dm.Loads i a → dm.Loads j b → i ≠ j →
    Disjoint (dataRange a.dataOffset a.size.toNat) (dataRange b.dataOffset b.size.toNat)

/-- Slots that are not counted are passed over. -/
theorem DiskManager.errors_scanFirst {dm : DiskManager} {n m : ℕ} (hle : n ≤ m)
    (h : ∀ i, n ≤ i → i < m → ∃ x, dm.readInode i = .ok x ∧ ¬ x.Counted) :
  (dm.scanFirst m).errors = (dm.scanFirst n).errors
  := by
  induction m, hle using Nat.le_induction with
  | base => rfl
  | succ m hle ih =>
      obtain ⟨x, hread, hnot⟩ := h m hle (Nat.lt_succ_self m)
      rw [scanFirst_succ, hread, (FsckScan.slot_of_not_counted hnot).1]
      exact ih fun i hlo hhi => h i hlo (Nat.lt_succ_of_lt hhi)

/-- A file of one byte at the start of the data region. -/
def oneByteFile (ino : UInt64) (name : String) : InodeRaw :=
  { InodeRaw.empty with
      ino := ino
      size := 1
      dataOffset := UInt64.ofNat dataOffset
      parentIno := 1
      isUsed := 1 : InodeRaw }.setName name

omit [Crc32] in
theorem DiskManager.metadata_writeInode [Crc32] (dm : DiskManager) (i : ℕ) (inode : InodeRaw) :
  (dm.writeInode i inode).2.superblock = dm.superblock
    ∧ (dm.writeInode i inode).2.freeList = dm.freeList
  := by
  obtain ⟨_, _, hframe⟩ := dm.writeInode_frame i inode
  rw [hframe]
  exact ⟨rfl, rfl⟩

/-- An image of 1 MiB with two files of one byte, whose data is the same byte. -/
theorem open_two_files :
  ∃ image dm, DiskManager.open image = .ok dm
    ∧ dm.superblock.magic = magic ∧ dm.superblock.nextDataOffset = UInt64.ofNat dataOffset
    ∧ dm.diskSize = 1048576 ∧ dm.inodeTable.capacity = 1024
    ∧ dm.readInode 0 = .ok (oneByteFile 2 "a") ∧ dm.readInode 1 = .ok (oneByteFile 3 "b")
    ∧ ∀ i, 2 ≤ i → i < maxFiles → ∃ x, dm.readInode i = .ok x ∧ x.isUsed = 0
  := by
  let dm₀ := DiskManager.format Image.empty 1048576 0
  let dm₁ := (dm₀.writeInode 0 (oneByteFile 2 "a")).2
  let dm₂ := (dm₁.writeInode 1 (oneByteFile 3 "b")).2
  have hblank₀ : dm₀.Blank 0 := .format Image.empty 1048576 0
  have hblank₁ : dm₁.Blank 1 := hblank₀.writeInode (Nat.le_refl 0) _
  have hblank₂ : dm₂.Blank 2 := hblank₁.writeInode (Nat.le_refl 1) _
  have hre₁ : Reopenable dm₁ := hblank₀.reopenable_writeInode (by decide) _
    (Reopenable.format Image.empty 1048576 0)
  have hre₂ : Reopenable dm₂ := hblank₁.reopenable_writeInode (by decide) _ hre₁
  have hfirst : dm₁.readInode 0 = .ok (oneByteFile 2 "a") :=
    (hblank₀.readInode_writeInode (by decide) _).1
  obtain ⟨hsecond, hkeep⟩ := hblank₁.readInode_writeInode (i := 1) (by decide)
    (oneByteFile 3 "b")
  obtain ⟨hsuper₁, hlist₁⟩ := dm₀.metadata_writeInode 0 (oneByteFile 2 "a")
  obtain ⟨hsuper₂, hlist₂⟩ := dm₁.metadata_writeInode 1 (oneByteFile 3 "b")
  have hsuper : dm₂.superblock = dm₀.superblock := hsuper₂.trans hsuper₁
  have hlist : dm₂.freeList = dm₀.freeList := hlist₂.trans hlist₁
  obtain ⟨dm, hopen, hsame, hreads⟩ := open_of_reopenable hblank₂.kept hre₂
    (by rw [hlist]; exact Nat.zero_le _)
  have hmeta := hsame.superblock
  rw [hsuper] at hmeta
  have htotal : dm.superblock.totalBlocks = 1048576 / UInt64.ofNat blockSize :=
    congrArg SuperblockRaw.totalBlocks hmeta
  have hblock : dm.superblock.blockSize = UInt32.ofNat blockSize :=
    congrArg SuperblockRaw.blockSize hmeta
  have hblocks := hblank₂.blocks.congr hsame.blocks
  refine ⟨_, dm, hopen, congrArg SuperblockRaw.magic hmeta,
    congrArg SuperblockRaw.nextDataOffset hmeta, ?_, hblocks.capacity_eq, ?_, ?_, ?_⟩
  · rw [DiskManager.diskSize, htotal, hblock]
    decide
  · rw [hreads]
    exact hkeep 0 _ (by decide) hfirst
  · rw [hreads]
    exact hsecond
  · intro i hlo hhi
    by_cases hi : i < 1024
    · obtain ⟨x, hx, hunused⟩ := hblank₂.free i hlo hi
      exact ⟨x, (hreads i).trans hx, hunused⟩
    · have hnone : dm.inodeTable.inodeOffset i = none := by
        by_contra hsome
        have hlt := hblocks.inodeOffset_ne_none.mp hsome
        rw [hblocks.capacity_eq] at hlt
        exact hi hlt
      refine ⟨InodeRaw.empty, ?_, rfl⟩
      rw [DiskManager.readInode, if_neg (Nat.not_le.mpr hhi), InodeTable.readInode, hnone]

/-- Its check reports nothing. -/
theorem clean_two_files :
  ∃ image dm, DiskManager.open image = .ok dm ∧ (dm.fsck false).1.errors = []
    ∧ dm.Loads 0 (oneByteFile 2 "a") ∧ dm.Loads 1 (oneByteFile 3 "b")
  := by
  obtain ⟨image, dm, hopen, hmagic, hnext, hdisk, hcapacity, hfirst, hsecond, hrest⟩ :=
    open_two_files
  let a := oneByteFile 2 "a"
  let b := oneByteFile 3 "b"
  have hname₀ : a.getName = "a" := by decide
  have hname₁ : b.getName = "b" := by decide
  have hcounted₀ : a.Counted := ⟨by decide, by rw [hname₀]; decide⟩
  have hcounted₁ : b.Counted := ⟨by decide, by rw [hname₁]; decide⟩
  have hextent : UInt64.ofNat dataOffset ≤ a.dataOffset
      ∧ a.dataOffset + a.size ≤ dm.diskSize := by
    rw [hdisk]
    decide
  have hfiles : (dm.scanFirst 2).errors = [] := by
    have hstep₀ := @FsckScan.slot_of_counted .start 0 a dm.diskSize hcounted₀
    have hstep₁ := @FsckScan.slot_of_counted (FsckScan.start.slot dm.diskSize 0 (.ok a)) 1 b
      dm.diskSize hcounted₁
    rw [dm.scanFirst_succ, dm.scanFirst_succ, hfirst, hsecond]
    apply hstep₁.1.mpr
    rw [hstep₀.2.1, hstep₀.2.2]
    refine ⟨hstep₀.1.mpr ⟨rfl, rfl, rfl, fun _ => hextent⟩, ?_, ?_, fun _ => hextent⟩
    · rw [InodeRaw.scopedKey, InodeRaw.scopedKey, hname₀, hname₁]
      decide
    · rfl
  use image, dm, hopen
  refine ⟨(dm.errors_fsck_iff false).mpr ⟨?_, hmagic, hnext.ge⟩, ?_, ?_⟩
  · apply (DiskManager.errors_scanFirst (by decide : 2 ≤ maxFiles) _).trans hfiles
    intro i hlo hhi
    obtain ⟨x, hread, hunused⟩ := hrest i hlo hhi
    exact ⟨x, hread, fun hcounted => hcounted.1 hunused⟩
  · exact ⟨by rw [hcapacity]; decide, fun j hj => absurd hj (Nat.not_lt_zero j), hfirst,
      by decide, hcounted₀.2⟩
  · refine ⟨by rw [hcapacity]; decide, ?_, hsecond, by decide, hcounted₁.2⟩
    intro j hj
    obtain rfl := Nat.lt_one_iff.mp hj
    exact ⟨a, hfirst⟩

omit [Crc32] in
/-- The verdict on an image with two files. -/
theorem clean_verdict_two_files :
  let _ := Crc32.ieee
  ∃ image dm, DiskManager.open image = .ok dm
    ∧ dm.Loads 0 (oneByteFile 2 "a") ∧ dm.Loads 1 (oneByteFile 3 "b")
    ∧ dataOffset + 1 ≤ dm.superblock.totalBlocks.toNat * dm.superblock.blockSize.toNat
  := by
  intro _
  obtain ⟨image, dm, hopen, hclean, hfirst, hsecond⟩ := clean_two_files
  obtain ⟨-, -, hextents⟩ := clean_verdict hopen (cmdFsck_of_open hopen false) hclean
  exact ⟨image, dm, hopen, hfirst, hsecond,
    (hextents 0 _ hfirst (by decide)).2 (by decide)⟩

omit [Crc32] in
/-- The check of two files with the same byte of data reports nothing. -/
theorem not_clean_verdict :
  let _ := Crc32.ieee
  ¬ ∀ image dm dm' repair scan, DiskManager.open image = .ok dm →
    cmdFsck image repair = .ok (scan, dm') → scan.errors = [] → dm.LoadsApart
  := by
  intro _ h
  obtain ⟨image, dm, hopen, hclean, hfirst, hsecond⟩ := clean_two_files
  have hapart := h image dm _ false _ hopen (cmdFsck_of_open hopen false) hclean
  have hdisjoint := hapart.apart 0 1 _ _ hfirst hsecond (by decide)
  have hmem : dataOffset ∈ dataRange (UInt64.ofNat dataOffset) 1 :=
    ⟨by decide, by decide⟩
  exact Set.disjoint_left.mp hdisjoint hmem hmem

end Verdict

end Vexfs
