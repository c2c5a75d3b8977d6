import Vexfs.Fs.InodeSlots
import Vexfs.Fs.Remount
import Vexfs.Fuse.DiskCall
import Vexfs.Fuse.Mounted

/-!
# Sessions with room

As long as the cache has room, inserting into it evicts nothing and flushes nothing, and each
operation comes down to a few pieces.  `DiskManager.Blank` describes a disk on which the
first files are made.
-/

namespace Vexfs

open Bytes Storage

variable [Crc32] [Zstd]

/-! ### A disk with free inodes -/

namespace DiskManager

/-- A disk with one block of inodes, whose slots from `k` on are free. -/
structure Blank (dm : DiskManager) (k : ℕ) : Prop where
  kept : dm.Kept
  blocks : dm.inodeTable.Blocks [UInt64.ofNat inodeTableOffset]
  free : ∀ i, k ≤ i → i < 1024 → ∃ inode, dm.readInode i = .ok inode ∧ inode.isUsed = 0

omit [Zstd] in
/-- The slots of the first block can be read. -/
theorem exists_readInode {dm : DiskManager} (hkept : dm.Kept)
    (hblocks : dm.inodeTable.Blocks [UInt64.ofNat inodeTableOffset]) {i : ℕ} (hi : i < 1024) :
  ∃ inode, dm.readInode i = .ok inode
  := by
  have hne : dm.inodeTable.inodeOffset i ≠ none := by
    rw [hblocks.inodeOffset_ne_none, hblocks.capacity_eq]
    exact hi
  obtain ⟨offset, hoffset⟩ := Option.ne_none_iff_exists'.mp hne
  obtain ⟨hd, slots, hh, -⟩ := hkept.replayable
  have hsize : offset.toNat + inodeBytes ≤ dm.image.size := by
    obtain ⟨o, ho, heq⟩ := hblocks.slot_bounds hoffset
    have hzero : i / 1024 = 0 := by omega
    rw [hzero] at ho
    obtain rfl := Option.some.inj ho
    have hbase : (UInt64.ofNat inodeTableOffset).toNat = 4096 := rfl
    have hbytes : inodeBytes = 256 := rfl
    have hdata : 4096 + 1024 * 256 ≤ dataOffset := by decide
    have hle := hh.size_le
    omega
  rw [readInode, if_neg (Nat.not_le.mpr (InodeTable.lt_maxFiles_of_inodeOffset hoffset)),
    InodeTable.readInode, hoffset]
  dsimp only
  rw [readBytes_of_le hsize]
  dsimp only
  split
  · exact ⟨_, rfl⟩
  · exact ⟨_, rfl⟩

namespace Blank

omit [Zstd]

variable {dm dm' : DiskManager} {k : ℕ}

theorem capacity_eq (h : dm.Blank k) :
  dm.inodeTable.capacity = 1024
  := h.blocks.capacity_eq

theorem inodeOffset_ne_none (h : dm.Blank k) {i : ℕ} (hi : i < 1024) :
  dm.inodeTable.inodeOffset i ≠ none
  := by
  rw [h.blocks.inodeOffset_ne_none, h.capacity_eq]
  exact hi

/-- One of the first slots that are free is found. -/
theorem allocInode (h : dm.Blank k) (hk : k < 1024) :
  ∃ i ≤ k, dm.allocInode = (some i, { dm with inodeTable :=
    { dm.inodeTable with nextDiskEnd := dm.superblock.nextDataOffset } })
  := by
  have hlt : ∀ {i}, i < 1024 → ¬ maxFiles ≤ i := fun hi =>
    Nat.not_le.mpr (hi.trans (by decide))
  obtain ⟨inode, hread, hunused⟩ := h.free k (Nat.le_refl k) hk
  rw [readInode, if_neg (hlt hk)] at hread
  obtain ⟨i, hi, hfirst⟩ := InodeTable.exists_firstFree (n := dm.inodeTable.capacity)
    (fun j _ hj => by
      rw [h.capacity_eq, Nat.zero_add] at hj
      obtain ⟨inode, hj'⟩ := exists_readInode h.kept h.blocks hj
      rw [readInode, if_neg (hlt hj)] at hj'
      exact ⟨inode, hj'⟩)
    (Nat.zero_le k) (by rw [h.capacity_eq]; omega) hread hunused
  exact ⟨i, hi, allocInode_of_found hfirst⟩

/-- A change outside the free slots. -/
theorem of_changesIn {S : Set ℕ} {k' : ℕ} (hchanges : ChangesIn S dm dm')
    (hkept : dm'.Kept) (htable : dm'.inodeTable.blockOffsets = dm.inodeTable.blockOffsets)
    (hk : k ≤ k') (hout : ∀ i, k' ≤ i → i < 1024 → Disjoint (dm.inodeTable.slotRange i) S)
    (h : dm.Blank k) :
  dm'.Blank k'
  := by
  refine ⟨hkept, h.blocks.congr htable, ?_⟩
  intro i hlo hhi
  obtain ⟨inode, hread, hunused⟩ := h.free i (hk.trans hlo) hhi
  refine ⟨inode, ?_, hunused⟩
  apply hchanges.readInode _ h.kept.placed hread (hout i hlo hhi)
  exact InodeTable.inodeOffset_congr htable i

theorem writeInode {i : ℕ} (hi : i ≤ k) (inode : InodeRaw) (h : dm.Blank k) :
  (dm.writeInode i inode).2.Blank (k + 1)
  := by
  obtain ⟨journal, file, hframe⟩ := dm.writeInode_frame i inode
  have hchanges := changesIn_writeInode i inode (h.kept.room.trans (by decide))
  apply h.of_changesIn hchanges (h.kept.writeInode i inode) (by rw [hframe]) (Nat.le_succ k)
  intro j hj _
  exact h.blocks.disjoint_slotRange (by omega)

/-- An inode written to a slot is there, and the other slots are as before. -/
theorem readInode_writeInode {i : ℕ} (hi : i < 1024) (inode : InodeRaw) (h : dm.Blank k) :
  (dm.writeInode i inode).2.readInode i = .ok inode
    ∧ ∀ j x, j ≠ i → dm.readInode j = .ok x → (dm.writeInode i inode).2.readInode j = .ok x
  := by
  have hroom : dm.journal.nextSlot ≤ 510 := h.kept.room.trans (by decide)
  have hplaced := h.kept.placed
  use DiskManager.readInode_writeInode (h.inodeOffset_ne_none hi) hplaced hroom
  intro j x hne hread
  obtain ⟨_, _, hframe⟩ := dm.writeInode_frame i inode
  apply (changesIn_writeInode i inode hroom).readInode _ hplaced hread
    (h.blocks.disjoint_slotRange hne)
  rw [hframe]

/-- It can be closed and opened again if it could before. -/
theorem reopenable_writeInode {i : ℕ} (hi : i < 1024) (inode : InodeRaw) (h : dm.Blank k)
    (hre : Reopenable dm) :
  Reopenable (dm.writeInode i inode).2
  := by
  have hroom : dm.journal.nextSlot ≤ 510 := h.kept.room.trans (by decide)
  obtain ⟨offset, hoffset⟩ := Option.ne_none_iff_exists'.mp (h.inodeOffset_ne_none hi)
  have hmax := InodeTable.lt_maxFiles_of_inodeOffset hoffset
  have hok := dm.writeInode_ok inode hmax hoffset (by omega)
  apply hre.journaled (c := .writeInode i inode)
  · show (dm.inodeTable.inodeOffset i).isSome = true
    rw [hoffset]
    rfl
  · show (dm.writeInode i inode).1 = .ok ()
    rw [hok]

theorem flush (h : dm.Blank k) :
  dm.flush.Blank k
  := by
  apply h.of_changesIn dm.changesIn_flush h.kept.flush rfl (Nat.le_refl k)
  exact fun i _ _ => disjoint_slotRange_metadataRange h.kept.placed i

/-- The pointer of the table does not matter. -/
theorem congr_table (h : dm.Blank k) (next : UInt64) :
  ({ dm with inodeTable := { dm.inodeTable with nextDiskEnd := next } } : DiskManager).Blank k
  := ⟨⟨h.kept.replayable, h.kept.valid, h.kept.room,
      ⟨h.kept.placed.first, h.kept.placed.rest⟩, h.kept.base_le⟩,
    ⟨h.blocks.toList_eq, h.blocks.ne_zero, h.blocks.stop_le, h.blocks.disjoint⟩, h.free⟩

/-- Opening the closed image gives a disk with the same free slots. -/
theorem remount (hremounted : Remounted dm dm') (h : dm.Blank k) :
  dm'.Blank k
  := by
  apply h.of_changesIn hremounted.changesIn hremounted.kept hremounted.metadata.blocks
    (Nat.le_refl k)
  exact fun i _ _ => disjoint_slotRange_metadataRange h.kept.placed i

/-- The slots from `k` on read as unused, those without a block too. -/
theorem isUsed_eq_zero {i : ℕ} {inode : InodeRaw} (hi : k ≤ i)
    (hread : dm.readInode i = .ok inode) (h : dm.Blank k) :
  inode.isUsed = 0
  := by
  by_cases hlt : i < 1024
  · obtain ⟨inode', hread', hunused⟩ := h.free i hi hlt
    obtain rfl := Except.ok.inj (hread'.symm.trans hread)
    exact hunused
  · have hnone : dm.inodeTable.inodeOffset i = none := by
      by_contra hsome
      rw [← ne_eq, h.blocks.inodeOffset_ne_none, h.capacity_eq] at hsome
      exact hlt hsome
    rw [readInode] at hread
    split at hread
    · cases hread
    · rw [InodeTable.readInode, hnone] at hread
      obtain rfl := Except.ok.inj hread
      rfl

theorem format (image : Image) (sizeBytes now : UInt64) :
  (DiskManager.format image sizeBytes now).Blank 0
  := by
  have hkept := Kept.format image sizeBytes now
  have hblocks : (DiskManager.format image sizeBytes now).inodeTable.Blocks
      [UInt64.ofNat inodeTableOffset] := .new _
  refine ⟨hkept, hblocks, ?_⟩
  intro i _ hi
  obtain ⟨inode, hread⟩ := exists_readInode hkept hblocks hi
  exact ⟨inode, hread, readInode_format image sizeBytes now hread⟩

end Blank

end DiskManager

omit [Zstd] in
/-- A formatted disk is in order. -/
theorem DiskManager.inOrder_format (image : Image) (sizeBytes now : UInt64) :
  (DiskManager.format image sizeBytes now).InOrder
  := ⟨.format image sizeBytes now, .new _⟩

omit [Zstd] in
/-- A change outside the snapshot table. -/
theorem DiskManager.NoSnapshots.of_changesIn {dm dm' : DiskManager} {S : Set ℕ}
    (hsize : dataOffset ≤ dm.image.size) (hchanges : ChangesIn S dm dm')
    (hout : ∀ k < maxSnapshotSlots, Disjoint (snapshotRange k) S) (h : dm.NoSnapshots) :
  dm'.NoSnapshots
  := by
  intro k record hread
  rw [hchanges.readSnapshot_eq hsize (hout k)] at hread
  exact h k record hread

/-! ### Pieces -/

/-- The pieces that insert into the cache. -/
def Call.Inserts : Call → Prop
  | .cachePut _ _ => True
  | _ => False

/-- A piece that gives no bytes back to the allocator and evicts nothing. -/
structure Call.Quiet (fs : VexFS) (c : Call) : Prop where
  keeps : ¬ c.Releases
  evicts : ∀ ino data, c = .cachePut ino data →
    (fs.cache.insert ino data).evicted = fs.cache.evicted

namespace Call.Quiet

omit [Crc32] [Zstd]

variable {fs : VexFS} {c : Call}

theorem of_kept (hkeeps : ¬ c.Releases) (hinserts : ¬ c.Inserts) :
  c.Quiet fs
  := by
  use hkeeps
  rintro ino data rfl
  exact absurd trivial hinserts

theorem cachePut_of_room {data : List UInt8} {n : ℕ} (h : fs.cache.Room (data.length + n))
    (ino : UInt64) :
  (Call.cachePut ino data).Quiet fs
  := by
  use id
  rintro ino' data' heq
  obtain ⟨rfl, rfl⟩ := Call.cachePut.inj heq
  rw [(h.insert ino).1.evicted, h.evicted]

end Call.Quiet

namespace VexFS

/-- The file that is added for an entry. -/
def entryFile (fs : VexFS) (parent : UInt64) (name : String) (isDir : Bool) (diskIndex : ℕ) :
    VexFile where
  name
  attr := makeAttr fs.nextInode 0 isDir
  diskIndex
  dirty := !isDir
  parentIno := parent
  dataOffset := UInt64.ofNat dataOffset

omit [Zstd] in
theorem addEntry_of_some {fs : VexFS} {i : ℕ} {disk : DiskManager}
    (h : fs.disk.allocInode = (some i, disk)) (parent : UInt64) (name : String)
    (isDir : Bool) :
  fs.addEntry parent name isDir = { fs with
    disk
    nextInode := fs.nextInode + 1
    index := fs.index.insert parent name ⟨fs.nextInode, 0, isDir, i⟩
    files := fs.files.insert fs.nextInode (fs.entryFile parent name isDir i) }
  := by
  rw [addEntry, h]
  rfl

omit [Zstd] in
theorem writeNewInode_of_get {fs : VexFS} {ino : UInt64} {f : VexFile}
    (h : fs.files.get ino = some f) (createdAt modifiedAt : UInt64) :
  fs.writeNewInode ino createdAt modifiedAt
    = { fs with disk := (fs.disk.writeInode f.diskIndex (newInode ino f createdAt modifiedAt)).2 }
  := by
  rw [writeNewInode, h]

end VexFS

/-! ### Operations -/

namespace Session

variable {s : Session} {env : Env} {n : ℕ}

/-- Inserting into a cache with room flushes nothing. -/
theorem cacheInsert_eq_of_room (env : Env) {data : List UInt8}
    (h : s.fs.cache.Room (data.length + n)) (ino : UInt64) :
  s.cacheInsert env ino data = (s.perform (.cachePut ino data)).perform .drainEvicted
  := by
  have hlt : s.fs.cache.usedBytes < s.fs.cache.maxBytes := by
    have := h.used_lt
    omega
  have hpre : s.preEvictionFlush env = s := if_pos hlt
  have hput : (s.perform (.cachePut ino data)).fs.cache.evicted = [] := (h.insert ino).1.evicted
  rw [cacheInsert, hpre, flushCacheEvictions, hput]
  rfl

theorem cacheInsert_of_room (env : Env) {data : List UInt8}
    (h : s.fs.cache.Room (data.length + n)) (ino : UInt64) :
  (s.cacheInsert env ino data).fs = (s.fs.cachePut ino data).drainEvicted
    ∧ (s.cacheInsert env ino data).fs.cache.Room n
  := by
  rw [cacheInsert_eq_of_room env h]
  exact ⟨rfl, rfl, (h.insert ino).1.used_lt⟩

/-- Replacing cached contents below the ceiling flushes nothing, whatever their size. -/
theorem cacheInsert_of_cached (env : Env) {ino : UInt64} {old : List UInt8}
    (hcached : s.fs.cache.contents ino = some old) (hroom : s.fs.cache.Room 0)
    (data : List UInt8) :
  s.cacheInsert env ino data = (s.perform (.cachePut ino data)).perform .drainEvicted
  := by
  have hlt : s.fs.cache.usedBytes < s.fs.cache.maxBytes := hroom.used_lt
  have hpre : s.preEvictionFlush env = s := if_pos hlt
  obtain ⟨hevicted, -⟩ := FileCache.insert_of_cached hcached data
  have hput : (s.perform (.cachePut ino data)).fs.cache.evicted = [] :=
    hevicted.trans hroom.evicted
  rw [cacheInsert, hpre, flushCacheEvictions, hput]
  rfl

omit [Crc32] [Zstd] in
/-- Writing over no contents leaves what is written. -/
theorem overwrite_nil (data : List UInt8) :
  overwrite [] 0 data = data
  := by
  unfold overwrite
  split
  · have hlength : (resize [] (0 + data.length)).length ≤ 0 + data.length := by
      rw [resize, List.take_nil, List.nil_append, zeros, List.length_replicate]
      exact Nat.sub_le _ _
    show List.take 0 _ ++ data ++ List.drop (0 + data.length) (resize [] (0 + data.length)) = data
    rw [List.take_zero, List.nil_append, List.drop_of_length_le hlength, List.append_nil]
  · next hle =>
    have hnil : data = [] := List.eq_nil_of_length_eq_zero (by simpa using hle)
    rw [hnil]
    rfl

/-- The session after a write to an empty file that is cached below the ceiling. -/
def wrote (s : Session) (ino : UInt64) (data : List UInt8) : Session :=
  ((((s.perform (.request (.write ino 0 data))).perform (.cacheGet ino)).perform
    (.setSize ino (UInt64.ofNat data.length))).perform (.cachePut ino data)).perform .drainEvicted

/-- A write to an empty file that is cached below the ceiling. -/
theorem exec_write_of_empty (env : Env) {ino : UInt64} {f : VexFile}
    (hsearch : ino ≠ searchIno) (hask : ino ≠ askIno) (hf : s.fs.files.get ino = some f)
    (hcached : s.fs.cache.contents ino = some []) (hroom : s.fs.cache.Room 0)
    (data : List UInt8) (hlength : data.length ≤ maxCapacity) :
  s.exec env (.write ino 0 data) = .ok (.written (UInt32.ofNat data.length), s.wrote ino data)
  := by
  let s₀ := s.perform (.request (.write ino 0 data))
  have hf₀ : s₀.fs.files.get ino = some f := hf
  have hcached₀ : s₀.fs.cache.contents ino = some [] := hcached
  let s₁ := (s₀.perform (.cacheGet ino)).perform (.setSize ino (UInt64.ofNat data.length))
  have hcached₁ : s₁.fs.cache.contents ino = some [] := by
    show (s.fs.cache.get ino).2.contents ino = some []
    rw [FileCache.contents_get, hcached]
  have hroom₁ : s₁.fs.cache.Room 0 := hroom.get ino
  have hinsert := cacheInsert_of_cached env hcached₁ hroom₁ data
  show s₀.write env ino 0 data = _
  unfold write
  rw [if_neg (not_or.mpr ⟨hsearch, hask⟩), hf₀, hcached₀]
  dsimp only
  have hnot : ¬ ((0 : Int64) = 0 ∧ ([] : List UInt8) ≠ []) := fun h => h.2 rfl
  have hfits : ¬ maxCapacity < (0 : Int64).toUInt64.toNat + data.length := by
    have hstart : (0 : Int64).toUInt64.toNat = 0 := rfl
    omega
  have hcontent : overwrite [] (0 : Int64).toUInt64.toNat data = data := overwrite_nil data
  rw [Option.getD_some, if_neg (fun h => hnot h.1)]
  rw [if_neg hfits, if_neg hnot, if_neg hnot, hcontent]
  exact congrArg (fun s' => Except.ok (Reply.written (UInt32.ofNat data.length), s')) hinsert

/-- The file that was written to has its size and is dirty. -/
theorem files_wrote {ino : UInt64} {f : VexFile} (hf : s.fs.files.get ino = some f)
    (data : List UInt8) :
  (s.wrote ino data).fs.files.get ino = some { f with
    attr := { f.attr with size := UInt64.ofNat data.length }
    dirty := true }
  := by
  show (s.fs.files.modify ino _).get ino = _
  rw [FiniteMap.get_modify, if_pos rfl, hf]
  rfl

/-- It is cached with what was written. -/
theorem contents_wrote {ino : UInt64} {old : List UInt8}
    (hcached : s.fs.cache.contents ino = some old) (data : List UInt8) (ino' : UInt64) :
  (s.wrote ino data).fs.cache.contents ino'
    = if ino' = ino then some data else s.fs.cache.contents ino'
  := by
  have hgot : (s.fs.cache.get ino).2.contents ino = some old := by
    rw [FileCache.contents_get, hcached]
  show ((s.fs.cache.get ino).2.insert ino data).contents ino' = _
  rw [(FileCache.insert_of_cached hgot data).2, FileCache.contents_get]

/-- The disk is not called. -/
theorem fitsDisk_wrote (ino : UInt64) (data : List UInt8) (h : FitsDisk s.log) :
  FitsDisk (s.wrote ino data).log
  := by
  have hgot := FitsDisk.perform (c := .cacheGet ino) trivial
    (FitsDisk.perform (c := .request (.write ino 0 data)) trivial h)
  have hput := FitsDisk.perform (c := .cachePut ino data) trivial
    (FitsDisk.perform (c := .setSize ino (UInt64.ofNat data.length)) trivial hgot)
  exact hput.perform trivial

/-- A file is made when its parent is a directory, its name and an inode are free, and there
is a next inode number. -/
theorem create_eq {parent : UInt64} {name : String} {i : ℕ}
    (hparent : parentError s.fs parent = none) (hfree : s.fs.index.get parent name = none)
    (halloc : s.fs.disk.allocInode.1 = some i) (hmax : s.fs.nextInode + 1 ≠ 0) :
  s.create env parent name = .ok (.entry (makeAttr s.fs.nextInode 0 false),
    ((s.perform (.addEntry parent name false)).cacheInsert env s.fs.nextInode []).perform
      (.writeNewInode s.fs.nextInode env.createdAt env.modifiedAt))
  := by
  unfold create
  rw [hparent]
  dsimp only
  rw [hfree, if_neg (by simp), halloc]
  dsimp only
  rw [if_neg hmax]

/-- What making a file does. -/
theorem create_of_room {parent : UInt64} {name : String} {i : ℕ} {disk : DiskManager}
    (hparent : parentError s.fs parent = none) (hfree : s.fs.index.get parent name = none)
    (halloc : s.fs.disk.allocInode = (some i, disk)) (hmax : s.fs.nextInode + 1 ≠ 0)
    (hroom : s.fs.cache.Room n) (env : Env) :
  ∃ s', s.create env parent name = .ok (.entry (makeAttr s.fs.nextInode 0 false), s')
    ∧ s'.fs = { s.fs with
      disk := (disk.writeInode i (VexFS.newInode s.fs.nextInode
        (s.fs.entryFile parent name false i) env.createdAt env.modifiedAt)).2
      nextInode := s.fs.nextInode + 1
      index := s.fs.index.insert parent name ⟨s.fs.nextInode, 0, false, i⟩
      files := s.fs.files.insert s.fs.nextInode (s.fs.entryFile parent name false i)
      cache := (s.fs.cache.insert s.fs.nextInode []).drainEvicted.2 }
    ∧ s'.fs.cache.Room n
    ∧ (s.fs.disk.superblock.nextDataOffset.toNat + inodeBlockSize ≤ 2 ^ 63 → FitsDisk s.log →
      FitsDisk s'.log)
    ∧ ((∀ e ∈ s.log, e.2.Quiet e.1) → ∀ e ∈ s'.log, e.2.Quiet e.1)
  := by
  let added := s.perform (.addEntry parent name false)
  have hadded : added.fs = { s.fs with
      disk
      nextInode := s.fs.nextInode + 1
      index := s.fs.index.insert parent name ⟨s.fs.nextInode, 0, false, i⟩
      files := s.fs.files.insert s.fs.nextInode (s.fs.entryFile parent name false i) } :=
    VexFS.addEntry_of_some halloc parent name false
  have hcache : added.fs.cache.Room (([] : List UInt8).length + n) := by
    rw [hadded, List.length_nil, Nat.zero_add]
    exact hroom
  obtain ⟨hinsert, hroom'⟩ := cacheInsert_of_room env hcache s.fs.nextInode
  have hfst : s.fs.disk.allocInode.1 = some i := congrArg Prod.fst halloc
  let s' := (added.cacheInsert env s.fs.nextInode []).perform
    (.writeNewInode s.fs.nextInode env.createdAt env.modifiedAt)
  use s', create_eq hparent hfree hfst hmax
  have hget : (added.cacheInsert env s.fs.nextInode []).fs.files.get s.fs.nextInode
      = some (s.fs.entryFile parent name false i) := by
    rw [hinsert, hadded]
    exact FiniteMap.get_insert_self _ _ _
  have hrun : s'.fs = (added.cacheInsert env s.fs.nextInode []).fs.writeNewInode
      s.fs.nextInode env.createdAt env.modifiedAt := by rw [fs_perform, Call.run]
  have hfs := hrun.trans (VexFS.writeNewInode_of_get hget env.createdAt env.modifiedAt)
  rw [hinsert, hadded] at hfs
  refine ⟨?_, ?_, ?_, ?_⟩
  · rw [hfs]
    rfl
  · rw [hinsert, hadded] at hroom'
    rw [hfs]
    exact hroom'
  · intro hnear hfits
    have hrecord : DiskCall.Guarded (fun dm call => call.Fits dm)
        (added.cacheInsert env s.fs.nextInode []).fs.disk
        ((Call.writeNewInode s.fs.nextInode env.createdAt env.modifiedAt).diskCalls
          (added.cacheInsert env s.fs.nextInode []).fs) := by
      rw [Call.diskCalls, hget]
      exact ⟨trivial, trivial⟩
    have hadd : FitsDisk added.log :=
      FitsDisk.perform (c := .addEntry parent name false) ⟨hnear, trivial⟩ hfits
    have hput : FitsDisk (added.perform (.cachePut s.fs.nextInode [])).log :=
      hadd.perform trivial
    apply FitsDisk.perform hrecord
    rw [cacheInsert_eq_of_room env hcache]
    exact hput.perform trivial
  · intro hlog
    show ∀ e ∈ ((added.cacheInsert env s.fs.nextInode []).perform _).log, e.2.Quiet e.1
    rw [cacheInsert_eq_of_room env hcache, forall_log_perform, forall_log_perform,
      forall_log_perform, forall_log_perform]
    exact ⟨⟨⟨⟨hlog, .of_kept id id⟩, .cachePut_of_room hcache _⟩, .of_kept id id⟩,
      .of_kept id id⟩

/-- A file is made on a disk with a free inode. -/
theorem exec_create_of_blank (parent : UInt64) (name : String) {k : ℕ}
    (hparent : parentError s.fs parent = none) (hfree : s.fs.index.get parent name = none)
    (hblank : s.fs.disk.Blank k) (hk : k < 1024) (hmax : s.fs.nextInode + 1 ≠ 0)
    (hroom : s.fs.cache.Room n) (env : Env) :
  ∃ s', ∃ i ≤ k, s.exec env (.create parent name)
      = .ok (.entry (makeAttr s.fs.nextInode 0 false), s')
    ∧ s'.fs = { s.fs with
      disk := s'.fs.disk
      nextInode := s.fs.nextInode + 1
      index := s.fs.index.insert parent name ⟨s.fs.nextInode, 0, false, i⟩
      files := s.fs.files.insert s.fs.nextInode (s.fs.entryFile parent name false i)
      cache := (s.fs.cache.insert s.fs.nextInode []).drainEvicted.2 }
    ∧ s'.fs.cache.Room n ∧ s'.fs.disk.Blank (k + 1)
    ∧ s'.fs.disk = (({ s.fs.disk with inodeTable := { s.fs.disk.inodeTable with
        nextDiskEnd := s.fs.disk.superblock.nextDataOffset } } : DiskManager).writeInode i
          (VexFS.newInode s.fs.nextInode (s.fs.entryFile parent name false i) env.createdAt
            env.modifiedAt)).2
    ∧ (s.fs.disk.superblock.nextDataOffset.toNat + inodeBlockSize ≤ 2 ^ 63 → FitsDisk s.log →
      FitsDisk s'.log)
    ∧ ((∀ e ∈ s.log, e.2.Quiet e.1) → ∀ e ∈ s'.log, e.2.Quiet e.1)
  := by
  obtain ⟨i, hi, halloc⟩ := hblank.allocInode hk
  obtain ⟨s', hexec, hfs, hroom', hlog, hquiet⟩ := create_of_room
    (s := s.perform (.request (.create parent name))) hparent hfree halloc hmax hroom env
  refine ⟨s', i, hi, ?_, ?_, hroom', ?_, ?_, ?_, ?_⟩
  · rw [exec]
    exact hexec
  · rw [hfs]
    rfl
  · rw [hfs]
    exact (hblank.congr_table _).writeInode hi _
  · rw [hfs]
    rfl
  · intro hnear hfits
    apply hlog hnear
    exact FitsDisk.perform (c := .request (.create parent name)) trivial hfits
  · exact fun hbefore => hquiet (forall_log_perform.mpr ⟨hbefore, .of_kept id id⟩)

end Session

/-! ### The first file -/

/-- The record of the first file, in a slot. -/
def firstFile (i : ℕ) : VexFile where
  name := "a"
  attr := makeAttr 2 0 false
  diskIndex := i
  dirty := true
  parentIno := rootIno
  dataOffset := UInt64.ofNat dataOffset

/-- A fresh session in which a file was made in the root, and nothing else was done. -/
structure FirstFile (s : Session) (i : ℕ) : Prop where
  fresh : FreshSession Image.empty 0 0 s
  entry : s.fs.index.get rootIno "a" = some ⟨2, 0, false, i⟩
  file : s.fs.files.get 2 = some (firstFile i)
  contents : s.fs.cache.contents 2 = some []
  room : s.fs.cache.Room 4096
  buffer : s.fs.writeBuffer = .new 32 5
  snapshots : s.fs.snapshots = .new 10
  disk : s.fs.disk.Blank 1
  noSnapshots : s.fs.disk.NoSnapshots
  freeList : s.fs.disk.freeList = .new
  next : s.fs.disk.superblock.nextDataOffset = UInt64.ofNat dataOffset

/-- Making it gave nothing back and evicted nothing. -/
theorem exists_quietFirstFile :
  ∃ s i, FirstFile s i ∧ s.fs.cache.maxBytes = cacheMaxBytes
    ∧ (∀ ino, ino ≠ 2 → s.fs.cache.contents ino = none)
    ∧ s.fs.disk.readInode i = .ok (VexFS.newInode 2 (firstFile i) 0 0) ∧ FitsDisk s.log
    ∧ ∀ e ∈ s.log, e.2.Quiet e.1
  := by
  have hnext : (2 : UInt64) + 1 ≠ 0 := by decide
  let dm := DiskManager.format Image.empty 0 0
  let blank := VexFS.new dm
  have hblank : dm.Blank 0 := .format Image.empty 0 0
  have hroom : (FileCache.new cacheMaxBytes).Room 4096 := FileCache.room_new (by decide)
  have hnear : dm.superblock.nextDataOffset.toNat + inodeBlockSize ≤ 2 ^ 63 := by
    show (UInt64.ofNat dataOffset).toNat + inodeBlockSize ≤ 2 ^ 63
    decide
  obtain ⟨s, i, hi, hexec, hfs, hroom', hblank', hdisk, hfits, hquiet⟩ :=
    Session.exec_create_of_blank (s := ⟨blank, []⟩) rootIno "a" rfl rfl hblank (by decide) hnext
      hroom Env.still
  let searched : DiskManager := { dm with inodeTable :=
    { dm.inodeTable with nextDiskEnd := dm.superblock.nextDataOffset } }
  have hsearched : searched.Blank 0 := hblank.congr_table _
  have hwritten : s.fs.disk = (searched.writeInode i _).2 := hdisk
  have hrecord : s.fs.disk.readInode i = .ok (VexFS.newInode 2 (firstFile i) 0 0) := by
    rw [hwritten]
    exact (hsearched.readInode_writeInode (Nat.lt_of_le_of_lt hi (by decide)) _).1
  obtain ⟨journal, file, hframe⟩ := searched.writeInode_frame i
    (VexFS.newInode 2 (blank.entryFile rootIno "a" false i) 0 0)
  have hdisk' : s.fs.disk = { searched with journal, file } := hwritten.trans hframe
  have hmax : s.fs.cache.maxBytes = cacheMaxBytes := by
    rw [hfs]
    exact FileCache.maxBytes_insert (.new cacheMaxBytes) 2 []
  have hcontents : ∀ ino, s.fs.cache.contents ino = if ino = 2 then some [] else none := by
    intro ino
    have hroom₀ : blank.cache.Room (([] : List UInt8).length + 4096) := by
      rw [List.length_nil, Nat.zero_add]
      exact hroom
    rw [hfs]
    show (blank.cache.insert 2 []).drainEvicted.2.contents ino = _
    rw [FileCache.contents_drainEvicted, (hroom₀.insert 2).2]
    rfl
  refine ⟨s, i, ⟨.of_reachable (.exec _ _ .start hexec), ?_, ?_, ?_, hroom', ?_, ?_, hblank', ?_,
    ?_, ?_⟩, hmax, fun ino hne => (hcontents ino).trans (if_neg hne), hrecord,
    hfits hnear (List.forall_mem_nil _), hquiet (List.forall_mem_nil _)⟩
  · rw [hfs, Index.get_eq]
    show (blank.index.insert rootIno "a" _).entries.lookup _ = _
    rw [Index.entries_insert, SortedMap.lookup_insert, if_pos rfl]
    rfl
  · rw [hfs]
    exact FiniteMap.get_insert_self _ _ _
  · rw [hcontents, if_pos rfl]
  · rw [hfs]
    rfl
  · rw [hfs]
    rfl
  · have hsize : dataOffset ≤ searched.image.size := by
      obtain ⟨_, _, hh, -⟩ := hsearched.kept.replayable
      exact hh.size_le
    have hnone : searched.NoSnapshots := noSnapshots_format Image.empty 0 0
    rw [hwritten]
    exact hnone.of_changesIn hsize
      (DiskManager.changesIn_writeInode i _ (hsearched.kept.room.trans (by decide)))
      fun k hk => disjoint_snapshotRange_slotRange hsearched.kept.placed hk i
  · rw [hdisk']
    rfl
  · rw [hdisk']
    rfl

theorem exists_firstFile :
  ∃ s i, FirstFile s i ∧ s.fs.cache.maxBytes = cacheMaxBytes
    ∧ (∀ ino, ino ≠ 2 → s.fs.cache.contents ino = none)
    ∧ s.fs.disk.readInode i = .ok (VexFS.newInode 2 (firstFile i) 0 0) ∧ FitsDisk s.log
  := by
  obtain ⟨s, i, hfirst, hmax, hothers, hrecord, hfits, -⟩ := exists_quietFirstFile
  exact ⟨s, i, hfirst, hmax, hothers, hrecord, hfits⟩

end Vexfs
