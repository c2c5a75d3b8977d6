import Vexfs.Fs.Allocation

/-!
# The end of the image

The allocator never compares the pointer of the superblock with the size of the image: data
that fits no free extent goes to the pointer, and the inode table grows there, also past the
end.  Everything that is handed out lies in the image exactly when every request that moves
the pointer has room behind it (`allocations_inside_iff`).
-/

namespace Vexfs

open Storage

/-! ### Positions and extents -/

/-- The least multiple of 512 from a position on is not past a multiple of 512 that the
position is not past. -/
theorem DiskManager.toNat_align512_le {v : UInt64} {limit : ℕ} (hle : v.toNat ≤ limit)
    (hlimit : 512 ∣ limit) (hfar : limit < 2 ^ 64) :
  (align512 v).toNat ≤ limit
  := by
  obtain ⟨k, rfl⟩ := hlimit
  unfold align512
  split
  · next hne =>
    have hpos : v.toNat % 512 ≠ 0 := by
      intro h0
      exact hne (UInt64.toNat_inj.mp ((UInt64.toNat_mod v 512).trans h0))
    have hnext : v.toNat + (512 - v.toNat % 512) ≤ 512 * k := by omega
    rw [UInt64.toNat_add, toNat_padding512, Nat.mod_eq_of_lt (hnext.trans_lt hfar)]
    exact hnext
  · exact hle

/-- A free extent is claimed exactly when one is long enough. -/
theorem FreeList.alloc_eq_none_iff {fl : FreeList} {n : ℕ} :
  fl.alloc n = none ↔ ∀ e ∈ fl.extents, ¬ UInt64.ofNat n ≤ e.length
  := by
  have hfit : bestFit fl.extents n = none ↔ ∀ e ∈ fl.extents, ¬ UInt64.ofNat n ≤ e.length := by
    rw [bestFit, Option.map_eq_none_iff, List.argmin_eq_none, List.filter_eq_nil_iff]
    constructor
    · intro h e he
      obtain ⟨i, hi⟩ := List.mem_iff_getElem?.mp he
      simpa using h (e, i) (List.mem_zipIdx_iff_getElem?.mpr hi)
    · intro h p hp
      simpa using h p.1 (List.mem_of_getElem? (List.mem_zipIdx_iff_getElem?.mp hp))
  rw [← hfit, alloc]
  cases hbest : bestFit fl.extents n with
  | none => simp
  | some idx =>
      obtain ⟨p, hp, hidx⟩ := Option.map_eq_some_iff.mp hbest
      obtain ⟨hmem, -⟩ := List.mem_filter.mp (List.argmin_mem hp)
      have hget := List.mem_zipIdx_iff_getElem?.mp hmem
      rw [hidx] at hget
      simp only [hget]
      split <;> simp

/-! ### Growing the table -/

/-- A table that cannot grow has no empty place in its directory. -/
theorem InodeTable.zero_notMem_of_allocBlock {table table' : InodeTable} {file file' : File}
    (h : table.allocBlock file = (none, table', file')) :
  0 ∉ table.blockOffsets.toList.drop 1
  := by
  unfold allocBlock at h
  split at h
  · next hfind =>
    intro hzero
    exact absurd (List.findIdx?_eq_none_iff.mp hfind 0 hzero) (by decide)
  · cases h

namespace DiskManager

variable [Crc32] {dm : DiskManager}

/-- The table grows when no slot is free and the directory has an empty place. -/
theorem allocInode_grows
    (hfree : dm.inodeTable.firstFree dm.file dm.inodeTable.capacity 0 = .ok none)
    (hzero : 0 ∈ dm.inodeTable.blockOffsets.toList.drop 1) :
  ∃ i, (dm.inodeTable.blockOffsets.toList.drop 1)[i]? = some 0
    ∧ dm.allocInode.2 = dm.growTable i
  := by
  have hnone : InodeTable.firstFree
      { dm.inodeTable with nextDiskEnd := dm.superblock.nextDataOffset } dm.file
      (InodeTable.capacity { dm.inodeTable with nextDiskEnd := dm.superblock.nextDataOffset })
      0 = .ok none :=
    (firstFree_nextDiskEnd dm.inodeTable _ dm.file _ 0).trans hfree
  cases halloc : InodeTable.allocBlock
      { dm.inodeTable with nextDiskEnd := dm.superblock.nextDataOffset } dm.file with
  | mk r rest =>
      obtain ⟨table', file'⟩ := rest
      obtain ⟨rfl, -⟩ | ⟨i, rfl, hi, rfl, rfl⟩ := InodeTable.allocBlock_cases halloc
      · have hnot := InodeTable.zero_notMem_of_allocBlock halloc
        exact absurd hzero hnot
      · use i, hi
        have hgrow := InodeTable.allocInode_appended hnone halloc
        rw [allocInode_appended hgrow rfl]
        rfl

/-- The blocks after growing: the new one is at the pointer of the superblock. -/
theorem extensionBlocks_growTable {i : ℕ}
    (hi : (dm.inodeTable.blockOffsets.toList.drop 1)[i]? = some 0)
    (hbase : dataOffset ≤ dm.superblock.nextDataOffset.toNat) :
  (dm.growTable i).inodeTable.extensionBlocks.Perm
    (dataRange dm.superblock.nextDataOffset inodeBlockSize :: dm.inodeTable.extensionBlocks)
  := by
  have hne : dm.superblock.nextDataOffset ≠ 0 := by
    intro h0
    rw [h0] at hbase
    cases hbase
  exact InodeTable.extensionBlocks_set _ hi hne

/-- The position behind the last byte of the image, by the superblock. -/
def imageEnd (dm : DiskManager) : ℕ :=
  dm.superblock.totalBlocks.toNat * dm.superblock.blockSize.toNat

theorem superblock_growTable (dm : DiskManager) (i : ℕ) :
  (dm.growTable i).superblock = { dm.superblock with
    nextDataOffset := InodeTable.blockEnd dm.superblock.nextDataOffset }
  := rfl

theorem imageEnd_growTable (dm : DiskManager) (i : ℕ) :
  (dm.growTable i).imageEnd = dm.imageEnd
  := by
  rw [imageEnd, superblock_growTable, imageEnd]

end DiskManager

/-! ### Runs -/

/-- A call of a run of the allocator.  Inodes may be written and freed between allocations, so
that slots fill up and become free again. -/
inductive AllocCall where
  | allocData (size : UInt64)
  | freeData (offset size : UInt64)
  | allocInode
  | writeInode (index : ℕ) (inode : InodeRaw)
  | freeInode (index : ℕ)

variable [Crc32]

/-- What a call does. -/
def AllocCall.run (s : AllocState) : AllocCall → AllocState
  | .allocData size =>
      ⟨(s.dm.allocData size.toNat).2, ((s.dm.allocData size.toNat).1, size.toNat) :: s.live⟩
  | .freeData offset size => ⟨s.dm.freeData offset size, s.live.erase (offset, size.toNat)⟩
  | .allocInode => ⟨s.dm.allocInode.2, s.live⟩
  | .writeInode index inode => ⟨(s.dm.writeInode index inode).2, s.live⟩
  | .freeInode index => ⟨(s.dm.freeInode index).2, s.live⟩

omit [Crc32] in
/-- Only live extents are freed. -/
def AllocCall.Allowed (s : AllocState) : AllocCall → Prop
  | .freeData offset size => (offset, size.toNat) ∈ s.live
  | _ => True

/-- Whether there is room in the image for what a call asks for: a free extent that is long
enough, or a free slot, or else room behind the pointer of the superblock.  A table whose
directory is full does not grow. -/
def AllocCall.Fits (s : AllocState) : AllocCall → Prop
  | .allocData size => (∃ e ∈ s.dm.freeList.extents, size ≤ e.length)
      ∨ s.dm.superblock.nextDataOffset.toNat + size.toNat ≤ s.dm.imageEnd
  | .allocInode =>
      s.dm.inodeTable.firstFree s.dm.file s.dm.inodeTable.capacity 0 ≠ .ok none
        ∨ 0 ∉ s.dm.inodeTable.blockOffsets.toList.drop 1
        ∨ s.dm.superblock.nextDataOffset.toNat + inodeBlockSize ≤ s.dm.imageEnd
  | _ => True

namespace AllocState

/-- A statement holds of every call of a run, with the state it is made in. -/
def Throughout (P : AllocState → AllocCall → Prop) : AllocState → List AllocCall → Prop
  | _, [] => True
  | s, call :: calls => P s call ∧ Throughout P (call.run s) calls

omit [Crc32] in
/-- What was handed out ends in the image. -/
structure Inside (s : AllocState) : Prop where
  live : ∀ p ∈ s.live, p.1.toNat + p.2 ≤ s.dm.imageEnd
  blocks : ∀ b ∈ s.dm.inodeTable.extensionBlocks, b ⊆ Set.Iio s.dm.imageEnd

omit [Crc32] in
/-- A layout of the data region whose pointer has only passed the end of the image where the
region starts behind it. -/
structure Bounded (s : AllocState) : Prop where
  sound : s.Sound
  aligned : 512 ∣ s.dm.imageEnd
  far : s.dm.imageEnd + 512 < 2 ^ 64
  next_le : s.dm.superblock.nextDataOffset.toNat ≤ max dataOffset s.dm.imageEnd
  live_le : ∀ p ∈ s.live, p.1.toNat + p.2 ≤ s.dm.imageEnd

variable {s : AllocState}

omit [Crc32] in
/-- A set of the layout that has a position ends in the image. -/
theorem Bounded.subset_Iio (h : s.Bounded) {b : Set ℕ}
    (hb : b ⊆ Set.Ico dataOffset s.dm.superblock.nextDataOffset.toNat) :
  b ⊆ Set.Iio s.dm.imageEnd
  := by
  intro x hx
  obtain ⟨hlo, hhi⟩ := hb hx
  have hnext := h.next_le
  obtain hle | hle := le_max_iff.mp hnext
  · omega
  · exact hhi.trans_le hle

omit [Crc32] in
theorem Bounded.inside (h : s.Bounded) :
  s.Inside
  := by
  use h.live_le
  intro b hb
  exact h.subset_Iio (h.sound.spaced.layout.owned_within b (List.mem_append_right _ hb))

omit [Crc32] in
/-- A free extent ends in the image. -/
theorem Bounded.stop_le (h : s.Bounded) {e : FreeExtent} (he : e ∈ s.dm.freeList.extents) :
  e.stop ≤ s.dm.imageEnd
  := by
  have hpos := h.sound.spaced.pos e he
  have hlast : e.stop - 1 ∈ e.bytes := by
    rw [FreeExtent.bytes, FreeExtent.start, FreeExtent.stop]
    constructor <;> omega
  have hlt : e.stop - 1 < s.dm.imageEnd :=
    h.subset_Iio (h.sound.spaced.layout.free_within _ (List.mem_map_of_mem he)) hlast
  omega

omit [Crc32] in
/-- Claiming a free extent. -/
theorem Bounded.alloc (h : s.Bounded) {size : UInt64} {offset : UInt64} {fl : FreeList}
    (halloc : s.dm.freeList.alloc size.toNat = some (offset, fl)) :
  Bounded ⟨{ s.dm with freeList := fl }, (offset, size.toNat) :: s.live⟩
  := by
  have hn := size.toNat_lt
  constructor
  · constructor
    · exact h.sound.base_le
    · exact FreeList.Spaced.alloc (UInt64.toNat_lt _) hn halloc h.sound.spaced
  · exact h.aligned
  · exact h.far
  · exact h.next_le
  · intro p hp
    obtain rfl | hp := List.mem_cons.mp hp
    · obtain ⟨e, rest, hperm, rfl, hle, -⟩ := FreeList.alloc_cases hn halloc
      have hstop := h.stop_le (hperm.mem_iff.mp List.mem_cons_self)
      exact (Nat.add_le_add_left hle _).trans hstop
    · exact h.live_le p hp

omit [Crc32] in
/-- Moving the pointer of the superblock, where there is room behind it. -/
theorem Bounded.bump (h : s.Bounded) {size : UInt64}
    (halloc : s.dm.freeList.alloc size.toNat = none)
    (hroom : s.dm.superblock.nextDataOffset.toNat + size.toNat ≤ s.dm.imageEnd) :
  Bounded ⟨(s.dm.allocData size.toNat).2,
    ((s.dm.allocData size.toNat).1, size.toNat) :: s.live⟩
  := by
  have hfar := h.far
  obtain ⟨hspaced, hle⟩ := h.sound.spaced.allocData (n := size.toNat)
    h.sound.base_le (by omega)
  obtain ⟨hoffset, -, hsuper, -⟩ := DiskManager.allocData_of_none halloc
  have hend : (s.dm.allocData size.toNat).2.imageEnd = s.dm.imageEnd := by
    rw [DiskManager.imageEnd, hsuper]
    rfl
  have hsum := DiskManager.toNat_bump (v := s.dm.superblock.nextDataOffset) (n := size.toNat)
    (by omega)
  constructor
  · exact ⟨h.sound.base_le.trans hle, hspaced⟩
  · rw [hend]
    exact h.aligned
  · rw [hend]
    exact h.far
  · rw [hend, hsuper]
    apply (DiskManager.toNat_align512_le _ h.aligned (by omega)).trans (le_max_right _ _)
    rwa [hsum]
  · intro p hp
    rw [hend]
    obtain rfl | hp := List.mem_cons.mp hp
    · rw [hoffset]
      exact hroom
    · exact h.live_le p hp

/-- Growing the table, where there is room for a block behind the pointer. -/
theorem Bounded.grow (h : s.Bounded) {i : ℕ}
    (halloc : s.dm.allocInode.2 = s.dm.growTable i)
    (hroom : s.dm.superblock.nextDataOffset.toNat + inodeBlockSize ≤ s.dm.imageEnd) :
  Bounded ⟨s.dm.allocInode.2, s.live⟩
  := by
  have hfar := h.far
  obtain ⟨hspaced, hle⟩ := h.sound.spaced.allocInode h.sound.base_le (by omega)
  have hend : s.dm.allocInode.2.imageEnd = s.dm.imageEnd := by
    rw [halloc, DiskManager.imageEnd_growTable]
  have hnext : s.dm.allocInode.2.superblock.nextDataOffset
      = InodeTable.blockEnd s.dm.superblock.nextDataOffset := by
    rw [halloc, DiskManager.superblock_growTable]
  constructor
  · exact ⟨h.sound.base_le.trans hle, hspaced⟩
  · rw [hend]
    exact h.aligned
  · rw [hend]
    exact h.far
  · rw [hend, hnext, InodeTable.toNat_blockEnd (by omega)]
    exact hroom.trans (le_max_right _ _)
  · rw [hend]
    exact h.live_le

omit [Crc32] in
/-- What is written to the file does not matter. -/
theorem Bounded.frame (h : s.Bounded) {dm : DiskManager}
    (hframe : ∃ journal file, dm = { s.dm with journal, file }) :
  Bounded ⟨dm, s.live⟩
  := by
  obtain ⟨journal, file, rfl⟩ := hframe
  exact ⟨⟨h.sound.base_le, h.sound.spaced⟩, h.aligned, h.far, h.next_le, h.live_le⟩

/-- A call for which there is room keeps the bound. -/
theorem Bounded.run (h : s.Bounded) {call : AllocCall} (hallowed : call.Allowed s)
    (hfits : call.Fits s) :
  (call.run s).Bounded
  := by
  cases call with
  | allocData size =>
      cases halloc : s.dm.freeList.alloc size.toNat with
      | some r =>
          rw [AllocCall.run, DiskManager.allocData_of_some halloc]
          exact h.alloc halloc
      | none =>
          have hnone := FreeList.alloc_eq_none_iff.mp halloc
          rw [UInt64.ofNat_toNat] at hnone
          obtain ⟨e, he, hle⟩ | hroom := hfits
          · exact absurd hle (hnone e he)
          · exact h.bump halloc hroom
  | freeData offset size =>
      have hstep := AllocStep.freeData s.dm s.live offset size.toNat hallowed
      rw [UInt64.ofNat_toNat] at hstep
      constructor
      · exact h.sound.step hstep
      · exact h.aligned
      · exact h.far
      · exact h.next_le
      · exact fun p hp => h.live_le p (List.mem_of_mem_erase hp)
  | allocInode =>
      by_cases hgrows : s.dm.inodeTable.firstFree s.dm.file s.dm.inodeTable.capacity 0 = .ok none
          ∧ 0 ∈ s.dm.inodeTable.blockOffsets.toList.drop 1
      · obtain ⟨i, hi, halloc⟩ := DiskManager.allocInode_grows hgrows.1 hgrows.2
        obtain hfree | hfull | hroom := hfits
        · exact absurd hgrows.1 hfree
        · exact absurd hgrows.2 hfull
        · exact h.grow halloc hroom
      · obtain halloc | ⟨i, hi, hfree, -⟩ := s.dm.allocInode_cases
        · rw [AllocCall.run, halloc]
          exact ⟨⟨h.sound.base_le, h.sound.spaced⟩, h.aligned, h.far, h.next_le, h.live_le⟩
        · exact absurd ⟨hfree, List.mem_of_getElem? hi⟩ hgrows
  | writeInode index inode => exact h.frame (s.dm.writeInode_frame index inode)
  | freeInode index => exact h.frame ⟨s.dm.journal, _, rfl⟩

/-- Where what was handed out ends in the image, there was room for it. -/
theorem Bounded.fits (h : s.Bounded) {call : AllocCall} (hinside : (call.run s).Inside) :
  call.Fits s
  := by
  cases call with
  | allocData size =>
      by_cases hfree : ∃ e ∈ s.dm.freeList.extents, size ≤ e.length
      · exact Or.inl hfree
      · right
        have halloc : s.dm.freeList.alloc size.toNat = none := by
          rw [FreeList.alloc_eq_none_iff, UInt64.ofNat_toNat]
          exact fun e he hle => hfree ⟨e, he, hle⟩
        obtain ⟨hoffset, -, hsuper, -⟩ := DiskManager.allocData_of_none halloc
        have hlast := hinside.live _ List.mem_cons_self
        rw [hoffset] at hlast
        apply hlast.trans
        rw [AllocCall.run, DiskManager.imageEnd, hsuper]
        exact le_refl _
  | allocInode =>
      by_cases hfree : s.dm.inodeTable.firstFree s.dm.file s.dm.inodeTable.capacity 0 = .ok none
      · right
        by_cases hzero : 0 ∈ s.dm.inodeTable.blockOffsets.toList.drop 1
        · right
          obtain ⟨i, hi, halloc⟩ := DiskManager.allocInode_grows hfree hzero
          have hblock := hinside.blocks
          rw [AllocCall.run, halloc, DiskManager.imageEnd_growTable] at hblock
          have hlast : s.dm.superblock.nextDataOffset.toNat + (inodeBlockSize - 1)
              ∈ dataRange s.dm.superblock.nextDataOffset inodeBlockSize :=
            ⟨Nat.le_add_right _ _, Nat.add_lt_add_left (by decide) _⟩
          have hlt : s.dm.superblock.nextDataOffset.toNat + (inodeBlockSize - 1)
              < s.dm.imageEnd :=
            hblock _ ((DiskManager.extensionBlocks_growTable hi h.sound.base_le).mem_iff.mpr
              List.mem_cons_self) hlast
          have hsize : inodeBlockSize = 262144 := rfl
          omega
        · exact Or.inl hzero
      · exact Or.inl hfree
  | freeData offset size => trivial
  | writeInode index inode => trivial
  | freeInode index => trivial

/-- Along a run, every call leaves what was handed out in the image exactly when there is room
for every call. -/
theorem Bounded.throughout (h : s.Bounded) {calls : List AllocCall}
    (hallowed : Throughout (fun s call => call.Allowed s) s calls) :
  Throughout (fun s call => (call.run s).Inside) s calls
    ↔ Throughout (fun s call => call.Fits s) s calls
  := by
  induction calls generalizing s with
  | nil => exact Iff.rfl
  | cons call calls ih =>
      obtain ⟨hcall, hrest⟩ := hallowed
      constructor
      · rintro ⟨hinside, hrun⟩
        have hfits := h.fits hinside
        exact ⟨hfits, (ih (h.run hcall hfits) hrest).mp hrun⟩
      · rintro ⟨hfits, hrun⟩
        have hnext := h.run hcall hfits
        exact ⟨hnext.inside, (ih hnext hrest).mpr hrun⟩

/-- A formatted image has a whole number of blocks. -/
theorem imageEnd_format (image : Image) (sizeBytes now : UInt64) :
  (DiskManager.format image sizeBytes now).imageEnd = sizeBytes.toNat / 4096 * 4096
  := by
  have hblocks : (sizeBytes / 4096).toNat = sizeBytes.toNat / 4096 :=
    UInt64.toNat_div sizeBytes 4096
  have hsize : (UInt32.ofNat blockSize).toNat = 4096 := by decide
  show (sizeBytes / 4096).toNat * (UInt32.ofNat blockSize).toNat = _
  rw [hblocks, hsize]

theorem bounded_format (image : Image) (sizeBytes now : UInt64) :
  Bounded ⟨DiskManager.format image sizeBytes now, []⟩
  := by
  have hend := imageEnd_format image sizeBytes now
  have hlt := sizeBytes.toNat_lt
  constructor
  · exact sound_format image sizeBytes now
  · rw [hend]
    exact Dvd.dvd.mul_left (by decide) _
  · rw [hend]
    omega
  · exact le_max_left _ _
  · intro p hp
    cases hp

/-- In every run of the allocator on a formatted image, data extents and blocks of inodes end
in the image after every call exactly when there is room for every call. -/
theorem allocations_inside_iff (image : Image) (sizeBytes now : UInt64)
    (calls : List AllocCall)
    (hallowed : Throughout (fun s call => call.Allowed s)
      ⟨DiskManager.format image sizeBytes now, []⟩ calls) :
  Throughout (fun s call => (call.run s).Inside)
      ⟨DiskManager.format image sizeBytes now, []⟩ calls
    ↔ Throughout (fun s call => call.Fits s) ⟨DiskManager.format image sizeBytes now, []⟩ calls
  := (bounded_format image sizeBytes now).throughout hallowed

omit [Crc32] in
/-- In an image of 4 MiB, 1000 bytes are allocated and freed, and an inode is found. -/
theorem allocations_inside_alloc_free :
  let _ := Crc32.ieee
  Throughout (fun s call => (call.run s).Inside)
    ⟨DiskManager.format Image.empty 4194304 0, []⟩
    [.allocData 1000, .freeData (UInt64.ofNat dataOffset) 1000, .allocInode]
  := by
  intro _
  let s : AllocState := ⟨DiskManager.format Image.empty 4194304 0, []⟩
  let s₁ := AllocCall.run s (.allocData 1000)
  let s₂ := AllocCall.run s₁ (.freeData (UInt64.ofNat dataOffset) 1000)
  have halloc : s.dm.freeList.alloc (1000 : UInt64).toNat = none :=
    FreeList.alloc_eq_none_iff.mpr fun e he => by cases he
  obtain ⟨hoffset, -, hsuper, -⟩ := DiskManager.allocData_of_none halloc
  have hfirst : AllocCall.Fits s (.allocData 1000) := by
    right
    rw [imageEnd_format]
    decide
  have hlive : AllocCall.Allowed s₁ (.freeData (UInt64.ofNat dataOffset) 1000) := by
    have hmem : ((s.dm.allocData (1000 : UInt64).toNat).1, (1000 : UInt64).toNat) ∈ s₁.live :=
      List.mem_cons_self
    rw [hoffset] at hmem
    exact hmem
  have hlast : AllocCall.Fits s₂ .allocInode := by
    right
    right
    have hsuper₂ : s₂.dm.superblock = _ := hsuper
    rw [DiskManager.imageEnd, hsuper₂]
    decide
  have hallowed : Throughout (fun s call => call.Allowed s) s
      [.allocData 1000, .freeData (UInt64.ofNat dataOffset) 1000, .allocInode] :=
    ⟨trivial, hlive, trivial, trivial⟩
  exact (allocations_inside_iff Image.empty 4194304 0 _ hallowed).mpr
    ⟨hfirst, trivial, hlast, trivial⟩

omit [Crc32] in
/-- An image of 1 MiB has not room for 1 MiB of data, which is handed out all the same. -/
theorem not_allocations_inside :
  let _ := Crc32.ieee
  ¬ ∀ image sizeBytes now calls,
    Throughout (fun s call => call.Allowed s) ⟨DiskManager.format image sizeBytes now, []⟩ calls →
    Throughout (fun s call => (call.run s).Inside) ⟨DiskManager.format image sizeBytes now, []⟩
      calls
  := by
  intro _ h
  have hinside := (h Image.empty 1048576 0 [.allocData 1048576] ⟨trivial, trivial⟩).1
  have hfits := (bounded_format Image.empty 1048576 0).fits hinside
  obtain ⟨e, he, -⟩ | hroom := hfits
  · cases he
  · rw [imageEnd_format] at hroom
    exact absurd hroom (by decide)

end AllocState

end Vexfs
