import Vexfs.Fs.InodeSlots

/-!
# Free space

What is not in use is free space: the extents of the free list, and the positions from the
pointer of the superblock on.  `Spares R` says that a set of positions is not free space.
Space is handed out of what is free, so what is written there leaves `R` alone, and `R` stays
out of the free space until some of it is freed.
-/

namespace Vexfs

open Storage

/-- The positions data may have, up to the largest offset of a file. -/
def dataRegion : Set ℕ := Set.Ico dataOffset (2 ^ 63)

/-! ### Free lists -/

namespace FreeList

/-- The extents of a list have bytes, all of them in a set. -/
structure Inside (S : Set ℕ) (fl : FreeList) : Prop where
  pos : ∀ e ∈ fl.extents, 0 < e.length.toNat
  subset : ∀ e ∈ fl.extents, e.bytes ⊆ S

namespace Inside

variable {S T : Set ℕ} {fl fl' : FreeList}

theorem new (S : Set ℕ) :
  FreeList.new.Inside S
  := by
  constructor
  · intro e he
    cases he
  · intro e he
    cases he

theorem mono (hsub : S ⊆ T) (h : fl.Inside S) :
  fl.Inside T
  := ⟨h.pos, fun e he => (h.subset e he).trans hsub⟩

theorem inter (h : fl.Inside S) (hT : ∀ e ∈ fl.extents, Disjoint e.bytes T) :
  fl.Inside (S \ T)
  := ⟨h.pos, fun e he => Set.subset_sdiff.mpr ⟨h.subset e he, hT e he⟩⟩

theorem proper (hS : S ⊆ dataRegion) (h : fl.Inside S) :
  ∀ e ∈ fl.extents, e.Proper
  := by
  intro e he
  have hsub : e.bytes ⊆ Set.Ico dataOffset (2 ^ 63) := (h.subset e he).trans hS
  exact FreeExtent.proper_of_subset (by decide) (h.pos e he) hsub

/-- Freeing some of a set keeps the list inside it, also when the extent is dropped. -/
theorem free {offset length : UInt64} (hS : S ⊆ dataRegion)
    (hsub : dataRange offset length.toNat ⊆ S) (h : fl.Inside S) :
  (fl.free offset length).Inside S
  := by
  unfold FreeList.free
  split
  · exact h
  next hne =>
  split
  · exact h
  have hpos : 0 < length.toNat := by
    have hlen := (not_or.mp hne).2
    rw [← UInt64.toNat_inj] at hlen
    exact Nat.pos_of_ne_zero hlen
  have hall : (⟨fl.extents ++ [⟨offset, length⟩]⟩ : FreeList).Inside S := by
    constructor
    · intro e he
      obtain he | he := List.mem_append.mp he
      · exact h.pos e he
      · obtain rfl := List.mem_singleton.mp he
        exact hpos
    · intro e he
      obtain he | he := List.mem_append.mp he
      · exact h.subset e he
      · obtain rfl := List.mem_singleton.mp he
        exact hsub
  obtain ⟨hcov, hproper, -⟩ := mergeAdjacent_spec (hall.proper hS)
  constructor
  · exact fun e he => (hproper e he).pos
  · intro e he i hi
    have hmem : i ∈ covered (fl.extents ++ [⟨offset, length⟩]) := by
      rw [← hcov]
      exact ⟨e, he, hi⟩
    obtain ⟨x, hx, hix⟩ := hmem
    exact hall.subset x hx hix

/-- An extent is claimed inside the set, and the list stays inside it. -/
theorem alloc {n : ℕ} {offset : UInt64} (hS : S ⊆ dataRegion) (hn : n < 2 ^ 64)
    (halloc : fl.alloc n = some (offset, fl')) (h : fl.Inside S) :
  dataRange offset n ⊆ S ∧ fl'.Inside S
  := by
  obtain ⟨e, rest, hperm, rfl, hle, hrest⟩ := alloc_cases hn halloc
  have he : e ∈ fl.extents := hperm.mem_iff.mp List.mem_cons_self
  have hstop : e.offset.toNat + e.length.toNat < 2 ^ 64 := (h.proper hS e he).stop_lt
  have htaken : dataRange e.offset n ⊆ e.bytes :=
    Set.Ico_subset_Ico_right (Nat.add_le_add_left hle _)
  have hmem : ∀ x ∈ rest, x ∈ fl.extents :=
    fun x hx => hperm.mem_iff.mp (List.mem_cons_of_mem e hx)
  use htaken.trans (h.subset e he)
  obtain ⟨hrem, hfl⟩ | hfl := hrest
  · have hofNat : (UInt64.ofNat n).toNat = n := UInt64.toNat_ofNat_of_lt' hn
    have hstart : (e.offset + UInt64.ofNat n).toNat = e.offset.toNat + n :=
      DiskManager.toNat_bump (by omega)
    have hlen : (e.length - UInt64.ofNat n).toNat = e.length.toNat - n := by
      rw [UInt64.toNat_sub_of_le _ _ (by rw [UInt64.le_iff_toNat_le, hofNat]; exact hle), hofNat]
    constructor
    · intro x hx
      rw [hfl] at hx
      obtain hx | hx := List.mem_append.mp hx
      · exact h.pos x (hmem x hx)
      · obtain rfl := List.mem_singleton.mp hx
        show 0 < (e.length - UInt64.ofNat n).toNat
        omega
    · intro x hx
      rw [hfl] at hx
      obtain hx | hx := List.mem_append.mp hx
      · exact h.subset x (hmem x hx)
      · obtain rfl := List.mem_singleton.mp hx
        apply Set.Subset.trans _ (h.subset e he)
        apply Set.Ico_subset_Ico
        · show e.offset.toNat ≤ (e.offset + UInt64.ofNat n).toNat
          omega
        · show (e.offset + UInt64.ofNat n).toNat + (e.length - UInt64.ofNat n).toNat
            ≤ e.offset.toNat + e.length.toNat
          omega
  · rw [← hfl] at hmem
    exact ⟨fun x hx => h.pos x (hmem x hx), fun x hx => h.subset x (hmem x hx)⟩

end Inside

end FreeList

/-! ### Positions that are not free -/

namespace DiskManager

/-- A set of positions is not free: no free extent meets it, and it ends below the pointer of
the superblock. -/
structure Spares (R : Set ℕ) (dm : DiskManager) : Prop where
  free : dm.freeList.Inside (dataRegion \ R)
  below : ∀ i ∈ R, i < dm.superblock.nextDataOffset.toNat

variable {R : Set ℕ} {dm dm' : DiskManager}

/-- What matters are the free list and the pointer. -/
theorem Spares.congr (hfree : dm'.freeList = dm.freeList)
    (hnext : dm'.superblock.nextDataOffset = dm.superblock.nextDataOffset) (h : dm.Spares R) :
  dm'.Spares R
  := by
  constructor
  · rw [hfree]
    exact h.free
  · rw [hnext]
    exact h.below

theorem spares_empty (h : dm.freeList.Inside dataRegion) :
  dm.Spares ∅
  := by
  constructor
  · rw [Set.sdiff_empty]
    exact h
  · exact fun _ hi => hi.elim

theorem Spares.freeData {offset length : UInt64}
    (hregion : dataRange offset length.toNat ⊆ dataRegion)
    (hout : Disjoint (dataRange offset length.toNat) R) (h : dm.Spares R) :
  (dm.freeData offset length).Spares R
  := ⟨h.free.free Set.sdiff_subset (Set.subset_sdiff.mpr ⟨hregion, hout⟩), h.below⟩

/-- Space for data is free space before. -/
theorem Spares.allocData {n : ℕ} (hbase : dataOffset ≤ dm.superblock.nextDataOffset.toNat)
    (hfar : dm.superblock.nextDataOffset.toNat + n + 512 ≤ 2 ^ 63) (h : dm.Spares R) :
  dataRange (dm.allocData n).1 n ⊆ dataRegion \ R ∧ (dm.allocData n).2.Spares R
  := by
  cases halloc : dm.freeList.alloc n with
  | some r =>
      obtain ⟨hrange, hfree⟩ := h.free.alloc Set.sdiff_subset (by omega) halloc
      rw [allocData_of_some halloc]
      exact ⟨hrange, hfree, h.below⟩
  | none =>
      obtain ⟨hoffset, hfree, hsuper, -⟩ := allocData_of_none halloc
      have hsum := toNat_bump (v := dm.superblock.nextDataOffset) (n := n) (by omega)
      have halign := toNat_align512 (v := dm.superblock.nextDataOffset + UInt64.ofNat n)
        (by omega)
      rw [hoffset]
      constructor
      · rintro i ⟨hlo, hhi⟩
        refine ⟨⟨hbase.trans hlo, by omega⟩, ?_⟩
        exact fun hi => absurd (h.below i hi) (Nat.not_lt.mpr hlo)
      · constructor
        · rw [hfree]
          exact h.free
        · intro i hi
          have hlt := h.below i hi
          rw [hsuper]
          show i < (align512 (dm.superblock.nextDataOffset + UInt64.ofNat n)).toNat
          omega

section AllocInode

variable [Crc32]

theorem appendBlock_frame (dm : DiskManager) (next : UInt64) (table : InodeTable)
    (w : FileWrite) :
  (dm.appendBlock next table w).freeList = dm.freeList
    ∧ (dm.appendBlock next table w).superblock.nextDataOffset = next
    ∧ (dm.appendBlock next table w).inodeTable = table
  := ⟨rfl, rfl, rfl⟩

theorem freeList_growTable (dm : DiskManager) (i : ℕ) :
  (dm.growTable i).freeList = dm.freeList
  := (dm.appendBlock_frame _ _ _).1

theorem nextDataOffset_growTable (dm : DiskManager) (i : ℕ) :
  (dm.growTable i).superblock.nextDataOffset = InodeTable.blockEnd dm.superblock.nextDataOffset
  := (dm.appendBlock_frame _ _ _).2.1

/-- A block that is appended to the table is not free any more, when no free extent meets
it. -/
theorem Spares.growTable {i : ℕ}
    (hfar : dm.superblock.nextDataOffset.toNat + inodeBlockSize ≤ 2 ^ 63)
    (hapart : ∀ e ∈ dm.freeList.extents,
      Disjoint e.bytes (dataRange dm.superblock.nextDataOffset inodeBlockSize))
    (h : dm.Spares R) :
  (dm.growTable i).Spares (R ∪ dataRange dm.superblock.nextDataOffset inodeBlockSize)
  := by
  have hblock : inodeBlockSize = 262144 := rfl
  have hsum := InodeTable.toNat_blockEnd (show
    dm.superblock.nextDataOffset.toNat + inodeBlockSize < 2 ^ 64 by omega)
  constructor
  · rw [← Set.sdiff_sdiff, freeList_growTable]
    exact h.free.inter hapart
  · intro i hi
    rw [nextDataOffset_growTable]
    obtain hi | ⟨-, hi⟩ := hi
    · have hlt := h.below i hi
      omega
    · omega

/-- The search for a free inode frees nothing. -/
theorem Spares.allocInode
    (hfar : dm.superblock.nextDataOffset.toNat + inodeBlockSize ≤ 2 ^ 63) (h : dm.Spares R) :
  dm.allocInode.2.Spares R
  := by
  have hblock : inodeBlockSize = 262144 := rfl
  obtain hrun | ⟨i, -, -, hrun⟩ := dm.allocInode_cases
  · rw [hrun]
    exact ⟨h.free, h.below⟩
  · rw [hrun]
    have hsum := InodeTable.toNat_blockEnd (show
      dm.superblock.nextDataOffset.toNat + inodeBlockSize < 2 ^ 64 by omega)
    constructor
    · rw [freeList_growTable]
      exact h.free
    · intro i hi
      have hlt := h.below i hi
      rw [nextDataOffset_growTable]
      omega

end AllocInode

end DiskManager

end Vexfs
