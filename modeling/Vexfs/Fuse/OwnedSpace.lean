import Vexfs.Fuse.SnapshotSlots

/-!
# Space in use

Some positions of the data region are in use: the stored bytes of files, the blocks of the
inode table.  A call returns space rightly when what it frees lies below the pointer of the
superblock and meets nothing in use (`DiskCall.Returns`).  Then what is in use stays apart from
the free space, and so does what the call takes (`DiskCall.laysOut_run`).
-/

namespace Vexfs

open Storage DiskManager

variable [Crc32] {dm dm' : DiskManager} {call : DiskCall} {owned live : List (Set ℕ)}

/-! ### Calls -/

namespace DiskCall

omit [Crc32] in
/-- A call frees only space of the data region that meets none of the sets in use. -/
def Returns (owned : List (Set ℕ)) (dm : DiskManager) : DiskCall → Prop
  | .freeData offset length =>
      dataRange offset length.toNat ⊆ Set.Ico dataOffset dm.superblock.nextDataOffset.toNat
        ∧ ∀ s ∈ owned, Disjoint s (dataRange offset length.toNat)
  | _ => True

omit [Crc32] in
/-- The space that a call takes for data. -/
def taken (dm : DiskManager) : DiskCall → List (Set ℕ)
  | .store bytes _ _ => [dataRange (VexFS.allocFor dm bytes).1 bytes.length]
  | _ => []

end DiskCall

/-! ### What stays apart -/

omit [Crc32] in
/-- What matters are the free list and the pointer. -/
theorem DiskManager.LaysOut.congr (hfree : dm'.freeList = dm.freeList)
    (hnext : dm'.superblock.nextDataOffset = dm.superblock.nextDataOffset)
    (h : dm.LaysOut owned) :
  dm'.LaysOut owned
  := by
  rw [LaysOut, hfree, hnext]
  exact h

omit [Crc32] in
/-- Some of the sets in use may be forgotten. -/
theorem DiskManager.LaysOut.sublist {owned' : List (Set ℕ)} (hsub : owned'.Sublist owned)
    (h : dm.LaysOut owned) :
  dm.LaysOut owned'
  := ⟨h.layout.sublist hsub, h.pos⟩

omit [Crc32] in
/-- Space for a file is apart from what is in use. -/
theorem DiskManager.LaysOut.allocFor {bytes : List UInt8}
    (hbase : dataOffset ≤ dm.superblock.nextDataOffset.toNat)
    (hfar : dm.superblock.nextDataOffset.toNat + bytes.length + 512 ≤ 2 ^ 63)
    (h : dm.LaysOut owned) :
  (VexFS.allocFor dm bytes).2.LaysOut
      (dataRange (VexFS.allocFor dm bytes).1 bytes.length :: owned)
    ∧ dm.superblock.nextDataOffset.toNat
      ≤ (VexFS.allocFor dm bytes).2.superblock.nextDataOffset.toNat
  := by
  unfold VexFS.allocFor
  split
  · exact h.allocData hbase (by omega)
  · next hnil =>
    have hempty : dataRange (UInt64.ofNat dataOffset) bytes.length = ∅ := by
      rw [not_not.mp hnil]
      exact Set.Ico_self _
    use ?_, Nat.le_refl _
    rw [hempty]
    constructor
    · constructor
      · exact List.pairwise_cons.mpr ⟨fun s _ => Set.empty_disjoint s, h.layout.owned_apart⟩
      · exact h.layout.free_apart
      · intro s hs t ht
        obtain rfl | hs := List.mem_cons.mp hs
        · exact Set.empty_disjoint t
        · exact h.layout.apart s hs t ht
      · intro s hs
        obtain rfl | hs := List.mem_cons.mp hs
        · exact Set.empty_subset _
        · exact h.layout.owned_within s hs
      · exact h.layout.free_within
    · exact h.pos

namespace DiskCall

/-- What is in use stays apart from the free space, with what a call takes. -/
theorem laysOut_run (hfits : call.Fits dm)
    (hbase : dataOffset ≤ dm.superblock.nextDataOffset.toNat) (hreturns : call.Returns owned dm)
    (h : dm.LaysOut owned) :
  (call.run dm).LaysOut (call.taken dm ++ owned)
    ∧ dm.superblock.nextDataOffset.toNat ≤ (call.run dm).superblock.nextDataOffset.toNat
  := by
  cases call with
  | freeData offset length =>
      obtain ⟨hwithin, hout⟩ := hreturns
      exact ⟨FreeList.Spaced.release (UInt64.toNat_lt _) hwithin hout h, Nat.le_refl _⟩
  | store bytes diskIndex inode =>
      obtain ⟨hspaced, hle⟩ := h.allocFor hbase hfits
      obtain ⟨journal, file, hframe⟩ := store_frame (VexFS.allocFor dm bytes).2
        (VexFS.allocFor dm bytes).1 bytes diskIndex (inode (VexFS.allocFor dm bytes).1)
      rw [run]
      dsimp only
      rw [hframe]
      exact ⟨hspaced, hle⟩
  | writeInode diskIndex inode =>
      obtain ⟨journal, file, hframe⟩ := dm.writeInode_frame diskIndex inode
      rw [run, hframe]
      exact ⟨h, Nat.le_refl _⟩
  | freeInode diskIndex => exact ⟨h, Nat.le_refl _⟩
  | allocInode =>
      rw [run]
      obtain hrun | ⟨i, -, -, hrun⟩ := dm.allocInode_cases
      · rw [hrun]
        exact ⟨h, Nat.le_refl _⟩
      · have hblock : inodeBlockSize = 262144 := rfl
        have hsum := InodeTable.toNat_blockEnd (show
          dm.superblock.nextDataOffset.toNat + inodeBlockSize < 2 ^ 64 by
            have hfar : dm.superblock.nextDataOffset.toNat + inodeBlockSize ≤ 2 ^ 63 := hfits
            omega)
        have hle : dm.superblock.nextDataOffset.toNat
            ≤ (dm.growTable i).superblock.nextDataOffset.toNat := by
          rw [nextDataOffset_growTable, hsum]
          exact Nat.le_add_right _ _
        rw [hrun]
        use ?_, hle
        constructor
        · rw [freeList_growTable]
          exact h.layout.mono hle
        · rw [freeList_growTable]
          exact h.pos
  | flush => exact ⟨h, Nat.le_refl _⟩
  | writeSnapshot slot record =>
      rw [run]
      unfold DiskManager.writeSnapshot
      split <;> exact ⟨h, Nat.le_refl _⟩
  | zeroSnapshotSlot slot =>
      rw [run]
      unfold DiskManager.zeroSnapshotSlot
      split <;> exact ⟨h, Nat.le_refl _⟩

/-- The same with the blocks of the inode table, which a call may add to. -/
theorem spaced_run (hfits : call.Fits dm)
    (hbase : dataOffset ≤ dm.superblock.nextDataOffset.toNat)
    (hreturns : call.Returns (live ++ dm.inodeTable.extensionBlocks) dm) (h : dm.Spaced live) :
  (call.run dm).Spaced (call.taken dm ++ live)
  := by
  by_cases halloc : call = .allocInode
  · subst halloc
    have hblock : inodeBlockSize = 262144 := rfl
    have hfar : dm.superblock.nextDataOffset.toNat + inodeBlockSize ≤ 2 ^ 63 := hfits
    exact (h.allocInode hbase (by omega)).1
  · have hlays := (laysOut_run hfits hbase hreturns h).1
    rw [Spaced, InodeTable.extensionBlocks, blockOffsets_run halloc, List.append_assoc]
    exact hlays

end DiskCall

/-! ### The inode table -/

/-- A disk in order whose inode blocks are not free space. -/
structure DiskManager.TableSafe (dm : DiskManager) : Prop where
  order : dm.InOrder
  blocks : ∃ blocks, dm.inodeTable.Blocks blocks ∧ blocks ≠ []
  spaced : dm.Spaced []

omit [Crc32] in
/-- A position of the table lies in its first block, before the data region, or in a block
that was appended. -/
theorem InodeTable.Placed.mem_range {table : InodeTable} {i : ℕ} (h : table.Placed)
    (hi : i ∈ table.range) :
  i < dataOffset ∨ ∃ s ∈ table.extensionBlocks, i ∈ s
  := by
  obtain ⟨o, ho, hne, hio⟩ := hi
  have hlength : table.blockOffsets.toList.length = 64 := Vector.length_toList
  obtain ⟨first, rest, hlist⟩ := List.exists_cons_of_length_pos
    (l := table.blockOffsets.toList) (by omega)
  rw [hlist] at ho
  obtain rfl | hrest := List.mem_cons.mp ho
  · left
    have hfirst : o = UInt64.ofNat inodeTableOffset := by
      rw [← h.first, InodeTable.firstBlock, ← Vector.getElem_toList (by omega)]
      simp only [hlist, List.getElem_cons_zero]
    have hlast : (UInt64.ofNat inodeTableOffset).toNat + inodeBlockSize ≤ dataOffset := by
      decide
    rw [hfirst] at hio
    exact hio.2.trans_le hlast
  · right
    refine ⟨dataRange o inodeBlockSize, ?_, hio⟩
    apply List.mem_map_of_mem
    rw [hlist, List.drop_one, List.tail_cons, List.mem_filter, decide_eq_true_eq]
    exact ⟨hrest, hne⟩

namespace DiskManager.TableSafe

/-- The positions of the table are not free. -/
theorem spares (h : dm.TableSafe) :
  dm.Spares dm.inodeTable.range
  := by
  have hbase := h.order.kept.base_le
  have hlayout := h.spaced.layout
  constructor
  · apply h.order.free.inter
    intro e he
    rw [Set.disjoint_right]
    intro i hi hie
    have hfree := List.mem_map_of_mem (f := FreeExtent.bytes) he
    obtain hlt | ⟨s, hs, his⟩ := h.order.kept.placed.mem_range hi
    · exact absurd (hlayout.free_within _ hfree hie).1 (Nat.not_le.mpr hlt)
    · exact Set.disjoint_left.mp (hlayout.apart s hs _ hfree) his hie
  · intro i hi
    obtain hlt | ⟨s, hs, his⟩ := h.order.kept.placed.mem_range hi
    · exact hlt.trans_le hbase
    · exact (hlayout.owned_within s hs his).2

/-- A disk that was formatted has one block of inodes, before the data region. -/
theorem format (image : Image) (sizeBytes now : UInt64) :
  (DiskManager.format image sizeBytes now).TableSafe
  := ⟨inOrder_format image sizeBytes now, ⟨_, .new _, List.cons_ne_nil _ _⟩,
    spaced_format image sizeBytes now⟩

/-- A block that is appended lies behind the others. -/
theorem blocks_growTable {blocks : List UInt64} (hblocks : dm.inodeTable.Blocks blocks)
    (hne : blocks ≠ []) (hlt : blocks.length < 64)
    (hfar : dm.superblock.nextDataOffset.toNat + inodeBlockSize ≤ 2 ^ 63) (h : dm.TableSafe) :
  (dm.growTable (blocks.length - 1)).inodeTable.Blocks
    (blocks ++ [dm.superblock.nextDataOffset])
  := by
  have hnext : dm.superblock.nextDataOffset ≠ 0 := by
    intro h0
    have hbase := h.order.kept.base_le
    rw [h0] at hbase
    cases hbase
  have happend : InodeTable.Blocks
      ⟨dm.inodeTable.blockOffsets.setIfInBounds blocks.length dm.superblock.nextDataOffset,
        InodeTable.blockEnd dm.superblock.nextDataOffset⟩
      (blocks ++ [dm.superblock.nextDataOffset]) := by
    refine hblocks.append hlt hnext (by omega) fun o ho => ?_
    rw [Set.disjoint_left]
    intro i hi hinew
    have hbelow := h.spares.below i (hblocks.mem_range.mpr ⟨o, ho, hi⟩)
    exact absurd hinew.1 (Nat.not_le.mpr hbelow)
  rw [← Nat.sub_add_cancel (List.length_pos_iff.mpr hne)] at happend
  exact happend

/-- The table stays so while no inode block is freed. -/
theorem run (hfits : call.Fits dm) (hreturns : call.Returns dm.inodeTable.extensionBlocks dm)
    (h : dm.TableSafe) :
  (call.run dm).TableSafe
  := by
  have hspaced : (call.run dm).Spaced (call.taken dm ++ []) :=
    DiskCall.spaced_run hfits h.order.kept.base_le hreturns h.spaced
  obtain ⟨blocks, hblocks, hne⟩ := h.blocks
  refine ⟨DiskCall.inOrder_run hfits h.order, ?_, ?_⟩
  · by_cases halloc : call = .allocInode
    · subst halloc
      rw [DiskCall.run]
      obtain hrun | ⟨-, hlt, hrun⟩ := allocInode_appends hblocks hne
      · rw [hrun]
        refine ⟨blocks, ?_, hne⟩
        apply hblocks.congr
        rfl
      · rw [hrun]
        exact ⟨_, h.blocks_growTable hblocks hne hlt hfits, by simp⟩
    · exact ⟨blocks, hblocks.congr (DiskCall.blockOffsets_run halloc), hne⟩
  · exact ⟨hspaced.layout.sublist (by simp), hspaced.pos⟩

/-- A slot of the table keeps its place. -/
theorem inodeOffset_run {k : ℕ} {offset : UInt64} (hfits : call.Fits dm)
    (hoffset : dm.inodeTable.inodeOffset k = some offset) (h : dm.TableSafe) :
  (call.run dm).inodeTable.inodeOffset k = some offset
  := by
  by_cases halloc : call = .allocInode
  · subst halloc
    obtain ⟨blocks, hblocks, hne⟩ := h.blocks
    rw [DiskCall.run]
    obtain hrun | ⟨-, hlt, hrun⟩ := allocInode_appends hblocks hne
    · rw [hrun]
      exact hoffset
    · rw [hrun]
      exact hblocks.inodeOffset_append (h.blocks_growTable hblocks hne hlt hfits) hoffset
  · rw [InodeTable.inodeOffset_congr (DiskCall.blockOffsets_run halloc)]
    exact hoffset

/-- The slot that a search gives is one of the table. -/
theorem exists_inodeOffset {k : ℕ} (halloc : dm.allocInode.1 = some k)
    (hfar : dm.superblock.nextDataOffset.toNat + inodeBlockSize ≤ 2 ^ 63) (h : dm.TableSafe) :
  ∃ offset, dm.allocInode.2.inodeTable.inodeOffset k = some offset
  := by
  obtain ⟨blocks, hblocks, hne⟩ := h.blocks
  rw [← Option.ne_none_iff_exists']
  obtain hfound | ⟨hnone, rfl⟩ := slot_of_allocInode halloc
  · obtain ⟨-, hlt, -⟩ := InodeTable.firstFree_some hfound
    rw [allocInode_of_found hfound]
    apply hblocks.inodeOffset_ne_none.mpr
    rwa [Nat.zero_add] at hlt
  · have hlt : blocks.length < 64 := by
      by_contra hfull
      rw [allocInode_of_full hblocks hne (Nat.not_lt.mp hfull) hnone] at halloc
      cases halloc
    have hgrown := h.blocks_growTable hblocks hne hlt hfar
    rw [allocInode_of_grown hblocks hne hlt hnone]
    rw [hgrown.inodeOffset_ne_none, hgrown.capacity_eq, hblocks.capacity_eq,
      List.length_append, List.length_singleton]
    omega

end DiskManager.TableSafe

/-! ### Slots in use -/

/-- A slot of the inode table reads as used. -/
def DiskManager.SlotUsed (dm : DiskManager) (k : ℕ) : Prop :=
  ∃ inode, dm.readInode k = .ok inode ∧ inode.isUsed ≠ 0

namespace DiskCall

omit [Crc32] in
/-- A call that leaves a slot in use. -/
def KeepsUsed (k : ℕ) : DiskCall → Prop
  | .store _ diskIndex inode => diskIndex = k → ∀ offset, (inode offset).isUsed ≠ 0
  | .writeInode diskIndex inode => diskIndex = k → inode.isUsed ≠ 0
  | .freeInode diskIndex => diskIndex ≠ k
  | _ => True

omit [Crc32] in
/-- A call that writes the inode of a slot. -/
def WritesSlot (k : ℕ) : DiskCall → Prop
  | .store _ diskIndex _ | .writeInode diskIndex _ | .freeInode diskIndex => diskIndex = k
  | _ => False

/-- A call changes nothing in a set that meets neither the snapshot table nor, when the call
does not write there, its range. -/
theorem exists_changesIn {S : Set ℕ} (hfits : call.Fits dm) (h : dm.InOrder)
    (htable : ∀ slot < maxSnapshotSlots, Disjoint S (snapshotRange slot))
    (hrange : ¬ call.OnSnapshots → Disjoint S (call.range dm)) :
  ∃ T, ChangesIn T dm (call.run dm) ∧ Disjoint S T
  := by
  by_cases hon : call.OnSnapshots
  · cases call with
    | writeSnapshot slot record =>
        by_cases hslot : slot < maxSnapshotSlots
        · exact ⟨_, changesIn_writeSnapshot dm slot record, htable slot hslot⟩
        · use ∅
          rw [run, DiskManager.writeSnapshot, if_pos (Nat.not_lt.mp hslot)]
          exact ⟨.refl dm, Set.disjoint_empty _⟩
    | zeroSnapshotSlot slot =>
        by_cases hslot : slot < maxSnapshotSlots
        · exact ⟨_, changesIn_zeroSnapshotSlot dm slot, htable slot hslot⟩
        · use ∅
          rw [run, DiskManager.zeroSnapshotSlot, if_pos (Nat.not_lt.mp hslot)]
          exact ⟨.refl dm, Set.disjoint_empty _⟩
    | _ => exact hon.elim
  · exact ⟨_, changesIn_run hfits h, hrange hon⟩

/-- A call that writes no inode to a slot leaves the slot alone. -/
theorem exists_changesIn_slot {k : ℕ} (hfits : call.Fits dm) (hnot : ¬ call.WritesSlot k)
    (h : dm.TableSafe) :
  ∃ T, ChangesIn T dm (call.run dm) ∧ Disjoint (dm.inodeTable.slotRange k) T
  := by
  obtain ⟨blocks, hblocks, -⟩ := h.blocks
  have hplaced := h.order.kept.placed
  have hsub := hblocks.slotRange_subset_range k
  have hmetadata := disjoint_slotRange_metadataRange hplaced k
  apply exists_changesIn hfits h.order
  · exact fun slot hslot => (disjoint_snapshotRange_slotRange hplaced hslot k).symm
  intro hon
  cases call with
  | freeData offset length => exact Set.disjoint_empty _
  | store bytes diskIndex inode =>
      apply Disjoint.union_right _ hmetadata
      apply Disjoint.union_right
      · exact ((disjoint_store h.order.kept hfits h.spares).mono_right hsub).symm
      · exact hblocks.disjoint_slotRange (Ne.symm hnot)
  | writeInode diskIndex inode => exact hblocks.disjoint_slotRange (Ne.symm hnot)
  | freeInode diskIndex => exact hblocks.disjoint_slotRange (Ne.symm hnot)
  | allocInode =>
      apply Disjoint.union_right hmetadata
      rw [Set.disjoint_left]
      intro i hi hinew
      exact absurd hinew.1 (Nat.not_le.mpr (h.spares.below i (hsub hi)))
  | flush => exact hmetadata
  | writeSnapshot slot record => exact absurd trivial hon
  | zeroSnapshotSlot slot => exact absurd trivial hon

/-- A slot that a used inode is written to is in use. -/
theorem slotUsed_of_writesSlot {k : ℕ} (hfits : call.Fits dm) (hwrites : call.WritesSlot k)
    (hkeeps : call.KeepsUsed k) (hslot : dm.inodeTable.inodeOffset k ≠ none)
    (h : dm.TableSafe) :
  (call.run dm).SlotUsed k
  := by
  cases call with
  | store bytes diskIndex inode =>
      obtain rfl : diskIndex = k := hwrites
      obtain ⟨hrange, -, hkept⟩ := h.spares.allocFor h.order.kept hfits
      obtain ⟨-, -, hblocks⟩ := allocFor_frame dm bytes
      have hslot' : (VexFS.allocFor dm bytes).2.inodeTable.inodeOffset diskIndex ≠ none := by
        rw [InodeTable.inodeOffset_congr hblocks]
        exact hslot
      exact ⟨_, hkept.readInode_store (hrange.trans Set.sdiff_subset) hslot', hkeeps rfl _⟩
  | writeInode diskIndex inode =>
      obtain rfl : diskIndex = k := hwrites
      exact ⟨inode, readInode_writeInode hslot h.order.kept.placed
        (h.order.kept.room.trans (by decide)), hkeeps rfl⟩
  | freeInode diskIndex => exact absurd hwrites hkeeps
  | _ => exact hwrites.elim

/-- A slot in use stays in use. -/
theorem slotUsed_run {k : ℕ} (hfits : call.Fits dm) (hkeeps : call.KeepsUsed k)
    (h : dm.TableSafe) (hused : dm.SlotUsed k) :
  (call.run dm).SlotUsed k
  := by
  obtain ⟨inode, hread, hinode⟩ := hused
  have hslot := inodeOffset_ne_none_of_used hread hinode
  by_cases hwrites : call.WritesSlot k
  · exact slotUsed_of_writesSlot hfits hwrites hkeeps hslot h
  · obtain ⟨T, hchanges, hout⟩ := exists_changesIn_slot hfits hwrites h
    obtain ⟨offset, hoffset⟩ := Option.ne_none_iff_exists'.mp hslot
    use inode, ?_, hinode
    apply hchanges.readInode _ h.order.kept.placed hread hout
    rw [hoffset, h.inodeOffset_run hfits hoffset]

end DiskCall

end Vexfs
