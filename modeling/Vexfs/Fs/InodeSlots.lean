import Vexfs.Fs.Effects

/-!
# The slots of the inode table

The allocated blocks of a table are the first ones of its directory, and their ranges do not
meet, so no two slots do.  The search for a free inode gives a slot that reads as unused, or
the first slot of a block that it appends after the others.
-/

namespace Vexfs

open Bytes Storage

namespace InodeTable

variable {table : InodeTable} {blocks : List UInt64}

/-! ### Blocks -/

/-- The positions of the blocks of a table. -/
def range (table : InodeTable) : Set ℕ :=
  {i | ∃ o ∈ table.blockOffsets.toList, o ≠ 0 ∧ i ∈ dataRange o inodeBlockSize}

theorem range_congr {table table' : InodeTable}
    (h : table'.blockOffsets = table.blockOffsets) :
  table'.range = table.range
  := by
  rw [range, range, h]

/-- The blocks of a table are `blocks`, in order, and their ranges do not meet. -/
structure Blocks (table : InodeTable) (blocks : List UInt64) : Prop where
  toList_eq : table.blockOffsets.toList = blocks ++ List.replicate (64 - blocks.length) 0
  ne_zero : ∀ o ∈ blocks, o ≠ 0
  stop_le : ∀ o ∈ blocks, o.toNat + inodeBlockSize ≤ 2 ^ 64
  disjoint : blocks.Pairwise fun o o' =>
    Disjoint (dataRange o inodeBlockSize) (dataRange o' inodeBlockSize)

namespace Blocks

theorem length_le (h : table.Blocks blocks) :
  blocks.length ≤ 64
  := by
  have hlen := congrArg List.length h.toList_eq
  rw [Vector.length_toList, List.length_append, List.length_replicate] at hlen
  omega

theorem congr {table' : InodeTable} (heq : table'.blockOffsets = table.blockOffsets)
    (h : table.Blocks blocks) :
  table'.Blocks blocks
  := ⟨heq ▸ h.toList_eq, h.ne_zero, h.stop_le, h.disjoint⟩

/-- The directory has the offsets of the blocks, and then zeros. -/
theorem getElem? (h : table.Blocks blocks) (i : ℕ) :
  (table.blockOffsets[i]?).getD 0 = (blocks[i]?).getD 0
  := by
  rw [← Vector.getElem?_toList, h.toList_eq, List.getElem?_append]
  split
  · rfl
  · next hlt =>
    rw [List.getElem?_eq_none (Nat.not_lt.mp hlt), List.getElem?_replicate]
    split <;> rfl

/-- A slot has an offset when it is one of a block. -/
theorem inodeOffset_eq (h : table.Blocks blocks) (index : ℕ) :
  table.inodeOffset index
    = (blocks[index / 1024]?).map fun o => o + UInt64.ofNat (index % 1024 * 256)
  := by
  have hbase : (table.blockOffsets[blockFor index]?).getD 0
      = (blocks[index / 1024]?).getD 0 := h.getElem? (index / 1024)
  unfold inodeOffset
  dsimp only
  rw [hbase]
  cases hblock : blocks[index / 1024]? with
  | none => rfl
  | some o =>
      have hne : ¬ o = 0 := h.ne_zero o (List.mem_of_getElem? hblock)
      rw [Option.getD_some, if_neg hne]
      rfl

theorem blockCount_eq (h : table.Blocks blocks) :
  table.blockCount = blocks.length
  := by
  have hfull : blocks.countP (· != 0) = blocks.length := by
    rw [List.countP_eq_length]
    intro o ho
    exact bne_iff_ne.mpr (h.ne_zero o ho)
  have hrest : (List.replicate (64 - blocks.length) (0 : UInt64)).countP (· != 0) = 0 := by
    rw [List.countP_eq_zero]
    intro o ho
    rw [List.eq_of_mem_replicate ho]
    decide
  rw [blockCount, h.toList_eq, List.countP_append, hfull, hrest, Nat.add_zero]

theorem capacity_eq (h : table.Blocks blocks) :
  table.capacity = blocks.length * 1024
  := by rw [capacity, h.blockCount_eq, inodesPerBlock]

/-- The slots with an offset are those below the capacity. -/
theorem inodeOffset_ne_none (h : table.Blocks blocks) {index : ℕ} :
  table.inodeOffset index ≠ none ↔ index < table.capacity
  := by
  rw [h.inodeOffset_eq, h.capacity_eq, Ne, Option.map_eq_none_iff, List.getElem?_eq_none_iff]
  omega

/-- A slot lies in its block. -/
theorem slot_bounds (h : table.Blocks blocks) {index : ℕ} {offset : UInt64}
    (hoffset : table.inodeOffset index = some offset) :
  ∃ o, blocks[index / 1024]? = some o
    ∧ offset.toNat = o.toNat + index % 1024 * 256
  := by
  rw [h.inodeOffset_eq] at hoffset
  obtain ⟨o, ho, rfl⟩ := Option.map_eq_some_iff.mp hoffset
  use o, ho
  have hstop := h.stop_le o (List.mem_of_getElem? ho)
  have hslot : index % 1024 < 1024 := Nat.mod_lt _ (by decide)
  have hsize : inodeBlockSize = 262144 := rfl
  rw [UInt64.toNat_add, UInt64.toNat_ofNat_of_lt' (by
    have hmax : UInt64.size = 2 ^ 64 := rfl
    omega), Nat.mod_eq_of_lt (by omega)]

/-- The slots of a table lie in the ranges of its blocks. -/
theorem slotRange_subset (h : table.Blocks blocks) {index : ℕ} {o : UInt64}
    (ho : blocks[index / 1024]? = some o) :
  table.slotRange index ⊆ dataRange o inodeBlockSize
  := by
  rintro i ⟨offset, hoffset, hlo, hhi⟩
  obtain ⟨o', ho', heq⟩ := h.slot_bounds hoffset
  obtain rfl := Option.some.inj (ho.symm.trans ho')
  have hbytes : inodeBytes = 256 := rfl
  have hsize : inodeBlockSize = 262144 := rfl
  have hslot : index % 1024 < 1024 := Nat.mod_lt _ (by decide)
  constructor <;> omega

/-- The positions of a table are those of its blocks. -/
theorem mem_range (h : table.Blocks blocks) {i : ℕ} :
  i ∈ table.range ↔ ∃ o ∈ blocks, i ∈ dataRange o inodeBlockSize
  := by
  constructor
  · rintro ⟨o, ho, hne, hi⟩
    rw [h.toList_eq] at ho
    obtain ho | ho := List.mem_append.mp ho
    · exact ⟨o, ho, hi⟩
    · exact absurd (List.eq_of_mem_replicate ho) hne
  · rintro ⟨o, ho, hi⟩
    refine ⟨o, ?_, h.ne_zero o ho, hi⟩
    rw [h.toList_eq]
    exact List.mem_append_left _ ho

theorem slotRange_subset_range (h : table.Blocks blocks) (index : ℕ) :
  table.slotRange index ⊆ table.range
  := by
  intro i hi
  obtain ⟨offset, hoffset, -⟩ := id hi
  obtain ⟨o, ho, -⟩ := h.slot_bounds hoffset
  exact h.mem_range.mpr ⟨o, List.mem_of_getElem? ho, h.slotRange_subset ho hi⟩

/-- Different slots do not meet. -/
theorem disjoint_slotRange (h : table.Blocks blocks) {i j : ℕ} (hne : i ≠ j) :
  Disjoint (table.slotRange i) (table.slotRange j)
  := by
  rw [Set.disjoint_left]
  rintro x ⟨a, ha, hax, hxa⟩ ⟨b, hb, hbx, hxb⟩
  obtain ⟨o, ho, hoa⟩ := h.slot_bounds ha
  obtain ⟨o', ho', hob⟩ := h.slot_bounds hb
  have hbytes : inodeBytes = 256 := rfl
  have hsize : inodeBlockSize = 262144 := rfl
  have hslot : i % 1024 < 1024 := Nat.mod_lt _ (by decide)
  have hslot' : j % 1024 < 1024 := Nat.mod_lt _ (by decide)
  by_cases hblock : i / 1024 = j / 1024
  · rw [hblock] at ho
    obtain rfl := Option.some.inj (ho.symm.trans ho')
    omega
  · obtain ⟨hi, rfl⟩ := List.getElem?_eq_some_iff.mp ho
    obtain ⟨hj, rfl⟩ := List.getElem?_eq_some_iff.mp ho'
    have hmem : x ∈ dataRange blocks[i / 1024] inodeBlockSize := by
      constructor <;> omega
    have hmem' : x ∈ dataRange blocks[j / 1024] inodeBlockSize := by
      constructor <;> omega
    have hpair := List.pairwise_iff_getElem.mp h.disjoint
    obtain hlt | hgt := Nat.lt_or_gt_of_ne hblock
    · exact Set.disjoint_left.mp (hpair _ _ hi hj hlt) hmem hmem'
    · exact Set.disjoint_left.mp (hpair _ _ hj hi hgt) hmem' hmem

/-- The place of the next block in the directory. -/
theorem findIdx_eq (h : table.Blocks blocks) (hne : blocks ≠ []) :
  (table.blockOffsets.toList.drop 1).findIdx? (· == 0)
    = if blocks.length < 64 then some (blocks.length - 1) else none
  := by
  have hlen := h.length_le
  have hpos := List.length_pos_iff.mpr hne
  rw [h.toList_eq, List.drop_append_of_le_length hpos, List.findIdx?_append]
  have hnone : (blocks.drop 1).findIdx? (· == 0) = none := by
    rw [List.findIdx?_eq_none_iff]
    intro o ho
    exact beq_eq_false_iff_ne.mpr (h.ne_zero o (List.mem_of_mem_drop ho))
  rw [hnone, Option.none_or]
  split
  · next hlt =>
    have hsucc : 64 - blocks.length = (64 - blocks.length - 1) + 1 := by omega
    rw [hsucc, List.replicate_succ, List.findIdx?_cons]
    simp
  · next hge =>
    have hzero : 64 - blocks.length = 0 := by omega
    simp [hzero]

/-- A block appended behind the others. -/
theorem append (h : table.Blocks blocks) (hlt : blocks.length < 64) {o next : UInt64}
    (hne : o ≠ 0) (hstop : o.toNat + inodeBlockSize ≤ 2 ^ 64)
    (hdisjoint : ∀ o' ∈ blocks,
      Disjoint (dataRange o' inodeBlockSize) (dataRange o inodeBlockSize)) :
  (InodeTable.mk (table.blockOffsets.setIfInBounds blocks.length o) next).Blocks
    (blocks ++ [o])
  := by
  constructor
  · have hsucc : 64 - blocks.length = (64 - (blocks ++ [o]).length) + 1 := by
      rw [List.length_append, List.length_singleton]
      omega
    rw [Vector.toList_setIfInBounds, h.toList_eq, hsucc, List.replicate_succ,
      List.set_append_right _ _ (Nat.le_refl _), Nat.sub_self, List.set_cons_zero,
      List.append_assoc, List.singleton_append]
  · intro o' ho'
    obtain ho' | ho' := List.mem_append.mp ho'
    · exact h.ne_zero o' ho'
    · rw [List.mem_singleton.mp ho']
      exact hne
  · intro o' ho'
    obtain ho' | ho' := List.mem_append.mp ho'
    · exact h.stop_le o' ho'
    · rw [List.mem_singleton.mp ho']
      exact hstop
  · rw [List.pairwise_append]
    refine ⟨h.disjoint, List.pairwise_singleton _ _, ?_⟩
    intro o' ho' o'' ho''
    rw [List.mem_singleton.mp ho'']
    exact hdisjoint o' ho'

/-- A slot that had an offset keeps it when a block is appended. -/
theorem inodeOffset_append {table' : InodeTable} {o offset : UInt64} {index : ℕ}
    (h : table.Blocks blocks) (h' : table'.Blocks (blocks ++ [o]))
    (hoffset : table.inodeOffset index = some offset) :
  table'.inodeOffset index = some offset
  := by
  have hlt : index / 1024 < blocks.length := by
    have hne : table.inodeOffset index ≠ none := by simp [hoffset]
    rw [h.inodeOffset_ne_none, h.capacity_eq] at hne
    omega
  rw [← hoffset, h.inodeOffset_eq, h'.inodeOffset_eq, List.getElem?_append_left hlt]

/-- The table of a new image has one block. -/
theorem new (next : UInt64) :
  (InodeTable.new (UInt64.ofNat inodeTableOffset) next).Blocks [UInt64.ofNat inodeTableOffset]
  := by
  constructor
  · rfl
  · intro o ho
    rw [List.mem_singleton.mp ho]
    decide
  · intro o ho
    rw [List.mem_singleton.mp ho]
    decide
  · exact List.pairwise_singleton _ _

end Blocks

/-! ### The search for a free slot -/

variable [Crc32] {file : File}

/-- The slot that is found reads as unused. -/
theorem firstFree_some {n i index : ℕ} (h : table.firstFree file n i = .ok (some index)) :
  i ≤ index ∧ index < i + n
    ∧ ∃ inode, table.readInode file index = .ok inode ∧ inode.isUsed = 0
  := by
  induction n generalizing i with
  | zero => cases h
  | succ n ih =>
      unfold firstFree at h
      split at h
      · cases h
      next inode hread =>
      split at h
      · next hunused =>
        cases h
        exact ⟨Nat.le_refl _, by omega, inode, hread, hunused⟩
      · obtain ⟨hlo, hhi, hslot⟩ := ih h
        exact ⟨by omega, by omega, hslot⟩

/-- A free slot is found when the slots can be read and one of them is unused. -/
theorem exists_firstFree {n i j : ℕ}
    (hread : ∀ k, i ≤ k → k < i + n → ∃ inode, table.readInode file k = .ok inode)
    (hlo : i ≤ j) (hhi : j < i + n) {inode : InodeRaw}
    (hj : table.readInode file j = .ok inode) (hunused : inode.isUsed = 0) :
  ∃ index ≤ j, table.firstFree file n i = .ok (some index)
  := by
  induction n generalizing i with
  | zero => omega
  | succ n ih =>
      obtain ⟨inode', hi⟩ := hread i (Nat.le_refl _) (by omega)
      unfold firstFree
      rw [hi]
      dsimp only
      split
      · exact ⟨i, hlo, rfl⟩
      · next hused =>
        have hne : i ≠ j := by
          rintro rfl
          obtain rfl := Except.ok.inj (hi.symm.trans hj)
          exact hused hunused
        exact ih (fun k hk hk' => hread k (by omega) (by omega)) (by omega) (by omega)

/-- When no slot is found, all of them are in use. -/
theorem used_of_firstFree_none {n i k : ℕ} (h : table.firstFree file n i = .ok none)
    (hlo : i ≤ k) (hhi : k < i + n) :
  ∃ inode, table.readInode file k = .ok inode ∧ inode.isUsed ≠ 0
  := by
  induction n generalizing i with
  | zero => omega
  | succ n ih =>
      unfold firstFree at h
      split at h
      · cases h
      next inode hread =>
      split at h
      · cases h
      · next hused =>
        obtain rfl | hne := Nat.eq_or_lt_of_le hlo
        · exact ⟨inode, hread, hused⟩
        · exact ih h hne (by omega)

/-- A slot that is in use has an offset. -/
theorem inodeOffset_ne_none_of_used {index : ℕ} {inode : InodeRaw}
    (hread : table.readInode file index = .ok inode) (hused : inode.isUsed ≠ 0) :
  table.inodeOffset index ≠ none
  := by
  intro hnone
  rw [readInode, hnone] at hread
  obtain rfl := Except.ok.inj hread
  exact hused rfl

omit [Crc32] in
/-- When the first elements of a list satisfy a condition, as many as do so in the list, the
next one does not. -/
theorem getElem?_countP {α : Type} {p : α → Bool} {l : List α} {x : α}
    (h : ∀ a ∈ l.take (l.countP p), p a = true) (hx : l[l.countP p]? = some x) :
  p x = false
  := by
  have hle : l.countP p ≤ l.length := List.countP_le_length
  have hfirst : (l.take (l.countP p)).countP p = l.countP p := by
    rw [List.countP_eq_length.mpr h, List.length_take, Nat.min_eq_left hle]
  have hsum : (l.take (l.countP p)).countP p + (l.drop (l.countP p)).countP p = l.countP p := by
    rw [← List.countP_append, List.take_append_drop]
  have hrest : (l.drop (l.countP p)).countP p = 0 := by omega
  have hmem : x ∈ l.drop (l.countP p) := by
    apply List.mem_of_getElem? (i := 0)
    rw [List.getElem?_drop, Nat.add_zero, hx]
  exact Bool.eq_false_iff.mpr (List.countP_eq_zero.mp hrest x hmem)

/-- When all slots are in use, the next one has no block. -/
theorem inodeOffset_capacity
    (h : table.firstFree file table.capacity 0 = .ok none) :
  table.inodeOffset table.capacity = none
  := by
  have hblock : blockFor table.capacity = table.blockCount :=
    Nat.mul_div_cancel _ (by decide : 0 < inodesPerBlock)
  have hfirst : ∀ o ∈ table.blockOffsets.toList.take table.blockCount, (o != 0) = true := by
    intro o ho
    obtain ⟨j, hj, rfl⟩ := List.getElem_of_mem ho
    rw [List.length_take] at hj
    have hslot : j * inodesPerBlock < 0 + table.capacity := by
      rw [Nat.zero_add]
      exact Nat.mul_lt_mul_of_pos_right (by omega) (by decide)
    obtain ⟨inode, hread, hused⟩ := used_of_firstFree_none h (Nat.zero_le _) hslot
    have hblock' : blockFor (j * inodesPerBlock) = j :=
      Nat.mul_div_cancel _ (by decide : 0 < inodesPerBlock)
    have hbase : (table.blockOffsets[j]?).getD 0 ≠ 0 := by
      intro h0
      apply inodeOffset_ne_none_of_used hread hused
      rw [inodeOffset, hblock', h0]
      rfl
    rw [List.getElem_take, Vector.getElem_toList, bne_iff_ne]
    rwa [Vector.getElem?_eq_getElem, Option.getD_some] at hbase
  have hbase : (table.blockOffsets[table.blockCount]?).getD 0 = 0 := by
    rw [← Vector.getElem?_toList]
    cases hx : table.blockOffsets.toList[table.blockCount]? with
    | none => rfl
    | some o => exact bne_eq_false_iff_eq.mp (getElem?_countP (p := (· != 0)) hfirst hx)
  rw [inodeOffset, hblock, hbase]
  rfl

end InodeTable

/-! ### The search for a free inode -/

namespace DiskManager

variable [Crc32] {dm : DiskManager} {blocks : List UInt64}

/-- A slot that is in use has an offset. -/
theorem inodeOffset_ne_none_of_used {index : ℕ} {inode : InodeRaw}
    (hread : dm.readInode index = .ok inode) (hused : inode.isUsed ≠ 0) :
  dm.inodeTable.inodeOffset index ≠ none
  := by
  rw [readInode] at hread
  split at hread
  · cases hread
  · exact InodeTable.inodeOffset_ne_none_of_used hread hused

/-- When a slot is free, it is given, and only the table's pointer moves. -/
theorem allocInode_of_found {index : ℕ}
    (h : dm.inodeTable.firstFree dm.file dm.inodeTable.capacity 0 = .ok (some index)) :
  dm.allocInode = (some index, { dm with inodeTable :=
    { dm.inodeTable with nextDiskEnd := dm.superblock.nextDataOffset } })
  := by
  have hfind : InodeTable.allocInode
      { dm.inodeTable with nextDiskEnd := dm.superblock.nextDataOffset } dm.file
      = (.ok (some (index, false)),
        { dm.inodeTable with nextDiskEnd := dm.superblock.nextDataOffset }, dm.file) := by
    have hfree : InodeTable.firstFree
        { dm.inodeTable with nextDiskEnd := dm.superblock.nextDataOffset } dm.file
        dm.inodeTable.capacity 0 = .ok (some index) :=
      (firstFree_nextDiskEnd dm.inodeTable _ dm.file _ 0).trans h
    unfold InodeTable.allocInode
    rw [show InodeTable.capacity { dm.inodeTable with
      nextDiskEnd := dm.superblock.nextDataOffset } = dm.inodeTable.capacity from rfl, hfree]
  unfold allocInode
  dsimp only
  rw [hfind]
  rfl

/-- The slot that is given is the first one that is free, or the one behind all others. -/
theorem slot_of_allocInode {slot : ℕ} (h : dm.allocInode.1 = some slot) :
  dm.inodeTable.firstFree dm.file dm.inodeTable.capacity 0 = .ok (some slot)
    ∨ dm.inodeTable.firstFree dm.file dm.inodeTable.capacity 0 = .ok none
      ∧ slot = dm.inodeTable.capacity
  := by
  have hfree : InodeTable.firstFree
      { dm.inodeTable with nextDiskEnd := dm.superblock.nextDataOffset } dm.file
      (InodeTable.capacity { dm.inodeTable with nextDiskEnd := dm.superblock.nextDataOffset }) 0
      = dm.inodeTable.firstFree dm.file dm.inodeTable.capacity 0 :=
    firstFree_nextDiskEnd dm.inodeTable _ dm.file _ 0
  cases hfirst : dm.inodeTable.firstFree dm.file dm.inodeTable.capacity 0 with
  | error e => simp [allocInode, InodeTable.allocInode, hfree, hfirst] at h
  | ok found =>
      cases found with
      | some index =>
          rw [allocInode_of_found hfirst] at h
          obtain rfl := Option.some.inj h
          exact Or.inl rfl
      | none =>
          refine Or.inr ⟨rfl, ?_⟩
          cases halloc : InodeTable.allocBlock
              { dm.inodeTable with nextDiskEnd := dm.superblock.nextDataOffset } dm.file with
          | mk block rest =>
              cases block with
              | none => simp [allocInode, InodeTable.allocInode, hfree, hfirst, halloc] at h
              | some i =>
                  simp only [allocInode, InodeTable.allocInode, hfree, hfirst, halloc] at h
                  exact (Option.some.inj h).symm

/-- The slot that is given was not in use. -/
theorem unused_of_allocInode {slot : ℕ} {inode : InodeRaw} (h : dm.allocInode.1 = some slot)
    (hread : dm.readInode slot = .ok inode) :
  inode.isUsed = 0
  := by
  unfold readInode at hread
  split at hread
  · cases hread
  obtain hfirst | ⟨hfirst, rfl⟩ := slot_of_allocInode h
  · obtain ⟨-, -, inode', hread', hunused⟩ := InodeTable.firstFree_some hfirst
    obtain rfl := Except.ok.inj (hread'.symm.trans hread)
    exact hunused
  · rw [InodeTable.readInode, InodeTable.inodeOffset_capacity hfirst] at hread
    obtain rfl := Except.ok.inj hread
    rfl

omit [Crc32] in
theorem capacity_le (dm : DiskManager) :
  dm.inodeTable.capacity ≤ maxFiles
  := by
  have hcount : dm.inodeTable.blockCount ≤ 64 := by
    apply List.countP_le_length.trans
    rw [Vector.length_toList]
  exact Nat.mul_le_mul_right 1024 hcount

/-- When no slot is free, the first slot of a new block is given. -/
theorem allocInode_of_grown (hblocks : dm.inodeTable.Blocks blocks) (hne : blocks ≠ [])
    (hlt : blocks.length < 64)
    (h : dm.inodeTable.firstFree dm.file dm.inodeTable.capacity 0 = .ok none) :
  dm.allocInode = (some dm.inodeTable.capacity, dm.growTable (blocks.length - 1))
  := by
  have hfree : InodeTable.firstFree
      { dm.inodeTable with nextDiskEnd := dm.superblock.nextDataOffset } dm.file
      dm.inodeTable.capacity 0 = .ok none :=
    (firstFree_nextDiskEnd dm.inodeTable _ dm.file _ 0).trans h
  have hplace := hblocks.findIdx_eq hne
  rw [if_pos hlt] at hplace
  let grown : InodeTable :=
    ⟨dm.inodeTable.blockOffsets.setIfInBounds (blocks.length - 1 + 1)
      dm.superblock.nextDataOffset, InodeTable.blockEnd dm.superblock.nextDataOffset⟩
  have halloc : InodeTable.allocBlock
      { dm.inodeTable with nextDiskEnd := dm.superblock.nextDataOffset } dm.file
      = (some (blocks.length - 1 + 1), grown, grown.saveDirectory
        (dm.file.write dm.superblock.nextDataOffset.toNat (zeros inodeBlockSize))) := by
    unfold InodeTable.allocBlock
    rw [hplace]
  have hrun := InodeTable.allocInode_appended hfree halloc
  rw [allocInode_appended hrun rfl]
  rfl

/-- The search moves the pointer of the table, or appends a block behind the others. -/
theorem allocInode_appends (hblocks : dm.inodeTable.Blocks blocks) (hne : blocks ≠ []) :
  dm.allocInode.2 = { dm with inodeTable :=
      { dm.inodeTable with nextDiskEnd := dm.superblock.nextDataOffset } }
    ∨ dm.inodeTable.firstFree dm.file dm.inodeTable.capacity 0 = .ok none
      ∧ blocks.length < 64 ∧ dm.allocInode.2 = dm.growTable (blocks.length - 1)
  := by
  obtain hsame | ⟨i, hi, hfirst, -⟩ := dm.allocInode_cases
  · exact Or.inl hsame
  · right
    have hlt : blocks.length < 64 := by
      by_contra hfull
      have hnone : 64 - blocks.length = 0 := by omega
      rw [hblocks.toList_eq, hnone, List.replicate_zero, List.append_nil] at hi
      have hmem : (0 : UInt64) ∈ blocks := List.mem_of_mem_drop (List.mem_of_getElem? hi)
      exact hblocks.ne_zero 0 hmem rfl
    exact ⟨hfirst, hlt, congrArg Prod.snd (allocInode_of_grown hblocks hne hlt hfirst)⟩

/-- When no slot is free and the directory is full, nothing is given. -/
theorem allocInode_of_full (hblocks : dm.inodeTable.Blocks blocks) (hne : blocks ≠ [])
    (hfull : 64 ≤ blocks.length)
    (h : dm.inodeTable.firstFree dm.file dm.inodeTable.capacity 0 = .ok none) :
  dm.allocInode.1 = none
  := by
  have hfree : InodeTable.firstFree
      { dm.inodeTable with nextDiskEnd := dm.superblock.nextDataOffset } dm.file
      dm.inodeTable.capacity 0 = .ok none :=
    (firstFree_nextDiskEnd dm.inodeTable _ dm.file _ 0).trans h
  have hplace := hblocks.findIdx_eq hne
  rw [if_neg (Nat.not_lt.mpr hfull)] at hplace
  unfold allocInode InodeTable.allocInode
  dsimp only
  rw [show InodeTable.capacity { dm.inodeTable with
      nextDiskEnd := dm.superblock.nextDataOffset } = dm.inodeTable.capacity from rfl, hfree]
  unfold InodeTable.allocBlock
  dsimp only
  rw [hplace]

end DiskManager

end Vexfs
