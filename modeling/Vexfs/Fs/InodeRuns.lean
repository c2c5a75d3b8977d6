import Vexfs.Fs.InodeSlots
import Vexfs.Fs.Reopen

/-!
# Runs of the inode table

The operations of an inode table keep its blocks together: the directory has the offsets of the
blocks and then zeros, no two blocks meet, and all of them lie before the end of the image.  So
the capacity counts the slots that have an offset, and the search for a free slot gives the
first one that is not in use, or the first one of a block that it appends
(`Reached.allocates`).
-/

namespace Vexfs

open Bytes Storage

namespace InodeTable

/-- An end of the image that lies behind all blocks of a table. -/
def Behind (table : InodeTable) (next : UInt64) : Prop :=
  ∀ o ∈ table.blockOffsets.toList, o ≠ 0 → o.toNat + inodeBlockSize ≤ next.toNat

/-- A block appended at the end of the image does not wrap around. -/
def Fits (table : InodeTable) : Prop := table.nextDiskEnd.toNat + inodeBlockSize < 2 ^ 64

/-- The table with a block appended at the end of the image, as entry `n` of the directory. -/
def appended (table : InodeTable) (n : ℕ) : InodeTable where
  blockOffsets := table.blockOffsets.setIfInBounds n table.nextDiskEnd
  nextDiskEnd := blockEnd table.nextDiskEnd

/-- The blocks of a table, from the original one on, all of them before the end of the image. -/
structure Contiguous (originalOffset : UInt64) (table : InodeTable) (blocks : List UInt64) :
    Prop where
  placed : table.Blocks blocks
  head : blocks.head? = some originalOffset
  behind : ∀ o ∈ blocks, o.toNat + inodeBlockSize ≤ table.nextDiskEnd.toNat

namespace Contiguous

variable {originalOffset : UInt64} {table : InodeTable} {blocks : List UInt64}

theorem ne_nil (h : Contiguous originalOffset table blocks) :
  blocks ≠ []
  := by
  rintro rfl
  cases h.head

theorem new (horiginal : originalOffset ≠ 0) {next : UInt64}
    (hend : originalOffset.toNat + inodeBlockSize ≤ next.toNat) :
  Contiguous originalOffset (InodeTable.new originalOffset next) [originalOffset]
  := by
  have hnext := next.toNat_lt
  refine ⟨⟨rfl, ?_, ?_, List.pairwise_singleton _ _⟩, rfl, ?_⟩
  · intro o ho
    rw [List.mem_singleton.mp ho]
    exact horiginal
  · intro o ho
    rw [List.mem_singleton.mp ho]
    omega
  · intro o ho
    rw [List.mem_singleton.mp ho]
    exact hend

theorem firstBlock_eq (h : Contiguous originalOffset table blocks) :
  table.firstBlock = originalOffset
  := by
  have hget := h.placed.getElem? 0
  rw [← List.head?_eq_getElem?, h.head, Option.getD_some] at hget
  rw [← hget, firstBlock, Vector.getElem?_eq_getElem (by decide), Option.getD_some]

/-- The end of the image may be moved behind the blocks. -/
theorem passEnd {next : UInt64} {table' : InodeTable} (hend : table.Behind next)
    (hblocks : table'.blockOffsets = table.blockOffsets) (hnext : table'.nextDiskEnd = next)
    (h : Contiguous originalOffset table blocks) :
  Contiguous originalOffset table' blocks
  := by
  refine ⟨h.placed.congr hblocks, h.head, ?_⟩
  intro o ho
  rw [hnext]
  apply hend o _ (h.placed.ne_zero o ho)
  rw [h.placed.toList_eq]
  exact List.mem_append_left _ ho

/-- While the directory has room, a block is appended behind the others. -/
theorem allocBlock_of_room (hlt : blocks.length < 64) (file : File)
    (h : Contiguous originalOffset table blocks) :
  table.allocBlock file = (some blocks.length, table.appended blocks.length,
    (table.appended blocks.length).saveDirectory
      (file.write table.nextDiskEnd.toNat (zeros inodeBlockSize)))
  := by
  have hpos := List.length_pos_iff.mpr h.ne_nil
  have hsucc : blocks.length - 1 + 1 = blocks.length := by omega
  rw [InodeTable.allocBlock, h.placed.findIdx_eq h.ne_nil, if_pos hlt]
  dsimp only
  rw [hsucc]
  rfl

theorem allocBlock_of_full (hfull : 64 ≤ blocks.length) (file : File)
    (h : Contiguous originalOffset table blocks) :
  table.allocBlock file = (none, table, file)
  := by
  rw [InodeTable.allocBlock, h.placed.findIdx_eq h.ne_nil, if_neg (Nat.not_lt.mpr hfull)]

/-- The blocks with one appended at the end of the image. -/
theorem append (hfits : table.Fits) (hlt : blocks.length < 64)
    (h : Contiguous originalOffset table blocks) :
  Contiguous originalOffset (table.appended blocks.length) (blocks ++ [table.nextDiskEnd])
  := by
  have hsize : inodeBlockSize = 262144 := rfl
  have hnext : table.nextDiskEnd.toNat + inodeBlockSize < 2 ^ 64 := hfits
  have hne : table.nextDiskEnd ≠ 0 := by
    intro hzero
    have hbehind := h.behind _ (List.head_mem h.ne_nil)
    rw [hzero] at hbehind
    have hzero' : (0 : UInt64).toNat = 0 := rfl
    omega
  refine ⟨h.placed.append hlt hne (Nat.le_of_lt hnext) ?_, ?_, ?_⟩
  · intro o ho
    have hbehind := h.behind o ho
    rw [Set.disjoint_left]
    rintro i ⟨-, hhi⟩ ⟨hlo, -⟩
    omega
  · rw [List.head?_append, h.head, Option.some_or]
  · intro o ho
    show _ ≤ (blockEnd table.nextDiskEnd).toNat
    rw [toNat_blockEnd hnext]
    obtain ho | ho := List.mem_append.mp ho
    · exact Nat.le_trans (h.behind o ho) (Nat.le_add_right _ _)
    · rw [List.mem_singleton.mp ho]

end Contiguous

/-! ### Runs -/

variable [Crc32]

/-- The tables that are reached from a new one, or from one that is opened where such a table has
saved its directory, each with the file it was left with. -/
inductive Reached (originalOffset : UInt64) : InodeTable → File → Prop where
  | new (next : UInt64) (file : File)
      (hend : originalOffset.toNat + inodeBlockSize ≤ next.toNat) :
      Reached originalOffset (InodeTable.new originalOffset next) file
  | reopen {table table' : InodeTable} {file file' : File} {next : UInt64}
      (h : Reached originalOffset table file)
      (hsaved : readBytes file' inodeBlockDirOffset blockDirBytes = .ok table.dirBytes)
      (hopen : InodeTable.open file' originalOffset next = .ok table')
      (hend : table.Behind next) :
      Reached originalOffset table' file'
  | passEnd {table : InodeTable} {file : File} (next : UInt64)
      (h : Reached originalOffset table file) (hend : table.Behind next) :
      Reached originalOffset { table with nextDiskEnd := next } file
  | allocBlock {table : InodeTable} {file : File} (h : Reached originalOffset table file)
      (hfits : (table.allocBlock file).1 ≠ none → table.Fits) :
      Reached originalOffset (table.allocBlock file).2.1 (table.allocBlock file).2.2
  | allocInode {table : InodeTable} {file : File} (h : Reached originalOffset table file)
      (hfits : ∀ index, (table.allocInode file).1 = .ok (some (index, true)) → table.Fits) :
      Reached originalOffset (table.allocInode file).2.1 (table.allocInode file).2.2
  | writeInode {table : InodeTable} {file : File} (index : ℕ) (inode : InodeRaw)
      (h : Reached originalOffset table file) :
      Reached originalOffset table (table.writeInode file index inode).2
  | freeInode {table : InodeTable} {file : File} (index : ℕ)
      (h : Reached originalOffset table file) :
      Reached originalOffset table (table.freeInode file index).2

/-- Every run keeps the blocks together. -/
theorem Reached.contiguous {originalOffset : UInt64} {table : InodeTable} {file : File}
    (horiginal : originalOffset ≠ 0) (h : Reached originalOffset table file) :
  ∃ blocks, Contiguous originalOffset table blocks
  := by
  induction h with
  | new next file hend => exact ⟨_, .new horiginal hend⟩
  | @reopen table table' file file' next h hsaved hopen hend ih =>
      obtain ⟨blocks, hblocks⟩ := ih
      rw [InodeTable.open, hsaved] at hopen
      obtain rfl := Except.ok.inj hopen
      refine ⟨blocks, hblocks.passEnd hend ?_ rfl⟩
      rw [← hblocks.firstBlock_eq]
      exact parseDirectory_dirBytes table
  | passEnd next h hend ih =>
      obtain ⟨blocks, hblocks⟩ := ih
      exact ⟨blocks, hblocks.passEnd hend rfl rfl⟩
  | @allocBlock table file h hfits ih =>
      obtain ⟨blocks, hblocks⟩ := ih
      obtain hlt | hfull := Nat.lt_or_ge blocks.length 64
      · rw [hblocks.allocBlock_of_room hlt] at hfits ⊢
        exact ⟨_, hblocks.append (hfits (by simp)) hlt⟩
      · rw [hblocks.allocBlock_of_full hfull]
        exact ⟨blocks, hblocks⟩
  | @allocInode table file h hfits ih =>
      obtain ⟨blocks, hblocks⟩ := ih
      cases hfree : table.firstFree file table.capacity 0 with
      | error e =>
          rw [InodeTable.allocInode, hfree]
          exact ⟨blocks, hblocks⟩
      | ok found =>
          cases found with
          | some index =>
              rw [InodeTable.allocInode, hfree]
              exact ⟨blocks, hblocks⟩
          | none =>
              obtain hlt | hfull := Nat.lt_or_ge blocks.length 64
              · have halloc := allocInode_appended hfree (hblocks.allocBlock_of_room hlt file)
                rw [halloc] at hfits ⊢
                exact ⟨_, hblocks.append (hfits _ rfl) hlt⟩
              · rw [InodeTable.allocInode, hfree, hblocks.allocBlock_of_full hfull]
                exact ⟨blocks, hblocks⟩
  | writeInode index inode h ih => exact ih
  | freeInode index h ih => exact ih

/-! ### The search for a slot -/

/-- Whether a slot is reported as unused. -/
def Unused (table : InodeTable) (file : File) (index : ℕ) : Prop :=
  ∃ inode, table.readInode file index = .ok inode ∧ inode.isUsed = 0

/-- Whether a slot is reported as used. -/
def Used (table : InodeTable) (file : File) (index : ℕ) : Prop :=
  ∃ inode, table.readInode file index = .ok inode ∧ inode.isUsed ≠ 0

theorem Used.not_unused {table : InodeTable} {file : File} {index : ℕ}
    (h : table.Used file index) :
  ¬ table.Unused file index
  := by
  rintro ⟨inode, hread, hunused⟩
  obtain ⟨inode', hread', hused⟩ := h
  obtain rfl := Except.ok.inj (hread.symm.trans hread')
  exact hused hunused

/-- The slots before the one that is found are in use. -/
theorem used_of_firstFree_some {table : InodeTable} {file : File} {n i k index : ℕ}
    (h : table.firstFree file n i = .ok (some index)) (hlo : i ≤ k) (hhi : k < index) :
  table.Used file k
  := by
  induction n generalizing i with
  | zero => cases h
  | succ n ih =>
      unfold firstFree at h
      split at h
      · cases h
      next inode hread =>
      split at h
      · obtain rfl := Option.some.inj (Except.ok.inj h)
        omega
      · next hused =>
        obtain rfl | hne := Nat.eq_or_lt_of_le hlo
        · exact ⟨inode, hread, hused⟩
        · exact ih h hne

/-- What the search for a free slot gives: the least slot that is reported as unused, if there
is one; otherwise the first slot of a block of zeros that is appended; and nothing exactly when
all slots are in use.  A slot that is given has an offset. -/
structure Allocates (table : InodeTable) (file : File) (r : Option (ℕ × Bool))
    (table' : InodeTable) (file' : File) : Prop where
  least : (∃ index < table.capacity, table.Unused file index) →
    ∃ index < table.capacity, table.Unused file index ∧ (∀ j < index, table.Used file j)
      ∧ r = some (index, false) ∧ table' = table ∧ file' = file
  grown : (¬ ∃ index < table.capacity, table.Unused file index) →
    table.capacity < maxInodesTotal → r = some (table.capacity, true)
      ∧ table'.blockOffsets = table.blockOffsets.setIfInBounds table.blockCount table.nextDiskEnd
      ∧ readBytes file' table.nextDiskEnd.toNat inodeBlockSize = .ok (zeros inodeBlockSize)
  full : r = none ↔ table.capacity = maxInodesTotal ∧ ∀ j < maxInodesTotal, table.Used file j
  addressable : ∀ index grown, r = some (index, grown) → table'.inodeOffset index ≠ none

/-- The offsets of the blocks are the first ones of the directory, and the slots below the
capacity have ranges of 256 bytes that do not meet. -/
structure SlotsApart (table : InodeTable) : Prop where
  firstOffsets : ∀ i j : Fin 64, i ≤ j → table.blockOffsets[j] ≠ 0 → table.blockOffsets[i] ≠ 0
  addressed : ∀ index < table.capacity, ∃ offset, table.inodeOffset index = some offset
    ∧ table.slotRange index = Set.Ico offset.toNat (offset.toNat + 256)
  apart : ∀ i < table.capacity, ∀ j < table.capacity, i ≠ j →
    Disjoint (table.slotRange i) (table.slotRange j)

omit [Crc32] in
theorem Contiguous.slotsApart {originalOffset : UInt64} {table : InodeTable}
    {blocks : List UInt64} (h : Contiguous originalOffset table blocks) :
  table.SlotsApart
  := by
  have hget : ∀ i : Fin 64, table.blockOffsets[i] = (blocks[i.val]?).getD 0 := by
    intro i
    rw [← h.placed.getElem? i, Vector.getElem?_eq_getElem i.isLt, Option.getD_some]
    rfl
  constructor
  · intro i j hle hj hi
    rw [hget] at hi hj
    have hj' : j.val < blocks.length := by
      by_contra hge
      rw [List.getElem?_eq_none (Nat.not_lt.mp hge)] at hj
      exact hj rfl
    have hi' : i.val < blocks.length := Nat.lt_of_le_of_lt hle hj'
    rw [List.getElem?_eq_getElem hi', Option.getD_some] at hi
    exact h.placed.ne_zero _ (List.getElem_mem hi') hi
  · intro index hindex
    obtain ⟨offset, hoffset⟩ :=
      Option.ne_none_iff_exists'.mp (h.placed.inodeOffset_ne_none.mpr hindex)
    exact ⟨offset, hoffset, slotRange_eq hoffset⟩
  · exact fun i _ j _ hne => h.placed.disjoint_slotRange hne

omit [Crc32] in
/-- The block that is appended is zeros: the directory does not lie in it. -/
theorem Contiguous.readBytes_appended {originalOffset : UInt64} {table table' : InodeTable}
    {blocks : List UInt64} (file : File) (h : Contiguous originalOffset table blocks) :
  readBytes (table'.saveDirectory (file.write table.nextDiskEnd.toNat (zeros inodeBlockSize)))
    table.nextDiskEnd.toNat inodeBlockSize = .ok (zeros inodeBlockSize)
  := by
  have hsize : inodeBlockSize = 262144 := rfl
  have hdir : inodeBlockDirOffset = 3584 := rfl
  have hlength := DiskManager.length_dirBytes table'
  have hzeros : (zeros inodeBlockSize).length = inodeBlockSize := length_zeros _
  have hnext : inodeBlockSize ≤ table.nextDiskEnd.toNat :=
    Nat.le_trans (Nat.le_add_left _ _) (h.behind _ (List.head_mem h.ne_nil))
  rw [saveDirectory, readBytes_of_le, File.image_write, Image.slice_write_disjoint,
    File.image_write, Image.slice_write_eq _ _ hzeros]
  · left
    show inodeBlockDirOffset + table'.dirBytes.length ≤ _
    omega
  · rw [File.image_write, File.image_write]
    apply Nat.le_trans _ (Image.size_le_size_write _ _)
    have hne : zeros inodeBlockSize ≠ [] := by
      intro hnil
      rw [hnil, List.length_nil] at hzeros
      omega
    have hstop := @Image.stop_le_size_write file.image
      ⟨table.nextDiskEnd.toNat, zeros inodeBlockSize⟩ hne
    rw [FileWrite.stop, hzeros] at hstop
    exact hstop

theorem Contiguous.allocates_of_eq {originalOffset : UInt64} {table table' : InodeTable}
    {blocks : List UInt64} {file file' : File} {r : Option (ℕ × Bool)}
    (halloc : table.allocInode file = (.ok r, table', file'))
    (hfits : ∀ index, r = some (index, true) → table.Fits)
    (h : Contiguous originalOffset table blocks) :
  Allocates table file r table' file'
  := by
  have hcapacity := h.placed.capacity_eq
  have hmax : maxInodesTotal = 65536 := rfl
  have hlength := h.placed.length_le
  unfold allocInode at halloc
  cases hfree : table.firstFree file table.capacity 0 with
  | error e =>
      rw [hfree] at halloc
      cases halloc
  | ok found =>
      rw [hfree] at halloc
      cases found with
      | some index =>
          obtain ⟨rfl, rfl, rfl⟩ : some (index, false) = r ∧ table = table' ∧ file = file' := by
            simpa using halloc
          obtain ⟨-, hlt, hunused⟩ := firstFree_some hfree
          rw [Nat.zero_add] at hlt
          have hused : ∀ j < index, table.Used file j :=
            fun j hj => used_of_firstFree_some hfree (Nat.zero_le j) hj
          refine ⟨fun _ => ⟨index, hlt, hunused, hused, rfl, rfl, rfl⟩,
            fun hnone => absurd ⟨index, hlt, hunused⟩ hnone, ?_, ?_⟩
          · constructor
            · intro hr
              cases hr
            · rintro ⟨hall, husedAll⟩
              exact absurd hunused (husedAll index (hall ▸ hlt)).not_unused
          · rintro index' grown heq
            obtain ⟨rfl, -⟩ := Prod.mk.inj (Option.some.inj heq)
            exact h.placed.inodeOffset_ne_none.mpr hlt
      | none =>
          have hused : ∀ j < table.capacity, table.Used file j :=
            fun j hj => used_of_firstFree_none hfree (Nat.zero_le j) (by omega)
          have hnone : ¬ ∃ index < table.capacity, table.Unused file index := by
            rintro ⟨index, hlt, hunused⟩
            exact (hused index hlt).not_unused hunused
          obtain hlt | hfull := Nat.lt_or_ge blocks.length 64
          · rw [h.allocBlock_of_room hlt] at halloc
            obtain ⟨rfl, rfl, rfl⟩ : some (table.capacity, true) = r
                ∧ table.appended blocks.length = table'
                ∧ (table.appended blocks.length).saveDirectory
                  (file.write table.nextDiskEnd.toNat (zeros inodeBlockSize)) = file' := by
              simpa using halloc
            have happend := h.append (hfits _ rfl) hlt
            refine ⟨fun hsome => absurd hsome hnone, fun _ _ => ⟨rfl, ?_, ?_⟩, ?_, ?_⟩
            · rw [h.placed.blockCount_eq]
              rfl
            · exact h.readBytes_appended file
            · constructor
              · intro hr
                cases hr
              · rintro ⟨hall, -⟩
                omega
            · rintro index' grown heq
              obtain ⟨rfl, -⟩ := Prod.mk.inj (Option.some.inj heq)
              rw [happend.placed.inodeOffset_ne_none, happend.placed.capacity_eq,
                List.length_append, List.length_singleton]
              omega
          · rw [h.allocBlock_of_full hfull] at halloc
            obtain ⟨rfl, rfl, rfl⟩ : none = r ∧ table = table' ∧ file = file' := by
              simpa using halloc
            have hall : table.capacity = maxInodesTotal := by omega
            refine ⟨fun hsome => absurd hsome hnone, fun _ hlt => absurd hall (Nat.ne_of_lt hlt),
              ⟨fun _ => ⟨hall, hall ▸ hused⟩, fun _ => rfl⟩, ?_⟩
            rintro index' grown heq
            cases heq

/-- In every table that is reached, the blocks are the first entries of the directory, the slots
do not meet, and the search for a free slot gives the least unused one, or the first one of a
new block, or nothing when all 65536 slots are in use. -/
theorem Reached.allocates {originalOffset : UInt64} {table : InodeTable} {file : File}
    (horiginal : originalOffset ≠ 0) (h : Reached originalOffset table file) :
  table.SlotsApart
    ∧ ∀ r table' file', table.allocInode file = (.ok r, table', file') →
      (∀ index, r = some (index, true) → table.Fits) → Allocates table file r table' file'
  := by
  obtain ⟨blocks, hblocks⟩ := h.contiguous horiginal
  use hblocks.slotsApart
  intro r table' file' halloc hfits
  exact hblocks.allocates_of_eq halloc hfits

omit [Crc32] in
/-- A table to which a block was appended. -/
theorem Reached.allocates_extended :
  letI := Crc32.ieee
  let extended := (InodeTable.new 4096 1048576).allocBlock (.ofImage .empty)
  extended.2.1.SlotsApart
    ∧ ∀ r table' file', extended.2.1.allocInode extended.2.2 = (.ok r, table', file') →
      (∀ index, r = some (index, true) → extended.2.1.Fits) →
      Allocates extended.2.1 extended.2.2 r table' file'
  := by
  let _ := Crc32.ieee
  have hnew : Reached 4096 (InodeTable.new 4096 1048576) (.ofImage .empty) :=
    .new 1048576 (.ofImage .empty) (by decide)
  have hfits : (InodeTable.new 4096 1048576).Fits := by
    unfold Fits
    decide
  exact Reached.allocates (by decide) (.allocBlock hnew fun _ => hfits)

end InodeTable

end Vexfs
