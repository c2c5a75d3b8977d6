import Vexfs.Fuse.SlotOwners

/-!
# What the slots hold

A slot of the inode table is read as the inode that was written to it last, or as an unused one.
A call of the disk manager puts into a slot an inode of a certain kind, or leaves the slot as it
is (`DiskCall.Puts`); so what the slot holds after some calls is of that kind when it was before,
or when one of the calls wrote it (`DiskCall.slotIs_runAll`, `DiskCall.slotIs_of_mem`).
-/

namespace Vexfs

open Bytes Storage DiskManager

variable [Crc32] {dm : DiskManager} {call : DiskCall} {calls : List DiskCall} {k : ℕ}
  {P : InodeRaw → Prop}

/-- A slot of the table is read as an inode of some kind. -/
structure DiskManager.SlotIs (dm : DiskManager) (k : ℕ) (P : InodeRaw → Prop) : Prop where
  slot : dm.inodeTable.inodeOffset k ≠ none
  read : ∃ inode, dm.readInode k = .ok inode ∧ P inode

theorem DiskManager.SlotIs.mono {Q : InodeRaw → Prop} (hsub : ∀ inode, P inode → Q inode)
    (h : dm.SlotIs k P) :
  dm.SlotIs k Q
  := by
  obtain ⟨inode, hread, hinode⟩ := h.read
  exact ⟨h.slot, inode, hread, hsub inode hinode⟩

namespace DiskCall

/-! ### One call -/

omit [Crc32] in
/-- What a call writes to a slot is of some kind. -/
def Puts (k : ℕ) (P : InodeRaw → Prop) : DiskCall → Prop
  | .store _ diskIndex inode => diskIndex = k → ∀ offset, P (inode offset)
  | .writeInode diskIndex inode => diskIndex = k → P inode
  | .freeInode diskIndex => diskIndex = k → ∀ inode : InodeRaw, P { inode with isUsed := 0 }
  | _ => True

/-- An inode that is freed is read as unused. -/
theorem readInode_freeInode {inode : InodeRaw} (hslot : dm.inodeTable.inodeOffset k ≠ none)
    (hread : dm.readInode k = .ok inode) :
  (dm.freeInode k).2.readInode k = .ok { inode with isUsed := 0 }
  := by
  obtain ⟨offset, hoffset⟩ := Option.ne_none_iff_exists'.mp hslot
  have hmax := InodeTable.lt_maxFiles_of_inodeOffset hoffset
  rw [readInode, if_neg (Nat.not_le.mpr hmax)] at hread
  have hlen : { inode with isUsed := 0 : InodeRaw }.toBytes.length = 256 :=
    InodeRaw.length_toBytes _
  obtain ⟨w, hw⟩ : ∃ w : FileWrite,
      w = ⟨offset.toNat, { inode with isUsed := 0 : InodeRaw }.toBytes⟩ := ⟨_, rfl⟩
  have hfree : (dm.freeInode k).2 = dm.write w := by
    unfold DiskManager.freeInode InodeTable.freeInode InodeTable.writeInode
    rw [hread]
    dsimp only
    rw [hoffset, hw]
    rfl
  have himage : (dm.write w).file.image = dm.image.write w := dm.image_write w
  rw [hfree, readInode, if_neg (Nat.not_le.mpr hmax)]
  apply InodeTable.readInode_of_slice hoffset
  · have hne : w.data ≠ [] := by
      rw [hw]
      exact List.ne_nil_of_length_pos (hlen ▸ by decide)
    have hstop := @Image.stop_le_size_write dm.image w hne
    rw [himage]
    rw [hw, FileWrite.stop, hlen] at hstop
    rw [hw]
    exact hstop
  · rw [himage, hw]
    exact Image.slice_write_eq dm.image offset.toNat hlen

/-- What a call writes to a slot is read from it. -/
theorem slotIs_of_writesSlot (hfits : call.Fits dm) (hwrites : call.WritesSlot k)
    (hputs : call.Puts k P) (htable : dm.TableSafe) (h : dm.SlotIs k fun _ => True) :
  (call.run dm).SlotIs k P
  := by
  have hslot := h.slot
  obtain ⟨offset, hoffset⟩ := Option.ne_none_iff_exists'.mp hslot
  refine ⟨?_, ?_⟩
  · rw [htable.inodeOffset_run hfits hoffset]
    exact Option.some_ne_none offset
  cases call with
  | store bytes diskIndex inode =>
      obtain rfl : diskIndex = k := hwrites
      obtain ⟨hrange, -, hkept⟩ := htable.spares.allocFor htable.order.kept hfits
      obtain ⟨-, -, hblocks⟩ := allocFor_frame dm bytes
      have hslot' : (VexFS.allocFor dm bytes).2.inodeTable.inodeOffset diskIndex ≠ none := by
        rw [InodeTable.inodeOffset_congr hblocks]
        exact hslot
      exact ⟨_, hkept.readInode_store (hrange.trans Set.sdiff_subset) hslot', hputs rfl _⟩
  | writeInode diskIndex inode =>
      obtain rfl : diskIndex = k := hwrites
      exact ⟨inode, readInode_writeInode hslot htable.order.kept.placed
        (htable.order.kept.room.trans (by decide)), hputs rfl⟩
  | freeInode diskIndex =>
      obtain rfl : diskIndex = k := hwrites
      obtain ⟨inode, hread, -⟩ := h.read
      exact ⟨_, readInode_freeInode hslot hread, hputs rfl inode⟩
  | _ => exact hwrites.elim

/-- A slot holds what it did, or what a call writes to it. -/
theorem slotIs_run (hfits : call.Fits dm) (hputs : call.Puts k P) (htable : dm.TableSafe)
    (h : dm.SlotIs k P) :
  (call.run dm).SlotIs k P
  := by
  by_cases hwrites : call.WritesSlot k
  · exact slotIs_of_writesSlot hfits hwrites hputs htable (h.mono fun _ _ => trivial)
  obtain ⟨T, hchanges, hout⟩ := exists_changesIn_slot hfits hwrites htable
  obtain ⟨offset, hoffset⟩ := Option.ne_none_iff_exists'.mp h.slot
  have hoffset' := htable.inodeOffset_run hfits hoffset
  obtain ⟨inode, hread, hinode⟩ := h.read
  refine ⟨?_, inode, ?_, hinode⟩
  · rw [hoffset']
    exact Option.some_ne_none offset
  · apply hchanges.readInode _ htable.order.kept.placed hread hout
    rw [hoffset, hoffset']

/-! ### Some calls -/

/-- The calls are allowed, one after the other. -/
abbrev AllFit (dm : DiskManager) (calls : List DiskCall) : Prop :=
  Guarded (fun dm call => call.Fits dm ∧ call.Returns dm.inodeTable.extensionBlocks dm) dm calls

/-- Only the search for a free inode changes the table. -/
theorem blockOffsets_runAll (hnot : ∀ call ∈ calls, call ≠ .allocInode) :
  (runAll dm calls).inodeTable.blockOffsets = dm.inodeTable.blockOffsets
  := by
  induction calls generalizing dm with
  | nil => rfl
  | cons call calls ih =>
      have hrest : ∀ c ∈ calls, c ≠ .allocInode := fun c hc =>
        hnot c (List.mem_cons_of_mem _ hc)
      exact (ih hrest).trans (blockOffsets_run (hnot call List.mem_cons_self))

theorem slotIs_runAll (hfit : AllFit dm calls) (hputs : ∀ call ∈ calls, call.Puts k P)
    (htable : dm.TableSafe) (h : dm.SlotIs k P) :
  (runAll dm calls).SlotIs k P
  := by
  have hboth := (hfit.and_mem hputs).holds (I := fun dm => dm.TableSafe ∧ dm.SlotIs k P)
    (fun _ _ hcall h =>
      ⟨h.1.run hcall.1.1 hcall.1.2, slotIs_run hcall.1.1 hcall.2 h.1 h.2⟩)
    ⟨htable, h⟩
  exact hboth.2

/-- When one of the calls writes a slot, it holds what they put there. -/
theorem slotIs_of_mem (hfit : AllFit dm calls) (hputs : ∀ call ∈ calls, call.Puts k P)
    (hwrites : ∃ call ∈ calls, call.WritesSlot k) (htable : dm.TableSafe)
    (h : dm.SlotIs k fun _ => True) :
  (runAll dm calls).SlotIs k P
  := by
  induction calls generalizing dm with
  | nil =>
      obtain ⟨call, hmem, -⟩ := hwrites
      cases hmem
  | cons call calls ih =>
      obtain ⟨⟨hfits, hreturns⟩, hrest⟩ := hfit
      have hputs' : ∀ call ∈ calls, call.Puts k P := fun c hc =>
        hputs c (List.mem_cons_of_mem _ hc)
      have htable' := htable.run hfits hreturns
      by_cases hfirst : call.WritesSlot k
      · apply slotIs_runAll hrest hputs' htable'
        exact slotIs_of_writesSlot hfits hfirst (hputs call List.mem_cons_self) htable h
      · have hlater : ∃ call ∈ calls, call.WritesSlot k := by
          obtain ⟨c, hc, hck⟩ := hwrites
          obtain rfl | hc := List.mem_cons.mp hc
          · exact absurd hck hfirst
          · exact ⟨c, hc, hck⟩
        apply ih hrest hputs' hlater htable'
        apply slotIs_run hfits _ htable h
        cases call with
        | store bytes diskIndex inode => exact fun _ _ => trivial
        | writeInode diskIndex inode => exact fun _ => trivial
        | freeInode diskIndex => exact fun _ _ => trivial
        | _ => trivial

end DiskCall

/-! ### New slots -/

/-- The records of a block that is appended are read as zeros. -/
theorem readBytes_growTable (dm : DiskManager) (i : ℕ) {offset : ℕ}
    (hbase : dataOffset ≤ dm.superblock.nextDataOffset.toNat)
    (hlo : dm.superblock.nextDataOffset.toNat ≤ offset)
    (hhi : offset + inodeBytes ≤ dm.superblock.nextDataOffset.toNat + inodeBlockSize) :
  readBytes (dm.growTable i).file offset inodeBytes = .ok (zeros inodeBytes)
  := by
  obtain ⟨w, hw⟩ : ∃ w : FileWrite,
      w = ⟨dm.superblock.nextDataOffset.toNat, zeros inodeBlockSize⟩ := ⟨_, rfl⟩
  obtain ⟨dm₀, hdm₀⟩ : ∃ dm₀ : DiskManager, dm₀ = dm.withTable
      (InodeTable.blockEnd dm.superblock.nextDataOffset)
      ⟨dm.inodeTable.blockOffsets.setIfInBounds (i + 1) dm.superblock.nextDataOffset,
        InodeTable.blockEnd dm.superblock.nextDataOffset⟩ := ⟨_, rfl⟩
  have hgrown : dm.growTable i
      = ((dm₀.write w).write dm₀.directoryWrite).write dm₀.superblockWrite := by
    rw [hdm₀, hw]
    rfl
  have himage : (dm₀.write w).file.image = dm₀.image.write w := dm₀.image_write w
  have hzeros : w.data.length = inodeBlockSize := by
    rw [hw]
    exact length_zeros _
  have hread : readBytes (dm₀.write w).file offset inodeBytes = .ok (zeros inodeBytes) := by
    have hne : w.data ≠ [] := List.ne_nil_of_length_pos (hzeros ▸ by decide)
    have hstop := @Image.stop_le_size_write dm₀.image w hne
    rw [FileWrite.stop, hzeros] at hstop
    have hoffset : w.offset = dm.superblock.nextDataOffset.toNat := by rw [hw]
    rw [readBytes_of_le (by rw [himage]; omega), himage]
    congr 1
    apply (Image.slice_eq_iff (length_zeros _)).mpr
    intro j hj
    have hlen : (zeros inodeBytes).length = inodeBytes := length_zeros _
    obtain ⟨d, hd⟩ := Nat.exists_eq_add_of_le (show w.offset ≤ offset + j by omega)
    have hd' : d < w.data.length := by omega
    have hbyte : w.data[d] = (zeros inodeBytes)[j] := by
      simp only [hw, zeros, List.getElem_replicate]
    rw [Image.byte_write, hd, FileWrite.byteAt_add hd', Option.getD_some, hbyte]
  have hlow : ∀ (dm' : DiskManager) (v : FileWrite), v.stop ≤ inodeTableOffset →
      ChangesIn metadataRange dm' (dm'.write v) := fun dm' v hstop =>
    (ChangesIn.write dm' v).mono fun _ hi => hi.2.trans_le hstop
  have hdir : dm₀.directoryWrite.stop ≤ inodeTableOffset := by
    rw [stop_directoryWrite]
    exact Nat.le_refl _
  have hsuper : dm₀.superblockWrite.stop ≤ inodeTableOffset := by
    rw [stop_superblockWrite]
    decide
  rw [hgrown]
  apply ((hlow _ _ hdir).trans (hlow _ _ hsuper)).readBytes hread
  intro j hj
  have hlarge : dataOffset ≤ j := hbase.trans (hlo.trans hj.1)
  constructor
  · exact Or.inr hlarge
  · rintro (hmeta | hmeta)
    · exact absurd (hlarge.trans_lt hmeta) (by decide)
    · exact absurd (hlarge.trans_lt hmeta) (by decide)

/-- The slots of a block that is appended are unused. -/
theorem DiskManager.TableSafe.slotIs_allocInode (h : dm.TableSafe)
    (hfar : dm.superblock.nextDataOffset.toNat + inodeBlockSize ≤ 2 ^ 63)
    (hnew : dm.inodeTable.inodeOffset k = none)
    (hslot : dm.allocInode.2.inodeTable.inodeOffset k ≠ none) :
  dm.allocInode.2.SlotIs k fun inode => inode.isUsed = 0
  := by
  obtain ⟨blocks, hblocks, hne⟩ := h.blocks
  refine ⟨hslot, ?_⟩
  obtain hrun | ⟨-, hlt, hrun⟩ := allocInode_appends hblocks hne
  · rw [hrun] at hslot
    exact absurd hnew hslot
  have hgrown := h.blocks_growTable hblocks hne hlt hfar
  rw [hrun] at hslot ⊢
  obtain ⟨offset, hoffset⟩ := Option.ne_none_iff_exists'.mp hslot
  have hmax := InodeTable.lt_maxFiles_of_inodeOffset hoffset
  -- the slot lies in the last block
  obtain ⟨o, ho, heq⟩ := hgrown.slot_bounds hoffset
  have hlast : blocks.length ≤ k / 1024 := by
    by_contra hbelow
    have hsome := hblocks.inodeOffset_ne_none.mpr (show k < dm.inodeTable.capacity by
      rw [hblocks.capacity_eq]
      omega)
    exact hsome hnew
  rw [List.getElem?_append_right hlast, List.getElem?_singleton] at ho
  split at ho
  · obtain rfl := Option.some.inj ho
    have hslots : k % 1024 < 1024 := Nat.mod_lt _ (by decide)
    have hbytes : inodeBytes = 256 := rfl
    have hblock : inodeBlockSize = 262144 := rfl
    have hread := readBytes_growTable dm (blocks.length - 1) h.order.kept.base_le
      (show _ ≤ offset.toNat by omega) (by omega)
    rw [readInode, if_neg (Nat.not_le.mpr hmax), InodeTable.readInode, hoffset]
    dsimp only
    rw [hread]
    dsimp only
    split
    · next inode hinode => exact ⟨inode, rfl, isUsed_of_zeros hinode⟩
    · exact ⟨_, rfl, rfl⟩
  · cases ho

end Vexfs
