import Vexfs.Fs.Reopen

/-!
# Room in the journal

A logged write needs a slot for each of its entries and one for its commit.  Every write
that returns leaves room for another: the journal is cleared once 496 slots are taken.  A
data write that needs more slots than are left is refused, however many the journal has in
all (`writeFileData_succeeds_iff`).  Opening an image takes over the slots that are in use
on it, and clears them only if there is something to replay; when a crash has left 511
entries of a transaction that was never committed, there is no room for an inode write and
its commit any more (`never_wedged`, `not_neverWedged`).
-/

namespace Vexfs

open Bytes Storage

variable [Crc32]

/-! ### Operations -/

/-- An operation of the disk manager. -/
inductive ManagerOp where
  | disk (op : DiskOp)
  | flush
  | writeSuperblock
  | writeSnapshot (index : Nat) (snap : SnapshotRaw)
  | zeroSnapshotSlot (index : Nat)

/-- The manager after an operation. -/
def ManagerOp.run (dm : DiskManager) : ManagerOp → DiskManager
  | .disk op => op.run dm
  | .flush => dm.flush
  | .writeSuperblock => dm.writeSuperblock
  | .writeSnapshot index snap => (dm.writeSnapshot index snap).2
  | .zeroSnapshotSlot index => (dm.zeroSnapshotSlot index).2

/-! ### Slots -/

namespace DiskManager

theorem nextSlot_checkpoint_lt (dm : DiskManager) :
  dm.checkpoint.journal.nextSlot < 496
  := by
  unfold checkpoint
  split
  · rw [Journal.clear_eq]
    show 0 < 496
    decide
  · rename_i h
    apply Nat.not_le.mp
    intro hle
    apply h
    exact decide_eq_true hle

/-- An inode write to an allocated block returns when two slots are left. -/
theorem writeInode_of_room {dm : DiskManager} {index : Nat} {inode : InodeRaw}
    (hindex : dm.inodeTable.inodeOffset index ≠ none) (h : dm.journal.nextSlot ≤ 510) :
  (dm.writeInode index inode).1 = .ok ()
    ∧ (dm.writeInode index inode).2.journal.nextSlot < 496
  := by
  obtain ⟨offset, hoffset⟩ := Option.ne_none_iff_exists'.mp hindex
  rw [dm.writeInode_ok inode (InodeTable.lt_maxFiles_of_inodeOffset hoffset) hoffset (by omega)]
  exact ⟨rfl, nextSlot_checkpoint_lt _⟩

/-- An inode write fails when there is only one slot left, or none. -/
theorem writeInode_of_full {dm : DiskManager} {index : Nat} {inode : InodeRaw}
    (h : 511 ≤ dm.journal.nextSlot) :
  (dm.writeInode index inode).1 ≠ .ok ()
  := by
  have hlen : ¬ journalPayloadSize < inode.toBytes.length := by
    rw [InodeRaw.length_toBytes]
    decide
  unfold writeInode
  split
  · simp
  · split
    · simp
    · simp only [Journal.logInodeWriteAt, if_neg hlen]
      obtain hlt | hfull := Nat.lt_or_ge dm.journal.nextSlot 512
      · have hslot : dm.journal.begin.2.nextSlot < 512 := hlt
        have hnext : maxJournalEntries ≤ dm.journal.begin.2.next.nextSlot := by
          simp only [Journal.begin, Journal.next, maxJournalEntries]
          omega
        rw [Journal.writeEntry_ok hslot]
        simp only [Journal.commit, Journal.writeEntry, if_pos hnext]
        simp
      · have hslot : maxJournalEntries ≤ dm.journal.begin.2.nextSlot := hfull
        rw [Journal.writeEntry, if_pos hslot]
        simp

/-- An inode write takes at most the slots up to the bound `b`. -/
theorem nextSlot_writeInode {dm : DiskManager} {b : ℕ} (hlo : 495 ≤ b) (hhi : b ≤ 510)
    (h : dm.journal.nextSlot ≤ b) (index : Nat) (inode : InodeRaw) :
  (dm.writeInode index inode).2.journal.nextSlot ≤ b
  := by
  cases hoffset : dm.inodeTable.inodeOffset index with
  | none =>
      unfold writeInode
      rw [hoffset]
      split <;> exact h
  | some offset =>
      have hne : dm.inodeTable.inodeOffset index ≠ none := by simp [hoffset]
      have hlt : (dm.writeInode index inode).2.journal.nextSlot < 496 :=
        (writeInode_of_room hne (h.trans hhi)).2
      omega

/-- A data write takes at most the slots up to the bound `b`. -/
theorem nextSlot_writeFileData {dm : DiskManager} {b : ℕ} (hlo : 495 ≤ b) (hhi : b ≤ 510)
    (h : dm.journal.nextSlot ≤ b) (offset : UInt64) (data : List UInt8) :
  (dm.writeFileData offset data).2.journal.nextSlot ≤ b
  := by
  by_cases hnil : data = []
  · rw [writeFileData, if_pos hnil]
    exact h
  · by_cases hroom : dm.journal.nextSlot + (chunks journalPayloadSize data).length + 1 ≤ 512
    · have hlt := nextSlot_checkpoint_lt
        (dm.transact (dm.dataEntries offset data) ⟨offset.toNat, data⟩)
      rw [dm.writeFileData_ok offset hnil hroom]
      show (checkpoint _).journal.nextSlot ≤ b
      omega
    · obtain ⟨e, he⟩ := dm.writeFileData_full offset hroom (by omega)
      rw [he]
      exact h

/-- Allocating an inode leaves the journal alone. -/
theorem journal_allocInode (dm : DiskManager) :
  dm.allocInode.2.journal = dm.journal
  := by
  unfold allocInode
  dsimp only
  split
  · split <;> rfl
  · rfl
  · rfl

omit [Crc32] in
theorem journal_allocData (dm : DiskManager) (size : Nat) :
  (dm.allocData size).2.journal = dm.journal
  := by
  unfold allocData
  split <;> rfl

end DiskManager

/-- No operation takes slots beyond the bound `b`. -/
theorem ManagerOp.nextSlot_run {dm : DiskManager} {b : ℕ} (hlo : 495 ≤ b) (hhi : b ≤ 510)
    (h : dm.journal.nextSlot ≤ b) (op : ManagerOp) :
  (op.run dm).journal.nextSlot ≤ b
  := by
  cases op with
  | disk op =>
      cases op with
      | writeInode index inode => exact DiskManager.nextSlot_writeInode hlo hhi h index inode
      | freeInode index => exact h
      | allocInode =>
          rw [run, DiskOp.run, DiskManager.journal_allocInode]
          exact h
      | allocData size =>
          rw [run, DiskOp.run, DiskManager.journal_allocData]
          exact h
      | freeData offset length => exact h
      | writeFileData offset data =>
          exact DiskManager.nextSlot_writeFileData hlo hhi h offset data
  | flush => exact h
  | writeSuperblock => exact h
  | writeSnapshot index snap =>
      rw [run, DiskManager.writeSnapshot]
      split <;> exact h
  | zeroSnapshotSlot index =>
      rw [run, DiskManager.zeroSnapshotSlot]
      split <;> exact h

/-! ### Data writes -/

/-- The managers that operations lead to from a formatted image. -/
inductive OfOps : DiskManager → Prop where
  | format (image : Image) (sizeBytes now : UInt64) :
      OfOps (DiskManager.format image sizeBytes now)
  | op {dm : DiskManager} (op : ManagerOp) (h : OfOps dm) : OfOps (op.run dm)

/-- Between operations, at most 495 slots of the journal are taken. -/
theorem OfOps.nextSlot_le {dm : DiskManager} (h : OfOps dm) :
  dm.journal.nextSlot ≤ 495
  := by
  induction h with
  | format image sizeBytes now => exact Nat.zero_le _
  | op op _ ih => exact op.nextSlot_run (Nat.le_refl _) (by decide) ih

namespace DiskManager

/-- Clearing the journal leaves what is outside it. -/
theorem eqOn_checkpoint (dm : DiskManager) :
  Set.EqOn dm.checkpoint.image.byte dm.image.byte outsideJournal
    ∧ dm.image.size ≤ dm.checkpoint.image.size
  := by
  unfold checkpoint
  split
  · rw [Journal.clear_eq, image, File.image_append]
    use WithinJournal.eqOn_writeAll (withinJournal_clearWrites _) _
    apply Image.size_le_size_writeAll
  · exact ⟨Set.eqOn_refl _ _, Nat.le_refl _⟩

theorem extends_checkpoint (dm : DiskManager) :
  File.Extends dm.file dm.checkpoint.file
  := by
  unfold checkpoint
  split
  · rw [Journal.clear_eq]
    apply File.Extends.append
  · apply File.Extends.refl

/-- What a data write has written can be read back. -/
theorem readFileData_writeFileData {dm : DiskManager} {offset : UInt64} {data : List UInt8}
    (hoffset : dataOffset ≤ offset.toNat)
    (hroom : dm.journal.nextSlot + (chunks journalPayloadSize data).length + 1 ≤ 512) :
  (dm.writeFileData offset data).2.readFileData offset data.length = .ok data
  := by
  by_cases hnil : data = []
  · subst hnil
    rw [readFileData, readBytes, Image.read, if_pos (Or.inl List.length_nil)]
    rfl
  · rw [dm.writeFileData_ok offset hnil hroom]
    obtain ⟨heq, hsize⟩ :=
      (dm.transact (dm.dataEntries offset data) ⟨offset.toNat, data⟩).eqOn_checkpoint
    rw [image_transact] at heq hsize
    let logged := (dm.logFile (dm.dataEntries offset data)).image
    have hstop : (⟨offset.toNat, data⟩ : FileWrite).stop
        ≤ (logged.write ⟨offset.toNat, data⟩).size :=
      Image.stop_le_size_write hnil
    have hself := Image.slice_write_self (dm.logFile (dm.dataEntries offset data)).image
      ⟨offset.toNat, data⟩
    rw [readFileData, readBytes_of_le (Nat.le_trans hstop hsize)]
    apply congrArg Except.ok
    apply Eq.trans _ hself
    apply Image.slice_congr
    intro i hlo _
    apply heq
    right
    exact Nat.le_trans hoffset hlo

end DiskManager

omit [Crc32] in
/-- Whether the entries of the data and their commit fit into the slots that are left. -/
theorem room_iff {nextSlot : ℕ} {data : List UInt8} (h : nextSlot ≤ 511) :
  nextSlot + (chunks journalPayloadSize data).length + 1 ≤ 512
    ↔ data.length ≤ (511 - nextSlot) * journalPayloadSize
  := by
  rw [length_chunks (by decide), journalPayloadSize]
  omega

/-- A data write in the data region succeeds, and can be read back, exactly when the data
fits into the entries that the journal has slots for beside a commit entry. -/
theorem writeFileData_succeeds_iff {dm : DiskManager} (h : OfOps dm) {offset : UInt64}
    (hoffset : dataOffset ≤ offset.toNat) (data : List UInt8) :
  ((dm.writeFileData offset data).1 = .ok ()
      ∧ (dm.writeFileData offset data).2.readFileData offset data.length = .ok data)
    ↔ data.length ≤ (511 - dm.journal.nextSlot) * journalPayloadSize
  := by
  have hnext : dm.journal.nextSlot ≤ 511 := Nat.le_trans h.nextSlot_le (by decide)
  rw [← room_iff hnext]
  constructor
  · rintro ⟨hok, -⟩
    by_contra hroom
    obtain ⟨e, he⟩ := dm.writeFileData_full offset hroom hnext
    rw [he] at hok
    cases hok
  · intro hroom
    refine ⟨?_, DiskManager.readFileData_writeFileData hoffset hroom⟩
    by_cases hnil : data = []
    · rw [DiskManager.writeFileData, if_pos hnil]
    · rw [dm.writeFileData_ok offset hnil hroom]

omit [Crc32] in
/-- One byte is written to a formatted image, and read back. -/
theorem writeFileData_succeeds_one_byte :
  let _ := Crc32.ieee
  let dm := DiskManager.format Image.empty 0 0
  let offset := UInt64.ofNat dataOffset
  (dm.writeFileData offset [7]).1 = .ok ()
    ∧ (dm.writeFileData offset [7]).2.readFileData offset 1 = .ok [7]
  := by
  intro _ dm offset
  have hnext : dm.journal.nextSlot = 0 := rfl
  apply (writeFileData_succeeds_iff (.format Image.empty 0 0) (Nat.le_refl _) [7]).mpr
  rw [hnext]
  decide

omit [Crc32] in
/-- A data write of one byte more than 511 entries hold fails on a formatted image. -/
theorem not_writeFileData_succeeds :
  let _ := Crc32.ieee
  let dm := DiskManager.format Image.empty 0 0
  (dm.writeFileData (UInt64.ofNat dataOffset)
    (List.replicate (511 * journalPayloadSize + 1) 0)).1 ≠ .ok ()
  := by
  intro _ dm
  have hnext : dm.journal.nextSlot = 0 := rfl
  have hroom : ¬ dm.journal.nextSlot + (chunks journalPayloadSize
      (List.replicate (511 * journalPayloadSize + 1) (0 : UInt8))).length + 1 ≤ 512 := by
    rw [room_iff (by omega), List.length_replicate, hnext]
    omega
  obtain ⟨e, he⟩ := dm.writeFileData_full (UInt64.ofNat dataOffset) hroom (by omega)
  rw [he]
  simp

/-! ### Crashes and reopening -/

/-- What there is at a moment of the life of an image: a manager that has it open, or the
image alone. -/
inductive System where
  | running (dm : DiskManager)
  | stopped (img : Image)

/-- The lives of an image from formatting on.  A crash may come between any two file writes
of an operation, and between those of opening; closing is a crash after the last write.
`Opens` tells which images are opened again. -/
inductive Lives (Opens : Image → Prop) : System → Prop where
  | format (image : Image) (sizeBytes now : UInt64) :
      Lives Opens (.running (DiskManager.format image sizeBytes now))
  | op {dm : DiskManager} (op : ManagerOp) (h : Lives Opens (.running dm)) :
      Lives Opens (.running (op.run dm))
  | crash {dm : DiskManager} {img : Image} (op : ManagerOp) (h : Lives Opens (.running dm))
      (hcrash : File.Crash dm.file (op.run dm).file img) : Lives Opens (.stopped img)
  | open {img : Image} {dm : DiskManager} (h : Lives Opens (.stopped img)) (hopens : Opens img)
      (hopen : DiskManager.open img = .ok dm) : Lives Opens (.running dm)
  | crashOpen {img img' : Image} {dm : DiskManager} (h : Lives Opens (.stopped img))
      (hopen : DiskManager.open img = .ok dm)
      (hcrash : File.Crash (File.ofImage img) dm.file img') : Lives Opens (.stopped img')

/-- The journal of the image has 511 or more entries in use, and none of them is to be
replayed. -/
def Wedged (img : Image) : Prop :=
  ∃ journal, Journal.open (File.ofImage img) = .ok (journal, []) ∧ 511 ≤ journal.nextSlot

/-- Opening an image reads its journal, replays what is to be replayed, and then clears the
journal. -/
theorem DiskManager.open_inv {img : Image} {dm : DiskManager}
    (h : DiskManager.open img = .ok dm) :
  ∃ journal toReplay file, Journal.open (File.ofImage img) = .ok (journal, toReplay)
    ∧ toReplay.foldlM replayEntry (File.ofImage img) = .ok file
    ∧ (dm.journal, dm.file) = if toReplay = [] then (journal, file) else journal.clear file
  := by
  unfold DiskManager.open at h
  simp only [bind, Except.bind] at h
  split at h
  · cases h
  split at h
  · cases h
  split at h
  · cases h
  split at h
  · cases h
  rename_i opened hopened
  obtain ⟨journal, toReplay⟩ := opened
  split at h
  · cases h
  rename_i file hreplay
  refine ⟨journal, toReplay, file, hopened, hreplay, ?_⟩
  split at h
  · cases h
  obtain rfl := Except.ok.inj h
  rfl

/-- The journal that opening an image leaves: cleared after a replay, and otherwise with the
slots in use on the image. -/
theorem DiskManager.open_journal {img : Image} {dm : DiskManager}
    (h : DiskManager.open img = .ok dm) :
  ∃ journal toReplay, Journal.open (File.ofImage img) = .ok (journal, toReplay)
    ∧ if toReplay = [] then dm.journal = journal else dm.journal.nextSlot = 0
  := by
  obtain ⟨journal, toReplay, file, hopened, -, heq⟩ := open_inv h
  refine ⟨journal, toReplay, hopened, ?_⟩
  have hjournal := congrArg Prod.fst heq
  split
  · next hnil =>
    rw [if_pos hnil] at hjournal
    exact hjournal
  · next hnil =>
    rw [if_neg hnil] at hjournal
    exact congrArg Journal.nextSlot hjournal

/-- In a life in which no wedged image is opened, at most 510 slots are taken. -/
theorem Lives.nextSlot_le {system : System} (h : Lives (fun img => ¬ Wedged img) system) :
  ∀ dm, system = .running dm → dm.journal.nextSlot ≤ 510
  := by
  induction h with
  | format image sizeBytes now =>
      rintro _ ⟨⟩
      exact Nat.zero_le _
  | op op _ ih =>
      rintro _ ⟨⟩
      exact op.nextSlot_run (by decide) (Nat.le_refl _) (ih _ rfl)
  | crash => simp
  | «open» _ hopens hopen _ =>
      rintro _ ⟨⟩
      obtain ⟨journal, toReplay, hjournal, hleft⟩ := DiskManager.open_journal hopen
      split at hleft
      · rename_i hnil
        subst hnil
        rw [hleft]
        by_contra hgt
        exact hopens ⟨journal, hjournal, by omega⟩
      · omega
  | crashOpen => simp

/-- In a life in which no wedged image is opened, writing an inode to an allocated block
never fails. -/
theorem never_wedged {dm : DiskManager}
    (h : Lives (fun img => ¬ Wedged img) (.running dm)) {index : Nat}
    (hindex : dm.inodeTable.inodeOffset index ≠ none) (inode : InodeRaw) :
  (dm.writeInode index inode).1 = .ok ()
  := (DiskManager.writeInode_of_room hindex (h.nextSlot_le dm rfl)).1

omit [Crc32] in
/-- The first inode of a formatted image can be written. -/
theorem never_wedged_format :
  let _ := Crc32.ieee
  let dm := DiskManager.format Image.empty 0 0
  (dm.writeInode 0 InodeRaw.empty).1 = .ok ()
  := by
  intro _ dm
  have hindex : dm.inodeTable.inodeOffset 0 ≠ none := by
    have hfirst : dm.inodeTable.firstBlock = UInt64.ofNat inodeTableOffset :=
      (InodeTable.placed_new _).first
    rw [InodeTable.inodeOffset_zero hfirst]
    simp
  exact never_wedged (.format Image.empty 0 0) hindex InodeRaw.empty

/-- On a wedged image writing an inode fails, whichever it is. -/
theorem writeInode_of_wedged {img : Image} {dm : DiskManager} (hwedged : Wedged img)
    (hopen : DiskManager.open img = .ok dm) (index : Nat) (inode : InodeRaw) :
  (dm.writeInode index inode).1 ≠ .ok ()
  := by
  obtain ⟨journal, hjournal, hfull⟩ := hwedged
  obtain ⟨journal', toReplay, hjournal', hleft⟩ := DiskManager.open_journal hopen
  obtain ⟨rfl, rfl⟩ := Prod.mk.inj (Except.ok.inj (hjournal.symm.trans hjournal'))
  rw [if_pos rfl] at hleft
  apply DiskManager.writeInode_of_full
  rw [hleft]
  exact hfull

/-! #### An image that is wedged -/

omit [Crc32] in
/-- Writes that nothing commits are not replayed. -/
theorem Journal.toReplay_writes {tx : UInt32} {new : List JournalEntry}
    (hnew : ∀ e ∈ new, e.WriteIn tx) :
  toReplay new = []
  := by
  have hold : ∀ e ∈ ([] : List JournalEntry), e.txId ≠ tx := by simp
  have happend := toReplay_append hnew hold
  rw [List.nil_append] at happend
  exact happend

/-- A table that was opened has its first block. -/
theorem inodeOffset_recovered (img : Image) (h : JournalHeader) (es : List JournalEntry)
    (superblock : SuperblockRaw) :
  (recovered img h es superblock).inodeTable.inodeOffset 0
    = some (UInt64.ofNat inodeTableOffset)
  := InodeTable.inodeOffset_zero (InodeTable.parseDirectory_zero _ _ _)

/-- A crash in a data write. -/
theorem Lives.crash_writeFileData {Opens : Image → Prop} {dm : DiskManager} {img : Image}
    {offset : UInt64} {data : List UInt8} (h : Lives Opens (.running dm))
    (hcrash : File.Crash dm.file (dm.writeFileData offset data).2.file img) :
  Lives Opens (.stopped img)
  := .crash (.disk (.writeFileData offset data)) h hcrash

/-- A crash in a data write with an empty journal, when the entries of the data are logged
and their commit is not, leaves as many slots in use as the data has pieces, and nothing to
replay. -/
theorem crash_before_commit {dm : DiskManager} (hsteady : Steady dm [])
    (hsaved : SuperblockSaved dm dm.image) (offset : UInt64)
    {data : List UInt8} (hne : data ≠ [])
    (hroom : (chunks journalPayloadSize data).length + 1 ≤ 512) :
  ∃ img dm', File.Crash dm.file (dm.writeFileData offset data).2.file img
    ∧ DiskManager.open img = .ok dm'
    ∧ dm'.journal.nextSlot = (chunks journalPayloadSize data).length
    ∧ dm'.inodeTable.inodeOffset 0 ≠ none
  := by
  have hzero : dm.journal.nextSlot = 0 := hsteady.nextSlot_eq
  have hnext : dm.journal.begin.2.nextSlot = 0 := hzero
  have hwrites : ∀ e ∈ dm.dataEntries offset data,
      e.WriteIn dm.journal.header.nextTxId :=
    writeIn_pieceEntries fun c hc => length_le_of_mem_chunks hc
  have hlen : (dm.dataEntries offset data).length
      = (chunks journalPayloadSize data).length := length_pieceEntries _ _ _
  have hout : ∀ w ∈ dm.journal.begin.2.appendWrites
      (dm.dataEntries offset data), 64 ≤ w.offset := by
    intro w hw
    have hwithin := Journal.withinJournal_appendWrites (by rw [hnext, hlen]; omega) w hw
    exact Nat.le_trans (by decide) hwithin.1
  -- the file when every entry of the data is logged, and the commit is not
  have hextends : File.Extends (dm.file.append (dm.journal.begin.2.appendWrites
      (dm.dataEntries offset data)))
      (dm.writeFileData offset data).2.file := by
    rw [dm.writeFileData_ok _ hne (by omega)]
    apply File.Extends.trans _ (DiskManager.extends_checkpoint _)
    apply File.Extends.trans _ (File.Extends.write _ _ _)
    rw [DiskManager.logFile, DiskManager.entriesOf, Journal.appendWrites_append,
      ← File.append_append]
    apply File.Extends.append
  have hcrash := File.Crash.between (File.Extends.append dm.file _) hextends
  rw [File.image_append] at hcrash
  obtain ⟨e, new, hnew⟩ : ∃ e new, dm.dataEntries offset data = e :: new := by
    apply List.exists_cons_of_length_pos
    have hpos := List.length_pos_of_ne_nil hne
    rw [hlen, length_chunks (by decide), journalPayloadSize]
    omega
  have htidy : Tidy (dm.file.image.writeAll (dm.journal.begin.2.appendWrites (e :: new)))
      (dm.journal.begin.2.advance (e :: new).length).header ([] ++ e :: new) := by
    rw [hnew] at hwrites hlen
    have hslot : dm.journal.begin.2.nextSlot = ([] : List JournalEntry).length := hnext
    have hused : ∀ x ∈ e :: new, x.isFree = false := fun x hx => (hwrites x hx).isFree_eq
    have hfits : ([] : List JournalEntry).length + (e :: new).length ≤ 512 := by
      rw [hlen, List.length_nil]
      omega
    exact Journal.tidy_appendWrites hslot hsteady.tidy.valid hused hfits hsteady.tidy
  rw [List.nil_append, ← hnew] at htidy
  have hreplay := Journal.toReplay_writes hwrites
  refine ⟨_, _, hcrash, open_of_readable htidy.toReadable (fun x hx => (hwrites x hx).fits)
    ?_ hsaved.magic_eq, ?_, ?_⟩
  · rw [DiskManager.slice_superblock_writeAll hout]
    exact hsaved.slice_eq
  · rw [recovered, recoveredJournal, if_pos hreplay]
    exact hlen
  · rw [inodeOffset_recovered]
    simp

omit [Crc32] in
/-- Format an image, write 511 full pieces of data, crash when all of their entries are
logged and their commit is not, and open the image again: the first inode cannot be
written. -/
theorem not_never_wedged :
  let _ := Crc32.ieee
  ¬ ∀ dm, Lives (fun _ => True) (.running dm) →
      ∀ index, dm.inodeTable.inodeOffset index ≠ none →
        ∀ inode, (dm.writeInode index inode).1 = .ok ()
  := by
  intro _ hall
  have hlen : (chunks journalPayloadSize
      (List.replicate (511 * journalPayloadSize) (0 : UInt8))).length = 511 := by
    rw [length_chunks (by decide), List.length_replicate]
    decide
  have hne : List.replicate (511 * journalPayloadSize) (0 : UInt8) ≠ [] := by
    intro hnil
    rw [hnil, chunks_nil] at hlen
    cases hlen
  obtain ⟨img, dm, hcrash, hopen, hnext, hindex⟩ :=
    crash_before_commit (DiskManager.steady_format Image.empty 0 0)
      (intact_format Image.empty 0 0).superblock (UInt64.ofNat dataOffset) hne (by rw [hlen])
  have hlife : Lives (fun _ => True) (.running dm) :=
    .open (Lives.crash_writeFileData (.format Image.empty 0 0) hcrash) trivial hopen
  apply DiskManager.writeInode_of_full _ (hall dm hlife 0 hindex InodeRaw.empty)
  rw [hnext, hlen]

end Vexfs
