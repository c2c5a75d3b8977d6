import Vexfs.Fs.DiskManager

/-!
# Reading the journal back

`Readable img h es` says that the journal of an image holds the header `h` and the entries
`es` in its first slots, and that reading stops after them.  The journal of such an image
opens with these entries, whatever the slots beyond hold, and the image itself opens when
its superblock is intact.  `recovered` is the image that opening leaves.  Appending an entry
and zeroing the slots one by one keep the journal readable after each of their writes.
-/

namespace Vexfs

open Bytes Storage

/-! ### Positions -/

/-- The positions outside the journal. -/
def outsideJournal : Set Nat := {i | i < journalOffset ∨ dataOffset ≤ i}

theorem slotOffset_eq (i : Nat) :
  slotOffset i = journalOffset + 64 + i * 512
  := rfl

theorem dataOffset_eq :
  dataOffset = journalOffset + 64 + 512 * 512
  := rfl

/-- A write within the journal. -/
def WithinJournal (w : FileWrite) : Prop := journalOffset ≤ w.offset ∧ w.stop ≤ dataOffset

theorem WithinJournal.eqOn {w : FileWrite} (h : WithinJournal w) (img : Image) :
  Set.EqOn (img.write w).byte img.byte outsideJournal
  := by
  intro i hi
  obtain hi | hi := hi
  · apply Image.byte_write_of_lt (Nat.lt_of_lt_of_le hi h.1)
  · apply Image.byte_write_of_stop_le (Nat.le_trans h.2 hi)

theorem WithinJournal.eqOn_writeAll {ws : List FileWrite} (h : ∀ w ∈ ws, WithinJournal w)
    (img : Image) :
  Set.EqOn (img.writeAll ws).byte img.byte outsideJournal
  := by
  induction ws generalizing img with
  | nil => apply Set.eqOn_refl
  | cons w ws ih =>
      apply Set.EqOn.trans (ih (fun v hv => h v (List.mem_cons_of_mem w hv)) (img.write w))
      apply (h w List.mem_cons_self).eqOn

/-- Writes within the journal do not change the size of an image that holds it. -/
theorem WithinJournal.size_writeAll {ws : List FileWrite} (h : ∀ w ∈ ws, WithinJournal w)
    {img : Image} (hsize : dataOffset ≤ img.size) :
  (img.writeAll ws).size = img.size
  := Image.size_writeAll_of_stop_le fun w hw => Nat.le_trans (h w hw).2 hsize

/-- The write of a slot. -/
def slotWrite (i : Nat) (b : List UInt8) : FileWrite := ⟨slotOffset i, b⟩

/-- The write of the header. -/
def headerWrite [Crc32] (h : JournalHeader) : FileWrite := ⟨journalOffset, h.toBytes⟩

theorem withinJournal_slotWrite {i : Nat} {b : List UInt8} (hi : i < 512)
    (hb : b.length = 512) :
  WithinJournal (slotWrite i b)
  := by
  simp only [WithinJournal, slotWrite, FileWrite.stop, slotOffset_eq, dataOffset_eq, hb]
  omega

theorem withinJournal_headerWrite [Crc32] (h : JournalHeader) :
  WithinJournal (headerWrite h)
  := by
  simp only [WithinJournal, headerWrite, FileWrite.stop, JournalHeader.length_toBytes,
    dataOffset_eq, journalHeaderSize]
  omega

theorem mem_zeroSlots {n : Nat} {w : FileWrite} :
  w ∈ zeroSlots n ↔ ∃ i < n, slotWrite i (zeros 512) = w
  := by
  simp [zeroSlots, slotWrite, journalEntrySize]

theorem zeroSlots_succ (n : Nat) :
  zeroSlots (n + 1) = zeroSlots n ++ [slotWrite n (zeros 512)]
  := by
  simp [zeroSlots, List.range_succ, slotWrite, journalEntrySize]

/-! ### Slots after writes -/

section Slots

variable {img : Image} {i j : Nat} {b : List UInt8}

theorem slice_slotWrite_self (hb : b.length = 512) :
  (img.write (slotWrite i b)).slice (slotOffset i) 512 = b
  := by
  have h := Image.slice_write_self img (slotWrite i b)
  rw [← hb]
  exact h

/-- Writing a slot leaves the other slots. -/
theorem slice_slotWrite_ne (hb : b.length = 512) (hij : i ≠ j) :
  (img.write (slotWrite j b)).slice (slotOffset i) 512 = img.slice (slotOffset i) 512
  := by
  apply Image.slice_write_disjoint
  simp only [slotWrite, FileWrite.stop, slotOffset_eq, hb]
  omega

/-- Writing a slot leaves the header. -/
theorem slice_header_slotWrite :
  (img.write (slotWrite j b)).slice journalOffset 64 = img.slice journalOffset 64
  := by
  apply Image.slice_write_disjoint
  right
  simp only [slotWrite, slotOffset_eq]
  omega

/-- Writing the header leaves the slots. -/
theorem slice_headerWrite [Crc32] (h : JournalHeader) :
  (img.write (headerWrite h)).slice (slotOffset i) 512 = img.slice (slotOffset i) 512
  := by
  apply Image.slice_write_disjoint
  left
  simp only [headerWrite, FileWrite.stop, JournalHeader.length_toBytes, slotOffset_eq,
    journalHeaderSize]
  omega

theorem slice_header_headerWrite [Crc32] (h : JournalHeader) :
  (img.write (headerWrite h)).slice journalOffset 64 = h.toBytes
  := by
  have hw := Image.slice_write_self img (headerWrite h)
  simp only [headerWrite, JournalHeader.length_toBytes, journalHeaderSize] at hw
  exact hw

end Slots

/-! ### Readable journals -/

/-- Whether the first byte of slot `i` marks it as free. -/
def SlotFree (img : Image) (i : Nat) : Prop := img.byte (slotOffset i) = 0

/-- The first byte of a slice, as decoding reads it. -/
theorem headD_field_slice {img : Image} {o n : Nat} (hn : 0 < n) :
  (field (img.slice o n) 0 1).headD 0 = img.byte o
  := by
  obtain ⟨m, rfl⟩ := Nat.exists_eq_succ_of_ne_zero (Nat.ne_of_gt hn)
  rw [field_zero, Image.slice, List.ofFn_succ]
  rfl

/-- A slot with the same bytes is as free. -/
theorem SlotFree.congr {img img' : Image} {i : Nat}
    (h : img'.slice (slotOffset i) 512 = img.slice (slotOffset i) 512) :
  SlotFree img' i ↔ SlotFree img i
  := by
  rw [SlotFree, SlotFree, ← headD_field_slice (n := 512) (by decide), h,
    headD_field_slice (by decide)]

theorem slotFree_of_zeros {img : Image} {i : Nat}
    (h : img.slice (slotOffset i) 512 = zeros 512) :
  SlotFree img i
  := by
  have hbyte := (Image.slice_eq_iff (length_zeros 512)).mp h 0 (by simp)
  simpa [SlotFree, zeros] using hbyte

/-- The journal holds the header `h` and, in its first slots, the entries `es`; reading the
slots stops after them. -/
structure Readable [Crc32] (img : Image) (h : JournalHeader) (es : List JournalEntry) :
    Prop where
  size_le : dataOffset ≤ img.size
  valid : h.isValid = true
  header : img.slice journalOffset 64 = h.toBytes
  slots : ∀ i (hi : i < es.length), img.slice (slotOffset i) 512 = es[i].toBytes
  used : ∀ e ∈ es, e.isFree = false
  length_le : es.length ≤ 512
  stop : es.length < 512 → SlotFree img es.length

namespace Readable

variable [Crc32] {img : Image} {h : JournalHeader} {es : List JournalEntry} {file : File}

/-- Reading the slots from slot `i` on gives the entries from there on. -/
theorem readEntries (hr : Readable file.image h es) (n i : Nat) (hi : i ≤ es.length)
    (hn : i + n = 512) :
  Journal.readEntries file n i = .ok (es.drop i)
  := by
  induction n generalizing i with
  | zero =>
      have hle := hr.length_le
      rw [Journal.readEntries, List.drop_eq_nil_of_le (by omega)]
  | succ n ih =>
      have hsize : slotOffset i + journalEntrySize ≤ file.image.size := by
        apply Nat.le_trans _ hr.size_le
        simp only [slotOffset_eq, dataOffset_eq, journalEntrySize]
        omega
      rw [Journal.readEntries, readBytes_of_le hsize]
      obtain hlt | rfl := Nat.lt_or_eq_of_le hi
      · have hslot := hr.slots i hlt
        have hused := hr.used es[i] (List.getElem_mem hlt)
        have hdrop : es.drop i = es[i] :: es.drop (i + 1) := by
          rw [List.getElem_cons_drop]
        simp only [journalEntrySize, hslot, JournalEntry.fromBytes_toBytes, hused,
          ih (i + 1) hlt (by omega), hdrop]
        rfl
      · have hfree := hr.stop (by omega)
        have hhead : (field (file.image.slice (slotOffset es.length) journalEntrySize) 0 1).headD 0
            = entryFree := by
          rw [headD_field_slice (by decide)]
          exact hfree
        obtain ⟨e, he, hef⟩ := JournalEntry.exists_free_of_headD hhead
        simp only [he, hef, List.drop_length]
        rfl

/-- Opening a readable journal gives its header and the writes to replay. -/
theorem «open» (hr : Readable file.image h es) :
  Journal.open file = .ok (⟨h, es.length⟩, Journal.toReplay es)
  := by
  have hsize : journalOffset + journalHeaderSize ≤ file.image.size := by
    apply Nat.le_trans _ hr.size_le
    simp only [dataOffset_eq, journalHeaderSize]
    omega
  have hread := hr.readEntries 512 0 (Nat.zero_le _) rfl
  have hheader := hr.header
  unfold Journal.open
  rw [readBytes_of_le hsize]
  simp only [journalHeaderSize, hheader, JournalHeader.fromBytes_toBytes, hr.valid,
    maxJournalEntries, hread, bind, Except.bind]
  rfl

/-- Readability depends on the bytes of the journal and the size alone. -/
theorem congr {img' : Image} (hsize : img.size ≤ img'.size)
    (heq : ∀ i, journalOffset ≤ i → i < dataOffset → img'.byte i = img.byte i)
    (hr : Readable img h es) :
  Readable img' h es
  := by
  have hslot : ∀ i < 512,
      img'.slice (slotOffset i) 512 = img.slice (slotOffset i) 512 := by
    intro i hi
    apply Image.slice_congr
    intro k hlo hhi
    simp only [slotOffset_eq] at hlo hhi
    apply heq
    · omega
    · have hdata := dataOffset_eq
      omega
  constructor
  · apply Nat.le_trans hr.size_le hsize
  · apply hr.valid
  · rw [← hr.header]
    apply Image.slice_congr
    intro k hlo hhi
    have hdata := dataOffset_eq
    apply heq k hlo
    omega
  · intro i hi
    rw [hslot i (Nat.lt_of_lt_of_le hi hr.length_le), hr.slots i hi]
  · apply hr.used
  · apply hr.length_le
  · intro hlt
    apply (SlotFree.congr (hslot _ hlt)).mpr (hr.stop hlt)

end Readable

/-! ### Replay -/

namespace JournalEntry

/-- The write an entry records. -/
def write (e : JournalEntry) : FileWrite :=
  ⟨e.diskOffset.toNat, e.payload.1.take e.payloadLen.toNat⟩

/-- Whether the payload length of an entry is one a payload can have. -/
def Fits (e : JournalEntry) : Prop := e.payloadLen.toNat ≤ journalPayloadSize

end JournalEntry

/-- The writes that replaying the entries of a journal makes. -/
def replayed (es : List JournalEntry) : List FileWrite :=
  (Journal.toReplay es).map JournalEntry.write

/-- An entry to replay is a write. -/
theorem Journal.isWrite_of_mem_toReplay {es : List JournalEntry} {e : JournalEntry}
    (he : e ∈ Journal.toReplay es) :
  e ∈ es ∧ (e.entryType = entryWriteInode ∨ e.entryType = entryWriteData)
  := by
  obtain ⟨hmem, hcond⟩ := List.mem_filter.mp he
  use hmem
  simp only [Bool.and_eq_true, Bool.or_eq_true, beq_iff_eq] at hcond
  exact hcond.2

/-- Replaying entries makes the writes they record. -/
theorem foldlM_replayEntry {es : List JournalEntry} (file : File)
    (h : ∀ e ∈ es, e.Fits ∧ (e.entryType = entryWriteInode ∨ e.entryType = entryWriteData)) :
  es.foldlM DiskManager.replayEntry file = .ok (file.append (es.map JournalEntry.write))
  := by
  induction es generalizing file with
  | nil =>
      rw [List.map_nil, File.append_nil]
      rfl
  | cons e es ih =>
      obtain ⟨hfits, htype⟩ := h e List.mem_cons_self
      have he : DiskManager.replayEntry file e
          = .ok (file.write e.write.offset e.write.data) := by
        unfold DiskManager.replayEntry
        rw [if_pos htype]
        dsimp only
        rw [if_neg (Nat.not_lt.mpr hfits)]
        rfl
      rw [List.foldlM_cons, he]
      apply Eq.trans (ih _ fun x hx => h x (List.mem_cons_of_mem e hx))
      rw [List.map_cons, File.append_cons]

/-! ### Opening an image -/

section Opening

variable [Crc32]

/-- The writes of `Journal.clear`. -/
def clearWrites (h : JournalHeader) : List FileWrite :=
  headerWrite { h with entryCount := 0 } :: zeroSlots 512

theorem Journal.clear_eq (journal : Journal) (file : File) :
  journal.clear file
    = (⟨{ journal.header with entryCount := 0 }, 0⟩, file.append (clearWrites journal.header))
  := by
  unfold Journal.clear clearWrites
  rw [File.append_cons]
  rfl

/-- The file that opening an image with the entries `es` in its journal leaves. -/
def recoveredFile (img : Image) (h : JournalHeader) (es : List JournalEntry) : File :=
  if Journal.toReplay es = [] then File.ofImage img
  else ((File.ofImage img).append (replayed es)).append (clearWrites h)

/-- The journal that opening leaves. -/
def recoveredJournal (h : JournalHeader) (es : List JournalEntry) : Journal :=
  if Journal.toReplay es = [] then ⟨h, es.length⟩ else ⟨{ h with entryCount := 0 }, 0⟩

/-- The table that the directory of an image describes. -/
def InodeTable.ofImage (img : Image) (originalOffset nextDiskEnd : UInt64) : InodeTable where
  blockOffsets := parseDirectory (img.slice inodeBlockDirOffset blockDirBytes) originalOffset
  nextDiskEnd := nextDiskEnd

/-- The free list an image holds. -/
def FreeList.ofFile (file : File) : FreeList :=
  match FreeList.load file with
  | .ok fl => fl
  | .error _ => FreeList.new

/-- The manager that opening leaves. -/
def recovered (img : Image) (h : JournalHeader) (es : List JournalEntry)
    (superblock : SuperblockRaw) : DiskManager where
  file := recoveredFile img h es
  superblock := { superblock with crc32 := crc32 superblock.body }
  journal := recoveredJournal h es
  freeList := FreeList.ofFile (recoveredFile img h es)
  inodeTable := InodeTable.ofImage (recoveredFile img h es).image
    (UInt64.ofNat inodeTableOffset) superblock.nextDataOffset

theorem size_le_recoveredFile (img : Image) (h : JournalHeader) (es : List JournalEntry) :
  img.size ≤ (recoveredFile img h es).image.size
  := by
  unfold recoveredFile
  split
  · exact Nat.le_refl _
  · rw [File.image_append, File.image_append, File.image_ofImage]
    apply Nat.le_trans (Image.size_le_size_writeAll _ _) (Image.size_le_size_writeAll _ _)

theorem withinJournal_clearWrites (h : JournalHeader) :
  ∀ w ∈ clearWrites h, WithinJournal w
  := by
  intro w hw
  obtain rfl | hw := List.mem_cons.mp hw
  · apply withinJournal_headerWrite
  · obtain ⟨i, hi, rfl⟩ := mem_zeroSlots.mp hw
    apply withinJournal_slotWrite hi (length_zeros 512)

/-- Outside the journal, opening makes the writes to replay. -/
theorem byte_recoveredFile (img : Image) (h : JournalHeader) (es : List JournalEntry) :
  Set.EqOn (recoveredFile img h es).image.byte (img.writeAll (replayed es)).byte outsideJournal
  := by
  unfold recoveredFile replayed
  split
  · rename_i hnil
    rw [hnil]
    apply Set.eqOn_refl
  · rw [File.image_append, File.image_append, File.image_ofImage]
    apply WithinJournal.eqOn_writeAll (withinJournal_clearWrites h)

/-- An image with a readable journal and an intact superblock opens. -/
theorem open_of_readable {img : Image} {h : JournalHeader} {es : List JournalEntry}
    {superblock : SuperblockRaw} (hr : Readable img h es) (hfits : ∀ e ∈ es, e.Fits)
    (hsb : img.slice superblockOffset superblockBytes = superblock.toBytes)
    (hmagic : superblock.magic = magic) :
  DiskManager.open img = .ok (recovered img h es superblock)
  := by
  have hdata := dataOffset_eq
  have hjournal : journalOffset = 397312 := rfl
  have hsize := hr.size_le
  have hsbsize : superblockOffset + superblockBytes ≤ (File.ofImage img).image.size := by
    rw [File.image_ofImage]
    simp only [superblockOffset, superblockBytes]
    omega
  have hdirsize : inodeBlockDirOffset + blockDirBytes
      ≤ (recoveredFile img h es).image.size := by
    apply Nat.le_trans _ (size_le_recoveredFile img h es)
    simp only [inodeBlockDirOffset, blockDirBytes, maxInodeBlocks]
    omega
  have hopen : Journal.open (File.ofImage img) = .ok (⟨h, es.length⟩, Journal.toReplay es) :=
    Readable.open hr
  have hreplay := foldlM_replayEntry (File.ofImage img) fun e (he : e ∈ Journal.toReplay es) =>
    ⟨hfits e (Journal.isWrite_of_mem_toReplay he).1, (Journal.isWrite_of_mem_toReplay he).2⟩
  have hclear : (if Journal.toReplay es = [] then ((⟨h, es.length⟩ : Journal),
        (File.ofImage img).append ((Journal.toReplay es).map JournalEntry.write))
      else Journal.clear ⟨h, es.length⟩
        ((File.ofImage img).append ((Journal.toReplay es).map JournalEntry.write)))
      = (recoveredJournal h es, recoveredFile img h es) := by
    unfold recoveredJournal recoveredFile replayed
    split
    · rename_i hnil
      rw [hnil, List.map_nil, File.append_nil]
    · rw [Journal.clear_eq]
  have htable : InodeTable.open (recoveredFile img h es) (UInt64.ofNat inodeTableOffset)
      superblock.nextDataOffset = .ok (InodeTable.ofImage (recoveredFile img h es).image
        (UInt64.ofNat inodeTableOffset) superblock.nextDataOffset) := by
    unfold InodeTable.open
    rw [readBytes_of_le hdirsize]
    rfl
  unfold DiskManager.open
  simp only [bind, Except.bind, readBytes_of_le hsbsize, File.image_ofImage, hsb,
    SuperblockRaw.fromBytes_toBytes, hmagic, ne_eq, not_true_eq_false, if_false, hopen, hreplay,
    hclear, htable, pure, Except.pure]
  rw [← hmagic]
  rfl

end Opening

end Vexfs
