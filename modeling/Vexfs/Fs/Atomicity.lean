import Vexfs.Fs.Transaction

/-!
# Atomicity of journaled writes

`Recovers img target` says that opening `img` gives the bytes of `target` outside the
journal.  A transaction of a steady manager keeps it steady, and at each of its file writes
the image recovers to the bytes from before or to those from after the write.  The two
journaled operations, `write_inode` and `write_file_data`, are such transactions.
-/

namespace Vexfs

open Bytes Storage

variable [Crc32]

/-! ### Recovery -/

/-- The journal of `img` is readable, and its replay gives the bytes of `target` outside
the journal. -/
def Recovers (img target : Image) : Prop :=
  ∃ h es, Readable img h es ∧ (∀ e ∈ es, e.Fits)
    ∧ Set.EqOn (img.writeAll (replayed es)).byte target.byte outsideJournal

theorem Recovers.congr {img target target' : Image}
    (heq : Set.EqOn target.byte target'.byte outsideJournal) (h : Recovers img target) :
  Recovers img target'
  := by
  obtain ⟨hd, es, hr, hfits, hbytes⟩ := h
  exact ⟨hd, es, hr, hfits, hbytes.trans heq⟩

/-- An image that recovers to `target` opens to a manager whose image has the bytes of
`target` outside the journal. -/
theorem Recovers.open {img target : Image} {superblock : SuperblockRaw}
    (hsb : img.slice superblockOffset superblockBytes = superblock.toBytes)
    (hmagic : superblock.magic = magic) (h : Recovers img target) :
  ∃ dm, DiskManager.open img = .ok dm
    ∧ Set.EqOn dm.image.byte target.byte outsideJournal ∧ img.size ≤ dm.image.size
  := by
  obtain ⟨hd, es, hr, hfits, hbytes⟩ := h
  use recovered img hd es superblock, open_of_readable hr hfits hsb hmagic
  use (byte_recoveredFile img hd es).trans hbytes
  apply size_le_recoveredFile

/-- A journal whose replay changes nothing recovers to the image itself. -/
theorem recovers_of_settled {img target : Image} {h : JournalHeader} {es : List JournalEntry}
    (hr : Readable img h es) (hfits : ∀ e ∈ es, e.Fits)
    (heq : Set.EqOn img.byte target.byte outsideJournal)
    (hsettled : Settled outsideJournal (replayed es) target) :
  Recovers img target
  := by
  use h, es, hr, hfits
  apply (Image.eqOn_writeAll (replayed es) heq).trans hsettled.eqOn

/-- An image whose journal reads as empty recovers to itself. -/
theorem recovers_of_nil {img target : Image} {h : JournalHeader} (hr : Readable img h [])
    (heq : Set.EqOn img.byte target.byte outsideJournal) :
  Recovers img target
  := by
  apply recovers_of_settled hr _ heq
  · apply Settled.nil
  · simp

/-! ### Steady managers -/

/-- The journal of a manager holds the entries `es`, with free slots beyond, and their
replay changes nothing. -/
structure Logged (dm : DiskManager) (es : List JournalEntry) : Prop where
  tidy : Tidy dm.image dm.journal.header es
  nextSlot_eq : dm.journal.nextSlot = es.length
  fits : ∀ e ∈ es, e.Fits
  /-- The entries carry the last transaction numbers given out. -/
  recent : ∀ e ∈ es, 0 < (dm.journal.header.nextTxId - e.txId).toNat
    ∧ (dm.journal.header.nextTxId - e.txId).toNat ≤ es.length
  settled : Settled outsideJournal (replayed es) dm.image
  stop_le : ∀ w ∈ replayed es, w.stop ≤ dm.image.size
  /-- The block of the superblock is not logged. -/
  offset_ge : ∀ w ∈ replayed es, inodeTableOffset ≤ w.offset

/-- The invariant of a manager between transactions, when the journal is not nearly full. -/
structure Steady (dm : DiskManager) (es : List JournalEntry) : Prop extends Logged dm es where
  room : es.length < 496

/-- The next transaction number is not one of those in the journal. -/
theorem Logged.fresh {dm : DiskManager} {es : List JournalEntry} (hs : Logged dm es) :
  ∀ e ∈ es, e.txId ≠ dm.journal.header.nextTxId
  := by
  intro e he heq
  have hpos := (hs.recent e he).1
  rw [heq, UInt32.sub_self] at hpos
  cases hpos

/-- A write that does not reach into the journal. -/
def AvoidsJournal (w : FileWrite) : Prop := w.stop ≤ journalOffset ∨ dataOffset ≤ w.offset

omit [Crc32] in
theorem AvoidsJournal.byte_eq {w : FileWrite} (h : AvoidsJournal w) (img : Image) {i : Nat}
    (hlo : journalOffset ≤ i) (hhi : i < dataOffset) :
  (img.write w).byte i = img.byte i
  := by
  obtain h | h := h
  · apply Image.byte_write_of_stop_le (Nat.le_trans h hlo)
  · apply Image.byte_write_of_lt (Nat.lt_of_lt_of_le hhi h)

/-- The entries of the next transaction of a manager. -/
def DiskManager.entriesOf (dm : DiskManager) (new : List JournalEntry) : List JournalEntry :=
  new ++ [Journal.commitOf dm.journal.begin.1]

/-- The file once a transaction that logs the entries `new` is committed. -/
def DiskManager.logFile (dm : DiskManager) (new : List JournalEntry) : File :=
  dm.file.append (dm.journal.begin.2.appendWrites (dm.entriesOf new))

/-- The manager after a transaction that logs the entries `new` and makes the write `w`,
before the journal is cleared. -/
def DiskManager.transact (dm : DiskManager) (new : List JournalEntry) (w : FileWrite) :
    DiskManager :=
  { dm with
    journal := dm.journal.begin.2.advance (dm.entriesOf new).length
    file := (dm.logFile new).write w.offset w.data }

omit [Crc32] in
theorem DiskManager.length_entriesOf (dm : DiskManager) (new : List JournalEntry) :
  (dm.entriesOf new).length = new.length + 1
  := by
  simp [entriesOf]

theorem DiskManager.image_transact (dm : DiskManager) (new : List JournalEntry)
    (w : FileWrite) :
  (dm.transact new w).image = (dm.logFile new).image.write w
  := File.image_write _ _ _

/-- What `new` has to be for the transaction that makes the write `w` of a manager with the
entries `es` in its journal. -/
structure Loggable (dm : DiskManager) (es new : List JournalEntry) (w : FileWrite) : Prop where
  writeIn : ∀ e ∈ new, e.WriteIn dm.journal.header.nextTxId
  written_eq : ∀ i, written (new.map JournalEntry.write) i = w.byteAt i
  stop_le : ∀ e ∈ new, e.write.stop ≤ w.stop
  offset_ge : ∀ e ∈ new, inodeTableOffset ≤ e.write.offset
  room : es.length + new.length + 1 ≤ 512
  nonempty : w.data ≠ []
  avoids : AvoidsJournal w

/-- What a crash in a transaction may leave: an image that recovers to the bytes from before
or to those from after the write, and differs from the image before in the journal and in
the range of the write alone. -/
def Atomic (before : Image) (w : FileWrite) (img : Image) : Prop :=
  (Recovers img before ∨ Recovers img (before.write w))
    ∧ ∀ i ∈ outsideJournal, w.byteAt i = none → img.byte i = before.byte i

omit [Crc32] in
theorem isFree_of_mem_entries {dm : DiskManager} {new : List JournalEntry}
    (hnew : ∀ e ∈ new, e.WriteIn dm.journal.header.nextTxId) :
  ∀ e ∈ dm.entriesOf new, e.isFree = false
  := by
  intro e he
  obtain he | he := List.mem_append.mp he
  · apply (hnew e he).isFree_eq
  · rw [List.mem_singleton.mp he]
    rfl

omit [Crc32] in
theorem fits_of_mem_entries {dm : DiskManager} {es new : List JournalEntry}
    (hes : ∀ e ∈ es, e.Fits) (hnew : ∀ e ∈ new, e.WriteIn dm.journal.header.nextTxId) :
  ∀ e ∈ es ++ dm.entriesOf new, e.Fits
  := by
  intro e he
  rw [DiskManager.entriesOf, List.mem_append, List.mem_append] at he
  obtain he | he | he := he
  · apply hes e he
  · apply (hnew e he).fits
  · rw [List.mem_singleton.mp he]
    exact Nat.zero_le _

namespace Logged

variable {dm : DiskManager} {es new : List JournalEntry} {w : FileWrite}

omit [Crc32] in
/-- There is a slot for every entry of a transaction. -/
theorem room_entriesOf [Crc32] (hl : Loggable dm es new w) (hs : Logged dm es) :
  dm.journal.begin.2.nextSlot + (dm.entriesOf new).length ≤ 512
  := by
  have hroom := hl.room
  have hnext : dm.journal.begin.2.nextSlot = es.length := hs.nextSlot_eq
  rw [hnext, dm.length_entriesOf]
  omega

/-- Logging a transaction changes the journal alone. -/
theorem eqOn_logFile (hl : Loggable dm es new w) (hs : Logged dm es) :
  Set.EqOn (dm.logFile new).image.byte dm.image.byte outsideJournal
  := by
  rw [DiskManager.logFile, File.image_append]
  apply WithinJournal.eqOn_writeAll (Journal.withinJournal_appendWrites (hs.room_entriesOf hl))

/-- What the journal replays once the transaction is committed. -/
theorem replayed_entriesOf (hl : Loggable dm es new w) (hs : Logged dm es) :
  replayed (es ++ dm.entriesOf new) = replayed es ++ new.map JournalEntry.write
  := by
  rw [replayed, DiskManager.entriesOf, Journal.begin,
    Journal.toReplay_commit hl.writeIn hs.fresh, List.map_append, replayed]

/-- While a transaction is logged, the image recovers to what it was, or, once the commit
entry is written, to what the transaction makes of it. -/
theorem through_logFile (hl : Loggable dm es new w) (hs : Logged dm es) :
  File.Through (Atomic dm.image w) dm.file (dm.logFile new)
  := by
  have hnext : dm.journal.begin.2.nextSlot = es.length := hs.nextSlot_eq
  have hthrough := Journal.through_appendWrites hnext hs.tidy.valid
    (isFree_of_mem_entries hl.writeIn) (by rw [← hnext]; exact hs.room_entriesOf hl) hs.tidy
  apply hthrough.mono
  rintro img ⟨k, hk, h', htidy, hout⟩
  have hfits := fits_of_mem_entries hs.fits hl.writeIn
  refine ⟨?_, fun i hi _ => hout hi⟩
  obtain hle | hgt := Nat.lt_or_ge new.length k |>.symm
  · left
    rw [DiskManager.entriesOf, List.take_append_of_le_length hle] at htidy
    have hrep : replayed (es ++ new.take k) = replayed es := by
      rw [replayed, Journal.toReplay_append _ hs.fresh, replayed]
      intro e he
      apply hl.writeIn e (List.mem_of_mem_take he)
    apply recovers_of_settled htidy.toReadable _ hout
    · rw [hrep]
      apply hs.settled
    · intro e he
      obtain he | he := List.mem_append.mp he
      · apply hs.fits e he
      · apply (hl.writeIn e (List.mem_of_mem_take he)).fits
  · right
    rw [List.take_of_length_le (by rw [dm.length_entriesOf]; exact hgt)] at htidy
    refine ⟨h', _, htidy.toReadable, hfits, ?_⟩
    rw [hs.replayed_entriesOf hl]
    apply (Image.eqOn_writeAll _ hout).trans
    apply hs.settled.eqOn_redo fun i _ => hl.written_eq i

/-- The journal once a transaction is logged. -/
theorem tidy_logFile (hl : Loggable dm es new w) (hs : Logged dm es) :
  Tidy (dm.logFile new).image (dm.transact new w).journal.header (es ++ dm.entriesOf new)
  := by
  have hroom := hs.room_entriesOf hl
  have hused := isFree_of_mem_entries hl.writeIn
  have hcons : ∃ x rest, dm.entriesOf new = x :: rest := by
    unfold DiskManager.entriesOf
    cases new <;> simp
  have hnext : dm.journal.begin.2.nextSlot = es.length := hs.nextSlot_eq
  rw [hnext] at hroom
  obtain ⟨x, rest, hx⟩ := hcons
  rw [DiskManager.logFile, File.image_append, DiskManager.transact, hx]
  rw [hx] at hused hroom
  apply Journal.tidy_appendWrites hnext hs.tidy.valid hused hroom hs.tidy

/-- After a transaction its number, and those before it, are recent. -/
theorem recent_transact (hl : Loggable dm es new w) (hs : Logged dm es) :
  ∀ e ∈ es ++ dm.entriesOf new,
    0 < ((dm.transact new w).journal.header.nextTxId - e.txId).toNat
      ∧ ((dm.transact new w).journal.header.nextTxId - e.txId).toNat
        ≤ (es ++ dm.entriesOf new).length
  := by
  have hroom := hl.room
  have hone : (1 : UInt32).toNat = 1 := rfl
  have hnext : (dm.transact new w).journal.header.nextTxId
      = dm.journal.header.nextTxId + 1 := by
    simp [DiskManager.transact, Journal.begin]
  have hnew : ∀ e ∈ dm.entriesOf new, e.txId = dm.journal.header.nextTxId := by
    intro e he
    obtain he | he := List.mem_append.mp he
    · apply (hl.writeIn e he).txId_eq
    · rw [List.mem_singleton.mp he]
      rfl
  intro e he
  rw [hnext, List.length_append, dm.length_entriesOf]
  obtain he | he := List.mem_append.mp he
  · obtain ⟨hpos, hle⟩ := hs.recent e he
    have hadd : dm.journal.header.nextTxId + 1 - e.txId
        = (dm.journal.header.nextTxId - e.txId) + 1 := by
      grind
    rw [hadd, UInt32.toNat_add, Nat.mod_eq_of_lt (by omega)]
    omega
  · have hadd : dm.journal.header.nextTxId + 1 - e.txId = 1 := by
      rw [hnew e he]
      grind
    rw [hadd, hone]
    omega

/-- A transaction leaves a journal whose replay changes nothing. -/
theorem transact (hl : Loggable dm es new w) (hs : Logged dm es) :
  Logged (dm.transact new w) (es ++ dm.entriesOf new)
  := by
  have hsize := Image.size_le_size_write (dm.logFile new).image w
  constructor
  · rw [dm.image_transact]
    apply (hs.tidy_logFile hl).congr hsize
    intro i hlo hhi
    apply hl.avoids.byte_eq _ hlo hhi
  · simp [DiskManager.transact, Journal.begin, hs.nextSlot_eq]
  · apply fits_of_mem_entries hs.fits hl.writeIn
  · apply hs.recent_transact hl
  · rw [dm.image_transact, hs.replayed_entriesOf hl]
    apply (hs.settled.congr (hs.eqOn_logFile hl)).redo fun i _ => hl.written_eq i
  · rw [dm.image_transact, hs.replayed_entriesOf hl]
    intro v hv
    obtain hv | hv := List.mem_append.mp hv
    · apply Nat.le_trans (hs.stop_le v hv)
      apply Nat.le_trans _ hsize
      rw [DiskManager.logFile, File.image_append]
      apply Image.size_le_size_writeAll
    · obtain ⟨e, he, rfl⟩ := List.mem_map.mp hv
      apply Nat.le_trans (hl.stop_le e he)
      apply Image.stop_le_size_write hl.nonempty
  · rw [hs.replayed_entriesOf hl]
    intro v hv
    obtain hv | hv := List.mem_append.mp hv
    · apply hs.offset_ge v hv
    · obtain ⟨e, he, rfl⟩ := List.mem_map.mp hv
      apply hl.offset_ge e he

/-- The image after a transaction is the one before with the write made, outside the
journal. -/
theorem eqOn_transact (hl : Loggable dm es new w) (hs : Logged dm es) :
  Set.EqOn (dm.transact new w).image.byte (dm.image.write w).byte outsideJournal
  := by
  rw [dm.image_transact]
  apply Image.eqOn_write w (hs.eqOn_logFile hl)

/-- A steady image recovers to itself. -/
theorem recovers {target : Image} (heq : Set.EqOn dm.image.byte target.byte outsideJournal)
    (hs : Logged dm es) :
  Recovers dm.image target
  := by
  apply recovers_of_settled hs.tidy.toReadable hs.fits heq
  apply hs.settled.congr heq.symm

/-- At each file write of a transaction the image recovers to the bytes from before or from
after the write. -/
theorem through_transact (hl : Loggable dm es new w) (hs : Logged dm es) :
  File.Through (Atomic dm.image w) dm.file (dm.transact new w).file
  := by
  have hlog := hs.through_logFile hl
  have hout := hs.eqOn_transact hl
  apply hlog.trans
  apply File.Through.write hlog.last
  rw [← File.image_write]
  constructor
  · right
    apply (hs.transact hl).recovers hout
  · intro i hi hnone
    apply (hout hi).trans
    rw [Image.byte_write, hnone, Option.getD_none]

/-- Clearing a nearly full journal leaves a steady manager. -/
theorem checkpoint (hs : Logged dm es) :
  ∃ es', Steady dm.checkpoint es'
  := by
  unfold DiskManager.checkpoint
  split
  · use []
    rw [Journal.clear_eq]
    have htidy := hs.tidy.clear hs.tidy.valid
    constructor
    · constructor
      · rw [DiskManager.image, File.image_append]
        exact htidy
      · rfl
      · simp
      · simp
      · apply Settled.nil
      · simp [replayed, Journal.toReplay]
      · simp [replayed, Journal.toReplay]
    · simp
  · rename_i hroom
    use es, hs
    simp only [Journal.needsCheckpoint, maxJournalEntries, hs.nextSlot_eq, decide_eq_true_eq]
      at hroom
    omega

/-- At each file write of a checkpoint the image recovers to itself. -/
theorem through_checkpoint (hs : Logged dm es) :
  File.Through (fun img => Recovers img dm.image
      ∧ Set.EqOn img.byte dm.image.byte outsideJournal) dm.file dm.checkpoint.file
  := by
  unfold DiskManager.checkpoint
  split
  · rw [Journal.clear_eq]
    apply (hs.tidy.toReadable.through_clear hs.tidy.valid).mono
    rintro img ⟨h, es', rfl | rfl, hr, hout⟩
    · exact ⟨recovers_of_settled hr hs.fits hout hs.settled, hout⟩
    · exact ⟨recovers_of_nil hr hout, hout⟩
  · apply File.Through.refl
    use hs.recovers (Set.eqOn_refl _ _)
    apply Set.eqOn_refl

end Logged

/-- A transaction of a steady manager, with the checkpoint after it, keeps it steady, and at
each of its file writes the image recovers to the bytes from before or from after the
write. -/
theorem Steady.transaction {dm : DiskManager} {es new : List JournalEntry} {w : FileWrite}
    (hl : Loggable dm es new w) (hs : Steady dm es) :
  (∃ es', Steady (dm.transact new w).checkpoint es')
    ∧ Set.EqOn (dm.transact new w).checkpoint.image.byte (dm.image.write w).byte outsideJournal
    ∧ File.Through (Atomic dm.image w) dm.file (dm.transact new w).checkpoint.file
  := by
  have hlogged := hs.toLogged.transact hl
  have hout := hs.toLogged.eqOn_transact hl
  have hcheck := hlogged.through_checkpoint
  use hlogged.checkpoint, hcheck.last.2.trans hout
  apply (hs.toLogged.through_transact hl).trans
  apply hcheck.mono
  rintro img ⟨hrec, heq⟩
  constructor
  · right
    apply hrec.congr hout
  · intro i hi hnone
    rw [heq hi, hout hi, Image.byte_write, hnone, Option.getD_none]

/-! ### The journaled operations -/

section Entries

omit [Crc32]

variable {tx : UInt32} {entryType : UInt8} {offset : UInt64}

theorem toNat_payloadLen_writeOf {bytes : List UInt8} (h : bytes.length ≤ 490) :
  (Journal.writeOf entryType tx offset bytes).payloadLen.toNat = bytes.length
  := UInt32.toNat_ofNat_of_lt' (Nat.lt_of_le_of_lt h (by decide))

/-- The write that the entry of a write records. -/
theorem write_writeOf {bytes : List UInt8} (h : bytes.length ≤ 490) :
  (Journal.writeOf entryType tx offset bytes).write = ⟨offset.toNat, bytes⟩
  := by
  have htake := take_padTo h
  rw [JournalEntry.write, toNat_payloadLen_writeOf h]
  simp only [Journal.writeOf, Block.ofList, htake]

theorem writeIn_writeOf {bytes : List UInt8} (h : bytes.length ≤ 490)
    (htype : entryType = entryWriteInode ∨ entryType = entryWriteData) :
  (Journal.writeOf entryType tx offset bytes).WriteIn tx
  := by
  constructor
  · rfl
  · rfl
  · exact htype
  · rw [JournalEntry.Fits, toNat_payloadLen_writeOf h]
    exact h

/-- The entries of the pieces of a data write. -/
def pieceEntries (tx : UInt32) (offset : UInt64) : List (List UInt8) → List JournalEntry
  | [] => []
  | c :: cs => Journal.writeOf entryWriteData tx offset c
      :: pieceEntries tx (offset + UInt64.ofNat c.length) cs

theorem length_pieceEntries (tx : UInt32) (offset : UInt64) (cs : List (List UInt8)) :
  (pieceEntries tx offset cs).length = cs.length
  := by
  induction cs generalizing offset with
  | nil => rfl
  | cons c cs ih => simp [pieceEntries, ih]

theorem writeIn_pieceEntries {cs : List (List UInt8)} (h : ∀ c ∈ cs, c.length ≤ 490) :
  ∀ e ∈ pieceEntries tx offset cs, e.WriteIn tx
  := by
  induction cs generalizing offset with
  | nil => simp [pieceEntries]
  | cons c cs ih =>
      intro e he
      obtain rfl | he := List.mem_cons.mp he
      · apply writeIn_writeOf (h c List.mem_cons_self) (Or.inr rfl)
      · apply ih (fun x hx => h x (List.mem_cons_of_mem c hx)) e he

/-- The entries of the pieces record the writes of the pieces. -/
theorem map_write_pieceEntries {cs : List (List UInt8)} (h : ∀ c ∈ cs, c.length ≤ 490)
    (hend : offset.toNat + cs.flatten.length < 2 ^ 64) :
  (pieceEntries tx offset cs).map JournalEntry.write = writesFrom offset.toNat cs
  := by
  induction cs generalizing offset with
  | nil => rfl
  | cons c cs ih =>
      have hc := h c List.mem_cons_self
      rw [List.flatten_cons, List.length_append] at hend
      have hofNat : (UInt64.ofNat c.length).toNat = c.length :=
        UInt64.toNat_ofNat_of_lt' (Nat.lt_of_le_of_lt hc (by decide))
      have hnext : (offset + UInt64.ofNat c.length).toNat = offset.toNat + c.length := by
        rw [UInt64.toNat_add, hofNat, Nat.mod_eq_of_lt (by omega)]
      rw [pieceEntries, List.map_cons, write_writeOf hc, writesFrom,
        ih (fun x hx => h x (List.mem_cons_of_mem c hx)) (by rw [hnext]; omega), hnext]

/-- Every piece lies within the whole write. -/
theorem bounds_of_mem_writesFrom {o : Nat} {cs : List (List UInt8)} {v : FileWrite}
    (hv : v ∈ writesFrom o cs) :
  o ≤ v.offset ∧ v.stop ≤ o + cs.flatten.length
  := by
  induction cs generalizing o with
  | nil => cases hv
  | cons c cs ih =>
      rw [List.flatten_cons, List.length_append]
      obtain rfl | hv := List.mem_cons.mp hv
      · simp only [FileWrite.stop]
        omega
      · have hle := ih hv
        omega

end Entries

namespace Journal

omit [Crc32] in
theorem advance_advance (journal : Journal) (m n : Nat) :
  (journal.advance m).advance n = journal.advance (m + n)
  := by
  rw [advance, advance, advance, ← Function.iterate_add_apply, Nat.add_comm]

/-- Appending the pieces of a data write when there are slots for them. -/
theorem logDataWriteChunks_ok (journal : Journal) (file : File) (tx : UInt32)
    (offset : UInt64) {cs : List (List UInt8)} (h : journal.nextSlot + cs.length ≤ 512) :
  journal.logDataWriteChunks file tx offset cs
    = (.ok (), journal.advance cs.length,
        file.append (journal.appendWrites (pieceEntries tx offset cs)))
  := by
  induction cs generalizing journal file offset with
  | nil =>
      rw [pieceEntries, appendWrites, File.append_nil]
      rfl
  | cons c cs ih =>
      rw [List.length_cons] at h
      have hlt : journal.nextSlot < 512 := by omega
      have hrest : journal.next.nextSlot + cs.length ≤ 512 := by
        simp only [next]
        omega
      rw [logDataWriteChunks, logDataWriteChunk, writeEntry_ok hlt]
      dsimp only
      rw [ih _ _ _ hrest, File.append_append]
      rfl

end Journal

namespace DiskManager

/-- The entries a data write logs. -/
def dataEntries (dm : DiskManager) (offset : UInt64) (data : List UInt8) :
    List JournalEntry :=
  pieceEntries dm.journal.header.nextTxId offset (chunks journalPayloadSize data)

/-- A data write is a transaction when its entries fit into the journal. -/
theorem writeFileData_ok (dm : DiskManager) (offset : UInt64) {data : List UInt8}
    (hne : data ≠ [])
    (hroom : dm.journal.nextSlot + (chunks journalPayloadSize data).length + 1 ≤ 512) :
  dm.writeFileData offset data
    = (.ok (), (dm.transact (dm.dataEntries offset data) ⟨offset.toNat, data⟩).checkpoint)
  := by
  have hlen := length_chunks (show 0 < journalPayloadSize by decide) data
  have hslots : dm.journal.begin.2.nextSlot = dm.journal.nextSlot := rfl
  have hfull : ¬ maxJournalEntries - dm.journal.begin.2.nextSlot
      < (data.length + journalPayloadSize - 1) / journalPayloadSize + 1 := by
    rw [← hlen, hslots, maxJournalEntries]
    omega
  have hpieces : dm.journal.begin.2.nextSlot + (chunks journalPayloadSize data).length ≤ 512 := by
    rw [hslots]
    omega
  have hchunks := dm.journal.begin.2.logDataWriteChunks_ok dm.file dm.journal.begin.1 offset
    hpieces
  have hcommit : (dm.journal.begin.2.advance
      (chunks journalPayloadSize data).length).nextSlot < 512 := by
    rw [Journal.nextSlot_advance, hslots]
    omega
  unfold writeFileData
  rw [if_neg hne]
  simp only [Journal.logDataWriteAll, if_neg hne, if_neg hfull, hchunks, Journal.commit,
    Journal.writeEntry_ok hcommit]
  have hadvance : ((dm.journal.begin.2.advance
        (chunks journalPayloadSize data).length).next)
      = dm.journal.begin.2.advance (dm.entriesOf (dm.dataEntries offset data)).length := by
    rw [length_entriesOf, dataEntries, length_pieceEntries, ← Journal.advance_advance]
    rfl
  have hfile : (dm.file.append (dm.journal.begin.2.appendWrites
        (pieceEntries dm.journal.begin.1 offset (chunks journalPayloadSize data)))).append
        ((dm.journal.begin.2.advance (chunks journalPayloadSize data).length).appendWrites
          [Journal.commitOf dm.journal.begin.1])
      = dm.logFile (dm.dataEntries offset data) := by
    rw [logFile, entriesOf, File.append_append, dataEntries, Journal.appendWrites_append,
      length_pieceEntries]
    rfl
  rw [hadvance, hfile]
  rfl

/-- A data write that does not fit into the journal changes no byte. -/
theorem writeFileData_of_full (dm : DiskManager) (offset : UInt64) {data : List UInt8}
    (hne : data ≠ [])
    (hroom : ¬ dm.journal.nextSlot + (chunks journalPayloadSize data).length + 1 ≤ 512) :
  ∃ e, dm.writeFileData offset data = (.error e, { dm with journal := dm.journal.begin.2 })
  := by
  have hlen := length_chunks (show 0 < journalPayloadSize by decide) data
  have hslots : dm.journal.begin.2.nextSlot = dm.journal.nextSlot := rfl
  have hfull : maxJournalEntries - dm.journal.begin.2.nextSlot
      < (data.length + journalPayloadSize - 1) / journalPayloadSize + 1 := by
    rw [← hlen, hslots, maxJournalEntries]
    omega
  unfold writeFileData
  rw [if_neg hne]
  simp only [Journal.logDataWriteAll, if_neg hne, if_pos hfull]
  exact ⟨_, rfl⟩

theorem writeFileData_full (dm : DiskManager) (offset : UInt64) {data : List UInt8}
    (hroom : ¬ dm.journal.nextSlot + (chunks journalPayloadSize data).length + 1 ≤ 512)
    (hnext : dm.journal.nextSlot ≤ 511) :
  ∃ e, dm.writeFileData offset data = (.error e, { dm with journal := dm.journal.begin.2 })
  := by
  apply dm.writeFileData_of_full offset _ hroom
  rintro rfl
  rw [chunks_nil, List.length_nil] at hroom
  omega

/-- The entry an inode write logs. -/
def inodeEntries (dm : DiskManager) (offset : UInt64) (inode : InodeRaw) :
    List JournalEntry :=
  [Journal.writeOf entryWriteInode dm.journal.header.nextTxId offset inode.toBytes]

/-- An inode write is a transaction when there are two slots in the journal. -/
theorem writeInode_ok (dm : DiskManager) (inode : InodeRaw) {index : Nat} {offset : UInt64}
    (hindex : index < maxFiles) (hoffset : dm.inodeTable.inodeOffset index = some offset)
    (hroom : dm.journal.nextSlot + 2 ≤ 512) :
  dm.writeInode index inode
    = (.ok (), (dm.transact (dm.inodeEntries offset inode)
        ⟨offset.toNat, inode.toBytes⟩).checkpoint)
  := by
  have hbound : ¬ maxFiles ≤ index := Nat.not_le.mpr hindex
  have hlen : ¬ journalPayloadSize < inode.toBytes.length := by
    rw [InodeRaw.length_toBytes]
    decide
  have hslot : dm.journal.begin.2.nextSlot < 512 := by
    simp only [Journal.begin]
    omega
  have hcommit : dm.journal.begin.2.next.nextSlot < 512 := by
    simp only [Journal.begin, Journal.next]
    omega
  unfold writeInode
  rw [if_neg hbound]
  simp only [hoffset, Journal.logInodeWriteAt, if_neg hlen, Journal.writeEntry_ok hslot,
    Journal.commit, Journal.writeEntry_ok hcommit, InodeTable.writeInode]
  have hfile : (dm.file.append (dm.journal.begin.2.appendWrites
        [Journal.writeOf entryWriteInode dm.journal.begin.1 offset inode.toBytes])).append
        (dm.journal.begin.2.next.appendWrites [Journal.commitOf dm.journal.begin.1])
      = dm.logFile (dm.inodeEntries offset inode) := by
    rw [logFile, entriesOf, File.append_append, inodeEntries, Journal.appendWrites_append]
    rfl
  rw [hfile]
  rfl

end DiskManager

end Vexfs
