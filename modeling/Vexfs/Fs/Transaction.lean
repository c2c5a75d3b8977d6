import Vexfs.Fs.Recovery

/-!
# Transactions

Every journaled write of the disk manager is a transaction: entries are appended to the
journal, then a commit entry, then the write is made in place, and the journal is cleared
when it is nearly full.  `Steady` is the invariant these transactions keep: the journal
holds entries whose replay changes nothing, the slots beyond are free, and the next
transaction number is not one of theirs.  At every point of a transaction a crash leaves a
journal whose replay gives the bytes from before or those from after the write.
-/

namespace Vexfs

open Bytes Storage

variable [Crc32]

/-! ### Tidy journals -/

/-- Writing a header replaces the header of a journal that is read. -/
theorem Readable.write_header {img : Image} {h h' : JournalHeader} {es : List JournalEntry}
    (hvalid : h'.isValid = true) (hr : Readable img h es) :
  Readable (img.write (headerWrite h')) h' es
  := by
  constructor
  · apply Nat.le_trans hr.size_le (Image.size_le_size_write _ _)
  · apply hvalid
  · apply slice_header_headerWrite
  · intro i hi
    rw [slice_headerWrite, hr.slots i hi]
  · apply hr.used
  · apply hr.length_le
  · intro hlt
    apply (SlotFree.congr (slice_headerWrite h')).mpr (hr.stop hlt)

/-- The journal holds the given entries and every slot beyond them is free. -/
structure Tidy (img : Image) (h : JournalHeader) (es : List JournalEntry) : Prop extends
    Readable img h es where
  free : ∀ i, es.length ≤ i → i < 512 → SlotFree img i

namespace Tidy

variable {img : Image} {h h' : JournalHeader} {es : List JournalEntry} {e : JournalEntry}

/-- Writing an entry to the next slot appends it. -/
theorem write_slot (hused : e.isFree = false) (hlt : es.length < 512) (ht : Tidy img h es) :
  Tidy (img.write (slotWrite es.length e.toBytes)) h (es ++ [e])
  := by
  have hlen : e.toBytes.length = 512 := e.length_toBytes
  have hslots : ∀ i (hi : i < (es ++ [e]).length),
      (img.write (slotWrite es.length e.toBytes)).slice (slotOffset i) 512
        = (es ++ [e])[i].toBytes := by
    intro i hi
    rw [List.length_append, List.length_singleton] at hi
    obtain hlt | rfl := Nat.lt_succ_iff_lt_or_eq.mp hi
    · rw [slice_slotWrite_ne hlen (Nat.ne_of_lt hlt), ht.slots i hlt,
        List.getElem_append_left hlt]
    · rw [slice_slotWrite_self hlen]
      simp
  have hfree : ∀ i, (es ++ [e]).length ≤ i → i < 512 →
      SlotFree (img.write (slotWrite es.length e.toBytes)) i := by
    intro i hlo hhi
    rw [List.length_append, List.length_singleton] at hlo
    apply (SlotFree.congr (slice_slotWrite_ne hlen (Nat.ne_of_gt hlo))).mpr
    apply ht.free i (Nat.le_of_succ_le hlo) hhi
  constructor
  · constructor
    · apply Nat.le_trans ht.size_le (Image.size_le_size_write _ _)
    · apply ht.valid
    · rw [slice_header_slotWrite, ht.header]
    · apply hslots
    · intro x hx
      obtain hx | hx := List.mem_append.mp hx
      · apply ht.used x hx
      · rw [List.mem_singleton.mp hx, hused]
    · rw [List.length_append]
      exact hlt
    · intro hlt'
      apply hfree _ (Nat.le_refl _) hlt'
  · apply hfree

/-- Writing a header replaces the header. -/
theorem write_header (hvalid : h'.isValid = true) (ht : Tidy img h es) :
  Tidy (img.write (headerWrite h')) h' es
  := by
  use ht.toReadable.write_header hvalid
  intro i hlo hhi
  apply (SlotFree.congr (slice_headerWrite h')).mpr (ht.free i hlo hhi)

/-- A tidy journal depends on the bytes of the journal and the size alone. -/
theorem congr {img' : Image} (hsize : img.size ≤ img'.size)
    (heq : ∀ i, journalOffset ≤ i → i < dataOffset → img'.byte i = img.byte i)
    (ht : Tidy img h es) :
  Tidy img' h es
  := by
  use ht.toReadable.congr hsize heq
  intro i hlo hhi
  have hdata := dataOffset_eq
  have hslot := slotOffset_eq i
  rw [SlotFree, heq _ (by omega) (by omega)]
  apply ht.free i hlo hhi

end Tidy

/-! ### Appending entries -/

namespace Journal

/-- The journal after an entry. -/
def next (journal : Journal) : Journal :=
  ⟨{ journal.header with entryCount := UInt32.ofNat (journal.nextSlot + 1) },
    journal.nextSlot + 1⟩

/-- The journal after `n` entries. -/
def advance (journal : Journal) (n : Nat) : Journal := next^[n] journal

/-- The writes that append entries: each slot, followed by the header. -/
def appendWrites (journal : Journal) : List JournalEntry → List FileWrite
  | [] => []
  | e :: es => slotWrite journal.nextSlot e.toBytes :: headerWrite journal.next.header
      :: journal.next.appendWrites es

omit [Crc32] in
theorem isValid_next (journal : Journal) :
  journal.next.header.isValid = journal.header.isValid
  := rfl

omit [Crc32] in
@[simp]
theorem advance_zero (journal : Journal) :
  journal.advance 0 = journal
  := rfl

omit [Crc32] in
theorem advance_succ (journal : Journal) (n : Nat) :
  journal.advance (n + 1) = journal.next.advance n
  := rfl

omit [Crc32] in
@[simp]
theorem nextSlot_advance (journal : Journal) (n : Nat) :
  (journal.advance n).nextSlot = journal.nextSlot + n
  := by
  induction n generalizing journal with
  | zero => rfl
  | succ n ih =>
      rw [advance_succ, ih]
      simp only [next]
      omega

omit [Crc32] in
@[simp]
theorem nextTxId_advance (journal : Journal) (n : Nat) :
  (journal.advance n).header.nextTxId = journal.header.nextTxId
  := by
  induction n generalizing journal with
  | zero => rfl
  | succ n ih => rw [advance_succ, ih, next]

omit [Crc32] in
@[simp]
theorem isValid_advance (journal : Journal) (n : Nat) :
  (journal.advance n).header.isValid = journal.header.isValid
  := by
  induction n generalizing journal with
  | zero => rfl
  | succ n ih =>
      rw [advance_succ, ih, isValid_next]

/-- Appending an entry when there is a slot for it. -/
theorem writeEntry_ok {journal : Journal} {file : File} {e : JournalEntry}
    (h : journal.nextSlot < 512) :
  journal.writeEntry file e = (.ok (), journal.next, file.append (journal.appendWrites [e]))
  := by
  have hfull : ¬ maxJournalEntries ≤ journal.nextSlot := Nat.not_le.mpr h
  unfold writeEntry
  rw [if_neg hfull]
  simp only [appendWrites, File.append_cons, File.append_nil]
  rfl

theorem appendWrites_append (journal : Journal) (es es' : List JournalEntry) :
  journal.appendWrites (es ++ es')
    = journal.appendWrites es ++ (journal.advance es.length).appendWrites es'
  := by
  induction es generalizing journal with
  | nil => rfl
  | cons e es ih => simp [appendWrites, ih, advance_succ]

theorem withinJournal_appendWrites {journal : Journal} {es : List JournalEntry}
    (h : journal.nextSlot + es.length ≤ 512) :
  ∀ w ∈ journal.appendWrites es, WithinJournal w
  := by
  induction es generalizing journal with
  | nil => simp [appendWrites]
  | cons e es ih =>
      rw [List.length_cons] at h
      intro w hw
      simp only [appendWrites, List.mem_cons] at hw
      obtain rfl | rfl | hw := hw
      · apply withinJournal_slotWrite (by omega) e.length_toBytes
      · apply withinJournal_headerWrite
      · apply ih _ w hw
        simp only [next]
        omega

/-- Appending entries writes them to the free slots. -/
theorem tidy_appendWrites {journal : Journal} {img : Image} {h : JournalHeader}
    {es : List JournalEntry} {e : JournalEntry} {new : List JournalEntry}
    (hnext : journal.nextSlot = es.length) (hvalid : journal.header.isValid = true)
    (hused : ∀ x ∈ e :: new, x.isFree = false) (hroom : es.length + (e :: new).length ≤ 512)
    (ht : Tidy img h es) :
  Tidy (img.writeAll (journal.appendWrites (e :: new)))
    (journal.advance (e :: new).length).header (es ++ e :: new)
  := by
  induction new generalizing journal img h es e with
  | nil =>
      simp only [List.length_cons, List.length_nil] at hroom
      have hslot := ht.write_slot (hused e List.mem_cons_self) (by omega)
      have hhead := hslot.write_header (journal.isValid_next.trans hvalid)
      rw [appendWrites, appendWrites, Image.writeAll_cons, Image.writeAll_cons,
        Image.writeAll_nil, hnext, List.length_cons, List.length_nil, advance_succ, advance_zero]
      exact hhead
  | cons e' new ih =>
      simp only [List.length_cons] at hroom
      have hslot := ht.write_slot (hused e List.mem_cons_self) (by omega)
      have hhead := hslot.write_header (journal.isValid_next.trans hvalid)
      have hnext' : journal.next.nextSlot = (es ++ [e]).length := by simp [next, hnext]
      have hrest := ih hnext' (journal.isValid_next.trans hvalid)
        (fun x hx => hused x (List.mem_cons_of_mem e hx))
        (by simp only [List.length_append, List.length_cons, List.length_nil]; omega) hhead
      rw [appendWrites, Image.writeAll_cons, Image.writeAll_cons, hnext]
      rw [List.append_assoc] at hrest
      exact hrest

/-- After each of the writes that append entries, the journal holds some first ones of
them, and nothing else has changed. -/
theorem through_appendWrites {journal : Journal} {file : File} {h : JournalHeader}
    {es new : List JournalEntry} (hnext : journal.nextSlot = es.length)
    (hvalid : journal.header.isValid = true) (hused : ∀ x ∈ new, x.isFree = false)
    (hroom : es.length + new.length ≤ 512) (ht : Tidy file.image h es) :
  File.Through (fun img => ∃ k ≤ new.length, ∃ h', Tidy img h' (es ++ new.take k)
      ∧ Set.EqOn img.byte file.image.byte outsideJournal)
    file (file.append (journal.appendWrites new))
  := by
  induction new generalizing journal file h es with
  | nil =>
      rw [appendWrites, File.append_nil]
      apply File.Through.refl
      use 0, Nat.le_refl _, h
      simp [ht, Set.eqOn_refl]
  | cons e new ih =>
      simp only [List.length_cons] at hroom
      have hlt : es.length < 512 := by omega
      have hslot := ht.write_slot (hused e List.mem_cons_self) hlt
      have hhead := hslot.write_header (journal.isValid_next.trans hvalid)
      have heq : Set.EqOn (file.image.write (slotWrite es.length e.toBytes)).byte
          file.image.byte outsideJournal :=
        (withinJournal_slotWrite hlt e.length_toBytes).eqOn _
      have heq' := ((withinJournal_headerWrite journal.next.header).eqOn
        (file.image.write (slotWrite es.length e.toBytes))).trans heq
      rw [appendWrites, File.append_cons, File.append_cons]
      have hfirst : File.Through (fun img => ∃ k ≤ (e :: new).length, ∃ h',
            Tidy img h' (es ++ (e :: new).take k)
            ∧ Set.EqOn img.byte file.image.byte outsideJournal) file
          (file.write (slotWrite journal.nextSlot e.toBytes).offset
            (slotWrite journal.nextSlot e.toBytes).data) := by
        apply File.Through.write
        · use 0, Nat.zero_le _, h
          simp [ht, Set.eqOn_refl]
        · use 1, by simp, h
          rw [hnext]
          exact ⟨hslot, heq⟩
      apply hfirst.trans
      have hsecond : File.Through (fun img => ∃ k ≤ (e :: new).length, ∃ h',
            Tidy img h' (es ++ (e :: new).take k)
            ∧ Set.EqOn img.byte file.image.byte outsideJournal)
          (file.write (slotWrite journal.nextSlot e.toBytes).offset
            (slotWrite journal.nextSlot e.toBytes).data)
          ((file.write (slotWrite journal.nextSlot e.toBytes).offset
            (slotWrite journal.nextSlot e.toBytes).data).write
              (headerWrite journal.next.header).offset (headerWrite journal.next.header).data) := by
        apply File.Through.write hfirst.last
        use 1, by simp, journal.next.header
        rw [hnext, File.image_write]
        exact ⟨hhead, heq'⟩
      apply hsecond.trans
      have hnext' : journal.next.nextSlot = (es ++ [e]).length := by simp [next, hnext]
      have himage : ((file.write (slotWrite journal.nextSlot e.toBytes).offset
          (slotWrite journal.nextSlot e.toBytes).data).write
            (headerWrite journal.next.header).offset
            (headerWrite journal.next.header).data).image
          = (file.image.write (slotWrite es.length e.toBytes)).write
            (headerWrite journal.next.header) := by
        rw [hnext, File.image_write, File.image_write]
      have hrest := ih hnext' (journal.isValid_next.trans hvalid)
        (fun x hx => hused x (List.mem_cons_of_mem e hx))
        (by simp only [List.length_append, List.length_cons, List.length_nil]; omega)
        (by rw [himage]; exact hhead)
      apply hrest.mono
      rintro img ⟨k, hk, h', htidy, hout⟩
      use k + 1, by simpa using hk, h'
      constructor
      · simpa using htidy
      · apply hout.trans
        rw [himage]
        exact heq'

end Journal

/-! ### Clearing the journal -/

omit [Crc32] in
theorem take_zeroSlots {n k : Nat} (h : k ≤ n) :
  (zeroSlots n).take k = zeroSlots k
  := by
  simp [zeroSlots, ← List.map_take, List.take_range, Nat.min_eq_left h]

omit [Crc32] in
theorem length_zeroSlots (n : Nat) :
  (zeroSlots n).length = n
  := by
  simp [zeroSlots]

omit [Crc32] in
/-- Some first writes of those that zero the slots zero the first slots. -/
theorem eq_zeroSlots_of_prefix {n : Nat} {ws : List FileWrite} (h : ws <+: zeroSlots n) :
  ∃ k ≤ n, ws = zeroSlots k
  := by
  have hle := h.length_le
  rw [length_zeroSlots] at hle
  use ws.length, hle
  rw [← take_zeroSlots hle]
  apply List.prefix_iff_eq_take.mp h

omit [Crc32] in
/-- Zeroing the first slots leaves zeros in them. -/
theorem slice_zeroSlots_of_lt {img : Image} {n i : Nat} (hi : i < n) :
  (img.writeAll (zeroSlots n)).slice (slotOffset i) 512 = zeros 512
  := by
  induction n with
  | zero => cases hi
  | succ n ih =>
      rw [zeroSlots_succ, Image.writeAll_append, Image.writeAll_cons, Image.writeAll_nil]
      obtain hlt | rfl := Nat.lt_succ_iff_lt_or_eq.mp hi
      · rw [slice_slotWrite_ne (length_zeros 512) (Nat.ne_of_lt hlt), ih hlt]
      · rw [slice_slotWrite_self (length_zeros 512)]

omit [Crc32] in
/-- Zeroing the first slots leaves the others. -/
theorem slice_zeroSlots_of_le {img : Image} {n i : Nat} (hi : n ≤ i) :
  (img.writeAll (zeroSlots n)).slice (slotOffset i) 512 = img.slice (slotOffset i) 512
  := by
  induction n with
  | zero => rfl
  | succ n ih =>
      rw [zeroSlots_succ, Image.writeAll_append, Image.writeAll_cons, Image.writeAll_nil,
        slice_slotWrite_ne (length_zeros 512) (Nat.ne_of_gt hi), ih (Nat.le_of_succ_le hi)]

omit [Crc32] in
/-- Zeroing the first slots leaves the header. -/
theorem slice_header_zeroSlots {img : Image} {n : Nat} :
  (img.writeAll (zeroSlots n)).slice journalOffset 64 = img.slice journalOffset 64
  := by
  induction n with
  | zero => rfl
  | succ n ih =>
      rw [zeroSlots_succ, Image.writeAll_append, Image.writeAll_cons, Image.writeAll_nil,
        slice_header_slotWrite, ih]

/-- With its first slot zeroed, a journal reads as empty. -/
theorem Readable.zeroSlots {img : Image} {h : JournalHeader} {es : List JournalEntry} {n : Nat}
    (hn : 0 < n) (hr : Readable img h es) :
  Readable (img.writeAll (Vexfs.zeroSlots n)) h []
  := by
  constructor
  · apply Nat.le_trans hr.size_le (Image.size_le_size_writeAll _ _)
  · apply hr.valid
  · rw [slice_header_zeroSlots, hr.header]
  · rintro i ⟨⟩
  · simp
  · simp
  · intro _
    apply slotFree_of_zeros (slice_zeroSlots_of_lt hn)

omit [Crc32] in
theorem size_zeroSlots (img : Image) :
  dataOffset ≤ (img.writeAll (zeroSlots 512)).size
  := by
  have hstop : (slotWrite 511 (zeros 512)).stop = dataOffset := by
    rw [FileWrite.stop, slotWrite, length_zeros]
    rfl
  have hne : (slotWrite 511 (zeros 512)).data ≠ [] :=
    List.ne_nil_of_length_pos (by simp [slotWrite])
  rw [zeroSlots_succ, Image.writeAll_append, Image.writeAll_cons, Image.writeAll_nil, ← hstop]
  apply Image.stop_le_size_write hne

/-- With a header and all its slots zeroed, a journal is empty. -/
theorem tidy_zeroSlots {img : Image} {h : JournalHeader} (hvalid : h.isValid = true)
    (hheader : img.slice journalOffset 64 = h.toBytes) :
  Tidy (img.writeAll (zeroSlots 512)) h []
  := by
  constructor
  · constructor
    · apply size_zeroSlots
    · apply hvalid
    · rw [slice_header_zeroSlots, hheader]
    · rintro i ⟨⟩
    · simp
    · simp
    · intro hlt
      apply slotFree_of_zeros (slice_zeroSlots_of_lt hlt)
  · intro i _ hi
    apply slotFree_of_zeros (slice_zeroSlots_of_lt hi)

/-- Clearing a journal empties it. -/
theorem Tidy.clear {img : Image} {h h' : JournalHeader} {es : List JournalEntry}
    (hvalid : h'.isValid = true) (ht : Tidy img h es) :
  Tidy (img.writeAll (clearWrites h')) { h' with entryCount := 0 } []
  := by
  have hhead : Tidy (img.write (headerWrite { h' with entryCount := 0 }))
      { h' with entryCount := 0 } es :=
    ht.write_header hvalid
  rw [clearWrites, Image.writeAll_cons]
  exact tidy_zeroSlots hhead.valid hhead.header

/-- After each of the writes that clear it, the journal holds all of its entries or reads
as empty, and nothing else has changed. -/
theorem Readable.through_clear {file : File} {h h' : JournalHeader} {es : List JournalEntry}
    (hvalid : h'.isValid = true) (hr : Readable file.image h es) :
  File.Through (fun img => ∃ h'' es', (es' = es ∨ es' = []) ∧ Readable img h'' es'
      ∧ Set.EqOn img.byte file.image.byte outsideJournal)
    file (file.append (clearWrites h'))
  := by
  apply File.through_append
  intro ws hws
  have hout : Set.EqOn (file.image.writeAll ws).byte file.image.byte outsideJournal :=
    WithinJournal.eqOn_writeAll
      (fun w hw => withinJournal_clearWrites h' w (hws.subset hw)) _
  cases ws with
  | nil => exact ⟨h, es, Or.inl rfl, hr, hout⟩
  | cons w ws =>
      obtain ⟨rfl, hrest⟩ := List.cons_prefix_cons.mp hws
      obtain ⟨k, hk, rfl⟩ := eq_zeroSlots_of_prefix hrest
      have hhead : Readable (file.image.write (headerWrite { h' with entryCount := 0 }))
          { h' with entryCount := 0 } es :=
        hr.write_header hvalid
      rw [Image.writeAll_cons] at hout ⊢
      cases k with
      | zero => exact ⟨_, es, Or.inl rfl, hhead, hout⟩
      | succ k => exact ⟨_, [], Or.inr rfl, hhead.zeroSlots (Nat.succ_pos k), hout⟩

/-! ### What a journal replays -/

/-- The write entries of the transaction `tx`. -/
structure JournalEntry.WriteIn (tx : UInt32) (e : JournalEntry) : Prop where
  txId_eq : e.txId = tx
  state_eq : e.state = stateWritten
  isWrite : e.entryType = entryWriteInode ∨ e.entryType = entryWriteData
  fits : e.Fits

namespace JournalEntry.WriteIn

omit [Crc32]

variable {tx : UInt32} {e : JournalEntry}

theorem ne_commit (h : WriteIn tx e) :
  e.entryType ≠ entryCommit
  := by
  obtain h | h := h.isWrite <;> rw [h] <;> decide

theorem isFree_eq (h : WriteIn tx e) :
  e.isFree = false
  := by
  unfold isFree
  obtain h | h := h.isWrite <;> rw [h] <;> decide

end JournalEntry.WriteIn

namespace Journal

omit [Crc32]

variable {es new : List JournalEntry} {tx : UInt32}

theorem committedTxs_append (es es' : List JournalEntry) :
  committedTxs (es ++ es') = committedTxs es ++ committedTxs es'
  := by
  simp [committedTxs]

/-- Write entries commit nothing. -/
theorem committedTxs_writes (h : ∀ e ∈ new, e.WriteIn tx) :
  committedTxs new = []
  := by
  simp only [committedTxs, List.map_eq_nil_iff, List.filter_eq_nil_iff]
  intro e he
  simp [(h e he).ne_commit]

theorem committedTxs_commitOf (tx : UInt32) :
  committedTxs [commitOf tx] = [tx]
  := by
  simp [committedTxs, commitOf]

theorem mem_of_mem_committedTxs (h : tx ∈ committedTxs es) :
  ∃ e ∈ es, e.txId = tx
  := by
  obtain ⟨e, he, rfl⟩ := List.mem_map.mp h
  use e, (List.mem_filter.mp he).1

/-- The write entries of a transaction that is not committed are not replayed. -/
theorem toReplay_append (hnew : ∀ e ∈ new, e.WriteIn tx) (hfresh : ∀ e ∈ es, e.txId ≠ tx) :
  toReplay (es ++ new) = toReplay es
  := by
  have htx : ∀ e ∈ new, e.txId ∉ committedTxs es := by
    intro e he hmem
    obtain ⟨x, hx, hxe⟩ := mem_of_mem_committedTxs hmem
    apply hfresh x hx
    rw [hxe, (hnew e he).txId_eq]
  unfold toReplay
  rw [committedTxs_append, committedTxs_writes hnew, List.append_nil, List.filter_append]
  have hnil : new.filter (fun e => (committedTxs es).contains e.txId && e.state == stateWritten
      && (e.entryType == entryWriteInode || e.entryType == entryWriteData)) = [] := by
    rw [List.filter_eq_nil_iff]
    intro e he
    simp [htx e he]
  rw [hnil, List.append_nil]

/-- With its commit entry, a transaction is replayed after the ones before it. -/
theorem toReplay_commit (hnew : ∀ e ∈ new, e.WriteIn tx) (hfresh : ∀ e ∈ es, e.txId ≠ tx) :
  toReplay (es ++ (new ++ [commitOf tx])) = toReplay es ++ new
  := by
  unfold toReplay
  rw [committedTxs_append, committedTxs_append, committedTxs_writes hnew,
    committedTxs_commitOf, List.nil_append, List.filter_append, List.filter_append]
  have hold : es.filter (fun e => (committedTxs es ++ [tx]).contains e.txId
        && e.state == stateWritten
        && (e.entryType == entryWriteInode || e.entryType == entryWriteData))
      = es.filter (fun e => (committedTxs es).contains e.txId && e.state == stateWritten
        && (e.entryType == entryWriteInode || e.entryType == entryWriteData)) := by
    apply List.filter_congr
    intro e he
    have hne := hfresh e he
    simp [hne]
  have hself : new.filter (fun e => (committedTxs es ++ [tx]).contains e.txId
        && e.state == stateWritten
        && (e.entryType == entryWriteInode || e.entryType == entryWriteData)) = new := by
    rw [List.filter_eq_self]
    intro e he
    obtain ⟨htx, hstate, htype, -⟩ := hnew e he
    simp [htx, hstate, htype]
  have hcommit : [commitOf tx].filter (fun e => (committedTxs es ++ [tx]).contains e.txId
        && e.state == stateWritten
        && (e.entryType == entryWriteInode || e.entryType == entryWriteData)) = [] := by
    simp [commitOf, entryCommit, entryWriteInode, entryWriteData]
  rw [hold, hself, hcommit, List.append_nil]

end Journal

end Vexfs
