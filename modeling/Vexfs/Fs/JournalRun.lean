import Vexfs.Fs.Atomicity

/-!
# Interleaved transactions

The journal is filled by calls that log writes under a transaction number and calls that
commit one.  Any number of transactions may be open at a time.  A crash leaves some first
entries of the log on disk, and opening the journal then gives the writes of the
transactions whose commit entry is among these, and no others.  A transaction is the calls
that carry its number.
-/

namespace Vexfs

open Bytes Storage

/-! ### Calls -/

/-- A call that fills the journal. -/
inductive JournalCall where
  | begin
  | logInodeWriteAt (txId : UInt32) (diskOffset : UInt64) (bytes : List UInt8)
  | logDataWriteAll (txId : UInt32) (diskOffset : UInt64) (data : List UInt8)
  | commit (txId : UInt32)

/-- Whether the entry records a write. -/
def JournalEntry.isWrite (e : JournalEntry) : Bool :=
  e.entryType == entryWriteInode || e.entryType == entryWriteData

namespace JournalCall

/-- What a call does when it returns without an error. -/
def run [Crc32] (s : Journal × File) : JournalCall → DiskResult (Journal × File)
  | begin => .ok (s.1.begin.2, s.2)
  | logInodeWriteAt txId diskOffset bytes =>
      match s.1.logInodeWriteAt s.2 txId diskOffset bytes with
      | (.ok _, journal, file) => .ok (journal, file)
      | (.error e, _, _) => .error e
  | logDataWriteAll txId diskOffset data =>
      match s.1.logDataWriteAll s.2 txId diskOffset data with
      | (.ok _, journal, file) => .ok (journal, file)
      | (.error e, _, _) => .error e
  | commit txId =>
      match s.1.commit s.2 txId with
      | (.ok _, journal, file) => .ok (journal, file)
      | (.error e, _, _) => .error e

/-- The entries a call appends: those of a data write record its pieces, each at the offset
where the one before ends. -/
def entries : JournalCall → List JournalEntry
  | begin => []
  | logInodeWriteAt txId diskOffset bytes =>
      [Journal.writeOf entryWriteInode txId diskOffset bytes]
  | logDataWriteAll txId diskOffset data =>
      pieceEntries txId diskOffset (chunks journalPayloadSize data)
  | commit txId => [Journal.commitOf txId]

/-- Whether the call logs a write under the transaction `tx`. -/
def LogsUnder (tx : UInt32) : JournalCall → Prop
  | begin => False
  | logInodeWriteAt txId _ _ => txId = tx
  | logDataWriteAll txId _ _ => txId = tx
  | commit _ => False

/-- The entries a call appends are writes of the transaction it logs under, or the one
commit entry of the transaction it commits. -/
inductive Appends : JournalCall → List JournalEntry → Prop where
  | nothing (call : JournalCall) : Appends call []
  | writes {call : JournalCall} {es : List JournalEntry} {tx : UInt32}
      (logs : call.LogsUnder tx) (writeIn : ∀ e ∈ es, e.WriteIn tx) : Appends call es
  | commits (tx : UInt32) : Appends (commit tx) [Journal.commitOf tx]

theorem Appends.isFree_eq {call : JournalCall} {es : List JournalEntry}
    (h : call.Appends es) :
  ∀ e ∈ es, e.isFree = false
  := by
  intro e he
  cases h with
  | nothing => cases he
  | writes _ hwrite => apply (hwrite e he).isFree_eq
  | commits tx =>
      rw [List.mem_singleton.mp he]
      rfl

theorem Appends.state_eq {call : JournalCall} {es : List JournalEntry}
    (h : call.Appends es) :
  ∀ e ∈ es, e.state = stateWritten
  := by
  intro e he
  cases h with
  | nothing => cases he
  | writes _ hwrite => apply (hwrite e he).state_eq
  | commits tx =>
      rw [List.mem_singleton.mp he]
      rfl

/-- A commit entry comes from a call that commits. -/
theorem Appends.commit_eq {call : JournalCall} {es : List JournalEntry} {e : JournalEntry}
    (h : call.Appends es) (he : e ∈ es) (htype : e.entryType = entryCommit) :
  call = .commit e.txId ∧ e = Journal.commitOf e.txId
  := by
  cases h with
  | nothing => cases he
  | writes _ hwrite => exact ((hwrite e he).ne_commit htype).elim
  | commits tx =>
      obtain rfl := List.mem_singleton.mp he
      exact ⟨rfl, rfl⟩

/-- A write entry comes from a call that logs under its transaction. -/
theorem Appends.logsUnder {call : JournalCall} {es : List JournalEntry} {e : JournalEntry}
    (h : call.Appends es) (he : e ∈ es) (hwrite : e.isWrite = true) :
  call.LogsUnder e.txId
  := by
  cases h with
  | nothing => cases he
  | writes hlogs hin =>
      rw [(hin e he).txId_eq]
      exact hlogs
  | commits tx =>
      obtain rfl := List.mem_singleton.mp he
      cases hwrite

variable [Crc32]

/-- A call that returns without an error had room for its entries and appended them. -/
structure Ran (call : JournalCall) (s s' : Journal × File) (journal : Journal) : Prop where
  nextSlot_eq : journal.nextSlot = s.1.nextSlot
  isValid_eq : journal.header.isValid = s.1.header.isValid
  room : s.1.nextSlot + call.entries.length ≤ 512
  appends : call.Appends call.entries
  journal_eq : s'.1 = journal.advance call.entries.length
  file_eq : s'.2 = s.2.append (journal.appendWrites call.entries)

/-- An entry was written only when there was a slot for it. -/
theorem writeEntry_inv {journal journal' : Journal} {file file' : File} {e : JournalEntry}
    {u : Unit} (h : journal.writeEntry file e = (.ok u, journal', file')) :
  journal.nextSlot < 512 ∧ journal' = journal.advance 1
    ∧ file' = file.append (journal.appendWrites [e])
  := by
  obtain hlt | hle := Nat.lt_or_ge journal.nextSlot 512
  · rw [Journal.writeEntry_ok hlt] at h
    obtain ⟨-, hpair⟩ := Prod.mk.inj h
    obtain ⟨rfl, rfl⟩ := Prod.mk.inj hpair
    exact ⟨hlt, rfl, rfl⟩
  · have hfull : maxJournalEntries ≤ journal.nextSlot := hle
    rw [Journal.writeEntry, if_pos hfull] at h
    cases (Prod.mk.inj h).1

/-- The pieces of a data write were written only when there were slots for them. -/
theorem logDataWriteAll_inv {journal journal' : Journal} {file file' : File} {tx : UInt32}
    {offset : UInt64} {data : List UInt8} {n : ℕ} (hroom : journal.nextSlot ≤ 512)
    (h : journal.logDataWriteAll file tx offset data = (.ok n, journal', file')) :
  journal.nextSlot + (chunks journalPayloadSize data).length ≤ 512
    ∧ journal' = journal.advance (chunks journalPayloadSize data).length
    ∧ file' = file.append
        (journal.appendWrites (pieceEntries tx offset (chunks journalPayloadSize data)))
  := by
  have hlen := length_chunks (show 0 < journalPayloadSize by decide) data
  unfold Journal.logDataWriteAll at h
  by_cases hnil : data = []
  · rw [if_pos hnil] at h
    obtain ⟨-, hpair⟩ := Prod.mk.inj h
    obtain ⟨rfl, rfl⟩ := Prod.mk.inj hpair
    rw [hnil, chunks_nil, pieceEntries, Journal.appendWrites, File.append_nil]
    exact ⟨hroom, rfl, rfl⟩
  · rw [if_neg hnil] at h
    dsimp only at h
    split at h
    · cases (Prod.mk.inj h).1
    · rename_i havailable
      have hfits : journal.nextSlot + (chunks journalPayloadSize data).length ≤ 512 := by
        rw [← hlen, maxJournalEntries] at havailable
        omega
      rw [journal.logDataWriteChunks_ok file tx offset hfits] at h
      obtain ⟨-, hpair⟩ := Prod.mk.inj h
      obtain ⟨rfl, rfl⟩ := Prod.mk.inj hpair
      exact ⟨hfits, rfl, rfl⟩

/-- A call that returns without an error had room for its entries and appended them. -/
theorem run_ok {call : JournalCall} {s s' : Journal × File} (hroom : s.1.nextSlot ≤ 512)
    (h : call.run s = .ok s') :
  ∃ journal, call.Ran s s' journal
  := by
  obtain ⟨journal, file⟩ := s
  cases call with
  | begin =>
      obtain rfl := Except.ok.inj h
      use journal.begin.2
      exact ⟨rfl, rfl, hroom, .nothing _, rfl, (File.append_nil file).symm⟩
  | logInodeWriteAt txId diskOffset bytes =>
      use journal
      simp only [run, Journal.logInodeWriteAt] at h
      by_cases hlen : journalPayloadSize < bytes.length
      · rw [if_pos hlen] at h
        cases h
      · rw [if_neg hlen] at h
        split at h
        · rename_i hwrite
          obtain rfl := Except.ok.inj h
          obtain ⟨hlt, rfl, rfl⟩ := writeEntry_inv hwrite
          refine ⟨rfl, rfl, hlt, .writes (show LogsUnder txId _ from rfl) ?_, rfl, rfl⟩
          intro e he
          rw [List.mem_singleton.mp he]
          apply writeIn_writeOf (Nat.not_lt.mp hlen) (Or.inl rfl)
        · cases h
  | logDataWriteAll txId diskOffset data =>
      use journal
      simp only [run] at h
      split at h
      · rename_i hwrite
        obtain rfl := Except.ok.inj h
        obtain ⟨hfits, rfl, rfl⟩ := logDataWriteAll_inv hroom hwrite
        have hlen := length_pieceEntries txId diskOffset (chunks journalPayloadSize data)
        refine ⟨rfl, rfl, ?_, .writes (show LogsUnder txId _ from rfl) ?_, ?_, rfl⟩
        · rw [entries, hlen]
          exact hfits
        · apply writeIn_pieceEntries
          intro c hc
          apply length_le_of_mem_chunks hc
        · rw [entries, hlen]
      · cases h
  | commit txId =>
      use journal
      simp only [run, Journal.commit] at h
      split at h
      · rename_i hwrite
        obtain rfl := Except.ok.inj h
        obtain ⟨hlt, rfl, rfl⟩ := writeEntry_inv hwrite
        exact ⟨rfl, rfl, hlt, .commits txId, rfl, rfl⟩
      · cases h

/-- The calls one after the other, as long as they return without an error. -/
def runAll (calls : List JournalCall) (s : Journal × File) : DiskResult (Journal × File) :=
  calls.foldlM run s

omit [Crc32] in
/-- The log of the calls: the entries they append, in order. -/
def log (calls : List JournalCall) : List JournalEntry := calls.flatMap entries

/-- The image holds some first ones of the entries `log`, after the entries `es`. -/
def HoldsSome (es log : List JournalEntry) (img : Image) : Prop :=
  ∃ k ≤ log.length, ∃ h, Tidy img h (es ++ log.take k)

theorem HoldsSome.left {es log log' : List JournalEntry} {img : Image}
    (h : HoldsSome es log img) :
  HoldsSome es (log ++ log') img
  := by
  obtain ⟨k, hk, hd, ht⟩ := h
  use k, by rw [List.length_append]; omega, hd
  rw [List.take_append_of_le_length hk]
  exact ht

theorem HoldsSome.right {es log log' : List JournalEntry} {img : Image}
    (h : HoldsSome (es ++ log) log' img) :
  HoldsSome es (log ++ log') img
  := by
  obtain ⟨k, hk, hd, ht⟩ := h
  use log.length + k, by rw [List.length_append]; omega, hd
  rw [List.take_length_add_append, ← List.append_assoc]
  exact ht

/-- A call leaves some of its entries on disk at each of its file writes, and all of them
at its end. -/
theorem Ran.through {call : JournalCall} {s s' : Journal × File} {journal : Journal}
    {h : JournalHeader} {es : List JournalEntry} (hran : call.Ran s s' journal)
    (hnext : s.1.nextSlot = es.length) (hvalid : s.1.header.isValid = true)
    (ht : Tidy s.2.image h es) :
  File.Through (HoldsSome es call.entries) s.2 s'.2
    ∧ ∃ h', Tidy s'.2.image h' (es ++ call.entries)
  := by
  have hnext' := hran.nextSlot_eq.trans hnext
  have hvalid' := hran.isValid_eq.trans hvalid
  have hroom : es.length + call.entries.length ≤ 512 := hnext ▸ hran.room
  have hused := hran.appends.isFree_eq
  rw [hran.file_eq]
  constructor
  · apply (Journal.through_appendWrites hnext' hvalid' hused hroom ht).mono
    rintro img ⟨k, hk, h', htidy, -⟩
    exact ⟨k, hk, h', htidy⟩
  · rw [File.image_append]
    cases hentries : call.entries with
    | nil =>
        use h
        rw [Journal.appendWrites, Image.writeAll_nil, List.append_nil]
        exact ht
    | cons e new =>
        rw [hentries] at hused hroom
        exact ⟨_, Journal.tidy_appendWrites hnext' hvalid' hused hroom ht⟩

/-- At every file write of the calls, the image holds some first entries of their log, and
at their end it holds the log. -/
theorem through_runAll {calls : List JournalCall} {s s' : Journal × File} {h : JournalHeader}
    {es : List JournalEntry} (hnext : s.1.nextSlot = es.length)
    (hvalid : s.1.header.isValid = true) (ht : Tidy s.2.image h es)
    (hrun : runAll calls s = .ok s') :
  File.Through (HoldsSome es (log calls)) s.2 s'.2
    ∧ (∃ h', Tidy s'.2.image h' (es ++ log calls))
    ∧ ∀ call ∈ calls, call.Appends call.entries
  := by
  induction calls generalizing s h es with
  | nil =>
      obtain rfl := Except.ok.inj hrun
      have hall : Tidy s.2.image h (es ++ log []) := by
        rw [log, List.flatMap_nil, List.append_nil]
        exact ht
      exact ⟨File.Through.refl ⟨0, Nat.zero_le _, h, hall⟩, ⟨h, hall⟩, by simp⟩
  | cons call calls ih =>
      have hroom : s.1.nextSlot ≤ 512 := hnext ▸ ht.length_le
      rw [runAll, List.foldlM_cons] at hrun
      cases hcall : call.run s with
      | error e =>
          rw [hcall] at hrun
          cases hrun
      | ok next =>
          rw [hcall] at hrun
          obtain ⟨journal, hran⟩ := run_ok hroom hcall
          obtain ⟨hthrough, h', hnew⟩ := hran.through hnext hvalid ht
          have hnext' : next.1.nextSlot = (es ++ call.entries).length := by
            rw [hran.journal_eq, Journal.nextSlot_advance, hran.nextSlot_eq, hnext,
              List.length_append]
          have hvalid' : next.1.header.isValid = true := by
            rw [hran.journal_eq, Journal.isValid_advance, hran.isValid_eq, hvalid]
          obtain ⟨hrest, hlast, happends⟩ := ih hnext' hvalid' hnew hrun
          refine ⟨?_, ?_, ?_⟩
          · exact (hthrough.mono fun img himg => himg.left).trans
              (hrest.mono fun img himg => himg.right)
          · rw [List.append_assoc] at hlast
            exact hlast
          · exact List.forall_mem_cons.mpr ⟨hran.appends, happends⟩

end JournalCall

/-! ### What opening gives -/

section Committed

variable {calls : List JournalCall}

/-- Nothing is logged under a transaction after its commit. -/
def ClosedAfterCommit (calls : List JournalCall) : Prop :=
  calls.Pairwise fun call later => ∀ tx, call = .commit tx → ¬ later.LogsUnder tx

/-- In the log of such calls, no write follows the commit entry of its transaction. -/
theorem ClosedAfterCommit.log (h : ClosedAfterCommit calls)
    (happends : ∀ call ∈ calls, call.Appends call.entries) :
  (JournalCall.log calls).Pairwise fun e later =>
    e.entryType = entryCommit → later.isWrite = true → later.txId ≠ e.txId
  := by
  rw [JournalCall.log, List.pairwise_flatMap]
  constructor
  · intro call hcall
    apply List.pairwise_of_forall_mem_list
    intro e he later hlater htype hwrite _
    have hlogs := (happends call hcall).logsUnder hlater hwrite
    rw [((happends call hcall).commit_eq he htype).1] at hlogs
    exact hlogs
  · apply List.Pairwise.imp_of_mem _ h
    intro call call' hcall hcall' hclosed e he later hlater htype hwrite htx
    have hlogs := (happends call' hcall').logsUnder hlater hwrite
    rw [htx] at hlogs
    exact hclosed e.txId ((happends call hcall).commit_eq he htype).1 hlogs

theorem toReplay_eq (es : List JournalEntry) (h : ∀ e ∈ es, e.state = stateWritten) :
  Journal.toReplay es
    = es.filter fun e => e.isWrite && (Journal.committedTxs es).contains e.txId
  := by
  apply List.filter_congr
  intro e he
  simp [h e he, JournalEntry.isWrite, Bool.and_comm]

/-- Replaying some first entries of a closed log makes the writes of the transactions
committed among them, wherever in the log these writes are. -/
theorem toReplay_kept {kept lost : List JournalEntry}
    (hstate : ∀ e ∈ kept ++ lost, e.state = stateWritten)
    (hclosed : (kept ++ lost).Pairwise fun e later =>
      e.entryType = entryCommit → later.isWrite = true → later.txId ≠ e.txId) :
  Journal.toReplay kept
    = (kept ++ lost).filter fun e => e.isWrite && (Journal.committedTxs kept).contains e.txId
  := by
  have hlost : lost.filter (fun e => e.isWrite
      && (Journal.committedTxs kept).contains e.txId) = [] := by
    rw [List.filter_eq_nil_iff]
    intro later hlater hcond
    simp only [Bool.and_eq_true, List.contains_iff_mem] at hcond
    obtain ⟨hwrite, hmem⟩ := hcond
    obtain ⟨e, he, htx⟩ := List.mem_map.mp hmem
    obtain ⟨hkept, htype⟩ := List.mem_filter.mp he
    simp only [Bool.and_eq_true, beq_iff_eq] at htype
    exact (List.pairwise_append.mp hclosed).2.2 e hkept later hlater htype.1 hwrite htx.symm
  rw [toReplay_eq kept fun e he => hstate e (List.mem_append_left lost he),
    List.filter_append, hlost, List.append_nil]

/-- The commit entry of `tx` is in a slot of the image. -/
def CommitOnDisk [Crc32] (img : Image) (log : List JournalEntry) (tx : UInt32) : Prop :=
  ∃ i, log[i]? = some (Journal.commitOf tx)
    ∧ img.slice (slotOffset i) journalEntrySize = (Journal.commitOf tx).toBytes

/-- The transactions committed among the entries on disk are those with their commit entry
in a slot. -/
theorem mem_committedTxs_iff [Crc32] {img : Image} {h : JournalHeader}
    {log : List JournalEntry} {k : ℕ} (ht : Tidy img h (log.take k)) (hlen : log.length ≤ 512)
    (hcommit : ∀ e ∈ log, e.entryType = entryCommit → e = Journal.commitOf e.txId)
    (tx : UInt32) :
  tx ∈ Journal.committedTxs (log.take k) ↔ CommitOnDisk img log tx
  := by
  constructor
  · intro hmem
    obtain ⟨e, he, rfl⟩ := List.mem_map.mp hmem
    obtain ⟨hkept, htype⟩ := List.mem_filter.mp he
    simp only [Bool.and_eq_true, beq_iff_eq] at htype
    obtain ⟨i, hi, hei⟩ := List.getElem_of_mem hkept
    have hslot := ht.slots i hi
    have heq := hcommit e (List.mem_of_mem_take hkept) htype.1
    use i
    constructor
    · rw [← heq, ← hei, List.getElem_take]
      apply List.getElem?_eq_getElem
    · rw [← heq, ← hei]
      exact hslot
  · rintro ⟨i, hi, hslot⟩
    obtain ⟨hlt, hget⟩ := List.getElem?_eq_some_iff.mp hi
    obtain hkept | hlost := Nat.lt_or_ge i (log.take k).length
    · apply List.mem_map.mpr
      use Journal.commitOf tx
      refine ⟨List.mem_filter.mpr ⟨?_, rfl⟩, rfl⟩
      rw [← hget, ← List.getElem_take (h := hkept)]
      apply List.getElem_mem
    · have hfree := ht.free i hlost (Nat.lt_of_lt_of_le hlt hlen)
      rw [SlotFree, ← headD_field_slice (n := 512) (by decide)] at hfree
      rw [journalEntrySize] at hslot
      rw [hslot] at hfree
      cases hfree

end Committed

/-! ### Recovery -/

variable [Crc32]

/-- A freshly formatted journal is empty. -/
theorem tidy_format (file : File) :
  Tidy (Journal.format file).2.image JournalHeader.new []
  := by
  unfold Journal.format
  rw [File.image_append]
  apply tidy_zeroSlots rfl
  rw [File.image_write]
  exact slice_header_headerWrite JournalHeader.new

/-- Fill a freshly formatted journal by calls that log nothing under a transaction after
its commit, and crash after any number of their file writes.  Opening the journal then
gives, in the order of the log, the write entries of the transactions whose commit entry is
on disk, and no other entry. -/
theorem open_after_crash {file : File} {calls : List JournalCall} {s : Journal × File}
    {img : Image} (hrun : JournalCall.runAll calls (Journal.format file) = .ok s)
    (hclosed : ClosedAfterCommit calls)
    (hcrash : File.Crash (Journal.format file).2 s.2 img) :
  ∃ committed : UInt32 → Bool, ∃ journal,
    (∀ tx, committed tx = true ↔ CommitOnDisk img (JournalCall.log calls) tx)
      ∧ Journal.open (File.ofImage img) = .ok (journal,
          (JournalCall.log calls).filter fun e => e.isWrite && committed e.txId)
  := by
  obtain ⟨hthrough, ⟨h', hlast⟩, happends⟩ :=
    JournalCall.through_runAll rfl rfl (tidy_format file) hrun
  rw [List.nil_append] at hlast
  obtain ⟨k, hk, h, ht⟩ := hthrough.crash hcrash
  rw [List.nil_append] at ht
  have hof : ∀ e ∈ JournalCall.log calls, ∃ call ∈ calls, e ∈ call.entries := by
    intro e he
    exact List.mem_flatMap.mp he
  have hstate : ∀ e ∈ JournalCall.log calls, e.state = stateWritten := by
    intro e he
    obtain ⟨call, hcall, hmem⟩ := hof e he
    exact (happends call hcall).state_eq e hmem
  have hcommit : ∀ e ∈ JournalCall.log calls, e.entryType = entryCommit →
      e = Journal.commitOf e.txId := by
    intro e he htype
    obtain ⟨call, hcall, hmem⟩ := hof e he
    exact ((happends call hcall).commit_eq hmem htype).2
  use fun tx => (Journal.committedTxs ((JournalCall.log calls).take k)).contains tx
  use ⟨h, ((JournalCall.log calls).take k).length⟩
  constructor
  · intro tx
    rw [List.contains_iff_mem]
    apply mem_committedTxs_iff ht hlast.length_le hcommit
  · rw [← List.take_append_drop k (JournalCall.log calls)] at hstate
    have hordered := hclosed.log happends
    rw [← List.take_append_drop k (JournalCall.log calls)] at hordered
    have hreplay := toReplay_kept hstate hordered
    rw [List.take_append_drop] at hreplay
    rw [← hreplay]
    exact Readable.open ht.toReadable

omit [Crc32] in
/-- A crash after the calls of one transaction that logs one byte. -/
theorem open_after_crash_one_byte :
  let _ := Crc32.ieee
  let calls := [JournalCall.begin, .logInodeWriteAt 1 4096 [7], .commit 1]
  ∃ s, JournalCall.runAll calls (Journal.format (File.ofImage Image.empty)) = .ok s
    ∧ ∃ committed : UInt32 → Bool, ∃ journal,
      (∀ tx, committed tx = true ↔ CommitOnDisk s.2.image (JournalCall.log calls) tx)
        ∧ Journal.open (File.ofImage s.2.image) = .ok (journal,
            (JournalCall.log calls).filter fun e => e.isWrite && committed e.txId)
  := by
  intro _ calls
  have hclosed : ClosedAfterCommit calls := by
    simp [calls, ClosedAfterCommit, JournalCall.LogsUnder]
  have hrun : ∃ s, JournalCall.runAll calls (Journal.format (File.ofImage Image.empty)) = .ok s :=
    ⟨_, rfl⟩
  obtain ⟨s, hrun⟩ := hrun
  obtain ⟨hthrough, -, -⟩ :=
    JournalCall.through_runAll rfl rfl (tidy_format (File.ofImage Image.empty)) hrun
  use s, hrun
  exact open_after_crash hrun hclosed (File.Crash.last hthrough.extended)

end Vexfs
