import Vexfs.Fs.Capacity
import Vexfs.Fs.JournalRun
import Vexfs.Fs.Metadata

/-!
# Interrupted checkpoints

`Journal::clear` writes the header and then zeroes the slots one after the other.  A crash
after some of the slots leaves the other old entries on the disk, behind free slots, and
opening the image starts to log at the first slot.  As soon as the new entries reach the
first old one, a reader of the journal finds both.  `survivors` are the old entries that are
read once `j` new ones are on the disk; the old transactions stay away exactly as long as
none of them is a write that is committed, by an old entry or by a new one.
-/

namespace Vexfs

open Bytes Storage

variable [Crc32]

/-! ### A crash in a clear -/

/-- The number of old entries the opened journal keeps in front of the new ones: none when
a slot was zeroed. -/
def keptCount (slots : ℕ → Option JournalEntry) (k : ℕ) : ℕ :=
  (leading (wipe slots k)).length

/-- The old entries in the slots behind `j` new ones, up to the first free slot. -/
def tail (slots : ℕ → Option JournalEntry) (k j : ℕ) : List JournalEntry :=
  leadingFrom (wipe slots k) (512 - (keptCount slots k + j)) (keptCount slots k + j)

/-- The entries a call logs, with its commit entry. -/
def JournaledCall.logged (dm : DiskManager) : JournaledCall → List JournalEntry
  | writeInode index inode =>
      match dm.inodeTable.inodeOffset index with
      | some offset => dm.entriesOf (dm.inodeEntries offset inode)
      | none => []
  | writeFileData offset data =>
      if data = [] then [] else dm.entriesOf (dm.dataEntries offset data)

/-- The writes of a transaction, with those that clear the journal when it is nearly
full. -/
def DiskManager.transactionWrites (dm : DiskManager) (new : List JournalEntry)
    (w : FileWrite) : List FileWrite :=
  dm.journal.begin.2.appendWrites (dm.entriesOf new) ++ w ::
    if (dm.transact new w).journal.needsCheckpoint then
      clearWrites (dm.transact new w).journal.header
    else []

theorem DiskManager.file_transact_checkpoint (dm : DiskManager) (new : List JournalEntry)
    (w : FileWrite) :
  (dm.transact new w).checkpoint.file = dm.file.append (dm.transactionWrites new w)
  := by
  rw [transactionWrites, ← File.append_append, File.append_cons, checkpoint]
  split
  · rw [Journal.clear_eq]
    rfl
  · rw [File.append_nil]
    rfl

/-- A write that leaves the other slots of the journal alone. -/
inductive Tame : FileWrite → Prop where
  | entry {e : JournalEntry} (i : ℕ) (hused : e.isFree = false) : Tame (slotWrite i e.toBytes)
  | zero (i : ℕ) : Tame (slotWrite i (zeros 512))
  | header {h : JournalHeader} (hvalid : h.isValid = true) : Tame (headerWrite h)
  | past {w : FileWrite} (havoids : AvoidsJournal w) : Tame w

/-- Every slot in use was written by `ws`. -/
def Fresh (img : Image) (ws : List FileWrite) : Prop :=
  ∃ h slots, Holds img h slots ∧ ∀ i < 512, (slots i).isSome → WritesSlot ws i

theorem Fresh.write {img : Image} {ws : List FileWrite} {w : FileWrite} (hw : Tame w)
    (h : Fresh img ws) :
  Fresh (img.write w) (ws ++ [w])
  := by
  obtain ⟨hd, slots, hh, hslots⟩ := h
  cases hw with
  | @entry e i hused =>
      refine ⟨hd, _, hh.write_slot hused, ?_⟩
      intro j hj hsome
      rw [writesSlot_append, writesSlot_cons, offset_slotWrite]
      by_cases hji : j = i
      · exact Or.inr (Or.inl hji.symm)
      · rw [Function.update_of_ne hji] at hsome
        exact Or.inl (hslots j hj hsome)
  | zero i =>
      refine ⟨hd, _, hh.zero_slot, ?_⟩
      intro j hj hsome
      rw [writesSlot_append]
      left
      by_cases hji : j = i
      · rw [hji, Function.update_self] at hsome
        cases hsome
      · rw [Function.update_of_ne hji] at hsome
        exact hslots j hj hsome
  | header hvalid =>
      refine ⟨_, slots, hh.write_header hvalid, ?_⟩
      intro j hj hsome
      exact writesSlot_append.mpr (Or.inl (hslots j hj hsome))
  | past havoids =>
      refine ⟨hd, slots, hh.write havoids, ?_⟩
      intro j hj hsome
      exact writesSlot_append.mpr (Or.inl (hslots j hj hsome))

theorem Fresh.writeAll {img : Image} {ws vs : List FileWrite} (hvs : ∀ w ∈ vs, Tame w)
    (h : Fresh img ws) :
  Fresh (img.writeAll vs) (ws ++ vs)
  := by
  induction vs generalizing img ws with
  | nil => simpa using h
  | cons v vs ih =>
      have hv := h.write (hvs v List.mem_cons_self)
      have hrest := ih (fun w hw => hvs w (List.mem_cons_of_mem v hw)) hv
      rwa [List.append_assoc, List.singleton_append] at hrest

theorem tame_of_mem_appendWrites {journal : Journal} {new : List JournalEntry}
    (hvalid : journal.header.isValid = true) (hused : ∀ e ∈ new, e.isFree = false) :
  ∀ w ∈ journal.appendWrites new, Tame w
  := by
  induction new generalizing journal with
  | nil => simp [Journal.appendWrites]
  | cons e new ih =>
      intro w hw
      rw [Journal.appendWrites, List.mem_cons, List.mem_cons] at hw
      obtain rfl | rfl | hw := hw
      · exact .entry _ (hused e List.mem_cons_self)
      · exact .header (journal.isValid_next.trans hvalid)
      · exact ih (journal.isValid_next.trans hvalid)
          (fun x hx => hused x (List.mem_cons_of_mem e hx)) w hw

theorem tame_of_mem_clearWrites {h : JournalHeader} (hvalid : h.isValid = true) :
  ∀ w ∈ clearWrites h, Tame w
  := by
  intro w hw
  obtain rfl | hw := List.mem_cons.mp hw
  · exact .header hvalid
  · obtain ⟨i, -, rfl⟩ := mem_zeroSlots.mp hw
    exact .zero i

theorem tame_of_mem_transactionWrites {dm : DiskManager} {new : List JournalEntry}
    {w : FileWrite} (hl : Loggable dm [] new w) (hvalid : dm.journal.header.isValid = true) :
  ∀ v ∈ dm.transactionWrites new w, Tame v
  := by
  have hbegin : dm.journal.begin.2.header.isValid = true := hvalid
  intro v hv
  rw [DiskManager.transactionWrites, List.mem_append, List.mem_cons] at hv
  obtain hv | rfl | hv := hv
  · exact tame_of_mem_appendWrites hbegin (isFree_of_mem_entries hl.writeIn) v hv
  · exact .past hl.avoids
  · split at hv
    · exact tame_of_mem_clearWrites ((Journal.isValid_advance _ _).trans hbegin) v hv
    · cases hv

theorem avoidsJournal_of_mem_flushWrites {dm : DiskManager} {w : FileWrite}
    (hw : w ∈ dm.flushWrites) :
  AvoidsJournal w
  := Or.inl (Nat.le_trans (dm.stop_le_of_mem_flushWrites hw) (by decide))

/-! ### Journals with old entries behind the new ones -/

/-- The journal holds what an interrupted clear left of `slots`, with the entries `new`
filled in after the ones that are kept, and these were written by `ws`. -/
structure Behind (slots : ℕ → Option JournalEntry) (k : ℕ) (img : Image) (ws : List FileWrite)
    (new : List JournalEntry) : Prop where
  holds : ∃ h, Holds img h (fill (wipe slots k) (keptCount slots k) new)
  written : ∀ i, keptCount slots k ≤ i → i < keptCount slots k + new.length → WritesSlot ws i

namespace Behind

variable {slots : ℕ → Option JournalEntry} {k : ℕ} {img : Image} {ws : List FileWrite}
  {new : List JournalEntry}

/-- What is read: the entries that are kept, the new ones, and the old ones behind. -/
theorem readable (hroom : keptCount slots k + new.length ≤ 512) (h : Behind slots k img ws new) :
  ∃ hd, Readable img hd (leading (wipe slots k) ++ (new ++ tail slots k new.length))
  := by
  obtain ⟨⟨hd, hh⟩, -⟩ := h
  have hread := hh.readable
  have hkept : ∀ j (hj : j < (leading (wipe slots k)).length),
      wipe slots k j = some (leading (wipe slots k))[j] := by
    intro j hj
    have hget := getElem_leadingFrom 512 0 hj
    rw [Nat.zero_add] at hget
    exact hget
  have hleading : leading (fill (wipe slots k) (keptCount slots k) new)
      = leading (wipe slots k) ++ (new ++ tail slots k new.length) :=
    leading_fill rfl hkept hroom
  rw [hleading] at hread
  exact ⟨hd, hread⟩

end Behind

/-- The journal of a manager that has opened such an image, after it has logged `new`. -/
structure Reaches (slots : ℕ → Option JournalEntry) (k : ℕ) (dm : DiskManager)
    (ws : List FileWrite) (new : List JournalEntry) : Prop extends
    Behind slots k dm.image ws new where
  nextSlot_eq : dm.journal.nextSlot = keptCount slots k + new.length

namespace Reaches

variable {slots : ℕ → Option JournalEntry} {k : ℕ} {dm : DiskManager} {ws : List FileWrite}
  {new es : List JournalEntry} {w : FileWrite}

/-- Some first ones of the writes that log entries put some first ones of the entries
behind those that are there. -/
theorem behind_append (hvalid : dm.journal.header.isValid = true)
    (hused : ∀ e ∈ es, e.isFree = false) (h : Reaches slots k dm ws new)
    {us : List FileWrite} (hus : us <+: dm.journal.begin.2.appendWrites es) :
  ∃ j ≤ es.length, Behind slots k (dm.image.writeAll us) (ws ++ us) (new ++ es.take j)
    ∧ (us = dm.journal.begin.2.appendWrites es → j = es.length)
  := by
  obtain ⟨hd, hh⟩ := h.holds
  have hbegin : dm.journal.begin.2.header.isValid = true := hvalid
  have hnext : dm.journal.begin.2.nextSlot = keptCount slots k + new.length := h.nextSlot_eq
  obtain ⟨j, hj, ⟨hd', hh'⟩, hwritten, hall⟩ := hh.prefix_appendWrites hbegin hused hus
  refine ⟨j, hj, ⟨⟨hd', ?_⟩, ?_⟩, hall⟩
  · rw [hnext, fill_fill] at hh'
    exact hh'
  · intro i hlo hhi
    rw [writesSlot_append]
    obtain hlt | hge := Nat.lt_or_ge i (keptCount slots k + new.length)
    · exact Or.inl (h.written i hlo hlt)
    · right
      rw [List.length_append, List.length_take, Nat.min_eq_left hj] at hhi
      rw [hwritten, hnext]
      omega

end Reaches

namespace Behind

variable {slots : ℕ → Option JournalEntry} {k : ℕ} {img : Image} {ws : List FileWrite}
  {new : List JournalEntry}

theorem write {w : FileWrite} (havoids : AvoidsJournal w) (h : Behind slots k img ws new) :
  Behind slots k (img.write w) (ws ++ [w]) new
  := by
  obtain ⟨hd, hh⟩ := h.holds
  refine ⟨⟨hd, hh.write havoids⟩, ?_⟩
  intro i hlo hhi
  exact writesSlot_append.mpr (Or.inl (h.written i hlo hhi))

theorem writeAll {vs : List FileWrite} (havoids : ∀ w ∈ vs, AvoidsJournal w)
    (h : Behind slots k img ws new) :
  Behind slots k (img.writeAll vs) (ws ++ vs) new
  := by
  induction vs generalizing img ws with
  | nil => simpa using h
  | cons v vs ih =>
      have hrest := ih (fun w hw => havoids w (List.mem_cons_of_mem v hw))
        (h.write (havoids v List.mem_cons_self))
      rwa [List.append_assoc, List.singleton_append] at hrest

end Behind

namespace Reaches

variable {slots : ℕ → Option JournalEntry} {k : ℕ} {dm : DiskManager} {ws : List FileWrite}
  {new es : List JournalEntry} {w : FileWrite}

/-- After a transaction that does not clear the journal. -/
theorem transact (hl : Loggable dm [] es w) (hvalid : dm.journal.header.isValid = true)
    (h : Reaches slots k dm ws new) :
  Reaches slots k (dm.transact es w) (ws ++ (dm.journal.begin.2.appendWrites (dm.entriesOf es)
    ++ [w])) (new ++ dm.entriesOf es)
  := by
  obtain ⟨j, hj, hbehind, hall⟩ := h.behind_append hvalid (isFree_of_mem_entries hl.writeIn)
    (List.prefix_refl _)
  rw [hall rfl, List.take_length] at hbehind
  constructor
  · rw [dm.image_transact, DiskManager.logFile, File.image_append, ← List.append_assoc]
    exact hbehind.write hl.avoids
  · have hnext := h.nextSlot_eq
    rw [DiskManager.transact, Journal.nextSlot_advance, List.length_append]
    show dm.journal.nextSlot + _ = _
    omega

end Reaches

/-! ### Runs after the crash -/

/-- A manager that has opened an image with an interrupted clear, after the writes `ws`: it
has the entries it logged behind the kept ones until the journal is cleared, and no old entry
from then on. -/
structure Underway (slots : ℕ → Option JournalEntry) (k : ℕ) (dm : DiskManager)
    (ws : List FileWrite) (new : List JournalEntry) (cleared : Bool) : Prop where
  valid : dm.journal.header.isValid = true
  placed : dm.inodeTable.Placed
  journal : Journal.toReplay (leading (wipe slots k)) = [] ∧ cleared = false
      ∧ Reaches slots k dm ws new
    ∨ Fresh dm.image ws

namespace Underway

variable {slots : ℕ → Option JournalEntry} {k : ℕ} {dm : DiskManager} {ws us : List FileWrite}
  {new es : List JournalEntry} {w : FileWrite} {cleared : Bool}

/-- A transaction keeps the manager underway. -/
theorem transaction (hl : Loggable dm [] es w)
    (h : Underway slots k dm ws new cleared) :
  Underway slots k (dm.transact es w).checkpoint (ws ++ dm.transactionWrites es w)
    (if cleared then new else new ++ dm.entriesOf es)
    (cleared || (dm.transact es w).journal.needsCheckpoint)
  := by
  have hbegin : dm.journal.begin.2.header.isValid = true := h.valid
  have hvalid : (dm.transact es w).journal.header.isValid = true :=
    (Journal.isValid_advance _ _).trans hbegin
  have himage : (dm.transact es w).checkpoint.image
      = dm.image.writeAll (dm.transactionWrites es w) := by
    rw [DiskManager.image, dm.file_transact_checkpoint, File.image_append]
    rfl
  have htable : (dm.transact es w).checkpoint.inodeTable = dm.inodeTable := by
    obtain ⟨journal, file, hframe⟩ := (dm.transact es w).checkpoint_frame
    rw [hframe]
    rfl
  have hheader : (dm.transact es w).checkpoint.journal.header.isValid = true := by
    rw [DiskManager.checkpoint]
    split
    · rw [Journal.clear_eq]
      exact hvalid
    · exact hvalid
  refine ⟨hheader, htable ▸ h.placed, ?_⟩
  obtain ⟨hkept, hcleared, hreaches⟩ | hfresh := h.journal
  · subst hcleared
    have hnext := hreaches.transact hl h.valid
    cases hcheck : (dm.transact es w).journal.needsCheckpoint with
    | false =>
        left
        have hwrites : dm.transactionWrites es w
            = dm.journal.begin.2.appendWrites (dm.entriesOf es) ++ [w] := by
          simp [DiskManager.transactionWrites, hcheck]
        have hsame : (dm.transact es w).checkpoint = dm.transact es w := by
          simp [DiskManager.checkpoint, hcheck]
        rw [hwrites, hsame]
        exact ⟨hkept, rfl, hnext⟩
    | true =>
        right
        obtain ⟨hd, hh⟩ := hnext.holds
        have htidy := hh.clear hvalid
        have hclear : (dm.transact es w).checkpoint.image
            = (dm.transact es w).image.writeAll
              (clearWrites (dm.transact es w).journal.header) := by
          rw [DiskManager.image, DiskManager.checkpoint, if_pos hcheck, Journal.clear_eq,
            File.image_append]
          rfl
        rw [← hclear] at htidy
        refine ⟨_, _, .of_tidy htidy, ?_⟩
        simp
  · right
    rw [himage]
    exact hfresh.writeAll (tame_of_mem_transactionWrites hl h.valid)

/-- Closing the image keeps the manager underway. -/
theorem flush (h : Underway slots k dm ws new cleared) :
  Underway slots k dm.flush (ws ++ dm.flushWrites) new cleared
  := by
  have himage := dm.image_flush
  refine ⟨h.valid, h.placed, ?_⟩
  obtain ⟨hkept, hcleared, hreaches⟩ | hfresh := h.journal
  · left
    refine ⟨hkept, hcleared, ?_, hreaches.nextSlot_eq⟩
    rw [himage]
    exact hreaches.toBehind.writeAll fun v hv => avoidsJournal_of_mem_flushWrites hv
  · right
    rw [himage]
    exact hfresh.writeAll fun v hv => .past (avoidsJournal_of_mem_flushWrites hv)

end Underway

end Vexfs
