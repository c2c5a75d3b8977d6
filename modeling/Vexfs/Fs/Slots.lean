import Vexfs.Fs.Atomicity

/-!
# The slots of a journal

`Holds img h slots` says what every slot of the journal of an image holds: an entry, or
nothing that is read.  Unlike a tidy journal it may have entries behind a free slot, which
a reader does not reach until the free slots before them are filled.  `leading slots` are
the entries that are read.
-/

namespace Vexfs

open Bytes Storage

variable {slots : ℕ → Option JournalEntry}

/-! ### Slots as a function -/

/-- The entries in at most `n` slots from slot `i` on, up to the first free one. -/
def leadingFrom (slots : ℕ → Option JournalEntry) : ℕ → ℕ → List JournalEntry
  | 0, _ => []
  | n + 1, i =>
      match slots i with
      | none => []
      | some e => e :: leadingFrom slots n (i + 1)

/-- The entries a reader of the journal finds. -/
def leading (slots : ℕ → Option JournalEntry) : List JournalEntry :=
  leadingFrom slots 512 0

/-- The slots once entries are put into them, from slot `a` on. -/
def fill (slots : ℕ → Option JournalEntry) (a : ℕ) (es : List JournalEntry) :
    ℕ → Option JournalEntry :=
  fun i => if a ≤ i ∧ i < a + es.length then es[i - a]? else slots i

/-- The slots once the first `k` of them are freed. -/
def wipe (slots : ℕ → Option JournalEntry) (k : ℕ) : ℕ → Option JournalEntry :=
  fun i => if i < k then none else slots i

theorem length_leadingFrom_le (n i : ℕ) :
  (leadingFrom slots n i).length ≤ n
  := by
  induction n generalizing i with
  | zero => exact Nat.le_refl 0
  | succ n ih =>
      rw [leadingFrom]
      split
      · exact Nat.zero_le _
      · exact Nat.succ_le_succ (ih (i + 1))

/-- The entries found lie in the slots, in order. -/
theorem getElem_leadingFrom (n i : ℕ) {j : ℕ} (hj : j < (leadingFrom slots n i).length) :
  slots (i + j) = some (leadingFrom slots n i)[j]
  := by
  induction n generalizing i j with
  | zero => cases hj
  | succ n ih =>
      cases hslot : slots i with
      | none => simp [leadingFrom, hslot] at hj
      | some e =>
          simp only [leadingFrom, hslot] at hj ⊢
          cases j with
          | zero => exact hslot
          | succ j =>
              rw [List.getElem_cons_succ, ← ih (i + 1) (Nat.lt_of_succ_lt_succ hj)]
              congr 1
              omega

/-- The slot after the last entry found is free. -/
theorem leadingFrom_stop (n i : ℕ) (h : (leadingFrom slots n i).length < n) :
  slots (i + (leadingFrom slots n i).length) = none
  := by
  induction n generalizing i with
  | zero => cases h
  | succ n ih =>
      cases hslot : slots i with
      | none => simp [leadingFrom, hslot]
      | some e =>
          simp only [leadingFrom, hslot, List.length_cons] at h ⊢
          rw [← ih (i + 1) (Nat.lt_of_succ_lt_succ h)]
          congr 1
          omega

theorem leadingFrom_congr {slots' : ℕ → Option JournalEntry} (n i : ℕ)
    (h : ∀ j, i ≤ j → j < i + n → slots' j = slots j) :
  leadingFrom slots' n i = leadingFrom slots n i
  := by
  induction n generalizing i with
  | zero => rfl
  | succ n ih =>
      rw [leadingFrom, leadingFrom, h i (Nat.le_refl i) (by omega)]
      split
      · rfl
      · rw [ih (i + 1) fun j hlo hhi => h j (by omega) (by omega)]

/-- Slots that hold `es` are read before the ones behind them. -/
theorem leadingFrom_append {es : List JournalEntry} (n i : ℕ)
    (h : ∀ j (hj : j < es.length), slots (i + j) = some es[j]) :
  leadingFrom slots (es.length + n) i = es ++ leadingFrom slots n (i + es.length)
  := by
  induction es generalizing i with
  | nil => simp
  | cons e es ih =>
      have hhead : slots i = some e := h 0 (Nat.succ_pos _)
      have hrest : ∀ j (hj : j < es.length), slots (i + 1 + j) = some es[j] := by
        intro j hj
        have hj' := h (j + 1) (Nat.succ_lt_succ hj)
        rw [List.getElem_cons_succ] at hj'
        rw [← hj']
        congr 1
        omega
      have hlen : (e :: es).length + n = es.length + n + 1 := by
        rw [List.length_cons]
        omega
      rw [hlen, leadingFrom, hhead, List.length_cons]
      dsimp only
      rw [ih (i + 1) hrest, List.cons_append]
      congr 3
      omega

theorem fill_of_lt {a i : ℕ} {es : List JournalEntry} (h : i < a) :
  fill slots a es i = slots i
  := if_neg fun hi => absurd hi.1 (Nat.not_le.mpr h)

theorem fill_of_le {a i : ℕ} {es : List JournalEntry} (h : a + es.length ≤ i) :
  fill slots a es i = slots i
  := if_neg fun hi => absurd hi.2 (Nat.not_lt.mpr h)

theorem fill_add {a j : ℕ} {es : List JournalEntry} (h : j < es.length) :
  fill slots a es (a + j) = some es[j]
  := by
  rw [fill, if_pos (by omega), Nat.add_sub_cancel_left, List.getElem?_eq_getElem h]

theorem mem_of_fill {a i : ℕ} {es : List JournalEntry} {e : JournalEntry}
    (h : fill slots a es i = some e) :
  e ∈ es ∨ slots i = some e
  := by
  rw [fill] at h
  split at h
  · exact Or.inl (List.mem_of_getElem? h)
  · exact Or.inr h

@[simp]
theorem fill_nil (slots : ℕ → Option JournalEntry) (a : ℕ) :
  fill slots a [] = slots
  := by
  funext i
  obtain h | h := Nat.lt_or_ge i a
  · exact fill_of_lt h
  · exact fill_of_le h

/-- Filling slots one entry after the other. -/
theorem fill_cons (slots : ℕ → Option JournalEntry) (a : ℕ) (e : JournalEntry)
    (es : List JournalEntry) :
  fill slots a (e :: es) = fill (Function.update slots a (some e)) (a + 1) es
  := by
  funext i
  obtain h | rfl | h := Nat.lt_trichotomy i a
  · rw [fill_of_lt h, fill_of_lt (Nat.lt_succ_of_lt h),
      Function.update_of_ne (Nat.ne_of_lt h)]
  · rw [fill_of_lt (Nat.lt_succ_self i), Function.update_self]
    have hself : fill slots i (e :: es) (i + 0) = some e := fill_add (Nat.succ_pos es.length)
    exact hself
  · obtain hlt | hge := Nat.lt_or_ge i (a + (e :: es).length)
    · rw [List.length_cons] at hlt
      obtain ⟨j, rfl⟩ : ∃ j, i = a + (j + 1) := ⟨i - a - 1, by omega⟩
      have hj : j < es.length := by omega
      have hshift : a + (j + 1) = a + 1 + j := by omega
      rw [fill_add (Nat.succ_lt_succ hj), hshift, fill_add hj, List.getElem_cons_succ]
    · rw [fill_of_le hge, fill_of_le (by rw [List.length_cons] at hge; omega),
        Function.update_of_ne (Nat.ne_of_gt h)]

/-- Filling on. -/
theorem fill_fill (slots : ℕ → Option JournalEntry) (a : ℕ) (xs ys : List JournalEntry) :
  fill (fill slots a xs) (a + xs.length) ys = fill slots a (xs ++ ys)
  := by
  induction xs generalizing slots a with
  | nil => simp
  | cons x xs ih =>
      have hshift : a + (x :: xs).length = a + 1 + xs.length := by
        rw [List.length_cons]
        omega
      rw [fill_cons, hshift, ih, List.cons_append, fill_cons]

/-- What is read once entries fill the slots after the first `a`, all of which are in
use: the entries before, the new entries, and what the slots behind them hold. -/
theorem leading_fill {a : ℕ} {old es : List JournalEntry} (hlen : old.length = a)
    (hold : ∀ j (hj : j < old.length), slots j = some old[j]) (hroom : a + es.length ≤ 512) :
  leading (fill slots a es)
    = old ++ (es ++ leadingFrom slots (512 - (a + es.length)) (a + es.length))
  := by
  subst hlen
  have hsplit : 512 = old.length + (es.length + (512 - (old.length + es.length))) := by omega
  have hnew : leadingFrom (fill slots old.length es)
      (es.length + (512 - (old.length + es.length))) old.length
      = es ++ leadingFrom slots (512 - (old.length + es.length)) (old.length + es.length) := by
    rw [leadingFrom_append _ _ fun j hj => fill_add hj]
    congr 1
    apply leadingFrom_congr
    intro j hlo _
    apply fill_of_le hlo
  have hold' : ∀ j (hj : j < old.length), fill slots old.length es (0 + j) = some old[j] := by
    intro j hj
    rw [Nat.zero_add, fill_of_lt hj, hold j hj]
  have hfirst := leadingFrom_append (es.length + (512 - (old.length + es.length))) 0 hold'
  rw [← hsplit, Nat.zero_add, hnew] at hfirst
  exact hfirst

/-! ### Slots on the disk -/

section Disk

variable [Crc32] {img : Image} {h h' : JournalHeader} {e : JournalEntry} {i : ℕ}

/-- The journal of an image has the header `h`, and its slots are as `slots` says. -/
structure Holds (img : Image) (h : JournalHeader) (slots : ℕ → Option JournalEntry) : Prop where
  size_le : dataOffset ≤ img.size
  valid : h.isValid = true
  header : img.slice journalOffset 64 = h.toBytes
  used : ∀ i < 512, ∀ e, slots i = some e →
    e.isFree = false ∧ img.slice (slotOffset i) 512 = e.toBytes
  free : ∀ i < 512, slots i = none → SlotFree img i

namespace Holds

/-- What is read of the journal. -/
theorem readable (hh : Holds img h slots) :
  Readable img h (leading slots)
  := by
  have hle : (leading slots).length ≤ 512 := length_leadingFrom_le 512 0
  have hslot : ∀ j (hj : j < (leading slots).length), slots j = some (leading slots)[j] := by
    intro j hj
    have hget := getElem_leadingFrom 512 0 hj
    rw [Nat.zero_add] at hget
    exact hget
  constructor
  · exact hh.size_le
  · exact hh.valid
  · exact hh.header
  · intro j hj
    exact (hh.used j (by omega) _ (hslot j hj)).2
  · intro x hx
    obtain ⟨j, hj, rfl⟩ := List.getElem_of_mem hx
    exact (hh.used j (by omega) _ (hslot j hj)).1
  · exact hle
  · intro hlt
    have hstop : slots (0 + (leading slots).length) = none := leadingFrom_stop 512 0 hlt
    rw [Nat.zero_add] at hstop
    exact hh.free _ hlt hstop

/-- A tidy journal holds its entries and nothing else. -/
theorem of_tidy {es : List JournalEntry} (ht : Tidy img h es) :
  Holds img h (fun i => es[i]?)
  := by
  constructor
  · exact ht.size_le
  · exact ht.valid
  · exact ht.header
  · intro i _ e he
    obtain ⟨hi, rfl⟩ := List.getElem?_eq_some_iff.mp he
    exact ⟨ht.used _ (List.getElem_mem hi), ht.slots i hi⟩
  · intro i hi he
    exact ht.free i (List.getElem?_eq_none_iff.mp he) hi

/-- Writing an entry to a slot. -/
theorem write_slot (hused : e.isFree = false) (hh : Holds img h slots) :
  Holds (img.write (slotWrite i e.toBytes)) h (Function.update slots i (some e))
  := by
  have hlen : e.toBytes.length = 512 := e.length_toBytes
  constructor
  · apply Nat.le_trans hh.size_le (Image.size_le_size_write _ _)
  · exact hh.valid
  · rw [slice_header_slotWrite, hh.header]
  · intro j hj x hx
    by_cases hji : j = i
    · subst hji
      rw [Function.update_self] at hx
      cases hx
      exact ⟨hused, slice_slotWrite_self hlen⟩
    · rw [Function.update_of_ne hji] at hx
      rw [slice_slotWrite_ne hlen hji]
      exact hh.used j hj x hx
  · intro j hj hx
    by_cases hji : j = i
    · subst hji
      rw [Function.update_self] at hx
      cases hx
    · rw [Function.update_of_ne hji] at hx
      apply (SlotFree.congr (slice_slotWrite_ne hlen hji)).mpr (hh.free j hj hx)

/-- Zeroing a slot frees it. -/
theorem zero_slot (hh : Holds img h slots) :
  Holds (img.write (slotWrite i (zeros 512))) h (Function.update slots i none)
  := by
  have hlen : (zeros 512).length = 512 := length_zeros 512
  constructor
  · apply Nat.le_trans hh.size_le (Image.size_le_size_write _ _)
  · exact hh.valid
  · rw [slice_header_slotWrite, hh.header]
  · intro j hj x hx
    by_cases hji : j = i
    · subst hji
      rw [Function.update_self] at hx
      cases hx
    · rw [Function.update_of_ne hji] at hx
      rw [slice_slotWrite_ne hlen hji]
      exact hh.used j hj x hx
  · intro j hj hx
    by_cases hji : j = i
    · subst hji
      exact slotFree_of_zeros (slice_slotWrite_self hlen)
    · rw [Function.update_of_ne hji] at hx
      apply (SlotFree.congr (slice_slotWrite_ne hlen hji)).mpr (hh.free j hj hx)

/-- Writing a header. -/
theorem write_header (hvalid : h'.isValid = true) (hh : Holds img h slots) :
  Holds (img.write (headerWrite h')) h' slots
  := by
  constructor
  · apply Nat.le_trans hh.size_le (Image.size_le_size_write _ _)
  · exact hvalid
  · exact slice_header_headerWrite h'
  · intro j hj x hx
    rw [slice_headerWrite]
    exact hh.used j hj x hx
  · intro j hj hx
    apply (SlotFree.congr (slice_headerWrite h')).mpr (hh.free j hj hx)

/-- Freeing the first slots. -/
theorem zeroSlots (k : ℕ) (hh : Holds img h slots) :
  Holds (img.writeAll (Vexfs.zeroSlots k)) h (wipe slots k)
  := by
  constructor
  · apply Nat.le_trans hh.size_le (Image.size_le_size_writeAll _ _)
  · exact hh.valid
  · rw [slice_header_zeroSlots, hh.header]
  · intro j hj x hx
    rw [wipe] at hx
    split at hx
    · cases hx
    · next hjk =>
      rw [slice_zeroSlots_of_le (Nat.not_lt.mp hjk)]
      exact hh.used j hj x hx
  · intro j hj hx
    by_cases hjk : j < k
    · apply slotFree_of_zeros (slice_zeroSlots_of_lt hjk)
    · rw [wipe, if_neg hjk] at hx
      apply (SlotFree.congr (slice_zeroSlots_of_le (Nat.not_lt.mp hjk))).mpr (hh.free j hj hx)

/-- The slots depend on the bytes of the journal and the size alone. -/
theorem congr {img' : Image} (hsize : img.size ≤ img'.size)
    (heq : ∀ i, journalOffset ≤ i → i < dataOffset → img'.byte i = img.byte i)
    (hh : Holds img h slots) :
  Holds img' h slots
  := by
  have hdata := dataOffset_eq
  have hslot : ∀ i < 512,
      img'.slice (slotOffset i) 512 = img.slice (slotOffset i) 512 := by
    intro i hi
    apply Image.slice_congr
    intro k hlo hhi
    simp only [slotOffset_eq] at hlo hhi
    apply heq <;> omega
  constructor
  · apply Nat.le_trans hh.size_le hsize
  · exact hh.valid
  · rw [← hh.header]
    apply Image.slice_congr
    intro k hlo hhi
    apply heq k hlo
    omega
  · intro j hj x hx
    rw [hslot j hj]
    exact hh.used j hj x hx
  · intro j hj hx
    apply (SlotFree.congr (hslot j hj)).mpr (hh.free j hj hx)

/-- A write that avoids the journal leaves its slots. -/
theorem write {w : FileWrite} (havoids : AvoidsJournal w) (hh : Holds img h slots) :
  Holds (img.write w) h slots
  := by
  apply hh.congr (Image.size_le_size_write img w)
  intro i hlo hhi
  apply havoids.byte_eq img hlo hhi

/-- Clearing a journal frees all slots. -/
theorem clear (hvalid : h'.isValid = true) (hh : Holds img h slots) :
  Tidy (img.writeAll (clearWrites h')) { h' with entryCount := 0 } []
  := by
  have hhead : Holds (img.write (headerWrite { h' with entryCount := 0 }))
      { h' with entryCount := 0 } slots :=
    hh.write_header hvalid
  rw [clearWrites, Image.writeAll_cons]
  exact tidy_zeroSlots hhead.valid hhead.header

end Holds

/-- Appending entries fills slots with them. -/
theorem Holds.appendWrites {journal : Journal} {new : List JournalEntry}
    (hvalid : journal.header.isValid = true) (hused : ∀ x ∈ new, x.isFree = false)
    (hh : Holds img h slots) :
  ∃ h', Holds (img.writeAll (journal.appendWrites new)) h' (fill slots journal.nextSlot new)
  := by
  induction new generalizing journal img h slots with
  | nil => exact ⟨h, by simpa [Journal.appendWrites] using hh⟩
  | cons e new ih =>
      have hslot := hh.write_slot (i := journal.nextSlot) (hused e List.mem_cons_self)
      have hhead := hslot.write_header (journal.isValid_next.trans hvalid)
      rw [Journal.appendWrites, Image.writeAll_cons, Image.writeAll_cons, fill_cons]
      exact ih (journal.isValid_next.trans hvalid)
        (fun x hx => hused x (List.mem_cons_of_mem e hx)) hhead

/-! ### Writes to slots -/

omit [Crc32] in
theorem slotOffset_inj {j : ℕ} (h : slotOffset i = slotOffset j) :
  i = j
  := by
  rw [slotOffset_eq, slotOffset_eq] at h
  omega

/-- Whether one of the writes is that of slot `i`. -/
def WritesSlot (ws : List FileWrite) (i : ℕ) : Prop :=
  ∃ w ∈ ws, w.offset = slotOffset i

omit [Crc32] in
@[simp]
theorem not_writesSlot_nil (i : ℕ) :
  ¬ WritesSlot [] i
  := by
  simp [WritesSlot]

omit [Crc32] in
@[simp]
theorem writesSlot_cons {w : FileWrite} {ws : List FileWrite} :
  WritesSlot (w :: ws) i ↔ w.offset = slotOffset i ∨ WritesSlot ws i
  := by
  simp [WritesSlot]

omit [Crc32] in
@[simp]
theorem writesSlot_append {ws vs : List FileWrite} :
  WritesSlot (ws ++ vs) i ↔ WritesSlot ws i ∨ WritesSlot vs i
  := by
  simp [WritesSlot, or_and_right, exists_or]

omit [Crc32] in
theorem offset_slotWrite {j : ℕ} {b : List UInt8} :
  (slotWrite j b).offset = slotOffset i ↔ j = i
  := ⟨slotOffset_inj, congrArg slotOffset⟩

theorem offset_headerWrite_ne :
  (headerWrite h).offset ≠ slotOffset i
  := by
  show journalOffset ≠ slotOffset i
  rw [slotOffset_eq]
  omega

/-- After some first ones of the writes that append entries, the slots hold some first ones
of the entries, all of them after all of the writes, and these are the slots that were
written. -/
theorem Holds.prefix_appendWrites {journal : Journal} {new : List JournalEntry}
    {vs : List FileWrite} (hvalid : journal.header.isValid = true)
    (hused : ∀ x ∈ new, x.isFree = false) (hvs : vs <+: journal.appendWrites new)
    (hh : Holds img h slots) :
  ∃ k ≤ new.length, (∃ h', Holds (img.writeAll vs) h' (fill slots journal.nextSlot (new.take k)))
    ∧ (∀ i, WritesSlot vs i ↔ journal.nextSlot ≤ i ∧ i < journal.nextSlot + k)
    ∧ (vs = journal.appendWrites new → k = new.length)
  := by
  induction new generalizing journal img h slots vs with
  | nil =>
      obtain rfl := List.prefix_nil.mp hvs
      refine ⟨0, Nat.le_refl _, ⟨h, by simpa using hh⟩, ?_, fun _ => rfl⟩
      intro i
      simp
  | cons e new ih =>
      have hslot := hh.write_slot (i := journal.nextSlot) (hused e List.mem_cons_self)
      have hhead := hslot.write_header (journal.isValid_next.trans hvalid)
      have hone : fill slots journal.nextSlot [e]
          = Function.update slots journal.nextSlot (some e) := by
        rw [fill_cons, fill_nil]
      rw [Journal.appendWrites] at hvs
      cases vs with
      | nil =>
          refine ⟨0, Nat.zero_le _, ⟨h, by simpa using hh⟩, ?_, by rintro ⟨⟩⟩
          intro i
          simp
      | cons v vs =>
          obtain ⟨rfl, hrest⟩ := List.cons_prefix_cons.mp hvs
          cases vs with
          | nil =>
              refine ⟨1, Nat.succ_le_succ (Nat.zero_le _), ⟨h, ?_⟩, ?_, by rintro ⟨⟩⟩
              · rw [List.take_succ_cons, List.take_zero, hone]
                exact hslot
              · intro i
                rw [writesSlot_cons, offset_slotWrite]
                simp only [not_writesSlot_nil, or_false]
                omega
          | cons u vs =>
              obtain ⟨rfl, htail⟩ := List.cons_prefix_cons.mp hrest
              obtain ⟨k, hk, ⟨h', hholds⟩, hwritten, hall⟩ := ih (journal.isValid_next.trans hvalid)
                (fun x hx => hused x (List.mem_cons_of_mem e hx)) htail hhead
              refine ⟨k + 1, Nat.succ_le_succ hk, ⟨h', ?_⟩, ?_, ?_⟩
              · rw [List.take_succ_cons, fill_cons, Image.writeAll_cons, Image.writeAll_cons]
                exact hholds
              · intro i
                rw [writesSlot_cons, writesSlot_cons, offset_slotWrite, hwritten]
                simp only [offset_headerWrite_ne, false_or, Journal.next]
                omega
              · intro heq
                rw [Journal.appendWrites] at heq
                have htails := (List.cons.inj (List.cons.inj heq).2).2
                rw [List.length_cons, hall htails]

end Disk

end Vexfs
