import Mathlib

/-!
# Images and the files that hold them

An `Image` is a finite sequence of bytes, kept as its size and the byte at each position;
past the size every byte is zero, so that writing past the end fills the gap with zeros.
A `FileWrite` puts a list of bytes at an offset.  A `File` is an image together with the
history of the writes made to it since, so that the images a crash can leave behind are
the ones a prefix of the history gives.
-/

namespace Storage

/-! ### Writes -/

/-- A write of the bytes `data` at position `offset`. -/
structure FileWrite where
  offset : Nat
  data : List UInt8
deriving DecidableEq, Repr

namespace FileWrite

/-- The byte the write puts at a position, if the position is one of those written. -/
def byteAt (w : FileWrite) (i : Nat) : Option UInt8 :=
  if w.offset ≤ i then w.data[i - w.offset]? else none

/-- The position just after the last byte written. -/
def stop (w : FileWrite) : Nat := w.offset + w.data.length

theorem byteAt_isSome {w : FileWrite} {i : Nat} :
  (w.byteAt i).isSome ↔ w.offset ≤ i ∧ i < w.stop
  := by
  unfold byteAt stop
  split
  · simp only [isSome_getElem?]
    omega
  · simp
    omega

theorem byteAt_eq_none {w : FileWrite} {i : Nat} :
  w.byteAt i = none ↔ i < w.offset ∨ w.stop ≤ i
  := by
  rw [← Option.not_isSome_iff_eq_none, byteAt_isSome]
  omega

theorem byteAt_add {w : FileWrite} {k : Nat} (h : k < w.data.length) :
  w.byteAt (w.offset + k) = some w.data[k]
  := by
  simp [byteAt, h]

theorem byteAt_nil (o i : Nat) :
  (FileWrite.mk o []).byteAt i = none
  := by
  simp [byteAt]

/-- A write of a concatenation is the write of the first part and then of the second. -/
theorem byteAt_append (o : Nat) (a b : List UInt8) (i : Nat) :
  (FileWrite.mk o (a ++ b)).byteAt i
    = ((FileWrite.mk (o + a.length) b).byteAt i).or ((FileWrite.mk o a).byteAt i)
  := by
  unfold byteAt
  by_cases h : o ≤ i
  · by_cases h' : o + a.length ≤ i
    · have hge : a.length ≤ i - o := by omega
      have hsub : i - o - a.length = i - (o + a.length) := by omega
      simp [h, h', List.getElem?_append_right hge, List.getElem?_eq_none hge, hsub]
    · have hlt : i - o < a.length := by omega
      simp [h, h', List.getElem?_append_left hlt]
  · have h' : ¬ o + a.length ≤ i := by omega
    simp [h, h']

end FileWrite

/-- The byte a sequence of writes leaves at a position: that of the last write there. -/
def written : List FileWrite → Nat → Option UInt8
  | [], _ => none
  | w :: ws, i => (written ws i).or (w.byteAt i)

@[simp]
theorem written_nil (i : Nat) :
  written [] i = none
  := rfl

theorem written_append (ws vs : List FileWrite) (i : Nat) :
  written (ws ++ vs) i = (written vs i).or (written ws i)
  := by
  induction ws with
  | nil => simp
  | cons w ws ih => simp [written, ih, Option.or_assoc]

theorem written_singleton (w : FileWrite) (i : Nat) :
  written [w] i = w.byteAt i
  := rfl

theorem written_eq_none {ws : List FileWrite} {i : Nat} :
  written ws i = none ↔ ∀ w ∈ ws, w.byteAt i = none
  := by
  induction ws with
  | nil => simp
  | cons w ws ih => simp [written, ih, and_comm]

/-- What a sequence of writes leaves at a position is what one of them puts there. -/
theorem exists_of_written {ws : List FileWrite} {i : Nat} {b : UInt8}
    (h : written ws i = some b) :
  ∃ w ∈ ws, w.byteAt i = some b
  := by
  induction ws with
  | nil => simp at h
  | cons w ws ih =>
      rw [written, Option.or_eq_some_iff] at h
      obtain h | ⟨-, h⟩ := h
      · obtain ⟨v, hv, hb⟩ := ih h
        use v, List.mem_cons_of_mem w hv
      · use w, List.mem_cons_self

/-! ### Images -/

/-- A sequence of `size` bytes; past its end every byte is zero. -/
@[ext]
structure Image where
  size : Nat
  byte : Nat → UInt8
  byte_eq_zero : ∀ i, size ≤ i → byte i = 0

namespace Image

/-- The image without bytes. -/
def empty : Image where
  size := 0
  byte _ := 0
  byte_eq_zero _ _ := rfl

/-- The image of `n` zero bytes. -/
def zeros (n : Nat) : Image where
  size := n
  byte _ := 0
  byte_eq_zero _ _ := rfl

/-- The image after a write.  A write without bytes does not touch the image. -/
def write (img : Image) (w : FileWrite) : Image where
  size := if w.data = [] then img.size else max img.size w.stop
  byte i := (w.byteAt i).getD (img.byte i)
  byte_eq_zero i hi := by
    have hstop : w.stop ≤ i ∨ w.data = [] := by
      split at hi
      · right
        assumption
      · left
        omega
    have hsize : img.size ≤ i := by
      split at hi
      · assumption
      · omega
    have hnone : w.byteAt i = none := by
      obtain h | h := hstop
      · apply FileWrite.byteAt_eq_none.mpr (Or.inr h)
      · simp [FileWrite.byteAt, h]
    rw [hnone, Option.getD_none, img.byte_eq_zero i hsize]

/-- The image after a sequence of writes. -/
def writeAll (img : Image) (ws : List FileWrite) : Image :=
  ws.foldl write img

/-- The `n` bytes from position `offset` on. -/
def slice (img : Image) (offset n : Nat) : List UInt8 :=
  List.ofFn fun k : Fin n => img.byte (offset + k)

/-- The `n` bytes from position `offset` on, when the image has them all. -/
def read (img : Image) (offset n : Nat) : Option (List UInt8) :=
  if n = 0 ∨ offset + n ≤ img.size then some (img.slice offset n) else none

/-! #### Bytes after writes -/

@[simp]
theorem writeAll_nil (img : Image) :
  img.writeAll [] = img
  := rfl

@[simp]
theorem writeAll_cons (img : Image) (w : FileWrite) (ws : List FileWrite) :
  img.writeAll (w :: ws) = (img.write w).writeAll ws
  := rfl

theorem writeAll_append (img : Image) (ws vs : List FileWrite) :
  img.writeAll (ws ++ vs) = (img.writeAll ws).writeAll vs
  := List.foldl_append

theorem byte_write (img : Image) (w : FileWrite) (i : Nat) :
  (img.write w).byte i = (w.byteAt i).getD (img.byte i)
  := rfl

theorem byte_writeAll (img : Image) (ws : List FileWrite) (i : Nat) :
  (img.writeAll ws).byte i = (written ws i).getD (img.byte i)
  := by
  induction ws generalizing img with
  | nil => rfl
  | cons w ws ih =>
      rw [writeAll_cons, ih, written, byte_write]
      cases written ws i with
      | none => rfl
      | some b => rfl

/-- Where two images agree, they agree after the same write. -/
theorem eqOn_write {a b : Image} {S : Set Nat} (w : FileWrite) (h : Set.EqOn a.byte b.byte S) :
  Set.EqOn (a.write w).byte (b.write w).byte S
  := by
  intro i hi
  rw [byte_write, byte_write, h hi]

/-- Where two images agree, they agree after the same writes. -/
theorem eqOn_writeAll {a b : Image} {S : Set Nat} (ws : List FileWrite)
    (h : Set.EqOn a.byte b.byte S) :
  Set.EqOn (a.writeAll ws).byte (b.writeAll ws).byte S
  := by
  intro i hi
  rw [byte_writeAll, byte_writeAll, h hi]

theorem byte_write_of_lt {img : Image} {w : FileWrite} {i : Nat} (h : i < w.offset) :
  (img.write w).byte i = img.byte i
  := by
  rw [byte_write, FileWrite.byteAt_eq_none.mpr (Or.inl h), Option.getD_none]

theorem byte_write_of_stop_le {img : Image} {w : FileWrite} {i : Nat} (h : w.stop ≤ i) :
  (img.write w).byte i = img.byte i
  := by
  rw [byte_write, FileWrite.byteAt_eq_none.mpr (Or.inr h), Option.getD_none]

/-! #### Sizes -/

theorem size_le_size_write (img : Image) (w : FileWrite) :
  img.size ≤ (img.write w).size
  := by
  unfold write
  dsimp only
  split
  · exact Nat.le_refl _
  · exact Nat.le_max_left _ _

theorem size_le_size_writeAll (img : Image) (ws : List FileWrite) :
  img.size ≤ (img.writeAll ws).size
  := by
  induction ws generalizing img with
  | nil => exact Nat.le_refl _
  | cons w ws ih => exact Nat.le_trans (size_le_size_write img w) (ih (img.write w))

theorem size_write_of_stop_le {img : Image} {w : FileWrite} (h : w.stop ≤ img.size) :
  (img.write w).size = img.size
  := by
  unfold write
  dsimp only
  split
  · rfl
  · exact Nat.max_eq_left h

theorem stop_le_size_write {img : Image} {w : FileWrite} (h : w.data ≠ []) :
  w.stop ≤ (img.write w).size
  := by
  simp only [write, if_neg h]
  exact Nat.le_max_right _ _

/-- Writes within an image leave its size. -/
theorem size_writeAll_of_stop_le {img : Image} {ws : List FileWrite}
    (h : ∀ w ∈ ws, w.stop ≤ img.size) :
  (img.writeAll ws).size = img.size
  := by
  induction ws generalizing img with
  | nil => rfl
  | cons w ws ih =>
      have hw := size_write_of_stop_le (h w List.mem_cons_self)
      rw [writeAll_cons, ih, hw]
      intro v hv
      rw [hw]
      apply h v (List.mem_cons_of_mem w hv)

/-! #### Slices -/

@[simp]
theorem length_slice (img : Image) (offset n : Nat) :
  (img.slice offset n).length = n
  := List.length_ofFn

@[simp]
theorem getElem_slice (img : Image) (offset n k : Nat) (h : k < (img.slice offset n).length) :
  (img.slice offset n)[k] = img.byte (offset + k)
  := by
  simp [slice]

/-- A slice depends on the bytes of its range alone. -/
theorem slice_congr {a b : Image} {offset n : Nat}
    (h : ∀ i, offset ≤ i → i < offset + n → a.byte i = b.byte i) :
  a.slice offset n = b.slice offset n
  := by
  apply List.ext_getElem
  · simp
  · intro k hk _
    rw [length_slice] at hk
    rw [getElem_slice, getElem_slice]
    apply h <;> omega

theorem slice_eq_iff {img : Image} {offset n : Nat} {d : List UInt8} (hd : d.length = n) :
  img.slice offset n = d ↔ ∀ k (h : k < d.length), img.byte (offset + k) = d[k]
  := by
  constructor
  · rintro rfl k h
    rw [getElem_slice]
  · intro h
    apply List.ext_getElem
    · simp [hd]
    · intro k _ hk
      rw [getElem_slice, h k hk]

theorem slice_write_self (img : Image) (w : FileWrite) :
  (img.write w).slice w.offset w.data.length = w.data
  := by
  apply (slice_eq_iff rfl).mpr
  intro k h
  rw [byte_write, FileWrite.byteAt_add h, Option.getD_some]

theorem slice_write_eq (img : Image) (offset : Nat) {n : Nat} {d : List UInt8}
    (hn : d.length = n) :
  (img.write ⟨offset, d⟩).slice offset n = d
  := by
  rw [← hn]
  apply slice_write_self

/-- An image that agrees with one just written to holds what was written. -/
theorem slice_eq_of_write (img : Image) {img' : Image} {offset n : Nat} {d : List UInt8}
    (hn : d.length = n)
    (h : ∀ i, offset ≤ i → i < offset + n → img'.byte i = (img.write ⟨offset, d⟩).byte i) :
  img'.slice offset n = d
  := by
  rw [← slice_write_eq img offset hn]
  apply slice_congr h

/-- A write elsewhere leaves a slice. -/
theorem slice_write_disjoint {img : Image} {w : FileWrite} {offset n : Nat}
    (h : w.stop ≤ offset ∨ offset + n ≤ w.offset) :
  (img.write w).slice offset n = img.slice offset n
  := by
  apply slice_congr
  intro i hlo hhi
  obtain h | h := h
  · apply byte_write_of_stop_le (Nat.le_trans h hlo)
  · apply byte_write_of_lt (Nat.lt_of_lt_of_le hhi h)

theorem field_slice (img : Image) {offset n lo hi : Nat} (hhi : hi ≤ n) :
  ((img.slice offset n).take hi).drop lo = img.slice (offset + lo) (hi - lo)
  := by
  apply List.ext_getElem
  · simp
    omega
  · intro k hk _
    simp only [List.length_drop, List.length_take, length_slice] at hk
    rw [List.getElem_drop, List.getElem_take, getElem_slice, getElem_slice, Nat.add_assoc]

/-! #### Reads -/

theorem read_of_le {img : Image} {offset n : Nat} (h : offset + n ≤ img.size) :
  img.read offset n = some (img.slice offset n)
  := if_pos (Or.inr h)

theorem eq_slice_of_read {img : Image} {offset n : Nat} {d : List UInt8}
    (h : img.read offset n = some d) :
  d = img.slice offset n
  := by
  unfold read at h
  split at h
  · exact (Option.some.inj h).symm
  · cases h

/-- A read depends on the size of the image and on the bytes of its range alone. -/
theorem read_congr {a b : Image} {offset n : Nat} (hsize : a.size = b.size)
    (h : ∀ i, offset ≤ i → i < offset + n → a.byte i = b.byte i) :
  a.read offset n = b.read offset n
  := by
  rw [read, read, hsize, slice_congr h]

/-- A read that succeeds gives the same bytes on a larger image that agrees on its
range. -/
theorem read_mono {a b : Image} {offset n : Nat} {d : List UInt8} (hsize : a.size ≤ b.size)
    (h : ∀ i, offset ≤ i → i < offset + n → a.byte i = b.byte i)
    (hd : a.read offset n = some d) :
  b.read offset n = some d
  := by
  unfold read at hd ⊢
  split at hd
  · rename_i hle
    rw [if_pos (by omega), ← slice_congr h, hd]
  · cases hd

end Image

/-! ### Files -/

/-- An image and the writes made to it since, the earliest first. -/
structure File where
  base : Image
  history : List FileWrite

namespace File

/-- A file just opened on an image. -/
def ofImage (img : Image) : File := ⟨img, []⟩

/-- What the file holds now. -/
def image (f : File) : Image := f.base.writeAll f.history

/-- The file after further writes. -/
def append (f : File) (ws : List FileWrite) : File :=
  { f with history := f.history ++ ws }

/-- The file after a write of `data` at `offset`. -/
def write (f : File) (offset : Nat) (data : List UInt8) : File :=
  f.append [⟨offset, data⟩]

@[simp]
theorem image_ofImage (img : Image) :
  (ofImage img).image = img
  := rfl

@[simp]
theorem image_append (f : File) (ws : List FileWrite) :
  (f.append ws).image = f.image.writeAll ws
  := Image.writeAll_append _ _ _

@[simp]
theorem image_write (f : File) (offset : Nat) (data : List UInt8) :
  (f.write offset data).image = f.image.write ⟨offset, data⟩
  := image_append f _

@[simp]
theorem append_nil (f : File) :
  f.append [] = f
  := by
  simp [append]

theorem append_append (f : File) (ws vs : List FileWrite) :
  (f.append ws).append vs = f.append (ws ++ vs)
  := by
  simp [append]

theorem append_cons (f : File) (w : FileWrite) (ws : List FileWrite) :
  f.append (w :: ws) = (f.write w.offset w.data).append ws
  := by
  simp [append, write]

/-- `g` is `f` after further writes. -/
def Extends (f g : File) : Prop :=
  ∃ ws, g = f.append ws

theorem Extends.refl (f : File) :
  Extends f f
  := ⟨[], (append_nil f).symm⟩

theorem Extends.trans {f g h : File} (hfg : Extends f g) (hgh : Extends g h) :
  Extends f h
  := by
  obtain ⟨ws, rfl⟩ := hfg
  obtain ⟨vs, rfl⟩ := hgh
  use ws ++ vs
  apply append_append

theorem Extends.append (f : File) (ws : List FileWrite) :
  Extends f (f.append ws)
  := ⟨ws, rfl⟩

theorem Extends.write (f : File) (offset : Nat) (data : List UInt8) :
  Extends f (f.write offset data)
  := ⟨_, rfl⟩

/-! #### Crashes -/

/-- `img` is what a crash can leave of a file on its way from `f` to `g`: the image after
the writes of `f` and some first writes of those `g` has beyond them. -/
def Crash (f g : File) (img : Image) : Prop :=
  ∃ ws, f.history <+: ws ∧ ws <+: g.history ∧ img = f.base.writeAll ws

/-- A crash may come before any further write. -/
theorem Crash.first {f g : File} (h : Extends f g) :
  Crash f g f.image
  := by
  obtain ⟨ws, rfl⟩ := h
  use f.history, List.prefix_refl _, List.prefix_append _ _
  rfl

/-- A crash may come after all the writes. -/
theorem Crash.last {f g : File} (h : Extends f g) :
  Crash f g g.image
  := by
  obtain ⟨ws, rfl⟩ := h
  use f.history ++ ws, List.prefix_append _ _, List.prefix_refl _
  rfl

/-- A crash may come at any file on the way. -/
theorem Crash.between {f m g : File} (hfm : Extends f m) (hmg : Extends m g) :
  Crash f g m.image
  := by
  obtain ⟨ws, rfl⟩ := hfm
  obtain ⟨vs, rfl⟩ := hmg
  use f.history ++ ws, List.prefix_append _ _, List.prefix_append _ _
  rfl

/-- `g` is `f` after further writes, and `P` holds of the image before, between and after
them. -/
def Through (P : Image → Prop) (f g : File) : Prop :=
  ∃ ws, g = f.append ws ∧ ∀ vs, vs <+: ws → P (f.image.writeAll vs)

namespace Through

variable {P Q : Image → Prop}

theorem refl {f : File} (h : P f.image) :
  Through P f f
  := by
  use [], (append_nil f).symm
  intro vs hvs
  rw [List.prefix_nil.mp hvs]
  apply h

theorem extended {f g : File} (h : Through P f g) :
  Extends f g
  := by
  obtain ⟨ws, rfl, -⟩ := h
  apply Extends.append

theorem first {f g : File} (h : Through P f g) :
  P f.image
  := by
  obtain ⟨ws, -, h⟩ := h
  apply h [] (List.nil_prefix)

theorem last {f g : File} (h : Through P f g) :
  P g.image
  := by
  obtain ⟨ws, rfl, h⟩ := h
  rw [image_append]
  apply h ws (List.prefix_refl ws)

theorem mono {f g : File} (hPQ : ∀ img, P img → Q img) (h : Through P f g) :
  Through Q f g
  := by
  obtain ⟨ws, hg, h⟩ := h
  use ws, hg
  intro vs hvs
  apply hPQ _ (h vs hvs)

theorem trans {f g h : File} (hfg : Through P f g) (hgh : Through P g h) :
  Through P f h
  := by
  obtain ⟨ws, rfl, hws⟩ := hfg
  obtain ⟨vs, rfl, hvs⟩ := hgh
  use ws ++ vs, append_append f ws vs
  intro us hus
  obtain hle | ⟨ts, rfl⟩ := List.prefix_or_prefix_of_prefix hus (List.prefix_append ws vs)
  · apply hws us hle
  · rw [Image.writeAll_append, ← image_append]
    apply hvs ts
    apply (List.prefix_append_right_inj ws).mp hus

theorem write {f : File} {offset : Nat} {data : List UInt8} (h : P f.image)
    (h' : P (f.image.write ⟨offset, data⟩)) :
  Through P f (f.write offset data)
  := by
  use [⟨offset, data⟩], rfl
  intro vs hvs
  cases vs with
  | nil => apply h
  | cons v vs =>
      obtain ⟨rfl, hnil⟩ := List.cons_prefix_cons.mp hvs
      obtain rfl := List.prefix_nil.mp hnil
      apply h'

/-- Every image a crash can leave satisfies what holds throughout. -/
theorem crash {f g : File} {img : Image} (h : Through P f g) (hc : Crash f g img) :
  P img
  := by
  obtain ⟨ws, rfl, h⟩ := h
  obtain ⟨us, ⟨vs, rfl⟩, hus, rfl⟩ := hc
  rw [Image.writeAll_append]
  apply h vs
  apply (List.prefix_append_right_inj f.history).mp hus

end Through

/-- A property kept by each write of a list holds throughout the list. -/
theorem through_append {P : Image → Prop} {f : File} {ws : List FileWrite}
    (h : ∀ vs, vs <+: ws → P (f.image.writeAll vs)) :
  Through P f (f.append ws)
  := ⟨ws, rfl, h⟩

end File

end Storage
