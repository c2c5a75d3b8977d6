import Vexfs.Fs.Disk

/-!
# Compression

Files of the cold tier are stored compressed, behind a header of a magic number and the
original size.  The compression library is a parameter: `LawfulZstd` says that decoding
inverts encoding.

Nothing but the header tells compressed data from data that is stored as it is.  Data that is
not compressed and starts with the magic number is taken for compressed data
(`decompress_compress_iff`).
-/

namespace Vexfs

open Bytes

/-- The compression library. -/
class Zstd where
  /-- The frame of some bytes, unless encoding fails. -/
  encodeAll : List UInt8 → Option (List UInt8)
  /-- The bytes read from a frame, up to its end or an error. -/
  decode : List UInt8 → List UInt8

/-- Decoding inverts encoding. -/
class LawfulZstd [Zstd] : Prop where
  decode_encodeAll : ∀ data frame, Zstd.encodeAll data = some frame → Zstd.decode frame = data

/-- A library that encodes nothing. -/
@[reducible]
def Zstd.refusing : Zstd where
  encodeAll _ := none
  decode frame := frame

theorem lawfulZstd_refusing :
  @LawfulZstd Zstd.refusing
  := @LawfulZstd.mk Zstd.refusing fun _ _ h => nomatch h

/-- "ZSTD" -/
def compressMagic : UInt32 := 0x5A535444

def compressHeaderSize : ℕ := 8

/-- The bytes of a header. -/
def compressHeader (data : List UInt8) : List UInt8 :=
  u32ToLe compressMagic ++ u32ToLe (UInt32.ofNat data.length)

variable [Zstd]

/-- Compress data of 512 bytes or more, if that makes it shorter. -/
def compress (data : List UInt8) : List UInt8 :=
  if data.length < 512 then data
  else
    let compressed := (Zstd.encodeAll data).getD data
    if data.length ≤ compressed.length then data
    else compressHeader data ++ compressed

/-- Decompress data that has a header, and return other data as it is. -/
def decompress (data : List UInt8) : List UInt8 :=
  if data.length < compressHeaderSize then data
  else if leToU32 (field data 0 4) ≠ compressMagic then data
  else Zstd.decode (data.drop compressHeaderSize)

/-- Whether compressing makes data shorter, not counting the header. -/
def Shrinks (data : List UInt8) : Prop :=
  512 ≤ data.length ∧ ∃ frame, Zstd.encodeAll data = some frame ∧ frame.length < data.length

omit [Zstd] in
/-- Whether data starts as compressed data does. -/
def HasHeader (data : List UInt8) : Prop :=
  compressHeaderSize ≤ data.length ∧ leToU32 (field data 0 4) = compressMagic

/-- Data that is not made shorter is stored as it is. -/
theorem compress_of_not_shrinks {data : List UInt8} (h : ¬ Shrinks data) :
  compress data = data
  := by
  unfold compress
  split
  · rfl
  · next hlong =>
    cases hframe : Zstd.encodeAll data with
    | none => exact if_pos (Nat.le_refl data.length)
    | some frame =>
        apply if_pos
        apply not_lt.mp
        intro hlt
        exact h ⟨not_lt.mp hlong, frame, hframe, hlt⟩

theorem compress_of_shrinks {data frame : List UInt8} (hlong : 512 ≤ data.length)
    (hframe : Zstd.encodeAll data = some frame) (hlt : frame.length < data.length) :
  compress data = compressHeader data ++ frame
  := by
  unfold compress
  rw [if_neg (not_lt.mpr hlong), hframe]
  exact if_neg (not_le.mpr hlt)

theorem decompress_of_not_hasHeader {data : List UInt8} (h : ¬ HasHeader data) :
  decompress data = data
  := by
  unfold decompress
  split
  · rfl
  split
  · rfl
  · next hlong hmagic => exact absurd ⟨not_lt.mp hlong, not_not.mp hmagic⟩ h

theorem decompress_of_hasHeader {data : List UInt8} (h : HasHeader data) :
  decompress data = Zstd.decode (data.drop compressHeaderSize)
  := by
  unfold decompress
  rw [if_neg (not_lt.mpr h.1), if_neg (not_not.mpr h.2)]

omit [Zstd] in
theorem length_compressHeader (data : List UInt8) :
  (compressHeader data).length = compressHeaderSize
  := by
  simp [compressHeader, compressHeaderSize]

omit [Zstd] in
theorem hasHeader_compressHeader (data frame : List UInt8) :
  HasHeader (compressHeader data ++ frame)
  := by
  constructor
  · rw [List.length_append, length_compressHeader]
    exact Nat.le_add_right _ _
  · rw [compressHeader, List.append_assoc, field_head (length_u32ToLe _), leToU32_u32ToLe]

/-- Data that is made shorter is read back. -/
theorem decompress_compress_of_shrinks [LawfulZstd] {data : List UInt8} (h : Shrinks data) :
  decompress (compress data) = data
  := by
  obtain ⟨hlong, frame, hframe, hlt⟩ := h
  rw [compress_of_shrinks hlong hframe hlt,
    decompress_of_hasHeader (hasHeader_compressHeader data frame),
    ← length_compressHeader data, List.drop_left]
  exact LawfulZstd.decode_encodeAll data frame hframe

/-- Data is read back exactly when compressing makes it shorter, or it does not start as
compressed data does, or what follows the first bytes happens to decode to all of it. -/
theorem decompress_compress_iff [LawfulZstd] (data : List UInt8) :
  decompress (compress data) = data
    ↔ Shrinks data ∨ ¬ HasHeader data ∨ Zstd.decode (data.drop compressHeaderSize) = data
  := by
  by_cases hshrinks : Shrinks data
  · exact iff_of_true (decompress_compress_of_shrinks hshrinks) (Or.inl hshrinks)
  rw [compress_of_not_shrinks hshrinks, or_iff_right hshrinks]
  by_cases hheader : HasHeader data
  · rw [decompress_of_hasHeader hheader, or_iff_right (not_not.mpr hheader)]
  · exact iff_of_true (decompress_of_not_hasHeader hheader) (Or.inl hheader)

omit [Zstd] in
/-- A few bytes are stored as they are. -/
theorem decompress_compress_iff_tiny :
  let _ := Zstd.refusing
  let data : List UInt8 := [116, 105, 110, 121]
  decompress (compress data) = data
    ↔ Shrinks data ∨ ¬ HasHeader data ∨ Zstd.decode (data.drop compressHeaderSize) = data
  := by
  let _ := Zstd.refusing
  have _ := lawfulZstd_refusing
  exact decompress_compress_iff [116, 105, 110, 121]

omit [Zstd] in
/-- Eight bytes that start with the magic number are read back as none. -/
theorem not_decompress_compress :
  let _ := Zstd.refusing
  LawfulZstd ∧ ¬ ∀ data : List UInt8, data.length < 2 ^ 32 → decompress (compress data) = data
  := by
  let _ := Zstd.refusing
  refine ⟨lawfulZstd_refusing, fun h => ?_⟩
  have hread := h (u32ToLe compressMagic ++ zeros 4) (by decide)
  exact absurd hread (by decide)

end Vexfs
