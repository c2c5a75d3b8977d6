import Mathlib

/-!
# Lossy decoding of UTF-8

`fromUtf8Lossy` makes a string of any bytes.  It puts a replacement character for every
longest prefix of a well-formed sequence that is not followed by the rest of one.  On the
UTF-8 encoding of a string it gives the string.
-/

namespace Bytes

/-- Whether a byte continues a sequence. -/
def isContinuation (b : UInt8) : Bool := b &&& 192 == 128

/-- Whether a sequence of more than one byte may begin with the two bytes. -/
def beginsSequence (first second : UInt8) : Bool :=
  if 0xC2 ≤ first && first ≤ 0xDF then isContinuation second
  else if first == 0xE0 then 0xA0 ≤ second && second ≤ 0xBF
  else if 0xE1 ≤ first && first ≤ 0xEC then isContinuation second
  else if first == 0xED then 0x80 ≤ second && second ≤ 0x9F
  else if 0xEE ≤ first && first ≤ 0xEF then isContinuation second
  else if first == 0xF0 then 0x90 ≤ second && second ≤ 0xBF
  else if 0xF1 ≤ first && first ≤ 0xF3 then isContinuation second
  else if first == 0xF4 then 0x80 ≤ second && second ≤ 0x8F
  else false

/-- How many of the bytes, which begin with no character, stand for one replacement
character. -/
def replacedLength : List UInt8 → ℕ
  | first :: second :: rest =>
      if beginsSequence first second then
        if (rest.head?.map isContinuation).getD false then 3 else 2
      else 1
  | _ => 1

/-- The characters of the bytes, of which there are at most `fuel`. -/
def lossyChars : ℕ → List UInt8 → List Char
  | 0, _ => []
  | _ + 1, [] => []
  | fuel + 1, b :: bs =>
      match (b :: bs).toByteArray.utf8DecodeChar? 0 with
      | some c => c :: lossyChars fuel ((b :: bs).drop c.utf8Size)
      | none => Char.ofNat 0xFFFD :: lossyChars fuel ((b :: bs).drop (replacedLength (b :: bs)))

def fromUtf8Lossy (bytes : List UInt8) : String :=
  String.ofList (lossyChars bytes.length bytes)

/-- A well-formed character is decoded. -/
theorem lossyChars_encode_append {fuel : ℕ} (c : Char) (bytes : List UInt8) :
  lossyChars (fuel + 1) (String.utf8EncodeChar c ++ bytes) = c :: lossyChars fuel bytes
  := by
  have hlength := String.length_utf8EncodeChar c
  have hdecode : (String.utf8EncodeChar c ++ bytes).toByteArray.utf8DecodeChar? 0 = some c := by
    rw [List.toByteArray_append]
    exact ByteArray.utf8DecodeChar?_utf8EncodeChar_append
  have hdrop : (String.utf8EncodeChar c ++ bytes).drop c.utf8Size = bytes := by
    rw [← hlength, List.drop_left]
  cases hbytes : String.utf8EncodeChar c ++ bytes with
  | nil =>
      have hpos := c.utf8Size_pos
      rw [(List.append_eq_nil_iff.mp hbytes).1, List.length_nil] at hlength
      omega
  | cons b bs =>
      rw [hbytes] at hdecode hdrop
      rw [lossyChars, hdecode]
      dsimp only
      rw [hdrop]

theorem lossyChars_flatMap {fuel : ℕ} {chars : List Char}
    (h : (chars.flatMap String.utf8EncodeChar).length ≤ fuel) :
  lossyChars fuel (chars.flatMap String.utf8EncodeChar) = chars
  := by
  induction chars generalizing fuel with
  | nil =>
      cases fuel with
      | zero => rfl
      | succ fuel => rfl
  | cons c chars ih =>
      have hpos := c.utf8Size_pos
      rw [List.flatMap_cons, List.length_append, String.length_utf8EncodeChar] at h
      cases fuel with
      | zero => omega
      | succ fuel =>
          rw [List.flatMap_cons, lossyChars_encode_append, ih (by omega)]

/-- The encoding of a string is decoded to it. -/
@[simp]
theorem fromUtf8Lossy_encode (s : String) :
  fromUtf8Lossy (s.toList.flatMap String.utf8EncodeChar) = s
  := by
  rw [fromUtf8Lossy, lossyChars_flatMap (Nat.le_refl _), String.ofList_toList]

end Bytes
