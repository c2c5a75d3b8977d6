import Vexfs.Bytes.Utf8

/-!
# Texts that are cut off

The first bytes of the encoding of a text are the encoding of its first characters, and perhaps
some of the bytes of the next one, which are decoded to one replacement character
(`fromUtf8Lossy_take`).
-/

namespace Bytes

/-- The bytes of a text. -/
def encode (cs : List Char) : List UInt8 := cs.flatMap String.utf8EncodeChar

/-- The number of bytes of a text. -/
def utf8Len (cs : List Char) : ℕ := (cs.map Char.utf8Size).sum

@[simp]
theorem length_encode (cs : List Char) :
  (encode cs).length = utf8Len cs
  := by
  simp only [encode, utf8Len, List.length_flatMap, String.length_utf8EncodeChar]

@[simp]
theorem encode_append (cs ds : List Char) :
  encode (cs ++ ds) = encode cs ++ encode ds
  := List.flatMap_append

@[simp]
theorem utf8Len_append (cs ds : List Char) :
  utf8Len (cs ++ ds) = utf8Len cs + utf8Len ds
  := by
  rw [utf8Len, List.map_append, List.sum_append, ← utf8Len, ← utf8Len]

@[simp]
theorem utf8Len_cons (c : Char) (cs : List Char) :
  utf8Len (c :: cs) = c.utf8Size + utf8Len cs
  := rfl

/-! ### Decoding with more fuel -/

theorem replacedLength_pos (bytes : List UInt8) :
  0 < replacedLength bytes
  := by
  unfold replacedLength
  split
  · split
    · split <;> decide
    · decide
  · decide

/-- More fuel than there are bytes changes nothing. -/
theorem lossyChars_of_le {bytes : List UInt8} {fuel fuel' : ℕ} (h : bytes.length ≤ fuel)
    (h' : bytes.length ≤ fuel') :
  lossyChars fuel bytes = lossyChars fuel' bytes
  := by
  induction fuel generalizing bytes fuel' with
  | zero =>
      obtain rfl := List.length_eq_zero_iff.mp (Nat.le_zero.mp h)
      cases fuel' with
      | zero => rfl
      | succ fuel' => rfl
  | succ fuel ih =>
      cases bytes with
      | nil =>
          cases fuel' with
          | zero => rfl
          | succ fuel' => rfl
      | cons b bs =>
          cases fuel' with
          | zero => cases h'
          | succ fuel' =>
              have hdrop {k : ℕ} (hk : 0 < k) : lossyChars fuel ((b :: bs).drop k)
                  = lossyChars fuel' ((b :: bs).drop k) := by
                apply ih
                · rw [List.length_drop]
                  omega
                · rw [List.length_drop]
                  omega
              rw [lossyChars, lossyChars]
              cases (b :: bs).toByteArray.utf8DecodeChar? 0 with
              | none => exact congrArg _ (hdrop (replacedLength_pos _))
              | some c => exact congrArg _ (hdrop c.utf8Size_pos)

theorem lossyChars_encode (cs : List Char) {bytes : List UInt8} {fuel : ℕ}
    (h : utf8Len cs + bytes.length ≤ fuel) :
  lossyChars fuel (encode cs ++ bytes) = cs ++ lossyChars bytes.length bytes
  := by
  induction cs generalizing fuel with
  | nil => exact lossyChars_of_le ((Nat.le_add_left _ _).trans h) (Nat.le_refl _)
  | cons c cs ih =>
      have hpos := c.utf8Size_pos
      rw [utf8Len_cons] at h
      obtain ⟨fuel, rfl⟩ := Nat.exists_eq_add_of_le' (by omega : 1 ≤ fuel)
      rw [encode, List.flatMap_cons, List.append_assoc, lossyChars_encode_append, ← encode,
        ih (by omega)]
      rfl

/-- What comes behind a text does not change how it is decoded. -/
theorem fromUtf8Lossy_append (cs : List Char) (bytes : List UInt8) :
  (fromUtf8Lossy (encode cs ++ bytes)).toList = cs ++ (fromUtf8Lossy bytes).toList
  := by
  rw [fromUtf8Lossy, fromUtf8Lossy, String.toList_ofList, String.toList_ofList,
    lossyChars_encode cs (by rw [List.length_append, length_encode])]

/-! ### A character that is cut off -/

/-- The first bytes of a character are no character. -/
theorem utf8DecodeChar?_take {c : Char} {k : ℕ} (hk : k < c.utf8Size) :
  ((String.utf8EncodeChar c).take k).toByteArray.utf8DecodeChar? 0 = none
  := by
  by_contra hsome
  obtain ⟨d, hd⟩ := Option.ne_none_iff_exists'.mp hsome
  obtain ⟨rest, hrest⟩ := ByteArray.exists_of_utf8DecodeChar?_eq_some hd
  have hwhole : (String.utf8EncodeChar c).toByteArray
      = (String.utf8EncodeChar d).toByteArray
        ++ (rest ++ ((String.utf8EncodeChar c).drop k).toByteArray) := by
    rw [← ByteArray.append_assoc, ← hrest, ← List.toByteArray_append, List.take_append_drop]
  have hc : (String.utf8EncodeChar c).toByteArray.utf8DecodeChar? 0 = some c := by
    have h := ByteArray.utf8DecodeChar?_utf8EncodeChar_append (b := ByteArray.empty) (c := c)
    rwa [ByteArray.append_empty] at h
  rw [hwhole, ByteArray.utf8DecodeChar?_utf8EncodeChar_append] at hc
  obtain rfl := Option.some.inj hc
  have hsize := congrArg ByteArray.size hrest
  rw [ByteArray.size_append, List.size_toByteArray, List.size_toByteArray, List.length_take,
    String.length_utf8EncodeChar] at hsize
  omega

theorem isContinuation_of_lt :
  ∀ n < 64, isContinuation (UInt8.ofNat (n + 0x80))
  := by
  decide

/-- The first two bytes of a character of three bytes: it is above those of two bytes, and no
surrogate. -/
theorem beginsSequence_three :
  ∀ first < 16, ∀ second < 64, (first = 0 → 32 ≤ second) → (first = 13 → second < 32) →
    beginsSequence (UInt8.ofNat (first + 0xE0)) (UInt8.ofNat (second + 0x80))
  := by
  decide +kernel

/-- The first two bytes of a character of four bytes. -/
theorem beginsSequence_four :
  ∀ first < 5, ∀ second < 64, (first = 0 → 16 ≤ second) → (first = 4 → second < 16) →
    beginsSequence (UInt8.ofNat (first + 0xF0)) (UInt8.ofNat (second + 0x80))
  := by
  decide +kernel

theorem isValidChar_toNat (c : Char) :
  c.val.toNat < 0xD800 ∨ 0xDFFF < c.val.toNat ∧ c.val.toNat < 0x110000
  := c.valid

/-- The first bytes of a character stand for one replacement character. -/
theorem le_replacedLength_take {c : Char} {k : ℕ} (hk : k < c.utf8Size) :
  k ≤ replacedLength ((String.utf8EncodeChar c).take k)
  := by
  have hvalid := isValidChar_toNat c
  rw [← String.length_utf8EncodeChar] at hk
  by_cases hone : k ≤ 1
  · exact hone.trans (replacedLength_pos _)
  revert hk
  rw [String.utf8EncodeChar]
  split
  · intro hk
    exact absurd hk.le hone
  · split
    · intro hk
      exact absurd (Nat.le_of_lt_succ hk) hone
    · split
      · intro hk
        have hthree := beginsSequence_three (c.val.toNat / 4096 % 0x10) (by omega)
          (c.val.toNat / 64 % 0x40) (by omega) (by omega) (by omega)
        obtain rfl : k = 2 := by
          simp only [List.length_cons, List.length_nil] at hk
          omega
        simp only [List.take_succ_cons, List.take_zero, replacedLength, hthree, if_true]
        split <;> decide
      · intro hk
        have hfour := beginsSequence_four (c.val.toNat / 262144 % 0x08) (by omega)
          (c.val.toNat / 4096 % 0x40) (by omega) (by omega) (by omega)
        simp only [List.length_cons, List.length_nil] at hk
        obtain rfl | rfl : k = 2 ∨ k = 3 := by omega
        · simp only [List.take_succ_cons, List.take_zero, replacedLength, hfour, if_true]
          split <;> decide
        · have hthird := isContinuation_of_lt (c.val.toNat / 64 % 0x40) (by omega)
          simp only [List.take_succ_cons, List.take_zero, replacedLength, hfour, if_true,
            List.head?_cons, Option.map_some, Option.getD_some, hthird, Nat.le_refl]

/-- A character that is cut off is decoded to a replacement character. -/
theorem fromUtf8Lossy_take_char {c : Char} {k : ℕ} (hpos : 0 < k) (hk : k < c.utf8Size) :
  (fromUtf8Lossy ((String.utf8EncodeChar c).take k)).toList = [Char.ofNat 0xFFFD]
  := by
  have hle := le_replacedLength_take hk
  have hnone := utf8DecodeChar?_take hk
  have hlength : ((String.utf8EncodeChar c).take k).length = k := by
    rw [List.length_take, String.length_utf8EncodeChar, Nat.min_eq_left hk.le]
  rw [fromUtf8Lossy, String.toList_ofList, hlength]
  cases hbytes : (String.utf8EncodeChar c).take k with
  | nil =>
      rw [hbytes] at hlength
      exact absurd hlength hpos.ne
  | cons b bs =>
      rw [hbytes] at hle hnone hlength
      obtain ⟨k, rfl⟩ := Nat.exists_eq_add_of_le' hpos
      rw [lossyChars, hnone]
      dsimp only
      rw [List.drop_of_length_le (hlength.trans_le hle)]
      cases k with
      | zero => rfl
      | succ k => rfl

/-! ### A text that is cut off -/

/-- The first bytes of a text are its first characters, and perhaps some bytes of the next
one. -/
theorem exists_take_encode (cs : List Char) (j : ℕ) :
  (∃ x y, cs = x ++ y ∧ utf8Len x ≤ j ∧ (encode cs).take j = encode x)
    ∨ ∃ x c y k, cs = x ++ c :: y ∧ 0 < k ∧ k < c.utf8Size ∧ j = utf8Len x + k
        ∧ (encode cs).take j = encode x ++ (String.utf8EncodeChar c).take k
  := by
  induction cs generalizing j with
  | nil => exact Or.inl ⟨[], [], rfl, Nat.zero_le j, List.take_nil⟩
  | cons c cs ih =>
      have hlength := String.length_utf8EncodeChar c
      have hcons : encode (c :: cs) = String.utf8EncodeChar c ++ encode cs := List.flatMap_cons
      obtain hlt | hge := Nat.lt_or_ge j c.utf8Size
      · have htake : (encode (c :: cs)).take j = (String.utf8EncodeChar c).take j := by
          rw [hcons, List.take_append_of_le_length (hlength.symm ▸ hlt.le)]
        obtain rfl | hpos := Nat.eq_zero_or_pos j
        · exact Or.inl ⟨[], c :: cs, rfl, Nat.le_refl 0, List.take_zero⟩
        · exact Or.inr ⟨[], c, cs, j, rfl, hpos, hlt, (Nat.zero_add j).symm, htake⟩
      · have htake : (encode (c :: cs)).take j
            = String.utf8EncodeChar c ++ (encode cs).take (j - c.utf8Size) := by
          rw [hcons, List.take_append, List.take_of_length_le (hlength.trans_le hge), hlength]
        obtain ⟨x, y, rfl, hj, hx⟩ | ⟨x, d, y, k, rfl, hpos, hk, hj, hx⟩ := ih (j - c.utf8Size)
        · refine Or.inl ⟨c :: x, y, rfl, ?_, ?_⟩
          · rw [utf8Len_cons]
            omega
          · rw [htake, hx]
            exact List.flatMap_cons.symm
        · refine Or.inr ⟨c :: x, d, y, k, rfl, hpos, hk, ?_, ?_⟩
          · rw [utf8Len_cons]
            omega
          · rw [htake, hx, ← List.append_assoc]
            exact congrArg (· ++ _) List.flatMap_cons.symm

/-- What the first bytes of a text are decoded to. -/
theorem fromUtf8Lossy_take (cs : List Char) (j : ℕ) :
  (∃ x y, cs = x ++ y ∧ utf8Len x ≤ j ∧ (fromUtf8Lossy ((encode cs).take j)).toList = x)
    ∨ ∃ x c y, cs = x ++ c :: y ∧ utf8Len x < j
        ∧ (fromUtf8Lossy ((encode cs).take j)).toList = x ++ [Char.ofNat 0xFFFD]
  := by
  obtain ⟨x, y, hcs, hj, hx⟩ | ⟨x, c, y, k, hcs, hpos, hk, hj, hx⟩ := exists_take_encode cs j
  · refine Or.inl ⟨x, y, hcs, hj, ?_⟩
    rw [hx, ← List.append_nil (encode x), fromUtf8Lossy_append]
    exact List.append_nil x
  · refine Or.inr ⟨x, c, y, hcs, by omega, ?_⟩
    rw [hx, fromUtf8Lossy_append, fromUtf8Lossy_take_char hpos hk]

/-- A text that is cut off within its last character. -/
theorem fromUtf8Lossy_take_concat {x : List Char} {c : Char} {j : ℕ} (hlt : utf8Len x < j)
    (hj : j < utf8Len x + c.utf8Size) :
  (fromUtf8Lossy ((encode (x ++ [c])).take j)).toList = x ++ [Char.ofNat 0xFFFD]
  := by
  have hlast : encode [c] = String.utf8EncodeChar c := List.flatMap_singleton _ _
  rw [encode_append, hlast, List.take_append, length_encode,
    List.take_of_length_le (by rw [length_encode]; exact hlt.le), fromUtf8Lossy_append,
    fromUtf8Lossy_take_char (by omega) (by omega)]

end Bytes
