import Vexfs.Bytes.Utf8

/-!
# Percent-encoded names

The dashboard sends the name of a file with `encodeURIComponent`, which writes every byte of
the UTF-8 encoding of a character that is reserved as `%XX`.  The daemon decodes every `%XX` to
one character, the one whose number is the byte.  That gives the name back exactly when every
character of it is one byte (`urldecode_encode_iff`).
-/

namespace Vexfs

/-! ### The decoder -/

/-- The value of a hexadecimal digit. -/
def hexValue (c : Char) : Option ℕ :=
  let n := c.toNat
  if 48 ≤ n ∧ n ≤ 57 then some (n - 48)
  else if 97 ≤ n ∧ n ≤ 102 then some (n - 87)
  else if 65 ≤ n ∧ n ≤ 70 then some (n - 55)
  else none

/-- A byte from two characters, as `u8::from_str_radix` reads them: two hexadecimal digits, or
a plus sign and one digit. -/
def byteFromHex (h1 h2 : Char) : Option ℕ :=
  (hexValue h2).bind fun low =>
    if h1 = '+' then some low else (hexValue h1).map fun high => 16 * high + low

/-- What the decoder writes for `%` and the two characters that follow. -/
def decodeEscape (h1 h2 : Char) : List Char :=
  ((byteFromHex h1 h2).map Char.ofNat).toList

/-- Decode a text.  Zeros stand for the characters that are missing behind the last `%`. -/
def urldecodeChars : List Char → List Char
  | [] => []
  | ['%'] => decodeEscape '0' '0'
  | ['%', h1] => decodeEscape h1 '0'
  | '%' :: h1 :: h2 :: cs => decodeEscape h1 h2 ++ urldecodeChars cs
  | c :: cs => c :: urldecodeChars cs

def urldecode (s : String) : String :=
  String.ofList (urldecodeChars s.toList)

/-! ### The client's encoding -/

/-- The characters that `encodeURIComponent` leaves as they are. -/
def isUnreserved (c : Char) : Bool :=
  c.isAlphanum || c ∈ ['-', '_', '.', '!', '~', '*', '\'', '(', ')']

def hexDigit (n : ℕ) : Char :=
  Char.ofNat (if n < 10 then 48 + n else 55 + n)

def percentByte (b : UInt8) : List Char :=
  ['%', hexDigit (b.toNat / 16), hexDigit (b.toNat % 16)]

def encodeChar (c : Char) : List Char :=
  if isUnreserved c then [c] else (String.utf8EncodeChar c).flatMap percentByte

def encodeURIComponent (s : String) : String :=
  String.ofList (s.toList.flatMap encodeChar)

/-! ### What is decoded -/

theorem hexValue_hexDigit {n : ℕ} (h : n < 16) :
  hexValue (hexDigit n) = some n
  := by
  revert n
  decide

theorem hexDigit_ne_plus {n : ℕ} (h : n < 16) :
  hexDigit n ≠ '+'
  := by
  revert n
  decide

/-- A byte that was encoded is decoded to the character with its number. -/
theorem urldecodeChars_percentByte (b : UInt8) (cs : List Char) :
  urldecodeChars (percentByte b ++ cs) = Char.ofNat b.toNat :: urldecodeChars cs
  := by
  have hb := b.toNat_lt
  have hhigh : b.toNat / 16 < 16 := by omega
  have hlow : b.toNat % 16 < 16 := Nat.mod_lt _ (by decide)
  have hbyte : byteFromHex (hexDigit (b.toNat / 16)) (hexDigit (b.toNat % 16))
      = some b.toNat := by
    rw [byteFromHex, hexValue_hexDigit hlow, hexValue_hexDigit hhigh, Option.bind_some,
      if_neg (hexDigit_ne_plus hhigh), Option.map_some, Nat.div_add_mod]
  rw [percentByte, List.cons_append, List.cons_append, List.cons_append, List.nil_append,
    urldecodeChars, decodeEscape, hbyte]
  rfl

theorem urldecodeChars_percentBytes (bytes : List UInt8) (cs : List Char) :
  urldecodeChars (bytes.flatMap percentByte ++ cs)
    = bytes.map (fun b => Char.ofNat b.toNat) ++ urldecodeChars cs
  := by
  induction bytes with
  | nil => rfl
  | cons b bytes ih =>
      rw [List.flatMap_cons, List.append_assoc, urldecodeChars_percentByte, ih]
      rfl

/-- A character that is no percent sign is decoded to itself. -/
theorem urldecodeChars_cons {c : Char} (h : c ≠ '%') (cs : List Char) :
  urldecodeChars (c :: cs) = c :: urldecodeChars cs
  := by
  rw [urldecodeChars]
  · intro heq
    contradiction
  · intro h1 heq
    contradiction
  · intro h1 h2 cs' heq
    contradiction

/-- What an encoded character is decoded to. -/
def received (c : Char) : List Char :=
  (String.utf8EncodeChar c).map fun b => Char.ofNat b.toNat

theorem received_of_ascii {c : Char} (h : c.toNat < 128) :
  received c = [c]
  := by
  have hle : c.val.toNat ≤ 127 := Nat.le_of_lt_succ h
  have hlt : c.val.toNat < UInt8.size := by
    apply hle.trans_lt
    decide
  rw [received, String.utf8EncodeChar, if_pos hle, List.map_singleton,
    UInt8.toNat_ofNat_of_lt' hlt]
  exact congrArg (fun c => [c]) (Char.ofNat_toNat c)

theorem length_received (c : Char) :
  (received c).length = c.utf8Size
  := by
  rw [received, List.length_map, String.length_utf8EncodeChar]

theorem utf8Size_eq_one_iff {c : Char} :
  c.utf8Size = 1 ↔ c.toNat < 128
  := by
  rw [Char.utf8Size_eq_one_iff, UInt32.le_iff_toNat_le]
  exact Nat.lt_succ_iff.symm

theorem isUnreserved_ascii {c : Char} (h : isUnreserved c) :
  c.toNat < 128 ∧ c ≠ '%'
  := by
  constructor
  · rw [isUnreserved, Bool.or_eq_true, decide_eq_true_iff] at h
    obtain h | h := h
    · simp only [Char.isAlphanum, Char.isAlpha, Char.isUpper, Char.isLower, Char.isDigit,
        Bool.or_eq_true, Bool.and_eq_true, decide_eq_true_eq, ge_iff_le,
        UInt32.le_iff_toNat_le] at h
      have hreduce : (c.val.toNat ≤ 90 ∨ c.val.toNat ≤ 122) ∨ c.val.toNat ≤ 57 :=
        h.imp (Or.imp And.right And.right) And.right
      rw [Char.toNat]
      omega
    · have hall : ∀ x ∈ ['-', '_', '.', '!', '~', '*', '\'', '(', ')'], x.toNat < 128 := by
        simp
      exact hall c h
  · rintro rfl
    revert h
    decide

theorem urldecodeChars_encodeChar (c : Char) (cs : List Char) :
  urldecodeChars (encodeChar c ++ cs) = received c ++ urldecodeChars cs
  := by
  rw [encodeChar]
  split
  · next h =>
    obtain ⟨hascii, hne⟩ := isUnreserved_ascii h
    rw [received_of_ascii hascii]
    exact urldecodeChars_cons hne cs
  · exact urldecodeChars_percentBytes _ _

theorem urldecodeChars_encode (cs : List Char) :
  urldecodeChars (cs.flatMap encodeChar) = cs.flatMap received
  := by
  induction cs with
  | nil => rfl
  | cons c cs ih => rw [List.flatMap_cons, urldecodeChars_encodeChar, ih, List.flatMap_cons]

/-- A text is received as it is when every character of it is one byte. -/
theorem flatMap_received_iff (cs : List Char) :
  cs.flatMap received = cs ↔ ∀ c ∈ cs, c.toNat < 128
  := by
  constructor
  · intro h
    have hlength (cs : List Char) : cs.length ≤ (cs.flatMap received).length := by
      induction cs with
      | nil => exact Nat.le_refl _
      | cons c cs ih =>
          have hpos := c.utf8Size_pos
          rw [List.flatMap_cons, List.length_append, length_received, List.length_cons]
          omega
    induction cs with
    | nil => exact List.forall_mem_nil _
    | cons c cs ih =>
        have hpos := c.utf8Size_pos
        have heq := congrArg List.length h
        rw [List.flatMap_cons, List.length_append, length_received, List.length_cons] at heq
        have hle := hlength cs
        have hone : c.toNat < 128 := utf8Size_eq_one_iff.mp (by omega)
        rw [List.flatMap_cons, received_of_ascii hone] at h
        exact List.forall_mem_cons.mpr ⟨hone, ih (List.tail_eq_of_cons_eq h)⟩
  · intro h
    induction cs with
    | nil => rfl
    | cons c cs ih =>
        obtain ⟨hc, hcs⟩ := List.forall_mem_cons.mp h
        rw [List.flatMap_cons, received_of_ascii hc, ih hcs]
        rfl

/-- Decoding gives back what the client encoded when all its characters are ASCII, and gives
something else otherwise. -/
theorem urldecode_encode_iff (s : String) :
  urldecode (encodeURIComponent s) = s ↔ ∀ c ∈ s.toList, c.toNat < 128
  := by
  rw [← flatMap_received_iff, urldecode, encodeURIComponent, String.toList_ofList,
    urldecodeChars_encode]
  constructor
  · intro h
    have hchars := congrArg String.toList h
    rwa [String.toList_ofList] at hchars
  · intro h
    rw [h, String.ofList_toList]

/-- An accented letter is received as two letters. -/
theorem not_urldecode_encode :
  ¬ ∀ s, urldecode (encodeURIComponent s) = s
  := by
  intro h
  have hcafe := h "café"
  revert hcafe
  decide

end Vexfs
