import Mathlib

/-!
# Little-endian integers in byte lists

`leBytes n v` is the list of the `n` least significant base-256 digits of `v`, the least
significant first, and `leValue` reads such a list back.  `field b lo hi` is the part of
a buffer `b` from position `lo` up to, and without, position `hi`.  The lemmas on fields
of a concatenation are what the round trip of a record laid out field by field rests on.
-/

namespace Bytes

/-! ### Digits -/

/-- The `n` least significant base-256 digits of `v`, the least significant first. -/
def leBytes : Nat → Nat → List UInt8
  | 0, _ => []
  | n + 1, v => UInt8.ofNat v :: leBytes n (v / 256)

/-- The number whose base-256 digits are the given bytes, the least significant first. -/
def leValue : List UInt8 → Nat
  | [] => 0
  | b :: bs => b.toNat + 256 * leValue bs

@[simp]
theorem length_leBytes (n v : Nat) :
  (leBytes n v).length = n
  := by
  induction n generalizing v with
  | zero => rfl
  | succ n ih => simp [leBytes, ih]

/-- Reading `n` digits of `v` back gives `v` modulo `256 ^ n`. -/
theorem leValue_leBytes (n v : Nat) :
  leValue (leBytes n v) = v % 256 ^ n
  := by
  induction n generalizing v with
  | zero => simp [leBytes, leValue, Nat.mod_one]
  | succ n ih =>
      rw [leBytes, leValue, ih, pow_succ', Nat.mod_mul]
      congr 1

theorem leValue_lt (b : List UInt8) :
  leValue b < 256 ^ b.length
  := by
  induction b with
  | nil => simp [leValue]
  | cons x b ih =>
      have hx := x.toNat_lt
      rw [leValue, List.length_cons, pow_succ']
      omega

/-- Writing the value of a list of digits gives the list back. -/
theorem leBytes_leValue (b : List UInt8) :
  leBytes b.length (leValue b) = b
  := by
  induction b with
  | nil => rfl
  | cons x b ih =>
      have hx := x.toNat_lt
      have hdiv : (x.toNat + 256 * leValue b) / 256 = leValue b := by omega
      rw [List.length_cons, leBytes, leValue, hdiv, ih]
      congr 1
      apply UInt8.toNat_inj.mp
      rw [UInt8.toNat_ofNat']
      omega

/-! ### Fixed-width integers -/

/-- The eight bytes of a 64-bit integer. -/
def u64ToLe (v : UInt64) : List UInt8 := leBytes 8 v.toNat

/-- The 64-bit integer eight bytes stand for. -/
def leToU64 (b : List UInt8) : UInt64 := UInt64.ofNat (leValue b)

/-- The four bytes of a 32-bit integer. -/
def u32ToLe (v : UInt32) : List UInt8 := leBytes 4 v.toNat

/-- The 32-bit integer four bytes stand for. -/
def leToU32 (b : List UInt8) : UInt32 := UInt32.ofNat (leValue b)

@[simp]
theorem length_u64ToLe (v : UInt64) :
  (u64ToLe v).length = 8
  := length_leBytes 8 _

@[simp]
theorem length_u32ToLe (v : UInt32) :
  (u32ToLe v).length = 4
  := length_leBytes 4 _

@[simp]
theorem leToU64_u64ToLe (v : UInt64) :
  leToU64 (u64ToLe v) = v
  := by
  have hv : v.toNat < 256 ^ 8 := v.toNat_lt
  rw [leToU64, u64ToLe, leValue_leBytes, Nat.mod_eq_of_lt hv, UInt64.ofNat_toNat]

@[simp]
theorem leToU32_u32ToLe (v : UInt32) :
  leToU32 (u32ToLe v) = v
  := by
  have hv : v.toNat < 256 ^ 4 := v.toNat_lt
  rw [leToU32, u32ToLe, leValue_leBytes, Nat.mod_eq_of_lt hv, UInt32.ofNat_toNat]

/-! ### Fields of a buffer -/

/-- The part of `b` from position `lo` up to, and without, position `hi`. -/
def field (b : List UInt8) (lo hi : Nat) : List UInt8 :=
  (b.take hi).drop lo

theorem length_field {b : List UInt8} {lo hi : Nat} (h : hi ≤ b.length) :
  (field b lo hi).length = hi - lo
  := by
  simp [field, Nat.min_eq_left h]

theorem field_zero (b : List UInt8) (hi : Nat) :
  field b 0 hi = b.take hi
  := rfl

/-- A field that ends within the first part of a concatenation is a field of that part. -/
theorem field_append_left {a b : List UInt8} {lo hi : Nat} (h : hi ≤ a.length) :
  field (a ++ b) lo hi = field a lo hi
  := by
  rw [field, List.take_append_of_le_length h, field]

/-- A field that starts after the first part of a concatenation is a field of the second
part. -/
theorem field_append_right {a b : List UInt8} {lo hi : Nat} (h : a.length ≤ lo) :
  field (a ++ b) lo hi = field b (lo - a.length) (hi - a.length)
  := by
  obtain hle | hlt := Nat.le_total hi a.length
  · simp [field, List.take_append_of_le_length hle, Nat.sub_eq_zero_of_le hle,
      List.drop_eq_nil_of_le (Nat.le_trans (List.length_take_le hi a) (Nat.le_trans hle h))]
  · simp [field, List.take_append, List.drop_append, List.take_of_length_le hlt,
      List.drop_eq_nil_of_le h]

/-- The whole of a buffer as a field. -/
theorem field_self {a : List UInt8} {n : Nat} (h : a.length = n) :
  field a 0 n = a
  := by
  rw [field_zero, List.take_of_length_le (Nat.le_of_eq h)]

/-- The first part of a concatenation as a field. -/
theorem field_head {a b : List UInt8} {n : Nat} (h : a.length = n) :
  field (a ++ b) 0 n = a
  := by
  rw [field_append_left (Nat.le_of_eq h.symm), field_self h]

/-! ### Padding -/

/-- `n` zero bytes. -/
def zeros (n : Nat) : List UInt8 := List.replicate n 0

@[simp]
theorem length_zeros (n : Nat) :
  (zeros n).length = n
  := List.length_replicate

/-- `b` cut or filled up with zero bytes to length `n`. -/
def padTo (n : Nat) (b : List UInt8) : List UInt8 :=
  (b ++ zeros n).take n

@[simp]
theorem length_padTo (n : Nat) (b : List UInt8) :
  (padTo n b).length = n
  := by
  simp [padTo]

/-- Padding keeps a buffer that fits as the first bytes. -/
theorem take_padTo {n : Nat} {b : List UInt8} (h : b.length ≤ n) :
  (padTo n b).take b.length = b
  := by
  rw [padTo, List.take_take, Nat.min_eq_left h, List.take_append_of_le_length (Nat.le_refl _),
    List.take_length]

/-- A buffer of the right length is not changed by padding. -/
theorem padTo_self {n : Nat} {b : List UInt8} (h : b.length = n) :
  padTo n b = b
  := by
  rw [padTo, List.take_append_of_le_length (Nat.le_of_eq h.symm),
    List.take_of_length_le (Nat.le_of_eq h)]

end Bytes
