import Mathlib

/-!
# Byte files

What a file is to those who write and read it: a number of bytes, and at every position a byte,
which is zero from the end on.  A write replaces the bytes of an interval and extends the file
up to its end; a file that is truncated forgets the bytes behind its new end.  Lists of bytes
are byte files (`ByteFile.ofList`), and what was written is read back (`read_write`).
-/

namespace Vexfs

/-- A file: its size, and its bytes, with zeros behind the end. -/
@[ext]
structure ByteFile where
  size : ℕ
  byte : ℕ → UInt8
  beyond : ∀ i, size ≤ i → byte i = 0

namespace ByteFile

/-- The file of the bytes of a list. -/
def ofList (l : List UInt8) : ByteFile where
  size := l.length
  byte i := l.getD i 0
  beyond _ hi := List.getD_eq_default l 0 hi

def empty : ByteFile := ofList []

/-- Write some bytes from an offset on. -/
def write (f : ByteFile) (offset : ℕ) (data : List UInt8) : ByteFile where
  size := max f.size (offset + data.length)
  byte i := if offset ≤ i ∧ i < offset + data.length then data.getD (i - offset) 0 else f.byte i
  beyond i hi := by
    rw [if_neg (by omega)]
    exact f.beyond i (by omega)

/-- Cut a file off at a size, or fill it up with zeros. -/
def truncate (f : ByteFile) (n : ℕ) : ByteFile where
  size := n
  byte i := if i < n then f.byte i else 0
  beyond _ hi := if_neg (by omega)

/-- The bytes of an interval, as far as the file goes. -/
def read (f : ByteFile) (offset n : ℕ) : List UInt8 :=
  (List.range' offset (min (offset + n) f.size - offset)).map f.byte

variable {f : ByteFile}

theorem ofList_nil :
  ofList [] = empty
  := rfl

@[simp]
theorem size_ofList (l : List UInt8) :
  (ofList l).size = l.length
  := rfl

@[simp]
theorem byte_ofList (l : List UInt8) (i : ℕ) :
  (ofList l).byte i = l.getD i 0
  := rfl

/-- Nothing is cut off at the end of a file. -/
theorem truncate_size (f : ByteFile) :
  f.truncate f.size = f
  := by
  apply ByteFile.ext
  · rfl
  · funext i
    show (if i < f.size then f.byte i else 0) = f.byte i
    split
    · rfl
    · next hi => exact (f.beyond i (by omega)).symm

/-- What is read of a list is a part of it. -/
theorem read_ofList (l : List UInt8) (offset n : ℕ) :
  (ofList l).read offset n = (l.take (offset + n)).drop offset
  := by
  apply List.ext_getElem
  · simp [read]
  · intro i hi hi'
    rw [List.length_drop, List.length_take] at hi'
    have hlt : offset + i < l.length := by omega
    simp [read, hlt]

/-- What was written is read back. -/
theorem read_write (f : ByteFile) (offset : ℕ) (data : List UInt8) :
  (f.write offset data).read offset data.length = data
  := by
  have hlength : min (offset + data.length) (max f.size (offset + data.length)) - offset
      = data.length := by omega
  apply List.ext_getElem
  · simp [read, write]
  · intro i hi hi'
    simp [read, write, hi']

end ByteFile

end Vexfs
