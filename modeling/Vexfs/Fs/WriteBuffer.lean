import Vexfs.Collections.FiniteMap
import Vexfs.Collections.Keys

/-!
# The write buffer

Writes are held back and written to disk in batches: all of them once there are
`maxPending`, and each one once it is `flushIntervalSecs` old.
-/

namespace Vexfs

/-- A write that waits. -/
structure PendingWrite where
  data : List UInt8
  diskIndex : ℕ
  name : String
  dirtySince : UInt64
deriving DecidableEq, Repr

structure WriteBuffer where
  pending : FiniteMap UInt64 PendingWrite
  maxPending : ℕ
  flushIntervalSecs : UInt64

/-- A subtraction that stops at zero. -/
def saturatingSub (a b : UInt64) : UInt64 := if b ≤ a then a - b else 0

namespace WriteBuffer

def new (maxPending : ℕ) (flushIntervalSecs : UInt64) : WriteBuffer where
  pending := .empty
  maxPending
  flushIntervalSecs

/-- Put the write of a file into the buffer, in place of one that waits. -/
def write (b : WriteBuffer) (ino : UInt64) (name : String) (data : List UInt8) (diskIndex : ℕ)
    (now : UInt64) : WriteBuffer :=
  { b with pending := b.pending.insert ino { data, diskIndex, name, dirtySince := now } }

def get (b : WriteBuffer) (ino : UInt64) : Option PendingWrite := b.pending.get ino

/-- The files whose writes are to be written out now. -/
def dueForFlush (b : WriteBuffer) (order : Arrangement UInt64) (now : UInt64) : List UInt64 :=
  if b.maxPending ≤ b.pending.len then order.arrange b.pending.keys
  else
    (order.arrange b.pending.keys).filter fun ino =>
      (b.pending.get ino).any fun p => b.flushIntervalSecs ≤ saturatingSub now p.dirtySince

/-- Take the write of a file out of the buffer. -/
def take (b : WriteBuffer) (ino : UInt64) : Option PendingWrite × WriteBuffer :=
  (b.pending.get ino, { b with pending := b.pending.erase ino })

/-! What the calls do to the writes that wait. -/

@[simp]
theorem get_new (maxPending : ℕ) (flushIntervalSecs ino : UInt64) :
  (new maxPending flushIntervalSecs).get ino = none
  := rfl

theorem get_write (b : WriteBuffer) (ino ino' : UInt64) (name : String) (data : List UInt8)
    (diskIndex : ℕ) (now : UInt64) :
  (b.write ino name data diskIndex now).get ino'
    = if ino' = ino then some { data, diskIndex, name, dirtySince := now } else b.get ino'
  := FiniteMap.get_insert _ _ _ _

@[simp]
theorem fst_take (b : WriteBuffer) (ino : UInt64) :
  (b.take ino).1 = b.get ino
  := rfl

theorem get_take (b : WriteBuffer) (ino ino' : UInt64) :
  (b.take ino).2.get ino' = if ino' = ino then none else b.get ino'
  := FiniteMap.get_erase _ _ _

/-- A file whose write is due has a write that waits. -/
theorem isSome_of_mem_dueForFlush {b : WriteBuffer} {order : Arrangement UInt64}
    {now ino : UInt64} (h : ino ∈ b.dueForFlush order now) :
  (b.get ino).isSome
  := by
  unfold dueForFlush at h
  split at h
  · exact FiniteMap.mem_keys.mp (order.mem_arrange.mp h)
  · exact FiniteMap.mem_keys.mp (order.mem_arrange.mp (List.mem_filter.mp h).1)

/-- Nothing is due while few writes wait and none of them is old. -/
theorem dueForFlush_of_young {b : WriteBuffer} {now : UInt64}
    (hfew : b.pending.len < b.maxPending)
    (hyoung : ∀ ino w, b.get ino = some w → saturatingSub now w.dirtySince < b.flushIntervalSecs)
    (order : Arrangement UInt64) :
  b.dueForFlush order now = []
  := by
  rw [dueForFlush, if_neg (Nat.not_le.mpr hfew), List.filter_eq_nil_iff]
  intro ino hmem hdue
  obtain ⟨w, hw, hle⟩ := (Option.any_eq_true _ _).mp hdue
  exact absurd (hyoung ino w hw) (UInt64.not_lt.mpr (of_decide_eq_true hle))

end WriteBuffer

end Vexfs
