import Vexfs.Fs.Disk
import Vexfs.Storage.Redo

/-!
# The free list

The extents of the data region that were freed and not handed out again.  `FreeList.free`
adds an extent and merges adjacent ones, `FreeList.alloc` takes the smallest extent that
fits a request and gives back a remainder of 512 bytes or more.  The list is saved in the
block of the superblock, as a header and up to 200 extents of 16 bytes; it can be rebuilt
from the extents in use.
-/

namespace Vexfs

open Bytes Storage

def freeListMagic : UInt64 := 0x4652454C49535400

def freeListOffset : Nat := 512

def freeListHeader : Nat := 32

def freeExtentSize : Nat := 16

def maxPersistedExtents : Nat := 200

/-! ### Extents -/

/-- A contiguous range of bytes on disk that can be used again. -/
structure FreeExtent where
  offset : UInt64
  length : UInt64
deriving DecidableEq, Repr

namespace FreeExtent

def toBytes (e : FreeExtent) : List UInt8 := u64ToLe e.offset ++ u64ToLe e.length

def fromBytes (b : List UInt8) : FreeExtent where
  offset := leToU64 (field b 0 8)
  length := leToU64 (field b 8 16)

@[simp]
theorem length_toBytes (e : FreeExtent) :
  e.toBytes.length = freeExtentSize
  := by
  simp [toBytes, freeExtentSize]

/-- Decoding an encoded extent gives it back. -/
theorem fromBytes_toBytes (e : FreeExtent) :
  fromBytes e.toBytes = e
  := by
  simp (disch := simp) only [fromBytes, toBytes, field_append_right, field_head, field_self,
    length_u64ToLe, Nat.reduceSub, leToU64_u64ToLe]

/-- The first byte of an extent. -/
def start (e : FreeExtent) : Nat := e.offset.toNat

/-- The position just after the last byte of an extent, as a number without wrap-around. -/
def stop (e : FreeExtent) : Nat := e.offset.toNat + e.length.toNat

/-- The positions of the bytes of an extent. -/
def bytes (e : FreeExtent) : Set Nat := Set.Ico e.start e.stop

end FreeExtent

/-! ### The list -/

structure FreeList where
  extents : List FreeExtent
deriving DecidableEq, Repr

namespace FreeList

def new : FreeList := ⟨[]⟩

/-- Merge the extents of a list sorted by offset into the extent `last` while they overlap
or touch it, and go on from the first one that does not. -/
def mergeRuns (last : FreeExtent) : List FreeExtent → List FreeExtent
  | [] => [last]
  | e :: es =>
      let lastEnd := last.offset + last.length
      if e.offset ≤ lastEnd then
        let newEnd := max (e.offset + e.length) lastEnd
        mergeRuns { last with length := newEnd - last.offset } es
      else
        last :: mergeRuns e es

/-- Sort the extents by offset and merge those that overlap or touch. -/
def mergeAdjacent (extents : List FreeExtent) : List FreeExtent :=
  if extents.length < 2 then extents
  else
    match extents.mergeSort (fun a b => a.offset ≤ b.offset) with
    | [] => []
    | e :: es => mergeRuns e es

/-- Add a freed extent.  It is dropped when the list is full. -/
def free (fl : FreeList) (offset length : UInt64) : FreeList :=
  if offset = 0 ∨ length = 0 then fl
  else if maxPersistedExtents ≤ fl.extents.length then fl
  else ⟨mergeAdjacent (fl.extents ++ [⟨offset, length⟩])⟩

/-- The index of the smallest extent of at least `minSize` bytes, the first of them if
there are several. -/
def bestFit (extents : List FreeExtent) (minSize : Nat) : Option Nat :=
  ((extents.zipIdx.filter fun p => UInt64.ofNat minSize ≤ p.1.length).argmin
    fun p => p.1.length.toNat).map Prod.snd

/-- Claim a free extent of at least `minSize` bytes. -/
def alloc (fl : FreeList) (minSize : Nat) : Option (UInt64 × FreeList) :=
  match bestFit fl.extents minSize with
  | none => none
  | some idx =>
      match fl.extents[idx]? with
      | none => none
      | some extent =>
          let rest := fl.extents.eraseIdx idx
          let remainder := extent.length - UInt64.ofNat minSize
          if 512 ≤ remainder then
            some (extent.offset,
              ⟨rest ++ [⟨extent.offset + UInt64.ofNat minSize, remainder⟩]⟩)
          else
            some (extent.offset, ⟨rest⟩)

/-- One step of rebuilding the list: the gap before a used extent is freed, and the cursor
moves behind the extent. -/
def rebuildStep (state : FreeList × UInt64) (extent : UInt64 × UInt64) : FreeList × UInt64 :=
  let (fl, cursor) := state
  let (offset, length) := extent
  let fl := if cursor < offset then fl.free cursor (offset - cursor) else fl
  (fl, max (offset + length) cursor)

/-- Build a free list from the extents in use: what they leave of the region from
`dataStart` up to the size of the disk. -/
def rebuildFromInodes (usedExtents : List (UInt64 × UInt64)) (diskSize dataStart : UInt64) :
    FreeList :=
  if usedExtents = [] then
    -- a subtraction that stops at zero
    ⟨[⟨dataStart, if dataStart ≤ diskSize then diskSize - dataStart else 0⟩]⟩
  else
    let sorted := usedExtents.mergeSort fun a b => a.1 ≤ b.1
    let (fl, cursor) := sorted.foldl rebuildStep (new, dataStart)
    if cursor < diskSize then fl.free cursor (diskSize - cursor) else fl

def totalFreeBytes (fl : FreeList) : UInt64 := (fl.extents.map FreeExtent.length).sum

/-! ### Persistence -/

variable [Crc32]

/-- The number of extents that are saved. -/
def savedCount (fl : FreeList) : Nat := min fl.extents.length maxPersistedExtents

/-- The bytes of the extents that are saved. -/
def extentsBytes (fl : FreeList) : List UInt8 :=
  (fl.extents.take (savedCount fl)).flatMap FreeExtent.toBytes

/-- The first 12 bytes of the saved header. -/
def headerHead (fl : FreeList) : List UInt8 :=
  u64ToLe freeListMagic ++ u32ToLe (UInt32.ofNat (savedCount fl))

/-- The saved header. -/
def headerBytes (fl : FreeList) : List UInt8 :=
  headerHead fl ++ (u32ToLe (crc32 (headerHead fl ++ extentsBytes fl)) ++ zeros 16)

/-- Save the free list: the header, then the extents. -/
def save (fl : FreeList) (file : File) : File :=
  (file.write freeListOffset (headerBytes fl)).write (freeListOffset + freeListHeader)
    (extentsBytes fl)

/-- Load the free list.  It is empty when none was saved or the checksum does not match. -/
def load (file : File) : DiskResult FreeList := do
  let hdr ← readBytes file freeListOffset freeListHeader
  if leToU64 (field hdr 0 8) ≠ freeListMagic then return new
  let count := (leToU32 (field hdr 8 12)).toNat
  let stored := leToU32 (field hdr 12 16)
  if maxPersistedExtents < count then return new
  let extBytes ← readBytes file (freeListOffset + freeListHeader) (count * freeExtentSize)
  match verifyCrc32 (hdr.take 12 ++ extBytes) stored with
  | .error _ => return new
  | .ok _ => return ⟨(chunks freeExtentSize extBytes).map FreeExtent.fromBytes⟩

end FreeList

end Vexfs
