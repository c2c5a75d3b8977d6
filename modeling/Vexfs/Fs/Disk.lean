import Vexfs.Bytes.LittleEndian
import Vexfs.Storage.Image

/-!
# Records on disk

The errors of the disk layer and the three records it stores, each with its encoding as a
fixed number of little-endian bytes: the superblock (64 bytes), the inode (256 bytes) and
the snapshot record (512 bytes).  A record carries the checksum of the bytes before the
checksum, which decoding verifies.  The checksum function itself is a parameter.
-/

namespace Vexfs

open Bytes Storage

/-! ### Errors -/

/-- The kinds of input and output errors the disk layer reports. -/
inductive ErrorKind where
  | unexpectedEof
  | invalidInput
  | other
deriving DecidableEq, Repr

/-- The errors of the disk layer.  `panic` stands for a failed assertion. -/
inductive DiskError where
  | io (kind : ErrorKind) (message : String)
  | badMagic (expected got : UInt64)
  | badChecksum (expected got : UInt32)
  | sizeMismatch (expected got : Nat)
  | panic (message : String)
deriving DecidableEq, Repr

abbrev DiskResult (α : Type) : Type := Except DiskError α

/-! ### Reads -/

/-- Read `n` bytes at `offset`. -/
def readBytes (file : File) (offset n : Nat) : DiskResult (List UInt8) :=
  match file.image.read offset n with
  | some b => .ok b
  | none => .error (.io .unexpectedEof "failed to fill whole buffer")

theorem readBytes_of_le {file : File} {offset n : Nat} (h : offset + n ≤ file.image.size) :
  readBytes file offset n = .ok (file.image.slice offset n)
  := by
  rw [readBytes, Image.read_of_le h]

theorem readBytes_congr {file file' : File} {offset n : Nat}
    (h : file.image.read offset n = file'.image.read offset n) :
  readBytes file offset n = readBytes file' offset n
  := by
  rw [readBytes, readBytes, h]

/-! ### Checksums -/

/-- The checksum function of the disk format, a function of the bytes it covers. -/
class Crc32 where
  sum : List UInt8 → UInt32

/-- One bit of the division by the reflected polynomial of CRC-32. -/
def Crc32.shift (c : UInt32) : UInt32 :=
  if c &&& 1 = 1 then (c >>> 1) ^^^ 0xEDB88320 else c >>> 1

/-- The CRC-32 checksum of the disk format, computed bit by bit. -/
@[reducible]
def Crc32.ieee : Crc32 where
  sum data := (data.foldl (fun c b => Crc32.shift^[8] (c ^^^ b.toUInt32)) 0xFFFFFFFF)
    ^^^ 0xFFFFFFFF

/-- The check value of CRC-32. -/
example : Crc32.ieee.sum [49, 50, 51, 52, 53, 54, 55, 56, 57] = 0xCBF43926
  := by decide +kernel

/-- The checksum of `data`. -/
def crc32 [Crc32] (data : List UInt8) : UInt32 := Crc32.sum data

def verifyCrc32 [Crc32] (data : List UInt8) (stored : UInt32) : DiskResult Unit :=
  if crc32 data = stored then .ok () else .error (.badChecksum stored (crc32 data))

@[simp]
theorem verifyCrc32_crc32 [Crc32] (data : List UInt8) :
  verifyCrc32 data (crc32 data) = .ok ()
  := if_pos rfl

/-! ### Fixed-size byte arrays -/

/-- A byte array of `n` bytes. -/
abbrev Block (n : Nat) : Type := { b : List UInt8 // b.length = n }

/-- The array of `n` zero bytes. -/
def Block.zeros (n : Nat) : Block n := ⟨Bytes.zeros n, length_zeros n⟩

/-- The bytes `b`, cut or filled up with zeros to `n` bytes. -/
def Block.ofList (n : Nat) (b : List UInt8) : Block n := ⟨padTo n b, length_padTo n b⟩

@[simp]
theorem Block.ofList_val {n : Nat} (b : Block n) :
  Block.ofList n b.1 = b
  := Subtype.ext (padTo_self b.2)

/-- The UTF-8 bytes of a string. -/
def utf8 (s : String) : List UInt8 := s.toList.flatMap String.utf8EncodeChar

/-! ### The superblock -/

def superblockBytes : Nat := 64

structure SuperblockRaw where
  magic : UInt64
  version : UInt32
  blockSize : UInt32
  totalBlocks : UInt64
  freeBlocks : UInt64
  inodeCount : UInt64
  nextDataOffset : UInt64
  createdAt : UInt64
  crc32 : UInt32
deriving DecidableEq, Repr

namespace SuperblockRaw

/-- The 56 bytes the checksum of a superblock covers. -/
def body (sb : SuperblockRaw) : List UInt8 :=
  u64ToLe sb.magic ++ (u32ToLe sb.version ++ (u32ToLe sb.blockSize ++ (u64ToLe sb.totalBlocks
    ++ (u64ToLe sb.freeBlocks ++ (u64ToLe sb.inodeCount ++ (u64ToLe sb.nextDataOffset
    ++ u64ToLe sb.createdAt))))))

@[simp]
theorem length_body (sb : SuperblockRaw) :
  sb.body.length = 56
  := by
  simp [body]

variable [Crc32]

def toBytes (sb : SuperblockRaw) : List UInt8 :=
  sb.body ++ (u32ToLe (Vexfs.crc32 sb.body) ++ zeros 4)

def fromBytes (b : List UInt8) : DiskResult SuperblockRaw := do
  let stored := leToU32 (field b 56 60)
  verifyCrc32 (b.take 56) stored
  return {
    magic := leToU64 (field b 0 8)
    version := leToU32 (field b 8 12)
    blockSize := leToU32 (field b 12 16)
    totalBlocks := leToU64 (field b 16 24)
    freeBlocks := leToU64 (field b 24 32)
    inodeCount := leToU64 (field b 32 40)
    nextDataOffset := leToU64 (field b 40 48)
    createdAt := leToU64 (field b 48 56)
    crc32 := stored }

@[simp]
theorem length_toBytes (sb : SuperblockRaw) :
  sb.toBytes.length = superblockBytes
  := by
  simp [toBytes, superblockBytes]

/-- Decoding an encoded superblock gives its fields back, with the checksum computed. -/
theorem fromBytes_toBytes (sb : SuperblockRaw) :
  fromBytes sb.toBytes = .ok { sb with crc32 := Vexfs.crc32 sb.body }
  := by
  have hbody : sb.toBytes.take 56 = sb.body := by
    rw [toBytes, List.take_append_of_le_length (by simp), List.take_of_length_le (by simp)]
  have hcrc : field sb.toBytes 56 60 = u32ToLe (Vexfs.crc32 sb.body) := by
    rw [toBytes, field_append_right (by simp), length_body]
    apply field_head (length_u32ToLe _)
  simp only [fromBytes, hbody, hcrc, leToU32_u32ToLe, verifyCrc32_crc32]
  simp (disch := simp) only [toBytes, body, List.append_assoc, field_append_right, field_head,
    length_u64ToLe, length_u32ToLe, Nat.reduceSub, leToU64_u64ToLe, leToU32_u32ToLe]
  rfl

end SuperblockRaw

/-! ### The inode -/

def inodeBytes : Nat := 256

structure InodeRaw where
  ino : UInt64
  size : UInt64
  dataOffset : UInt64
  createdAt : UInt64
  modifiedAt : UInt64
  /-- The inode number of the parent directory; 0 in images of the old format. -/
  parentIno : UInt64
  isUsed : UInt8
  isDir : UInt8
  name : Block 200
deriving DecidableEq, Repr

namespace InodeRaw

def empty : InodeRaw where
  ino := 0
  size := 0
  dataOffset := 0
  createdAt := 0
  modifiedAt := 0
  parentIno := 0
  isUsed := 0
  isDir := 0
  name := Block.zeros 200

/-- The 50 bytes the checksum of an inode covers; the name is not among them. -/
def body (inode : InodeRaw) : List UInt8 :=
  u64ToLe inode.ino ++ (u64ToLe inode.size ++ (u64ToLe inode.dataOffset
    ++ (u64ToLe inode.createdAt ++ (u64ToLe inode.modifiedAt ++ (u64ToLe inode.parentIno
    ++ ([inode.isUsed] ++ [inode.isDir]))))))

@[simp]
theorem length_body (inode : InodeRaw) :
  inode.body.length = 50
  := by
  simp [body]

/-- A record is valid when it is used and its name starts with a graphic ASCII
character. -/
def isValid (inode : InodeRaw) : Bool :=
  let first := inode.name.1.headD 0
  inode.isUsed != 0 && first != 0 && (33 ≤ first && first ≤ 126)

/-- The parent of a record, where an unset parent is the root. -/
def getParentIno (inode : InodeRaw) : UInt64 :=
  if inode.parentIno = 0 then 1 else inode.parentIno

/-- The characters a name may hold to be read back. -/
def nameChar (c : Char) : Bool :=
  c.isAlphanum || c == '.' || c == '_' || c == '-' || c == ' '

/-- The name held in a zero-terminated field, empty when it has a character that is not
allowed.  A byte from 128 on decodes to no ASCII character, so it is not allowed. -/
def decodeName (field : List UInt8) : String :=
  let raw := field.takeWhile (· != 0)
  let s := raw.map fun b => Char.ofNat b.toNat
  if raw.all (· < 128) && s.all nameChar then String.ofList s else ""

def getName (inode : InodeRaw) : String := decodeName inode.name.1

/-- The first 199 bytes of a name in a field of 200. -/
def encodeName (name : String) : Block 200 := Block.ofList 200 ((utf8 name).take 199)

def setName (inode : InodeRaw) (name : String) : InodeRaw :=
  { inode with name := encodeName name }

variable [Crc32]

def toBytes (inode : InodeRaw) : List UInt8 :=
  inode.body ++ (u32ToLe (Vexfs.crc32 inode.body) ++ (zeros 2 ++ inode.name.1))

def fromBytes (b : List UInt8) : DiskResult InodeRaw := do
  let stored := leToU32 (field b 50 54)
  verifyCrc32 (b.take 50) stored
  return {
    ino := leToU64 (field b 0 8)
    size := leToU64 (field b 8 16)
    dataOffset := leToU64 (field b 16 24)
    createdAt := leToU64 (field b 24 32)
    modifiedAt := leToU64 (field b 32 40)
    parentIno := leToU64 (field b 40 48)
    isUsed := (field b 48 49).headD 0
    isDir := (field b 49 50).headD 0
    name := Block.ofList 200 (field b 56 256) }

@[simp]
theorem length_toBytes (inode : InodeRaw) :
  inode.toBytes.length = inodeBytes
  := by
  simp [toBytes, inodeBytes, inode.name.2]

/-- Decoding an encoded inode gives it back. -/
theorem fromBytes_toBytes (inode : InodeRaw) :
  fromBytes inode.toBytes = .ok inode
  := by
  have hbody : inode.toBytes.take 50 = inode.body := by
    rw [toBytes, List.take_append_of_le_length (by simp), List.take_of_length_le (by simp)]
  have hcrc : field inode.toBytes 50 54 = u32ToLe (Vexfs.crc32 inode.body) := by
    rw [toBytes, field_append_right (by simp), length_body]
    apply field_head (length_u32ToLe _)
  simp only [fromBytes, hbody, hcrc, leToU32_u32ToLe, verifyCrc32_crc32]
  simp (disch := simp [inode.name.2]) only [toBytes, body, List.append_assoc,
    field_append_right, field_head, field_self, length_u64ToLe, length_u32ToLe,
    List.length_singleton, length_zeros, Nat.reduceSub, leToU64_u64ToLe,
    List.headD_cons, Block.ofList_val]
  rfl

end InodeRaw

/-! ### The snapshot record -/

def snapshotBytes : Nat := 512

structure SnapshotRaw where
  magic : UInt64
  ino : UInt64
  size : UInt64
  dataOffset : UInt64
  timestamp : UInt64
  id : UInt32
  isUsed : UInt8
  name : Block 208
deriving DecidableEq, Repr

namespace SnapshotRaw

def empty : SnapshotRaw where
  magic := 0
  ino := 0
  size := 0
  dataOffset := 0
  timestamp := 0
  id := 0
  isUsed := 0
  name := Block.zeros 208

/-- The 45 bytes the checksum of a snapshot record covers; the name is not among them. -/
def body (snap : SnapshotRaw) : List UInt8 :=
  u64ToLe snap.magic ++ (u64ToLe snap.ino ++ (u64ToLe snap.size ++ (u64ToLe snap.dataOffset
    ++ (u64ToLe snap.timestamp ++ (u32ToLe snap.id ++ [snap.isUsed])))))

@[simp]
theorem length_body (snap : SnapshotRaw) :
  snap.body.length = 45
  := by
  simp [body]

def isValid (snap : SnapshotRaw) (magic : UInt64) : Bool :=
  snap.magic == magic && snap.isUsed == 1

def getName (snap : SnapshotRaw) : String := InodeRaw.decodeName snap.name.1

/-- The record with the first 207 bytes of a name. -/
def setName (snap : SnapshotRaw) (name : String) : SnapshotRaw :=
  { snap with name := Block.ofList 208 ((utf8 name).take 207) }

variable [Crc32]

def toBytes (snap : SnapshotRaw) : List UInt8 :=
  snap.body ++ (u32ToLe (Vexfs.crc32 snap.body) ++ (snap.name.1 ++ zeros 255))

def fromBytes (b : List UInt8) : DiskResult SnapshotRaw := do
  let stored := leToU32 (field b 45 49)
  verifyCrc32 (b.take 45) stored
  return {
    magic := leToU64 (field b 0 8)
    ino := leToU64 (field b 8 16)
    size := leToU64 (field b 16 24)
    dataOffset := leToU64 (field b 24 32)
    timestamp := leToU64 (field b 32 40)
    id := leToU32 (field b 40 44)
    isUsed := (field b 44 45).headD 0
    name := Block.ofList 208 (field b 49 257) }

@[simp]
theorem length_toBytes (snap : SnapshotRaw) :
  snap.toBytes.length = snapshotBytes
  := by
  simp [toBytes, snapshotBytes, snap.name.2]

/-- Decoding an encoded snapshot record gives it back. -/
theorem fromBytes_toBytes (snap : SnapshotRaw) :
  fromBytes snap.toBytes = .ok snap
  := by
  have hbody : snap.toBytes.take 45 = snap.body := by
    rw [toBytes, List.take_append_of_le_length (by simp), List.take_of_length_le (by simp)]
  have hcrc : field snap.toBytes 45 49 = u32ToLe (Vexfs.crc32 snap.body) := by
    rw [toBytes, field_append_right (by simp), length_body]
    apply field_head (length_u32ToLe _)
  simp only [fromBytes, hbody, hcrc, leToU32_u32ToLe, verifyCrc32_crc32]
  simp (disch := simp [snap.name.2]) only [toBytes, body, List.append_assoc,
    field_append_right, field_head, length_u64ToLe, length_u32ToLe,
    List.length_singleton, Nat.reduceSub, leToU64_u64ToLe, leToU32_u32ToLe,
    List.headD_cons, Block.ofList_val]
  rfl

end SnapshotRaw

end Vexfs
