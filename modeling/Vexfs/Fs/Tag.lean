import Vexfs.Fs.InodeSlots

/-!
# Tags

The tags of a file are the lines of a sidecar, an inode in the root that is named after the
file.  Tagging a file works on the closed image: it looks for the sidecar, or else takes a
free slot for it, and gives it a number that is made of the number of its slot.
-/

namespace Vexfs

open Bytes

/-! ### Texts -/

/-- What the standard library does with the tables of Unicode, and with bytes that are no
UTF-8. -/
class Unicode where
  fromUtf8Lossy : List UInt8 → String
  toLowercase : String → String

/-- The functions for texts of ASCII characters. -/
@[reducible]
def Unicode.ascii : Unicode where
  fromUtf8Lossy bytes := String.ofList (bytes.map fun b => Char.ofNat b.toNat)
  toLowercase := String.toLower

/-- The white space of Unicode. -/
def isWhitespace (c : Char) : Bool :=
  let n := c.toNat
  (9 ≤ n && n ≤ 13) || n == 0x20 || n == 0x85 || n == 0xA0 || n == 0x1680
    || (0x2000 ≤ n && n ≤ 0x200A) || n == 0x2028 || n == 0x2029 || n == 0x202F || n == 0x205F
    || n == 0x3000

def trim (s : String) : String :=
  String.ofList (((s.toList.dropWhile isWhitespace).reverse.dropWhile isWhitespace).reverse)

/-- The lines of a text, without their ends; what follows the last end is a line when it is
not empty. -/
def lines (s : String) : List String :=
  let pieces := s.toList.splitOn '\n'
  let ended := pieces.dropLast.map fun line =>
    if line.getLast? = some '\r' then line.dropLast else line
  let rest := pieces.getLast?.getD []
  (ended ++ if rest = [] then [] else [rest]).map String.ofList

/-! ### Sidecars -/

structure TagArgs where
  filename : String
  tag : String

/-- What tagging prints. -/
inductive TagReply where
  | listed (tags : List String)
  | alreadyTagged
  | noFreeSlot
  | tagged (slot : ℕ) (isNew : Bool)

def sidecarName (filename : String) : String := ".tags." ++ filename

/-- The inode number of a sidecar in a slot. -/
def sidecarIno (slot : ℕ) : UInt64 := 0xDEAD0000 + UInt64.ofNat slot

def sidecarInode (args : TagArgs) (slot : ℕ) (text : String) (offset now : UInt64) : InodeRaw :=
  InodeRaw.setName { InodeRaw.empty with
    ino := sidecarIno slot
    size := UInt64.ofNat (utf8 text).length
    dataOffset := offset
    parentIno := 1
    isUsed := 1
    createdAt := now
    modifiedAt := now } (sidecarName args.filename)

namespace DiskManager

variable [Crc32]

/-- The first of some slots with a valid inode of a name, unless one before it cannot be
read. -/
def findNamed (dm : DiskManager) (name : String) : List ℕ → Option (ℕ × InodeRaw)
  | [] => none
  | i :: is =>
      match dm.readInode i with
      | .error _ => none
      | .ok inode =>
          if inode.isValid ∧ inode.getName = name then some (i, inode) else findNamed dm name is

/-- The text of a sidecar; of one that cannot be read it is empty. -/
def sidecarText [Unicode] (dm : DiskManager) : Option (ℕ × InodeRaw) → String
  | none => ""
  | some (_, inode) =>
      if 0 < inode.size then
        Unicode.fromUtf8Lossy
          ((dm.readFileData inode.dataOffset inode.size.toNat).toOption.getD [])
      else ""

/-- Write a sidecar to a slot.  The results of the writes are ignored. -/
def writeSidecar (dm : DiskManager) (args : TagArgs) (slot : ℕ) (text : String)
    (now : UInt64) : DiskManager :=
  let (offset, dm) := dm.allocData (utf8 text).length
  let dm := (dm.writeFileData offset (utf8 text)).2
  (dm.writeInode slot (sidecarInode args slot text offset now)).2.flush

/-- List the tags of a file, or add one. -/
def tag [Unicode] (dm : DiskManager) (args : TagArgs) (now : UInt64) : TagReply × DiskManager :=
  let sidecar := dm.findNamed (sidecarName args.filename) (List.range maxFiles)
  let text := dm.sidecarText sidecar
  if args.tag = "list" then
    (.listed (if trim text = "" then [] else (lines text).map trim), dm)
  else
    let tagClean := Unicode.toLowercase (trim args.tag)
    if (lines text).any fun line => trim line = tagClean then (.alreadyTagged, dm)
    else
      let text := text ++ tagClean ++ "\n"
      match sidecar with
      | some (slot, _) => (.tagged slot false, dm.writeSidecar args slot text now)
      | none =>
          match dm.allocInode with
          | (none, dm) => (.noFreeSlot, dm)
          | (some slot, dm) => (.tagged slot true, dm.writeSidecar args slot text now)

end DiskManager

/-- The command that lists or adds the tags of a file in an image. -/
def cmdTag [Crc32] [Unicode] (image : Storage.Image) (args : TagArgs) (now : UInt64) :
    DiskResult (TagReply × DiskManager) := do
  let dm ← DiskManager.open image
  return dm.tag args now

/-! ### Numbers of sidecars -/

end Vexfs
