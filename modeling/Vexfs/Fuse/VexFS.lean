import Vexfs.Cache.FileCache
import Vexfs.Fs.Compress
import Vexfs.Fs.DiskManager
import Vexfs.Fs.RangeScan
import Vexfs.Fs.SnapshotManager
import Vexfs.Fs.WriteBuffer

/-!
# The state of a mounted file system

`VexFS` holds the index, the record of every file, the disk, the snapshots, the write buffer
and the cache.  This file defines the pieces its operations are made of, each a function of
the state: `persistToDisk`, the steps of flushing and evicting, snapshots and their garbage
collection, and what each operation does to the namespace.  The operations themselves follow
in `Vexfs.Fuse.Session`.

What the code reads from outside is an argument: the clock, the files ranked by the AI
engine, and the order in which hash maps are gone through.  The state of the AI engine, and
the fields of a file's attributes that only `getattr` reports, are left out.
-/

namespace Vexfs

open Bytes

/-! ### Constants -/

/-- The inode number of the root directory. -/
def rootIno : UInt64 := 1

def searchIno : UInt64 := 0xFFFFFFFE

def telemetryIno : UInt64 := 0xFFFFFFFD

def askIno : UInt64 := 0xFFFFFFFC

def contextIno : UInt64 := 0xFFFFFFFB

def jarvisIno : UInt64 := 0xFFFFFFFA

/-- Whether an inode number is that of a virtual file. -/
def isVirtual (ino : UInt64) : Bool :=
  [searchIno, telemetryIno, askIno, contextIno, jarvisIno].contains ino

def snapshotMagic : UInt64 := 0x534E415000000001

/-- Snapshots are collected when this many are kept. -/
def snapshotGcThreshold : ℕ := 200

/-- The snapshots of a file that a collection keeps. -/
def snapshotGcKeep : ℕ := 3

def cacheMaxBytes : ℕ := 64 * 1024 * 1024

/-! ### Files -/

inductive FileType where
  | directory
  | regularFile
deriving DecidableEq, Repr

structure FileAttr where
  ino : UInt64
  size : UInt64
  kind : FileType
deriving DecidableEq, Repr

def makeAttr (ino size : UInt64) (isDir : Bool) : FileAttr where
  ino
  size
  kind := if isDir then .directory else .regularFile

/-- What is known of a file besides its contents. -/
structure VexFile where
  name : String
  attr : FileAttr
  diskIndex : ℕ
  dirty : Bool
  /-- The inode number of the parent directory. -/
  parentIno : UInt64
  /-- The last known offset of the data on disk. -/
  dataOffset : UInt64
deriving DecidableEq, Repr

structure VexFS where
  index : Index
  files : FiniteMap UInt64 VexFile
  nextInode : UInt64
  disk : DiskManager
  snapshots : SnapshotManager
  writeBuffer : WriteBuffer
  cache : FileCache

/-- What one call of `persist_to_disk` reads from outside: the names and tiers of the ranked
files, and the clock. -/
structure Persistence where
  rankedFiles : List (String × String)
  createdAt : UInt64
  modifiedAt : UInt64

namespace Persistence

/-- The storage tier of a file. -/
def tier (p : Persistence) (name : String) : String :=
  ((p.rankedFiles.find? fun ranked => ranked.1 = name).map Prod.snd).getD "COLD"

def isCold (p : Persistence) (name : String) : Bool :=
  decide ("COLD".toList <:+: (p.tier name).toList)

/-- The bytes that are stored for some data: compressed when the file is cold and that makes
them fewer. -/
def dataToWrite [Zstd] (p : Persistence) (name : String) (data : List UInt8) : List UInt8 :=
  if p.isCold name ∧ 512 ≤ data.length then
    let c := compress data
    if c.length < data.length then c else data
  else data

end Persistence

namespace VexFS

def new (disk : DiskManager) : VexFS where
  index := .new
  files := .empty
  nextInode := 2
  disk
  snapshots := .new 10
  writeBuffer := .new 32 5
  cache := .new cacheMaxBytes

/-! ### Contents and attributes -/

def cacheGet (fs : VexFS) (ino : UInt64) : VexFS :=
  { fs with cache := (fs.cache.get ino).2 }

/-- `cache.insert` alone, without the flushes around it. -/
def cachePut (fs : VexFS) (ino : UInt64) (data : List UInt8) : VexFS :=
  { fs with cache := fs.cache.insert ino data }

def drainEvicted (fs : VexFS) : VexFS :=
  { fs with cache := fs.cache.drainEvicted.2 }

/-- Give a file a size, which makes it dirty. -/
def setSize (fs : VexFS) (ino size : UInt64) : VexFS :=
  { fs with files := fs.files.modify ino fun f =>
      { f with attr := { f.attr with size }, dirty := true } }

def clean (fs : VexFS) (ino : UInt64) : VexFS :=
  { fs with files := fs.files.modify ino fun f => { f with dirty := false } }

/-- `flush_file` up to the batch: a dirty file counts as clean, and its cached contents, if
there are any, go to the write buffer. -/
def stage (fs : VexFS) (ino now : UInt64) : VexFS :=
  match fs.files.get ino with
  | none => fs
  | some f =>
      if f.dirty then
        let files := fs.files.insert ino { f with dirty := false }
        match fs.cache.get ino with
        | (none, cache) => { fs with files, cache }
        | (some data, cache) =>
            let writeBuffer := fs.writeBuffer.write ino f.name data f.diskIndex now
            { fs with files, cache, writeBuffer }
      else fs

/-- The bytes at an offset of the disk, or none when they cannot be read. -/
def rawData (disk : DiskManager) (offset size : UInt64) : List UInt8 :=
  if 0 < size then
    match disk.readFileData offset size.toNat with
    | .ok raw => raw
    | .error _ => []
  else []

/-! ### Snapshots -/

/-- The record of a snapshot in the snapshot table. -/
def snapshotRecord (ino : UInt64) (name : String) (data : List UInt8)
    (offset timestamp : UInt64) (id : UInt32) : SnapshotRaw :=
  SnapshotRaw.setName { SnapshotRaw.empty with
    magic := snapshotMagic
    ino
    size := UInt64.ofNat data.length
    dataOffset := offset
    timestamp
    id
    isUsed := 1 } name

/-- Zero the slot of a snapshot and free its extent. -/
def reclaim (disk : DiskManager) (freed : ℕ × UInt64 × UInt64) : DiskManager :=
  let (slot, offset, size) := freed
  match disk.zeroSnapshotSlot slot with
  | (.error _, disk) => disk
  | (.ok _, disk) => if 0 < offset ∧ 0 < size then disk.freeData offset size else disk

def maybeGcSnapshots (fs : VexFS) (order : Arrangement UInt64) : VexFS :=
  if fs.snapshots.totalSnapshots < snapshotGcThreshold then fs
  else
    let (freed, snapshots) := fs.snapshots.gcKeepPerFile order snapshotGcKeep
    { fs with snapshots, disk := freed.foldl reclaim fs.disk }

/-! ### Records and extents -/

/-- The extent that is freed when a file is persisted or removed: the bytes at its offset, as
many as it has now. -/
def oldExtent (fs : VexFS) (ino : UInt64) : Option (UInt64 × UInt64) :=
  (fs.files.get ino).bind fun f =>
    if 0 < f.dataOffset ∧ 0 < f.attr.size then some (f.dataOffset, f.attr.size) else none

/-- The disk once an extent is freed, if there is one. -/
def freeExtent (disk : DiskManager) : Option (UInt64 × UInt64) → DiskManager
  | none => disk
  | some (offset, length) => disk.freeData offset length

/-- Space for data: none is taken for no data, which is recorded at the start of the data
region. -/
def allocFor (disk : DiskManager) (data : List UInt8) : UInt64 × DiskManager :=
  if data ≠ [] then disk.allocData data.length else (UInt64.ofNat dataOffset, disk)

/-- The inode that records a persisted file. -/
def persistedInode (fs : VexFS) (p : Persistence) (ino : UInt64) (name : String)
    (data : List UInt8) (offset : UInt64) : InodeRaw :=
  InodeRaw.setName { InodeRaw.empty with
    ino
    size := UInt64.ofNat data.length
    dataOffset := offset
    parentIno := ((fs.files.get ino).map VexFile.parentIno).getD rootIno
    isUsed := 1
    isDir := 0
    createdAt := p.createdAt
    modifiedAt := p.modifiedAt } name

/-- The record of a file that was just added. -/
def newInode (ino : UInt64) (f : VexFile) (createdAt modifiedAt : UInt64) : InodeRaw :=
  InodeRaw.setName { InodeRaw.empty with
    ino
    parentIno := f.parentIno
    isUsed := 1
    isDir := if f.attr.kind = .directory then 1 else 0
    createdAt
    modifiedAt } f.name

variable [Crc32]

/-! ### Snapshots on disk -/

/-- Take a snapshot of the contents `data` of a file, in memory and in a free slot of the
snapshot table.  The slot is written for the last snapshot of the file, whichever it is. -/
def takeSnapshot (fs : VexFS) (ino : UInt64) (data : List UInt8) (takenAt recordedAt : UInt64) :
    VexFS :=
  match fs.files.get ino with
  | none => fs
  | some f =>
      let snapshots := fs.snapshots.snapshot ino f.name data f.dataOffset takenAt
      match fs.disk.findFreeSnapshotSlot with
      | none => { fs with snapshots }
      | some slot =>
          let record := snapshotRecord ino f.name data f.dataOffset recordedAt
            (snapshots.lastId ino)
          { fs with
            disk := (fs.disk.writeSnapshot slot record).2
            snapshots := snapshots.setLastSlot ino slot }

/-! ### The namespace -/

/-- Find a free inode and add an empty file or directory that uses it to the index and to
the files.  Without a free inode only the disk changes. -/
def addEntry (fs : VexFS) (parent : UInt64) (name : String) (isDir : Bool) : VexFS :=
  match fs.disk.allocInode with
  | (none, disk) => { fs with disk }
  | (some diskIndex, disk) =>
      let ino := fs.nextInode
      { fs with
        disk
        nextInode := ino + 1
        index := fs.index.insert parent name { ino, size := 0, isDir, diskIndex }
        files := fs.files.insert ino {
          name
          attr := makeAttr ino 0 isDir
          diskIndex
          dirty := !isDir
          parentIno := parent
          dataOffset := UInt64.ofNat dataOffset } }

/-- Write the record of a file that was just added. -/
def writeNewInode (fs : VexFS) (ino createdAt modifiedAt : UInt64) : VexFS :=
  match fs.files.get ino with
  | none => fs
  | some f =>
      { fs with disk := (fs.disk.writeInode f.diskIndex (newInode ino f createdAt modifiedAt)).2 }

def flushDisk (fs : VexFS) : VexFS := { fs with disk := fs.disk.flush }

/-- Remove an entry and its file, with the data, the inode and the cached contents. -/
def unlink (fs : VexFS) (parent : UInt64) (name : String) : VexFS :=
  match fs.index.remove parent name with
  | (none, index) => { fs with index }
  | (some val, index) =>
      match fs.files.get val.ino with
      | none => { fs with index }
      | some f =>
          let disk := freeExtent fs.disk (fs.oldExtent val.ino)
          { fs with
            index
            files := fs.files.erase val.ino
            disk := (disk.freeInode f.diskIndex).2
            cache := (fs.cache.remove val.ino).2 }

/-- Remove an entry and its directory, with the inode. -/
def rmdir (fs : VexFS) (parent : UInt64) (name : String) : VexFS :=
  match fs.index.remove parent name with
  | (none, index) => { fs with index }
  | (some val, index) =>
      match fs.files.get val.ino with
      | none => { fs with index }
      | some f =>
          { fs with
            index
            files := fs.files.erase val.ino
            disk := (fs.disk.freeInode f.diskIndex).2.flush }

/-- Move an entry to a new place, in the index, in the record of its file and on disk. -/
def rename (fs : VexFS) (parent : UInt64) (name : String) (newparent : UInt64)
    (newname : String) (now : UInt64) : VexFS :=
  match fs.index.remove parent name with
  | (none, index) => { fs with index }
  | (some val, index) =>
      let index := index.insert newparent newname val
      let files := fs.files.modify val.ino fun f =>
        { f with name := newname, parentIno := newparent, dirty := true }
      let disk := match fs.disk.readInode val.diskIndex with
        | .error _ => fs.disk
        | .ok inode =>
            let inode := InodeRaw.setName
              { inode with parentIno := newparent, modifiedAt := now } newname
            (fs.disk.writeInode val.diskIndex inode).2.flush
      { fs with index, files, disk }

/-! ### Writing a file to disk -/

/-- Write the bytes and the inode of a file, and flush.  The results are ignored. -/
def store (disk : DiskManager) (offset : UInt64) (bytes : List UInt8) (diskIndex : ℕ)
    (inode : InodeRaw) : DiskManager :=
  let disk := if bytes ≠ [] then (disk.writeFileData offset bytes).2 else disk
  (disk.writeInode diskIndex inode).2.flush

variable [Zstd]

def persistToDisk (fs : VexFS) (p : Persistence) (ino : UInt64) (name : String)
    (data : List UInt8) (diskIndex : ℕ) : VexFS :=
  let disk := freeExtent fs.disk (fs.oldExtent ino)
  let bytes := p.dataToWrite name data
  let (offset, disk) := allocFor disk bytes
  let disk := store disk offset bytes diskIndex (fs.persistedInode p ino name data offset)
  { fs with disk, files := fs.files.modify ino fun f => { f with dataOffset := offset } }

/-- Persist the write of a file that waits in the buffer, if there is one. -/
def persistBuffered (fs : VexFS) (p : Persistence) (ino : UInt64) : VexFS :=
  match fs.writeBuffer.take ino with
  | (none, _) => fs
  | (some w, writeBuffer) =>
      persistToDisk { fs with writeBuffer } p ino w.name w.data w.diskIndex

/-- Persist the cached contents of a file, if there are any. -/
def persistCached (fs : VexFS) (p : Persistence) (ino : UInt64) : VexFS :=
  match fs.files.get ino with
  | none => fs
  | some f =>
      match fs.cache.get ino with
      | (none, cache) => { fs with cache }
      | (some data, cache) => persistToDisk { fs with cache } p ino f.name data f.diskIndex

/-- Persist what the disk holds for a file, if it can be read. -/
def persistRecovered (fs : VexFS) (p : Persistence) (ino : UInt64) : VexFS :=
  match fs.files.get ino with
  | none => fs
  | some f =>
      match fs.disk.readFileData f.dataOffset f.attr.size.toNat with
      | .error _ => fs
      | .ok raw => fs.persistToDisk p ino f.name (decompress raw) f.diskIndex

end VexFS

end Vexfs
