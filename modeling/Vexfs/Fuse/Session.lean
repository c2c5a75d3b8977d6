import Vexfs.Fuse.VexFS

/-!
# Sessions

A session is the state of a mounted file system together with a log: every piece an
operation performs is recorded with the state it was performed in.  No operation reads the
log; it is there to say of a session what happened in it.

An operation is a function of the session and of what it reads from outside (`Env`).  It
ends with a reply, or with a panic that ends the session.  `Reachable.holds` is the rule all
invariants of sessions are proved by: what every piece keeps, under a condition on the state
it is performed in, holds in every session whose log meets the condition.
-/

namespace Vexfs

open Bytes

/-! ### Requests and pieces -/

/-- The requests of the kernel. -/
inductive Request where
  | create (parent : UInt64) (name : String)
  | mkdir (parent : UInt64) (name : String)
  | unlink (parent : UInt64) (name : String)
  | rmdir (parent : UInt64) (name : String)
  | rename (parent : UInt64) (name : String) (newparent : UInt64) (newname : String)
  | write (ino : UInt64) (offset : Int64) (data : List UInt8)
  | setattr (ino : UInt64) (size : Option UInt64)
  | read (ino : UInt64) (offset : Int64) (size : UInt32)
  | flush (ino : UInt64)
  | fsync (ino : UInt64)
  | release (ino : UInt64)
  | destroy

/-- The pieces an operation performs.  The first is the request itself, which changes
nothing. -/
inductive Call where
  | request (request : Request)
  | cacheGet (ino : UInt64)
  | cachePut (ino : UInt64) (data : List UInt8)
  | drainEvicted
  | stage (ino now : UInt64)
  | clean (ino : UInt64)
  | persistBuffered (p : Persistence) (ino : UInt64)
  | persistCached (p : Persistence) (ino : UInt64)
  | persistRecovered (p : Persistence) (ino : UInt64)
  | setSize (ino size : UInt64)
  | takeSnapshot (ino : UInt64) (data : List UInt8) (takenAt recordedAt : UInt64)
  | maybeGcSnapshots (order : Arrangement UInt64)
  | addEntry (parent : UInt64) (name : String) (isDir : Bool)
  | writeNewInode (ino createdAt modifiedAt : UInt64)
  | flushDisk
  | unlink (parent : UInt64) (name : String)
  | rmdir (parent : UInt64) (name : String)
  | rename (parent : UInt64) (name : String) (newparent : UInt64) (newname : String)
      (now : UInt64)

/-- The pieces that caching, flushing and evicting are made of. -/
def Call.Stores : Call → Prop
  | .cacheGet _ | .cachePut _ _ | .drainEvicted | .stage _ _ | .clean _ => True
  | .persistBuffered _ _ | .persistCached _ _ | .persistRecovered _ _ => True
  | _ => False

/-- The pieces that leave the namespace alone. -/
def Call.Stays : Call → Prop
  | .request _ | .addEntry _ _ _ | .unlink _ _ | .rmdir _ _ | .rename _ _ _ _ _ => False
  | _ => True

def Call.IsRequest : Call → Prop
  | .request _ => True
  | _ => False

theorem Call.Stores.stays {c : Call} (h : c.Stores) :
  c.Stays
  := by
  cases c <;> first | exact h.elim | trivial

theorem Call.Stays.not_isRequest {c : Call} (h : c.Stays) :
  ¬ c.IsRequest
  := by
  cases c <;> first | exact h.elim | exact id

/-- What one operation reads from outside. -/
structure Env where
  /-- What persisting a file reads, for each file. -/
  persistence : UInt64 → Persistence
  bufferedAt : UInt64
  dueAt : UInt64
  createdAt : UInt64
  modifiedAt : UInt64
  takenAt : UInt64
  recordedAt : UInt64
  bufferOrder : Arrangement UInt64
  snapshotOrder : Arrangement UInt64

/-- An environment in which no time passes and no file is ranked. -/
def Env.still : Env where
  persistence _ := ⟨[], 0, 0⟩
  bufferedAt := 0
  dueAt := 0
  createdAt := 0
  modifiedAt := 0
  takenAt := 0
  recordedAt := 0
  bufferOrder := .id
  snapshotOrder := .id

inductive Errno where
  | enoent
  | enospc
  | eexist
  | enotdir
  | enotempty
deriving DecidableEq, Repr

inductive Reply where
  | ok
  | error (errno : Errno)
  | entry (attr : FileAttr)
  | attr (attr : FileAttr)
  | data (bytes : List UInt8)
  | written (n : UInt32)
  /-- The reply for a virtual file, which comes from the AI engine. -/
  | virtualFile
deriving DecidableEq, Repr

/-- The panics that end a session. -/
inductive SessionPanic where
  | arithmeticOverflow
  | capacityOverflow
deriving DecidableEq, Repr

variable [Crc32] [Zstd]

/-- What a piece does to the state. -/
def Call.run (fs : VexFS) : Call → VexFS
  | .request _ => fs
  | .cacheGet ino => fs.cacheGet ino
  | .cachePut ino data => fs.cachePut ino data
  | .drainEvicted => fs.drainEvicted
  | .stage ino now => fs.stage ino now
  | .clean ino => fs.clean ino
  | .persistBuffered p ino => fs.persistBuffered p ino
  | .persistCached p ino => fs.persistCached p ino
  | .persistRecovered p ino => fs.persistRecovered p ino
  | .setSize ino size => fs.setSize ino size
  | .takeSnapshot ino data takenAt recordedAt => fs.takeSnapshot ino data takenAt recordedAt
  | .maybeGcSnapshots order => fs.maybeGcSnapshots order
  | .addEntry parent name isDir => fs.addEntry parent name isDir
  | .writeNewInode ino createdAt modifiedAt => fs.writeNewInode ino createdAt modifiedAt
  | .flushDisk => fs.flushDisk
  | .unlink parent name => fs.unlink parent name
  | .rmdir parent name => fs.rmdir parent name
  | .rename parent name newparent newname now => fs.rename parent name newparent newname now

/-! ### Sessions -/

/-- The state of a file system, and the pieces performed so far, each with the state it was
performed in. -/
structure Session where
  fs : VexFS
  log : List (VexFS × Call)

namespace Session

def perform (s : Session) (c : Call) : Session where
  fs := c.run s.fs
  log := s.log ++ [(s.fs, c)]

theorem fs_perform (s : Session) (c : Call) :
  (s.perform c).fs = c.run s.fs
  := rfl

/-- What is said of the pieces of a log is said of those before, and of the last. -/
theorem forall_log_perform {P : VexFS × Call → Prop} {s : Session} {c : Call} :
  (∀ e ∈ (s.perform c).log, P e) ↔ (∀ e ∈ s.log, P e) ∧ P (s.fs, c)
  := by
  rw [perform, List.forall_mem_append, List.forall_mem_singleton]

/-! #### Flushing and evicting -/

/-- Persist the buffered writes of some files, one after the other. -/
def persistAll (s : Session) (env : Env) (inos : List UInt64) : Session :=
  inos.foldl (fun s ino => s.perform (.persistBuffered (env.persistence ino) ino)) s

/-- Flush a dirty cached file to the write buffer, and what is due from there to disk. -/
def flushFile (s : Session) (env : Env) (ino : UInt64) : Session :=
  match s.fs.files.get ino with
  | none => s
  | some f =>
      if f.dirty then
        let staged := s.perform (.stage ino env.bufferedAt)
        if (s.fs.cache.contents ino).isSome then
          staged.persistAll env (staged.fs.writeBuffer.dueForFlush env.bufferOrder env.dueAt)
        else staged
      else s

/-- Persist the eviction candidate, if it is dirty and the cache is full. -/
def preEvictionFlush (s : Session) (env : Env) : Session :=
  if s.fs.cache.usedBytes < s.fs.cache.maxBytes then s
  else
    match s.fs.cache.peekEvictionCandidate with
    | none => s
    | some candidate =>
        match s.fs.files.get candidate with
        | none => s
        | some f =>
            if f.dirty then
              let p := env.persistence candidate
              let s := if (s.fs.writeBuffer.get candidate).isSome then
                s.perform (.persistBuffered p candidate)
                else s.perform (.persistCached p candidate)
              s.perform (.clean candidate)
            else s

/-- Persist an evicted file that is dirty: its buffered write, or else what the disk holds
for it. -/
def flushEvicted (s : Session) (env : Env) (ino : UInt64) : Session :=
  match s.fs.files.get ino with
  | none => s
  | some f =>
      if f.dirty then
        let p := env.persistence ino
        let s := if (s.fs.writeBuffer.get ino).isSome then s.perform (.persistBuffered p ino)
          else if 0 < f.dataOffset ∧ 0 < f.attr.size then s.perform (.persistRecovered p ino)
          else s
        s.perform (.clean ino)
      else s

/-- Flush the evicted cache entries. -/
def flushCacheEvictions (s : Session) (env : Env) : Session :=
  s.fs.cache.evicted.foldl (fun s ino => s.flushEvicted env ino) (s.perform .drainEvicted)

/-- Insert into the cache, with the flushes around it. -/
def cacheInsert (s : Session) (env : Env) (ino : UInt64) (data : List UInt8) : Session :=
  ((s.preEvictionFlush env).perform (.cachePut ino data)).flushCacheEvictions env

/-- Persist all writes that wait.  They are taken out of the buffer one by one, which makes
no difference, as persisting does not look at the buffer. -/
def flushAll (s : Session) (env : Env) : Session :=
  s.persistAll env (env.bufferOrder.arrange s.fs.writeBuffer.pending.keys)

/-! #### Operations -/

/-- The largest capacity of a vector. -/
def maxCapacity : ℕ := 2 ^ 63 - 1

omit [Crc32] [Zstd] in
/-- Contents cut or filled up with zeros to a length. -/
def resize (content : List UInt8) (n : ℕ) : List UInt8 :=
  content.take n ++ zeros (n - content.length)

omit [Crc32] [Zstd] in
/-- Contents with the bytes from an offset on replaced by `data`, filled up with zeros
between the old end and the offset. -/
def overwrite (content : List UInt8) (offset : ℕ) (data : List UInt8) : List UInt8 :=
  let content := if content.length < offset + data.length then
    resize content (offset + data.length) else content
  content.take offset ++ data ++ content.drop (offset + data.length)

omit [Crc32] [Zstd] in
/-- The bytes a read of `size` bytes at an offset returns. -/
def sliceOf (content : List UInt8) (offset : Int64) (size : UInt32) : List UInt8 :=
  let start := min offset.toUInt64.toNat content.length
  let stop := min (start + size.toNat) content.length
  (content.take stop).drop start

omit [Crc32] [Zstd] in
/-- Why an entry cannot be added under a parent: it is missing, or not a directory. -/
def parentError (fs : VexFS) (parent : UInt64) : Option Errno :=
  if parent = rootIno then none
  else
    match fs.files.get parent with
    | none => some .enoent
    | some f => if f.attr.kind = .directory then none else some .enotdir

def create (s : Session) (env : Env) (parent : UInt64) (name : String) :
    Except SessionPanic (Reply × Session) :=
  match parentError s.fs parent with
  | some errno => .ok (.error errno, s)
  | none =>
      if (s.fs.index.get parent name).isSome then .ok (.error .eexist, s)
      else
        match s.fs.disk.allocInode.1 with
        | none => .ok (.error .enospc, s.perform (.addEntry parent name false))
        | some _ =>
            if s.fs.nextInode + 1 = 0 then .error .arithmeticOverflow
            else
              let ino := s.fs.nextInode
              let s := (s.perform (.addEntry parent name false)).cacheInsert env ino []
              let s := s.perform (.writeNewInode ino env.createdAt env.modifiedAt)
              .ok (.entry (makeAttr ino 0 false), s)

def mkdir (s : Session) (env : Env) (parent : UInt64) (name : String) :
    Except SessionPanic (Reply × Session) :=
  match parentError s.fs parent with
  | some errno => .ok (.error errno, s)
  | none =>
      if (s.fs.index.get parent name).isSome then .ok (.error .eexist, s)
      else
        match s.fs.disk.allocInode.1 with
        | none => .ok (.error .enospc, s.perform (.addEntry parent name true))
        | some _ =>
            if s.fs.nextInode + 1 = 0 then .error .arithmeticOverflow
            else
              let ino := s.fs.nextInode
              let s := s.perform (.addEntry parent name true)
              let s := s.perform (.writeNewInode ino env.createdAt env.modifiedAt)
              .ok (.entry (makeAttr ino 0 true), s.perform .flushDisk)

def unlink (s : Session) (parent : UInt64) (name : String) : Reply × Session :=
  match s.fs.index.get parent name with
  | none => (.error .enoent, s.perform (.unlink parent name))
  | some val =>
      if (s.fs.files.get val.ino).isSome then (.ok, s.perform (.unlink parent name))
      else (.error .enoent, s.perform (.unlink parent name))

def rmdir (s : Session) (parent : UInt64) (name : String) : Reply × Session :=
  match s.fs.index.get parent name with
  | none => (.error .enoent, s)
  | some val =>
      if !val.isDir then (.error .enotdir, s)
      else if s.fs.index.listDir val.ino ≠ [] then (.error .enotempty, s)
      else if (s.fs.files.get val.ino).isSome then (.ok, s.perform (.rmdir parent name))
      else (.error .enoent, s.perform (.rmdir parent name))

def rename (s : Session) (env : Env) (parent : UInt64) (name : String) (newparent : UInt64)
    (newname : String) : Reply × Session :=
  if newparent ≠ rootIno ∧ (s.fs.files.get newparent).isNone then (.error .enoent, s)
  else
    match s.fs.index.get parent name with
    | none => (.error .enoent, s)
    | some _ =>
        (.ok, s.perform (.rename parent name newparent newname env.modifiedAt))

def write (s : Session) (env : Env) (ino : UInt64) (offset : Int64) (data : List UInt8) :
    Except SessionPanic (Reply × Session) :=
  let written := Reply.written (UInt32.ofNat data.length)
  if ino = searchIno ∨ ino = askIno then .ok (written, s)
  else
    match s.fs.files.get ino with
    | none => .ok (.error .enoent, s)
    | some _ =>
        let old := (s.fs.cache.contents ino).getD []
        let s := s.perform (.cacheGet ino)
        let overwrites := offset = 0 ∧ old ≠ []
        if overwrites ∧ s.fs.snapshots.nextId + 1 = 0 then .error .arithmeticOverflow
        else
          let s := if overwrites then
            s.perform (.takeSnapshot ino old env.takenAt env.recordedAt) else s
          let start := offset.toUInt64.toNat
          if maxCapacity < start + data.length then .error .capacityOverflow
          else
            let content := overwrite old start data
            let s := s.perform (.setSize ino (UInt64.ofNat content.length))
            let s := if overwrites then s.perform (.maybeGcSnapshots env.snapshotOrder) else s
            .ok (written, s.cacheInsert env ino content)

def setattr (s : Session) (env : Env) (ino : UInt64) (size : Option UInt64) :
    Except SessionPanic (Reply × Session) :=
  if (ino = searchIno ∨ ino = askIno) ∧ size = some 0 then .ok (.virtualFile, s)
  else
    match s.fs.files.get ino with
    | none => .ok (.error .enoent, s)
    | some f =>
        match size with
        | none => .ok (.attr f.attr, s)
        | some size =>
            if size = f.attr.size then .ok (.attr f.attr, s)
            else
              let old := (s.fs.cache.contents ino).getD []
              let s := s.perform (.cacheGet ino)
              if old ≠ [] ∧ s.fs.snapshots.nextId + 1 = 0 then .error .arithmeticOverflow
              else
                let s := s.perform (.takeSnapshot ino old env.takenAt env.recordedAt)
                if maxCapacity < size.toNat then .error .capacityOverflow
                else
                  let s := s.perform (.setSize ino size)
                  let s := s.perform (.maybeGcSnapshots env.snapshotOrder)
                  .ok (.attr { f.attr with size }, s.cacheInsert env ino (resize old size.toNat))

def read (s : Session) (env : Env) (ino : UInt64) (offset : Int64) (size : UInt32) :
    Reply × Session :=
  if isVirtual ino then (.virtualFile, s)
  else
    match s.fs.files.get ino with
    | none => (.error .enoent, s)
    | some f =>
        match s.fs.cache.contents ino with
        | some data => (.data (sliceOf data offset size), s.perform (.cacheGet ino))
        | none =>
            let data := decompress (VexFS.rawData s.fs.disk f.dataOffset f.attr.size)
            (.data (sliceOf data offset size),
              (s.perform (.cacheGet ino)).cacheInsert env ino data)

/-- One operation, from the request to the reply. -/
def exec (s : Session) (env : Env) (request : Request) :
    Except SessionPanic (Reply × Session) :=
  let s := s.perform (.request request)
  match request with
  | .create parent name => s.create env parent name
  | .mkdir parent name => s.mkdir env parent name
  | .unlink parent name => .ok (s.unlink parent name)
  | .rmdir parent name => .ok (s.rmdir parent name)
  | .rename parent name newparent newname => .ok (s.rename env parent name newparent newname)
  | .write ino offset data => s.write env ino offset data
  | .setattr ino size => s.setattr env ino size
  | .read ino offset size => .ok (s.read env ino offset size)
  | .flush ino => .ok (.ok, s.flushFile env ino)
  | .fsync ino => .ok (.ok, s.flushFile env ino)
  | .release _ => .ok (.ok, s)
  | .destroy => .ok (.ok, s.flushAll env)

end Session

/-! ### Mounting -/

namespace VexFS

omit [Crc32] in
/-- Take an inode of the disk into the state. -/
def loadInode (fs : VexFS) (i : ℕ) (inode : InodeRaw) : Except SessionPanic VexFS :=
  let ino := inode.ino
  let name := inode.getName
  let isDir := inode.isDir = 1
  let parentIno := inode.getParentIno
  let data := if 0 < inode.size then
    decompress (rawData fs.disk inode.dataOffset inode.size) else []
  if fs.nextInode ≤ ino ∧ ino + 1 = 0 then .error .arithmeticOverflow
  else
    .ok { fs with
      cache := fs.cache.insert ino data
      index := fs.index.insert parentIno name { ino, size := inode.size, isDir, diskIndex := i }
      files := fs.files.insert ino {
        name
        attr := makeAttr ino inode.size isDir
        diskIndex := i
        dirty := false
        parentIno
        dataOffset := inode.dataOffset }
      nextInode := if fs.nextInode ≤ ino then ino + 1 else fs.nextInode }

/-- Take the inodes with some indices into the state, up to the first that cannot be
read. -/
def loadInodes (fs : VexFS) : List ℕ → Except SessionPanic VexFS
  | [] => .ok fs
  | i :: is =>
      match fs.disk.readInode i with
      | .error _ => .ok fs
      | .ok inode =>
          if inode.isValid ∧ inode.getName ≠ "" then do
            loadInodes (← fs.loadInode i inode) is
          else loadInodes fs is

omit [Crc32] [Zstd] in
/-- The snapshot that a record of the snapshot table stands for. -/
def restoredSnapshot (disk : DiskManager) (i : ℕ) (record : SnapshotRaw) : Snapshot where
  id := record.id
  ino := record.ino
  name := record.getName
  size := record.size
  dataOffset := record.dataOffset
  timestamp := record.timestamp
  data := rawData disk record.dataOffset record.size
  diskSlot := i

omit [Crc32] [Zstd] in
/-- Add a snapshot to those of its file. -/
def pushSnapshot (m : SnapshotManager) (snap : Snapshot) : SnapshotManager :=
  { m with snapshots := m.snapshots.insert snap.ino (m.list snap.ino ++ [snap]) }

omit [Zstd] in
/-- The snapshots in some slots, up to the first that cannot be read. -/
def loadSnapshots (disk : DiskManager) (m : SnapshotManager) : List ℕ → SnapshotManager
  | [] => m
  | i :: is =>
      match disk.readSnapshot i with
      | .error _ => m
      | .ok record =>
          if record.isValid snapshotMagic ∧ record.getName ≠ "" then
            loadSnapshots disk (pushSnapshot m (restoredSnapshot disk i record)) is
          else loadSnapshots disk m is

omit [Crc32] [Zstd] in
/-- The next id once snapshots are restored: one more than the largest, if there are any. -/
def restoredNextId (m : SnapshotManager) : Except SessionPanic UInt32 :=
  match ((m.snapshots.entries.flatMap fun e => e.2).map Snapshot.id).max? with
  | none => .ok m.nextId
  | some id => if id + 1 = 0 then .error .arithmeticOverflow else .ok (id + 1)

/-- Mount an opened disk. -/
def load (disk : DiskManager) : Except SessionPanic VexFS := do
  let fs ← (VexFS.new disk).loadInodes (List.range disk.inodeTable.capacity)
  let snapshots := loadSnapshots disk (.new 10) (List.range maxSnapshotSlots)
  let nextId ← restoredNextId snapshots
  return { fs with snapshots := { snapshots with nextId } }

end VexFS

/-! ### Runs -/

/-- The sessions that operations lead to from a mounted file system. -/
inductive Reachable (start : VexFS) : Session → Prop where
  | start : Reachable start ⟨start, []⟩
  | exec {s s' : Session} {reply : Reply} (env : Env) (request : Request)
      (h : Reachable start s) (hexec : s.exec env request = .ok (reply, s')) :
      Reachable start s'

namespace Session

/-- One session continues another by performing pieces that `P` allows. -/
inductive Performs (P : Call → Prop) (s : Session) : Session → Prop where
  | refl : Performs P s s
  | perform {s' : Session} {c : Call} (h : Performs P s s') (hc : P c) :
      Performs P s (s'.perform c)

namespace Performs

variable {P : Call → Prop} {s s' s'' : Session} {env : Env}

theorem trans (h : Performs P s s') (h' : Performs P s' s'') :
  Performs P s s''
  := by
  induction h' with
  | refl => exact h
  | perform _ hc ih => exact ih.perform hc

theorem mono {Q : Call → Prop} (hPQ : ∀ c, P c → Q c) (h : Performs P s s') :
  Performs Q s s'
  := by
  induction h with
  | refl => exact .refl
  | perform _ hc ih => exact ih.perform (hPQ _ hc)

theorem foldl {α : Type} {f : Session → α → Session} (hf : ∀ s a, Performs P s (f s a))
    (l : List α) (h : Performs P s s') :
  Performs P s (l.foldl f s')
  := by
  induction l generalizing s' with
  | nil => exact h
  | cons a l ih => exact ih (h.trans (hf s' a))

theorem persistAll (inos : List UInt64) (h : Performs Call.Stores s s') :
  Performs Call.Stores s (s'.persistAll env inos)
  := h.foldl (fun _ ino => refl.perform (c := .persistBuffered (env.persistence ino) ino) trivial)
    inos

theorem flushFile (ino : UInt64) (h : Performs Call.Stores s s') :
  Performs Call.Stores s (s'.flushFile env ino)
  := by
  have hstaged : Performs Call.Stores s (s'.perform (.stage ino env.bufferedAt)) :=
    h.perform trivial
  unfold Session.flushFile
  split
  · exact h
  · split
    · split
      · exact hstaged.persistAll _
      · exact hstaged
    · exact h

theorem preEvictionFlush (h : Performs Call.Stores s s') :
  Performs Call.Stores s (s'.preEvictionFlush env)
  := by
  unfold Session.preEvictionFlush
  split
  · exact h
  split
  · exact h
  split
  · exact h
  split
  · apply Performs.perform _ trivial
    split <;> exact h.perform trivial
  · exact h

theorem flushEvicted (ino : UInt64) (h : Performs Call.Stores s s') :
  Performs Call.Stores s (s'.flushEvicted env ino)
  := by
  unfold Session.flushEvicted
  split
  · exact h
  split
  · apply Performs.perform _ trivial
    split
    · exact h.perform trivial
    · split
      · exact h.perform trivial
      · exact h
  · exact h

theorem cacheInsert (ino : UInt64) (data : List UInt8) (h : Performs Call.Stores s s') :
  Performs Call.Stores s (s'.cacheInsert env ino data)
  := by
  have hput : Performs Call.Stores s ((s'.preEvictionFlush env).perform (.cachePut ino data)) :=
    h.preEvictionFlush.perform trivial
  apply foldl (fun _ _ => refl.flushEvicted _)
  exact hput.perform trivial

/-- Continuing a session adds to its log. -/
theorem log_extends (h : Performs P s s') :
  s.log <+: s'.log
  := by
  induction h with
  | refl => exact List.prefix_refl _
  | perform _ _ ih => exact ih.trans (List.prefix_append _ _)

/-- What is new in the log is allowed by `P`. -/
theorem mem_log {e : VexFS × Call} (h : Performs P s s') (he : e ∈ s'.log) :
  e ∈ s.log ∨ P e.2
  := by
  induction h with
  | refl => exact Or.inl he
  | perform _ hc ih =>
      obtain he | he := List.mem_append.mp he
      · exact ih he
      · obtain rfl := List.mem_singleton.mp he
        exact Or.inr hc

end Performs

/-! One lemma for each operation: it performs pieces. -/

variable {s s' : Session} {env : Env} {reply : Reply}

/-- One session continues another by pieces that are not requests. -/
abbrev Continues : Session → Session → Prop := Performs fun c => ¬ c.IsRequest

/-- One session continues another by pieces that leave the namespace alone. -/
abbrev Stays : Session → Session → Prop := Performs Call.Stays

theorem Performs.stays (h : Performs Call.Stores s s') :
  Stays s s'
  := h.mono fun _ hc => hc.stays

theorem Performs.continues (h : Stays s s') :
  Continues s s'
  := h.mono fun _ hc => hc.not_isRequest

theorem continues_perform (s : Session) {c : Call} (hc : ¬ c.IsRequest) :
  Continues s (s.perform c)
  := Performs.refl.perform hc

theorem continues_cacheInsert (s : Session) (env : Env) (ino : UInt64) (data : List UInt8) :
  Continues s (s.cacheInsert env ino data)
  := (Performs.refl.cacheInsert ino data).stays.continues

theorem create_continues {parent : UInt64} {name : String}
    (h : s.create env parent name = .ok (reply, s')) :
  Continues s s'
  := by
  unfold create at h
  split at h
  · cases h
    exact .refl
  split at h
  · cases h
    exact .refl
  split at h
  · cases h
    exact continues_perform _ id
  split at h
  · cases h
  · cases h
    exact ((continues_perform _ id).trans (continues_cacheInsert _ _ _ _)).perform id

theorem mkdir_continues {parent : UInt64} {name : String}
    (h : s.mkdir env parent name = .ok (reply, s')) :
  Continues s s'
  := by
  unfold mkdir at h
  split at h
  · cases h
    exact .refl
  split at h
  · cases h
    exact .refl
  split at h
  · cases h
    exact continues_perform _ id
  split at h
  · cases h
  · cases h
    exact ((continues_perform _ id).perform id).perform id

theorem unlink_continues (s : Session) (parent : UInt64) (name : String) :
  Continues s (s.unlink parent name).2
  := by
  unfold unlink
  split
  · exact continues_perform _ id
  · split <;> exact continues_perform _ id

theorem rmdir_continues (s : Session) (parent : UInt64) (name : String) :
  Continues s (s.rmdir parent name).2
  := by
  unfold rmdir
  split
  · exact .refl
  split
  · exact .refl
  split
  · exact .refl
  · split <;> exact continues_perform _ id

theorem rename_continues (s : Session) (parent : UInt64) (name : String) (newparent : UInt64)
    (newname : String) :
  Continues s (s.rename env parent name newparent newname).2
  := by
  unfold rename
  split
  · exact .refl
  split
  · exact .refl
  · exact continues_perform _ id

theorem write_stays {ino : UInt64} {offset : Int64} {data : List UInt8}
    (h : s.write env ino offset data = .ok (reply, s')) :
  Stays s s'
  := by
  unfold write at h
  dsimp only at h
  split at h
  · cases h
    exact .refl
  split at h
  · cases h
    exact .refl
  split at h
  · cases h
  split at h
  · cases h
  · cases h
    apply Performs.trans _ (Performs.refl.cacheInsert _ _).stays
    split
    · exact (((Performs.refl.perform trivial).perform trivial).perform trivial).perform trivial
    · exact (Performs.refl.perform trivial).perform trivial

theorem setattr_stays {ino : UInt64} {size : Option UInt64}
    (h : s.setattr env ino size = .ok (reply, s')) :
  Stays s s'
  := by
  unfold setattr at h
  split at h
  · cases h
    exact .refl
  split at h
  · cases h
    exact .refl
  split at h
  · cases h
    exact .refl
  split at h
  · cases h
    exact .refl
  dsimp only at h
  split at h
  · cases h
  split at h
  · cases h
  · cases h
    apply Performs.trans _ (Performs.refl.cacheInsert _ _).stays
    exact (((Performs.refl.perform trivial).perform trivial).perform trivial).perform trivial

theorem read_stores (s : Session) (ino : UInt64) (offset : Int64) (size : UInt32) :
  Performs Call.Stores s (s.read env ino offset size).2
  := by
  unfold read
  split
  · exact .refl
  split
  · exact .refl
  have hget : Performs Call.Stores s (s.perform (.cacheGet ino)) := Performs.refl.perform trivial
  split
  · exact hget
  · exact hget.cacheInsert _ _

omit [Crc32] [Zstd] in
theorem snd_of_ok {r : Reply × Session}
    (h : (Except.ok r : Except SessionPanic (Reply × Session)) = .ok (reply, s')) :
  r.2 = s'
  := congrArg Prod.snd (Except.ok.inj h)

/-- An operation records its request and performs pieces that are not requests. -/
theorem request_continues {request : Request} (h : s.exec env request = .ok (reply, s')) :
  Continues (s.perform (.request request)) s'
  := by
  unfold exec at h
  cases request with
  | create parent name => exact (create_continues h)
  | mkdir parent name => exact (mkdir_continues h)
  | write ino offset data => exact (write_stays h).continues
  | setattr ino size => exact (setattr_stays h).continues
  | unlink parent name =>
      rw [← snd_of_ok h]
      exact (unlink_continues _ parent name)
  | rmdir parent name =>
      rw [← snd_of_ok h]
      exact (rmdir_continues _ parent name)
  | rename parent name newparent newname =>
      rw [← snd_of_ok h]
      exact (rename_continues _ parent name newparent newname)
  | read ino offset size =>
      rw [← snd_of_ok h]
      exact (read_stores _ ino offset size).stays.continues
  | flush ino =>
      cases h
      exact (Performs.refl.flushFile ino).stays.continues
  | fsync ino =>
      cases h
      exact (Performs.refl.flushFile ino).stays.continues
  | release ino =>
      cases h
      exact .refl
  | destroy =>
      cases h
      exact (Performs.refl.persistAll _).stays.continues

theorem exec_performs {request : Request} (h : s.exec env request = .ok (reply, s')) :
  Performs (fun _ => True) s s'
  := (Performs.refl.perform trivial).trans ((request_continues h).mono fun _ _ => trivial)

/-- The log of an operation starts with its request. -/
theorem log_extends_exec {request : Request} (h : s.exec env request = .ok (reply, s')) :
  s.log ++ [(s.fs, .request request)] <+: s'.log
  := (request_continues h).log_extends

/-- The requests of an operation: those before it, and its own. -/
theorem mem_requests_exec {request request' : Request} {fs : VexFS}
    (h : s.exec env request = .ok (reply, s')) (hmem : (fs, Call.request request') ∈ s'.log) :
  (fs, Call.request request') ∈ s.log ∨ fs = s.fs ∧ request' = request
  := by
  obtain hmem | hnot := (request_continues h).mem_log hmem
  · obtain hmem | hmem := List.mem_append.mp hmem
    · exact Or.inl hmem
    · cases List.mem_singleton.mp hmem
      exact Or.inr ⟨rfl, rfl⟩
  · exact absurd trivial hnot

/-! ### Invariants -/

/-- The state of a session is as `I` says, if every piece in the log was performed in a state
that `Good` allows it in. -/
def Holds (Good : VexFS → Call → Prop) (I : VexFS → Prop) (s : Session) : Prop :=
  (∀ e ∈ s.log, Good e.1 e.2) → I s.fs

variable {Good : VexFS → Call → Prop} {I : VexFS → Prop}

theorem Holds.perform {c : Call} (hstep : Good s.fs c → I s.fs → I (c.run s.fs))
    (h : Holds Good I s) :
  Holds Good I (s.perform c)
  := by
  intro hlog
  obtain ⟨hbefore, hc⟩ := forall_log_perform.mp hlog
  exact hstep hc (h hbefore)

theorem Performs.holds {P : Call → Prop}
    (hstep : ∀ fs c, P c → Good fs c → I fs → I (c.run fs)) (hruns : Performs P s s')
    (h : Holds Good I s) :
  Holds Good I s'
  := by
  induction hruns with
  | refl => exact h
  | perform _ hc ih => exact ih.perform (hstep _ _ hc)

end Session

/-- What holds of the mounted file system, and is kept by every piece that is performed where
`Good` allows it, holds in every session that performs its pieces so. -/
theorem Reachable.holds {start : VexFS} {s : Session} {Good : VexFS → Call → Prop}
    {I : VexFS → Prop} (hstart : I start) (hstep : ∀ fs c, Good fs c → I fs → I (c.run fs))
    (h : Reachable start s) :
  s.Holds Good I
  := by
  induction h with
  | start => exact fun _ => hstart
  | exec env request _ hexec ih =>
      exact (Session.exec_performs hexec).holds (fun fs c _ => hstep fs c) ih

/-- What holds of the mounted file system, and is kept by every request that is made where
`Good` allows it, holds in every session that makes its requests so. -/
theorem Reachable.holds_of_requests {start : VexFS} {s : Session}
    {Good : VexFS → Request → Prop} {I : VexFS → Prop} (hstart : I start)
    (hstep : ∀ (s s' : Session) (env : Env) (request : Request) (reply : Reply),
      Good s.fs request → I s.fs → s.exec env request = .ok (reply, s') → I s'.fs)
    (h : Reachable start s) :
  (∀ fs request, (fs, Call.request request) ∈ s.log → Good fs request) → I s.fs
  := by
  induction h with
  | start => exact fun _ => hstart
  | @exec s s' reply env request _ hexec ih =>
      intro hgood
      have hstarted := Session.log_extends_exec hexec
      have hrequest : (s.fs, Call.request request) ∈ s'.log :=
        hstarted.subset (List.mem_append_right _ List.mem_cons_self)
      have hbefore := ih fun fs request h =>
        hgood fs request (hstarted.subset (List.mem_append_left _ h))
      exact hstep s s' env request reply (hgood _ _ hrequest) hbefore hexec

end Vexfs
