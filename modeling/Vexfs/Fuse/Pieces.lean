import Vexfs.Fuse.History
import Vexfs.Fuse.Roomy
import Vexfs.Fuse.Runs

/-!
# What a piece does to a file

A piece of a session changes the files in few ways: `Call.fileAfter` says what becomes of a
file, and `Call.get_files_run` that a file is there after a piece only if it was there before
or was added by it.  The writes that wait in the buffer are staged by one kind of piece
(`Call.get_writeBuffer_run`).

Some pieces call `persist_to_disk`, with data and a name that come from the write buffer, from
the cache and the files, or from the disk.  `Call.persistCall` gives the arguments of the call,
and `PersistCall.record` the inode record it writes.
-/

namespace Vexfs

open Storage

/-- The arguments of a call of `persist_to_disk`. -/
structure PersistCall where
  p : Persistence
  ino : UInt64
  name : String
  data : List UInt8
  diskIndex : ℕ

variable [Crc32] [Zstd]

namespace PersistCall

/-- What the call does. -/
def run (fs : VexFS) (pc : PersistCall) : VexFS :=
  fs.persistToDisk pc.p pc.ino pc.name pc.data pc.diskIndex

omit [Crc32] in
/-- The bytes that are stored. -/
def bytes (pc : PersistCall) : List UInt8 := pc.p.dataToWrite pc.name pc.data

/-- The offset at which they are stored, and the disk when space was taken for them. -/
def placed (fs : VexFS) (pc : PersistCall) : UInt64 × DiskManager :=
  VexFS.allocFor (VexFS.freeExtent fs.disk (fs.oldExtent pc.ino)) pc.bytes

/-- The inode record that is written. -/
def record (fs : VexFS) (pc : PersistCall) : InodeRaw :=
  fs.persistedInode pc.p pc.ino pc.name pc.data (pc.placed fs).1

end PersistCall

omit [Crc32] in
/-- The call of `persist_to_disk` that a piece makes, if it makes one. -/
def Call.persistCall (fs : VexFS) : Call → Option PersistCall
  | .persistBuffered p ino =>
      (fs.writeBuffer.get ino).map fun w => ⟨p, ino, w.name, w.data, w.diskIndex⟩
  | .persistCached p ino =>
      match fs.files.get ino, fs.cache.contents ino with
      | some f, some data => some ⟨p, ino, f.name, data, f.diskIndex⟩
      | _, _ => none
  | .persistRecovered p ino =>
      match fs.files.get ino with
      | none => none
      | some f =>
          match fs.disk.readFileData f.dataOffset f.attr.size.toNat with
          | .error _ => none
          | .ok raw => some ⟨p, ino, f.name, decompress raw, f.diskIndex⟩
  | _ => none

namespace PersistCall

variable {fs : VexFS} {pc : PersistCall} {c : Call}

omit [Crc32] in
/-- What is persisted comes from the write that waits, from the cache or from the disk. -/
theorem origin (h : c.persistCall fs = some pc) :
  (c = .persistBuffered pc.p pc.ino ∧ ∃ w, fs.writeBuffer.get pc.ino = some w
      ∧ pc.name = w.name ∧ pc.data = w.data ∧ pc.diskIndex = w.diskIndex)
    ∨ (c = .persistCached pc.p pc.ino ∧ ∃ f, fs.files.get pc.ino = some f
      ∧ fs.cache.contents pc.ino = some pc.data
      ∧ pc.name = f.name ∧ pc.diskIndex = f.diskIndex)
    ∨ c = .persistRecovered pc.p pc.ino ∧ ∃ f raw, fs.files.get pc.ino = some f
      ∧ fs.disk.readFileData f.dataOffset f.attr.size.toNat = .ok raw
      ∧ pc.data = decompress raw ∧ pc.name = f.name ∧ pc.diskIndex = f.diskIndex
  := by
  cases c with
  | persistBuffered p ino =>
      obtain ⟨w, hw, rfl⟩ := Option.map_eq_some_iff.mp h
      exact Or.inl ⟨rfl, w, hw, rfl, rfl, rfl⟩
  | persistCached p ino =>
      dsimp only [Call.persistCall] at h
      split at h
      · next f data hf hdata =>
        cases h
        exact Or.inr (Or.inl ⟨rfl, f, hf, hdata, rfl, rfl⟩)
      · cases h
  | persistRecovered p ino =>
      dsimp only [Call.persistCall] at h
      split at h
      · cases h
      next f hf =>
      split at h
      · cases h
      next raw hraw =>
      cases h
      exact Or.inr (Or.inr ⟨rfl, f, raw, hf, hraw, rfl, rfl, rfl⟩)
  | _ => cases h

/-- The disk and the files are those that the call leaves. -/
theorem run_eq (h : c.persistCall fs = some pc) :
  (c.run fs).disk = (pc.run fs).disk ∧ (c.run fs).files = (pc.run fs).files
  := by
  obtain ⟨p, ino, name, data, diskIndex⟩ := pc
  obtain ⟨rfl, w, hw, rfl, rfl, rfl⟩ | ⟨rfl, f, hf, hdata, rfl, rfl⟩
    | ⟨rfl, f, raw, hf, hraw, rfl, rfl, rfl⟩ := origin h
  · have htake : fs.writeBuffer.take ino = (some w, (fs.writeBuffer.take ino).2) :=
      Prod.ext hw rfl
    show (fs.persistBuffered p ino).disk = _ ∧ (fs.persistBuffered p ino).files = _
    rw [VexFS.persistBuffered, htake]
    exact ⟨rfl, rfl⟩
  · have hget : fs.cache.get ino = (some data, (fs.cache.get ino).2) :=
      Prod.ext ((fs.cache.fst_get ino).trans hdata) rfl
    show (fs.persistCached p ino).disk = _ ∧ (fs.persistCached p ino).files = _
    rw [VexFS.persistCached, hf]
    dsimp only
    rw [hget]
    exact ⟨rfl, rfl⟩
  · show (fs.persistRecovered p ino).disk = _ ∧ (fs.persistRecovered p ino).files = _
    rw [VexFS.persistRecovered, hf]
    dsimp only
    rw [hraw]
    exact ⟨rfl, rfl⟩

/-- A piece that persists a file and makes no call leaves the files alone. -/
theorem files_of_none {ino : UInt64} {p : Persistence}
    (hc : c = .persistBuffered p ino ∨ c = .persistCached p ino ∨ c = .persistRecovered p ino)
    (h : c.persistCall fs = none) :
  (c.run fs).files = fs.files
  := by
  obtain rfl | rfl | rfl := hc
  · have hw : fs.writeBuffer.get ino = none := Option.map_eq_none_iff.mp h
    have htake : fs.writeBuffer.take ino = (none, (fs.writeBuffer.take ino).2) :=
      Prod.ext hw rfl
    show (fs.persistBuffered p ino).files = _
    rw [VexFS.persistBuffered, htake]
  · show (fs.persistCached p ino).files = _
    unfold VexFS.persistCached
    split
    · rfl
    next f hf =>
    split
    · rfl
    next data cache hget =>
    have hdata : fs.cache.contents ino = some data :=
      (fs.cache.fst_get ino).symm.trans (congrArg Prod.fst hget)
    dsimp only [Call.persistCall] at h
    rw [hf, hdata] at h
    cases h
  · show (fs.persistRecovered p ino).files = _
    unfold VexFS.persistRecovered
    split
    · rfl
    next f hf =>
    split
    · rfl
    next raw hraw =>
    dsimp only [Call.persistCall] at h
    rw [hf] at h
    dsimp only at h
    rw [hraw] at h
    cases h

/-- A call gives its file a new place on disk. -/
theorem files_run (fs : VexFS) (pc : PersistCall) :
  (pc.run fs).files
    = fs.files.modify pc.ino fun f => { f with dataOffset := (pc.placed fs).1 }
  := rfl

/-- The bytes are written where space was taken for them, and the record into its slot. -/
theorem disk_run (fs : VexFS) (pc : PersistCall) :
  (pc.run fs).disk
    = VexFS.store (pc.placed fs).2 (pc.placed fs).1 pc.bytes pc.diskIndex (pc.record fs)
  := rfl

end PersistCall

/-! ### The calls that a piece makes -/

open VexFS in
/-- The kinds of calls of the disk manager that a piece makes. -/
inductive Call.Makes (fs : VexFS) : Call → DiskCall → Prop
  | free {c : Call} {offset length : UInt64} : c.Releases → Makes fs c (.freeData offset length)
  | store {c : Call} {pc : PersistCall} : c.persistCall fs = some pc →
      Makes fs c (.store pc.bytes pc.diskIndex
        (fs.persistedInode pc.p pc.ino pc.name pc.data))
  | writeSnapshot {ino takenAt recordedAt : UInt64} {data : List UInt8} {slot : ℕ}
      {record : SnapshotRaw} :
      fs.newSnapshotRecord ino data takenAt recordedAt = some (slot, record) →
      Makes fs (.takeSnapshot ino data takenAt recordedAt) (.writeSnapshot slot record)
  | zeroSnapshotSlot (order : Arrangement UInt64) (slot : ℕ) :
      Makes fs (.maybeGcSnapshots order) (.zeroSnapshotSlot slot)
  | allocInode (parent : UInt64) (name : String) (isDir : Bool) :
      Makes fs (.addEntry parent name isDir) .allocInode
  | newInode {ino createdAt modifiedAt : UInt64} {f : VexFile} : fs.files.get ino = some f →
      Makes fs (.writeNewInode ino createdAt modifiedAt)
        (.writeInode f.diskIndex (VexFS.newInode ino f createdAt modifiedAt))
  | movedInode {parent newparent now : UInt64} {name newname : String} {val : Value}
      {inode : InodeRaw} : fs.index.get parent name = some val →
      fs.disk.readInode val.diskIndex = .ok inode →
      Makes fs (.rename parent name newparent newname now)
        (.writeInode val.diskIndex (InodeRaw.setName
          { inode with parentIno := newparent, modifiedAt := now } newname))
  | freeInode {c : Call} {parent : UInt64} {name : String} {val : Value} {f : VexFile} :
      c = .unlink parent name ∨ c = .rmdir parent name →
      fs.target parent name = some (val, f) → Makes fs c (.freeInode f.diskIndex)
  | flush (c : Call) : Makes fs c .flush

/-- The calls of a piece that persists a file. -/
theorem PersistCall.diskCalls_eq {fs : VexFS} {c : Call} {pc : PersistCall}
    (h : c.persistCall fs = some pc) :
  c.diskCalls fs = fs.persistCalls pc.p pc.ino pc.name pc.data pc.diskIndex
  := by
  obtain ⟨p, ino, name, data, diskIndex⟩ := pc
  obtain ⟨rfl, w, hw, rfl, rfl, rfl⟩ | ⟨rfl, f, hf, hdata, rfl, rfl⟩
    | ⟨rfl, f, raw, hf, hraw, rfl, rfl, rfl⟩ := origin h
  · rw [Call.diskCalls, hw]
  · rw [Call.diskCalls, hf, hdata]
  · rw [Call.diskCalls, hf]
    dsimp only
    rw [hraw]

/-- A piece that persists no file although it is one of those that do makes no calls. -/
theorem Call.diskCalls_of_none {fs : VexFS} {c : Call} {ino : UInt64} {p : Persistence}
    (hc : c = .persistBuffered p ino ∨ c = .persistCached p ino ∨ c = .persistRecovered p ino)
    (h : c.persistCall fs = none) :
  c.diskCalls fs = []
  := by
  obtain rfl | rfl | rfl := hc
  · rw [diskCalls, Option.map_eq_none_iff.mp h]
  · rw [persistCall] at h
    rw [diskCalls]
    split
    · next f data hf hdata =>
      rw [hf, hdata] at h
      cases h
    · rfl
  · rw [persistCall] at h
    rw [diskCalls]
    split
    · rfl
    next f hf =>
    split
    · rfl
    next raw hread =>
    rw [hf] at h
    dsimp only at h
    rw [hread] at h
    cases h

/-- Every call of a piece is of one of the kinds. -/
theorem Call.makes_of_mem {fs : VexFS} {c : Call} {call : DiskCall} (h : call ∈ c.diskCalls fs) :
  c.Makes fs call
  := by
  have hpersist : ∀ p ino, c = .persistBuffered p ino ∨ c = .persistCached p ino
      ∨ c = .persistRecovered p ino → c.Makes fs call := by
    intro p ino hc
    cases hcall : c.persistCall fs with
    | none =>
        rw [diskCalls_of_none hc hcall] at h
        cases h
    | some pc =>
        rw [PersistCall.diskCalls_eq hcall] at h
        obtain h | h := List.mem_append.mp h
        · obtain ⟨offset, length, -, rfl⟩ := mem_freeCalls h
          obtain rfl | rfl | rfl := hc <;> exact .free trivial
        · obtain rfl := List.mem_singleton.mp h
          exact .store hcall
  cases c with
  | persistBuffered p ino => exact hpersist p ino (Or.inl rfl)
  | persistCached p ino => exact hpersist p ino (Or.inr (Or.inl rfl))
  | persistRecovered p ino => exact hpersist p ino (Or.inr (Or.inr rfl))
  | takeSnapshot ino data takenAt recordedAt =>
      rw [diskCalls] at h
      split at h
      · cases h
      next slot record hrecord =>
      obtain rfl := List.mem_singleton.mp h
      exact .writeSnapshot hrecord
  | maybeGcSnapshots order =>
      obtain ⟨freed, -, h⟩ := List.mem_flatMap.mp h
      rw [reclaimCalls] at h
      split at h
      · cases h
      obtain rfl | h := List.mem_cons.mp h
      · exact .zeroSnapshotSlot order _
      split at h
      · obtain rfl := List.mem_singleton.mp h
        exact .free trivial
      · cases h
  | addEntry parent name isDir =>
      obtain rfl := List.mem_singleton.mp h
      exact .allocInode parent name isDir
  | writeNewInode ino createdAt modifiedAt =>
      rw [diskCalls] at h
      split at h
      · cases h
      next f hf =>
      obtain rfl := List.mem_singleton.mp h
      exact .newInode hf
  | flushDisk =>
      obtain rfl := List.mem_singleton.mp h
      exact .flush _
  | unlink parent name =>
      rw [diskCalls] at h
      split at h
      · cases h
      next val f htarget =>
      obtain h | h := List.mem_append.mp h
      · obtain ⟨offset, length, -, rfl⟩ := mem_freeCalls h
        exact .free trivial
      · obtain rfl := List.mem_singleton.mp h
        exact .freeInode (Or.inl rfl) htarget
  | rmdir parent name =>
      rw [diskCalls] at h
      split at h
      · cases h
      next val f htarget =>
      obtain rfl | h := List.mem_cons.mp h
      · exact .freeInode (Or.inr rfl) htarget
      · obtain rfl := List.mem_singleton.mp h
        exact .flush _
  | rename parent name newparent newname now =>
      rw [diskCalls] at h
      split at h
      · cases h
      next val hval =>
      split at h
      · cases h
      next inode hread =>
      obtain rfl | h := List.mem_cons.mp h
      · exact .movedInode hval hread
      · obtain rfl := List.mem_singleton.mp h
        exact .flush _
  | _ => cases h

/-! ### What a piece does to a file -/

/-- What a piece makes of a file that it does not remove. -/
def Call.fileAfter (fs : VexFS) (ino : UInt64) (f : VexFile) : Call → VexFile
  | .stage ino' _ | .clean ino' => if ino = ino' then { f with dirty := false } else f
  | .setSize ino' size =>
      if ino = ino' then { f with attr := { f.attr with size }, dirty := true } else f
  | .rename parent name newparent newname _ =>
      if (fs.index.get parent name).map Value.ino = some ino then
        { f with name := newname, parentIno := newparent, dirty := true }
      else f
  | c =>
      match c.persistCall fs with
      | some pc => if ino = pc.ino then { f with dataOffset := (pc.placed fs).1 } else f
      | none => f

namespace Call

variable {fs : VexFS} {c : Call} {ino : UInt64} {f f' : VexFile}

omit [Crc32] [Zstd] in
/-- Staging a file makes it clean. -/
theorem file_of_stage {ino' now : UInt64} (h : (fs.stage ino' now).files.get ino = some f') :
  ∃ f, fs.files.get ino = some f ∧ f' = if ino = ino' then { f with dirty := false } else f
  := by
  unfold VexFS.stage at h
  split at h
  · next hnone =>
    use f', h
    rw [if_neg]
    rintro rfl
    rw [hnone] at h
    cases h
  next f hf =>
  split at h
  · have hinsert : (fs.files.insert ino' { f with dirty := false }).get ino = some f' := by
      dsimp only at h
      split at h <;> exact h
    rw [FiniteMap.get_insert] at hinsert
    split at hinsert
    · next heq =>
      use f, heq ▸ hf
      rw [if_pos heq]
      exact (Option.some.inj hinsert).symm
    · next hne => exact ⟨f', hinsert, (if_neg hne).symm⟩
  · next hclean =>
    use f', h
    split
    · next heq =>
      rw [heq, hf] at h
      obtain rfl := Option.some.inj h
      rw [Bool.not_eq_true] at hclean
      rw [← hclean]
    · rfl

omit [Zstd] in
/-- Adding an entry adds one file, with the next number and the slot that is found. -/
theorem file_of_addEntry {parent : UInt64} {name : String} {isDir : Bool}
    (h : (fs.addEntry parent name isDir).files.get ino = some f') :
  fs.files.get ino = some f' ∨ ∃ i, fs.disk.allocInode.1 = some i ∧ ino = fs.nextInode
    ∧ f' = fs.entryFile parent name isDir i
  := by
  cases halloc : fs.disk.allocInode with
  | mk slot disk =>
      cases slot with
      | none =>
          rw [VexFS.Tree.addEntry_of_none (congrArg Prod.fst halloc)] at h
          exact Or.inl h
      | some i =>
          rw [VexFS.addEntry_of_some halloc] at h
          dsimp only at h
          rw [FiniteMap.get_insert] at h
          split at h
          · next heq =>
            exact Or.inr ⟨i, rfl, heq, (Option.some.inj h).symm⟩
          · exact Or.inl h

omit [Zstd] in
/-- Renaming an entry moves the file the entry names, and marks it. -/
theorem file_of_rename {parent newparent now : UInt64} {name newname : String}
    (h : (fs.rename parent name newparent newname now).files.get ino = some f') :
  ∃ f, fs.files.get ino = some f
    ∧ f' = if (fs.index.get parent name).map Value.ino = some ino then
        { f with name := newname, parentIno := newparent, dirty := true }
      else f
  := by
  have hfound := fs.index.fst_remove parent name
  rw [← Index.get_eq] at hfound
  rw [VexFS.rename] at h
  split at h
  · next heq =>
    rw [heq] at hfound
    use f', h
    rw [← hfound]
    rfl
  · next val index heq =>
    have hval : fs.index.get parent name = some val := by
      rw [← hfound, heq]
    obtain ⟨f, hf, rfl⟩ := FiniteMap.get_of_get_modify h
    use f, hf
    rw [hval, Option.map_some]
    by_cases heq : ino = val.ino
    · rw [if_pos heq, if_pos (congrArg some heq.symm)]
    · rw [if_neg heq, if_neg fun h => heq (Option.some.inj h).symm]

/-- A file that is there after a piece was there before and is what the piece makes of it, or
it was added by the piece with the next number. -/
theorem get_files_run (h : (c.run fs).files.get ino = some f') :
  (∃ f, fs.files.get ino = some f ∧ f' = c.fileAfter fs ino f)
    ∨ ∃ parent name isDir i, c = .addEntry parent name isDir ∧ ino = fs.nextInode
      ∧ f' = fs.entryFile parent name isDir i
  := by
  have hsame : (c.run fs).files = fs.files → (∀ f, c.fileAfter fs ino f = f) →
      ∃ f, fs.files.get ino = some f ∧ f' = c.fileAfter fs ino f := by
    intro hfiles hafter
    rw [hfiles] at h
    exact ⟨f', h, (hafter f').symm⟩
  have hpersist : ∀ p ino', (c = .persistBuffered p ino' ∨ c = .persistCached p ino'
      ∨ c = .persistRecovered p ino') →
      (∀ f, c.fileAfter fs ino f = match c.persistCall fs with
        | some pc => if ino = pc.ino then { f with dataOffset := (pc.placed fs).1 } else f
        | none => f) →
      ∃ f, fs.files.get ino = some f ∧ f' = c.fileAfter fs ino f := by
    intro p ino' hc hafter
    cases hcall : c.persistCall fs with
    | none =>
        apply hsame (PersistCall.files_of_none hc hcall)
        intro f
        rw [hafter, hcall]
    | some pc =>
        rw [(PersistCall.run_eq hcall).2, PersistCall.files_run] at h
        obtain ⟨f, hf, rfl⟩ := FiniteMap.get_of_get_modify h
        use f, hf
        rw [hafter, hcall]
  cases c with
  | request request => exact Or.inl (hsame rfl fun _ => rfl)
  | cacheGet ino' => exact Or.inl (hsame rfl fun _ => rfl)
  | cachePut ino' data => exact Or.inl (hsame rfl fun _ => rfl)
  | drainEvicted => exact Or.inl (hsame rfl fun _ => rfl)
  | flushDisk => exact Or.inl (hsame rfl fun _ => rfl)
  | stage ino' now =>
      left
      exact file_of_stage h
  | clean ino' => exact Or.inl (FiniteMap.get_of_get_modify h)
  | setSize ino' size => exact Or.inl (FiniteMap.get_of_get_modify h)
  | persistBuffered p ino' => exact Or.inl (hpersist p ino' (Or.inl rfl) fun _ => rfl)
  | persistCached p ino' => exact Or.inl (hpersist p ino' (Or.inr (Or.inl rfl)) fun _ => rfl)
  | persistRecovered p ino' =>
      exact Or.inl (hpersist p ino' (Or.inr (Or.inr rfl)) fun _ => rfl)
  | takeSnapshot ino' data takenAt recordedAt =>
      left
      apply hsame _ fun _ => rfl
      show (fs.takeSnapshot ino' data takenAt recordedAt).files = _
      unfold VexFS.takeSnapshot
      split
      · rfl
      · dsimp only
        split <;> rfl
  | maybeGcSnapshots order =>
      left
      apply hsame _ fun _ => rfl
      show (fs.maybeGcSnapshots order).files = _
      unfold VexFS.maybeGcSnapshots
      split <;> rfl
  | writeNewInode ino' createdAt modifiedAt =>
      left
      apply hsame _ fun _ => rfl
      show (fs.writeNewInode ino' createdAt modifiedAt).files = _
      unfold VexFS.writeNewInode
      split <;> rfl
  | addEntry parent name isDir =>
      obtain hold | ⟨i, -, hino, hfile⟩ := file_of_addEntry h
      · exact Or.inl ⟨f', hold, rfl⟩
      · exact Or.inr ⟨parent, name, isDir, i, rfl, hino, hfile⟩
  | unlink parent name =>
      left
      rw [Call.run, VexFS.unlink] at h
      split at h
      · exact ⟨f', h, rfl⟩
      split at h
      · exact ⟨f', h, rfl⟩
      · exact ⟨f', (FiniteMap.get_of_get_erase h).2, rfl⟩
  | rmdir parent name =>
      left
      rw [Call.run, VexFS.rmdir] at h
      split at h
      · exact ⟨f', h, rfl⟩
      split at h
      · exact ⟨f', h, rfl⟩
      · exact ⟨f', (FiniteMap.get_of_get_erase h).2, rfl⟩
  | rename parent name newparent newname now =>
      left
      exact file_of_rename h

omit [Crc32] [Zstd] in
/-- Staging a file adds at most the write of that file, with the bytes the cache has of it. -/
theorem writeBuffer_of_stage {ino' now : UInt64} {w : PendingWrite}
    (h : (fs.stage ino' now).writeBuffer.get ino = some w) :
  fs.writeBuffer.get ino = some w
    ∨ ∃ f data, ino' = ino ∧ fs.files.get ino = some f ∧ f.dirty = true
      ∧ fs.cache.contents ino = some data ∧ w = ⟨data, f.diskIndex, f.name, now⟩
  := by
  rw [VexFS.stage] at h
  split at h
  · exact Or.inl h
  next f hf =>
  split at h
  · next hdirty =>
    dsimp only at h
    split at h
    · exact Or.inl h
    next data cache hget =>
    have hdata : fs.cache.contents ino' = some data :=
      (fs.cache.fst_get ino').symm.trans (congrArg Prod.fst hget)
    dsimp only at h
    rw [WriteBuffer.get_write] at h
    split at h
    · next heq =>
      right
      obtain rfl := Option.some.inj h
      subst heq
      exact ⟨f, data, rfl, hf, hdirty, hdata, rfl⟩
    · exact Or.inl h
  · exact Or.inl h

/-- A write that waits after a piece waited before, or it was staged by the piece. -/
theorem get_writeBuffer_run {w : PendingWrite} (h : (c.run fs).writeBuffer.get ino = some w) :
  fs.writeBuffer.get ino = some w
    ∨ ∃ now f data, c = .stage ino now ∧ fs.files.get ino = some f ∧ f.dirty = true
      ∧ fs.cache.contents ino = some data ∧ w = ⟨data, f.diskIndex, f.name, now⟩
  := by
  cases c with
  | request request => exact Or.inl h
  | cacheGet ino' => exact Or.inl h
  | cachePut ino' data => exact Or.inl h
  | drainEvicted => exact Or.inl h
  | clean ino' => exact Or.inl h
  | setSize ino' size => exact Or.inl h
  | flushDisk => exact Or.inl h
  | stage ino' now =>
      obtain hold | ⟨f, data, rfl, hf, hdirty, hdata, hw⟩ := writeBuffer_of_stage h
      · exact Or.inl hold
      · exact Or.inr ⟨now, f, data, rfl, hf, hdirty, hdata, hw⟩
  | persistBuffered p ino' =>
      left
      have htake : (fs.writeBuffer.take ino').2.get ino = some w
          → fs.writeBuffer.get ino = some w := by
        intro htaken
        rw [WriteBuffer.get_take] at htaken
        split at htaken
        · cases htaken
        · exact htaken
      rw [Call.run, VexFS.persistBuffered] at h
      split at h
      · exact h
      next w' buffer heq =>
      apply htake
      rw [heq]
      exact h
  | persistCached p ino' =>
      left
      rw [Call.run, VexFS.persistCached] at h
      split at h
      · exact h
      split at h <;> exact h
  | persistRecovered p ino' =>
      left
      rw [Call.run, VexFS.persistRecovered] at h
      split at h
      · exact h
      split at h <;> exact h
  | takeSnapshot ino' data takenAt recordedAt =>
      left
      rw [Call.run, VexFS.takeSnapshot] at h
      split at h
      · exact h
      dsimp only at h
      split at h <;> exact h
  | maybeGcSnapshots order =>
      left
      rw [Call.run, VexFS.maybeGcSnapshots] at h
      split at h <;> exact h
  | addEntry parent name isDir =>
      left
      rw [Call.run, VexFS.addEntry] at h
      split at h <;> exact h
  | writeNewInode ino' createdAt modifiedAt =>
      left
      rw [Call.run, VexFS.writeNewInode] at h
      split at h <;> exact h
  | unlink parent name =>
      left
      rw [Call.run, VexFS.unlink] at h
      split at h
      · exact h
      split at h <;> exact h
  | rmdir parent name =>
      left
      rw [Call.run, VexFS.rmdir] at h
      split at h
      · exact h
      split at h <;> exact h
  | rename parent name newparent newname now =>
      left
      rw [Call.run, VexFS.rename] at h
      split at h <;> exact h

/-- The next number only grows, unless it overflows. -/
theorem nextInode_le_run (hnumbered : c.Numbered fs) :
  fs.nextInode ≤ (c.run fs).nextInode
  := by
  by_cases hstays : c.Stays
  · exact (VexFS.sameTree_run hstays fs).nextInode_eq.ge
  cases c with
  | request request => exact le_refl _
  | addEntry parent name isDir =>
      rw [Call.run]
      obtain hnone | hmax := hnumbered
      · rw [VexFS.Tree.addEntry_of_none hnone]
      · rw [VexFS.addEntry]
        split
        · exact le_refl _
        · exact (VexFS.lt_add_one hmax).le
  | unlink parent name =>
      rw [Call.run, VexFS.unlink]
      split
      · exact le_refl _
      split <;> exact le_refl _
  | rmdir parent name =>
      rw [Call.run, VexFS.rmdir]
      split
      · exact le_refl _
      split <;> exact le_refl _
  | rename parent name newparent newname now =>
      rw [Call.run, VexFS.rename]
      split <;> exact le_refl _
  | _ => exact absurd trivial hstays

omit [Crc32] in
/-- A piece leaves the slot and the kind of a file. -/
theorem fileAfter_diskIndex (fs : VexFS) (ino : UInt64) (f : VexFile) (c : Call) :
  (c.fileAfter fs ino f).diskIndex = f.diskIndex
  := by
  unfold fileAfter
  split <;> (repeat' split) <;> rfl

end Call

/-! ### Slots -/

theorem VexFS.FilesBelow.run {fs : VexFS} {c : Call} (hnumbered : c.Numbered fs)
    (h : fs.FilesBelow) :
  (c.run fs).FilesBelow
  := by
  by_cases hstays : c.Stays
  · exact h.of_sameTree (sameTree_run hstays fs)
  cases c with
  | request request => exact h
  | addEntry parent name isDir =>
      obtain hnone | hmax := hnumbered
      · show (fs.addEntry parent name isDir).FilesBelow
        rw [Tree.addEntry_of_none hnone]
        exact h
      · exact h.addEntry hmax isDir
  | unlink parent name => exact h.unlink
  | rmdir parent name => exact h.rmdir
  | rename parent name newparent newname now => exact h.rename now
  | _ => exact absurd trivial hstays

/-- Every file has a number below the next one, and so has every write that waits, which goes
into the slot of its file. -/
structure VexFS.Slotted (fs : VexFS) : Prop where
  files : fs.FilesBelow
  below : ∀ ino w, fs.writeBuffer.get ino = some w → ino < fs.nextInode
  slot : ∀ ino w f, fs.writeBuffer.get ino = some w → fs.files.get ino = some f →
    w.diskIndex = f.diskIndex

namespace VexFS.Slotted

variable {fs : VexFS} {c : Call}

theorem run (hnumbered : c.Numbered fs) (h : fs.Slotted) :
  (c.run fs).Slotted
  := by
  have hle := Call.nextInode_le_run hnumbered
  use h.files.run hnumbered
  · intro ino w hw
    obtain hw | ⟨now, f, data, -, hf, -⟩ := Call.get_writeBuffer_run hw
    · exact (h.below ino w hw).trans_le hle
    · exact (h.files ino (hf ▸ rfl)).trans_le hle
  · intro ino w f' hw hf'
    obtain ⟨f, hf, rfl⟩ | ⟨parent, name, isDir, i, rfl, rfl, -⟩ := Call.get_files_run hf'
    · rw [Call.fileAfter_diskIndex]
      obtain hw | ⟨now, f₁, data, rfl, hf₁, -, -, rfl⟩ := Call.get_writeBuffer_run hw
      · exact h.slot ino w f hw hf
      · rw [hf₁] at hf
        obtain rfl := Option.some.inj hf
        rfl
    · obtain hw | ⟨now, f₁, data, hc, -⟩ := Call.get_writeBuffer_run hw
      · exact absurd (h.below _ w hw) (lt_irrefl _)
      · cases hc

/-- Nothing waits when a file system is mounted. -/
theorem load {dm : DiskManager} (hload : VexFS.load dm = .ok fs) :
  fs.Slotted
  := by
  have hbuffer := writeBuffer_load hload
  use FilesBelow.load hload
  · intro ino w hw
    rw [hbuffer] at hw
    cases hw
  · intro ino w f hw
    rw [hbuffer] at hw
    cases hw

end VexFS.Slotted

end Vexfs
