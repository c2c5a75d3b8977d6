import Vexfs.Fuse.Pieces

/-!
# What persisting writes

A file that is persisted gets a record that is made anew, not read from its slot: it is that of
a regular file, made now, under the name that was passed.  So the record of the file is kept
only when these are what it says (`persist_framed_iff`).
-/

namespace Vexfs

open Storage

variable [Crc32] [Zstd]

/-- The sessions of a disk that was mounted. -/
def MountedSession (dm : DiskManager) (s : Session) : Prop :=
  ∃ start, VexFS.load dm = .ok start ∧ Reachable start s

/-- In a history of an image, every session is one of a disk that was mounted. -/
theorem History.mounted [Unicode] {image : Image} {s : Session}
    (h : History image (.mounted s)) :
  ∃ dm, MountedSession dm s
  := by
  suffices hall : ∀ state, History image state → ∀ s, state = .mounted s →
      ∃ dm, MountedSession dm s from hall _ h s rfl
  intro state hstate
  induction hstate with
  | refl => exact fun s hs => by cases hs
  | tail _ hstep ih =>
      intro s hs
      cases hstep with
      | mount hopen hload =>
          cases hs
          exact ⟨_, _, hload, .start⟩
      | request hexec =>
          cases hs
          obtain ⟨dm, start, hload, hreach⟩ := ih _ rfl
          exact ⟨dm, start, hload, .exec _ _ hreach hexec⟩
      | unmount hexec => cases hs
      | tag htag => cases hs

namespace MountedSession

variable {dm : DiskManager} {s : Session} {fs : VexFS} {c : Call} {pc : PersistCall}

theorem slotted (h : MountedSession dm s) :
  s.fs.Slotted ∧ ∀ e ∈ s.log, e.1.Slotted
  := by
  obtain ⟨start, hload, hreach⟩ := h
  exact hreach.invariant (.load hload) fun _ _ hnumbered hslotted => hslotted.run hnumbered

end MountedSession

omit [Crc32] in
/-- A file that is persisted has the slot that is passed. -/
theorem PersistCall.diskIndex_eq {fs : VexFS} {c : Call} {pc : PersistCall} {f : VexFile}
    (h : fs.Slotted) (hcall : c.persistCall fs = some pc) (hf : fs.files.get pc.ino = some f) :
  pc.diskIndex = f.diskIndex
  := by
  have hunique : ∀ f', fs.files.get pc.ino = some f' → f' = f := by
    intro f' hf'
    exact Option.some.inj (hf'.symm.trans hf)
  obtain ⟨-, w, hw, -, -, hslot⟩ | ⟨-, f', hf', -, -, hslot⟩
    | ⟨-, f', raw, hf', -, -, -, hslot⟩ := origin hcall
  · exact hslot.trans (h.slot pc.ino w f hw hf)
  · rw [hslot, hunique f' hf']
  · rw [hslot, hunique f' hf']

/-! ### The record that is written -/

namespace PersistCall

/-- The record a call writes keeps what the record of the file says besides its size, where its
data is and when it was changed. -/
structure KeepsRecord (fs : VexFS) (pc : PersistCall) (f : VexFile) : Prop where
  slot : pc.diskIndex = f.diskIndex
  ino : (pc.record fs).ino = pc.ino
  name : (pc.record fs).name = InodeRaw.encodeName f.name
  parentIno : (pc.record fs).parentIno = f.parentIno
  isDir : (pc.record fs).isDir = if f.attr.kind = .directory then 1 else 0
  createdAt : ∀ old, fs.disk.readInode f.diskIndex = .ok old →
    (pc.record fs).createdAt = old.createdAt

end PersistCall

/-- In every session of a mounted disk, a file that is persisted keeps its record exactly when
it is persisted under its name, is not a directory, and the record was made at the time it is
persisted. -/
theorem persist_framed_iff {dm : DiskManager} {s : Session} (h : MountedSession dm s) {fs : VexFS}
    {c : Call} {pc : PersistCall} {f : VexFile} (hlog : (fs, c) ∈ s.log)
    (hcall : c.persistCall fs = some pc) (hf : fs.files.get pc.ino = some f) :
  pc.KeepsRecord fs f ↔ InodeRaw.encodeName pc.name = InodeRaw.encodeName f.name
    ∧ f.attr.kind ≠ .directory
    ∧ ∀ old, fs.disk.readInode f.diskIndex = .ok old → old.createdAt = pc.p.createdAt
  := by
  constructor
  · intro hkeeps
    refine ⟨hkeeps.name, ?_, fun old hread => (hkeeps.createdAt old hread).symm⟩
    intro hkind
    have hisDir := hkeeps.isDir
    rw [if_pos hkind] at hisDir
    cases hisDir
  · rintro ⟨hname, hkind, hcreated⟩
    refine ⟨PersistCall.diskIndex_eq (h.slotted.2 _ hlog) hcall hf, rfl, hname, ?_, ?_,
      fun old hread => (hcreated old hread).symm⟩
    · show ((fs.files.get pc.ino).map VexFile.parentIno).getD rootIno = f.parentIno
      rw [hf]
      rfl
    · rw [if_neg hkind]
      rfl

/-! ### A file that is renamed while its write waits -/

/-- Unmounting persists the one write that waits. -/
theorem Session.exec_destroy_of_write {s : Session} {ino now : UInt64} {name : String}
    {data : List UInt8} {i : ℕ} (env : Env)
    (h : s.fs.writeBuffer = (WriteBuffer.new 32 5).write ino name data i now) :
  ∃ s' c, s.exec env .destroy = .ok (.ok, s') ∧ s'.fs = c.run s.fs
    ∧ s'.log = (s.log ++ [(s.fs, .request .destroy)]) ++ (s.fs, c) :: []
    ∧ c.persistCall s.fs = some ⟨env.persistence ino, ino, name, data, i⟩
    ∧ c = .persistBuffered (env.persistence ino) ino
  := by
  have hkeys : (s.perform (.request .destroy)).fs.writeBuffer.pending.keys = [ino] := by
    show s.fs.writeBuffer.pending.keys = [ino]
    rw [h]
    rfl
  have harrange : env.bufferOrder.arrange [ino] = [ino] :=
    List.perm_singleton.mp (env.bufferOrder.perm [ino])
  refine ⟨(s.perform (.request .destroy)).perform (.persistBuffered (env.persistence ino) ino),
    .persistBuffered (env.persistence ino) ino, ?_, rfl, rfl, ?_, rfl⟩
  · show Except.ok (Reply.ok, (s.perform (.request .destroy)).flushAll env) = _
    rw [Session.flushAll, hkeys, harrange]
    rfl
  · have hw : s.fs.writeBuffer.get ino = some ⟨data, i, name, now⟩ := by
      rw [h]
      exact FiniteMap.get_insert_self _ _ _
    dsimp only [Call.persistCall]
    rw [hw]
    rfl

/-- Moving an entry of the root to another name in the root. -/
theorem Session.exec_rename_root {s : Session} {name : String} {val : Value} (env : Env)
    (hval : s.fs.index.get rootIno name = some val) (newname : String) :
  ∃ s', s.exec env (.rename rootIno name rootIno newname) = .ok (.ok, s')
    ∧ s'.fs = s.fs.rename rootIno name rootIno newname env.modifiedAt
  := by
  use (s.perform (.request (.rename rootIno name rootIno newname))).perform
    (.rename rootIno name rootIno newname env.modifiedAt)
  constructor
  · rw [Session.exec, Session.rename, if_neg fun h => h.1 rfl]
    split
    · next hnone => cases hval.symm.trans hnone
    · rfl
  · rfl

/-- Flushing a dirty file makes it clean and leaves a write in the buffer. -/
theorem Session.exec_flush_of_dirty {s : Session} {ino : UInt64} {f : VexFile}
    {data : List UInt8} (hf : s.fs.files.get ino = some f) (hdirty : f.dirty = true)
    (hcached : s.fs.cache.contents ino = some data)
    (hbuffer : s.fs.writeBuffer = .new 32 5) :
  ∃ s', s.exec Env.still (.flush ino) = .ok (.ok, s') ∧ s'.fs = { s.fs with
      files := s.fs.files.insert ino { f with dirty := false }
      cache := (s.fs.cache.get ino).2
      writeBuffer := (WriteBuffer.new 32 5).write ino f.name data f.diskIndex 0 }
    ∧ s'.log = (s.log ++ [(s.fs, .request (.flush ino))]) ++ [(s.fs, .stage ino 0)]
    ∧ (FitsDisk s.log → FitsDisk s'.log)
  := by
  let s₀ := s.perform (.request (.flush ino))
  have hget : s.fs.cache.get ino = (some data, (s.fs.cache.get ino).2) :=
    Prod.ext ((s.fs.cache.fst_get ino).trans hcached) rfl
  have hstage : (s₀.perform (.stage ino 0)).fs = { s.fs with
      files := s.fs.files.insert ino { f with dirty := false }
      cache := (s.fs.cache.get ino).2
      writeBuffer := (WriteBuffer.new 32 5).write ino f.name data f.diskIndex 0 } := by
    show s.fs.stage ino 0 = _
    rw [VexFS.stage, hf]
    dsimp only
    rw [if_pos hdirty, hget, hbuffer]
  have hyoung : ∀ ino' w, ((WriteBuffer.new 32 5).write ino f.name data f.diskIndex 0).get ino'
      = some w → saturatingSub 0 w.dirtySince < 5 := by
    intro ino' w hw
    rw [WriteBuffer.get_write] at hw
    split at hw
    · obtain rfl := Option.some.inj hw
      show saturatingSub 0 0 < 5
      decide
    · cases hw
  have hdue : (s₀.perform (.stage ino 0)).fs.writeBuffer.dueForFlush .id 0 = [] := by
    rw [hstage]
    have hfew : ((WriteBuffer.new 32 5).write ino f.name data f.diskIndex 0).pending.len < 32 :=
      show 1 < 32 by decide
    exact WriteBuffer.dueForFlush_of_young hfew hyoung .id
  refine ⟨s₀.perform (.stage ino 0), ?_, hstage, rfl, fun hfits => ?_⟩
  rotate_left
  · have hfits₀ : FitsDisk s₀.log := hfits.perform trivial
    exact hfits₀.perform trivial
  have hf₀ : s₀.fs.files.get ino = some f := hf
  have hcached₀ : (s₀.fs.cache.contents ino).isSome = true := by
    show (s.fs.cache.contents ino).isSome = true
    rw [hcached]
    rfl
  show Except.ok (Reply.ok, s₀.flushFile Env.still ino) = _
  rw [Session.flushFile, hf₀]
  dsimp only
  rw [if_pos hdirty, if_pos hcached₀]
  show Except.ok (Reply.ok, (s₀.perform (.stage ino 0)).persistAll Env.still
    ((s₀.perform (.stage ino 0)).fs.writeBuffer.dueForFlush .id 0)) = _
  rw [hdue]
  rfl

/-- Flushing the first file. -/
theorem FirstFile.exec_flush {s : Session} {i : ℕ} (h : FirstFile s i) :
  ∃ s', s.exec Env.still (.flush 2) = .ok (.ok, s') ∧ s'.fs = { s.fs with
    files := s.fs.files.insert 2 { firstFile i with dirty := false }
    cache := (s.fs.cache.get 2).2
    writeBuffer := (WriteBuffer.new 32 5).write 2 "a" [] i 0 }
  := by
  obtain ⟨s', hexec, hfs, -⟩ := Session.exec_flush_of_dirty h.file rfl h.contents h.buffer
  exact ⟨s', hexec, hfs⟩

omit [Crc32] [Zstd] in
/-- A file that is persisted when it was made keeps its record. -/
theorem persist_framed_first_file :
  let _ := Crc32.ieee
  let _ := Zstd.refusing
  ∃ dm s fs c pc f, MountedSession dm s ∧ (fs, c) ∈ s.log ∧ c.persistCall fs = some pc
    ∧ fs.files.get pc.ino = some f ∧ pc.KeepsRecord fs f
  := by
  intro _ _
  obtain ⟨s, i, hfirst, -⟩ := exists_firstFile
  obtain ⟨s₁, hexec₁, hfs₁⟩ := hfirst.exec_flush
  -- The clock shows the time that is on disk.
  obtain ⟨now, hnow⟩ : ∃ now, ∀ old, s₁.fs.disk.readInode i = .ok old → old.createdAt = now := by
    cases s₁.fs.disk.readInode i with
    | error e => exact ⟨0, fun old hread => by cases hread⟩
    | ok inode => exact ⟨inode.createdAt, fun old hread => by cases hread; rfl⟩
  obtain ⟨s₂, c, hexec₂, -, hlog₂, hcall, -⟩ := Session.exec_destroy_of_write (s := s₁) (i := i)
    { Env.still with persistence := fun _ => ⟨[], now, now⟩ } (by rw [hfs₁])
  have hf : s₁.fs.files.get 2 = some { firstFile i with dirty := false } := by
    rw [hfs₁]
    exact FiniteMap.get_insert_self _ _ _
  obtain ⟨start, hload, hreach⟩ := hfirst.fresh
  have hmounted : MountedSession (DiskManager.format Image.empty 0 0) s₂ :=
    ⟨start, hload, .exec _ _ (.exec _ _ hreach hexec₁) hexec₂⟩
  have hmem : (s₁.fs, c) ∈ s₂.log := by
    rw [hlog₂]
    exact List.mem_append_right _ List.mem_cons_self
  refine ⟨_, _, _, _, _, _, hmounted, hmem, hcall, hf, ?_⟩
  apply (persist_framed_iff hmounted hmem hcall hf).mpr
  refine ⟨rfl, ?_, hnow⟩
  show FileType.regularFile ≠ FileType.directory
  decide

omit [Crc32] [Zstd] in
/-- A file that is renamed while its write waits is persisted under its old name. -/
theorem not_persist_framed :
  let _ := Crc32.ieee
  let _ := Zstd.refusing
  ¬ ∀ dm s fs c pc f, MountedSession dm s → (fs, c) ∈ s.log → c.persistCall fs = some pc →
      fs.files.get pc.ino = some f → pc.KeepsRecord fs f
  := by
  intro _ _ h
  obtain ⟨s, i, hfirst, -⟩ := exists_firstFile
  obtain ⟨s₁, hexec₁, hfs₁⟩ := hfirst.exec_flush
  have hval : s₁.fs.index.get rootIno "a" = some ⟨2, 0, false, i⟩ := by
    rw [hfs₁]
    exact hfirst.entry
  obtain ⟨s₂, hexec₂, hs₂⟩ := Session.exec_rename_root (s := s₁) Env.still hval "b"
  have hbuffer : s₂.fs.writeBuffer = (WriteBuffer.new 32 5).write 2 "a" [] i 0 := by
    rw [hs₂, VexFS.rename]
    split <;> rw [hfs₁]
  obtain ⟨s₃, c, hexec₃, -, hlog₃, hcall, -⟩ := Session.exec_destroy_of_write Env.still hbuffer
  have hf : s₂.fs.files.get 2
      = some { firstFile i with name := "b", parentIno := rootIno, dirty := true } := by
    rw [hs₂, (VexFS.files_rename hval rootIno "b" _).1, FiniteMap.get_modify, if_pos rfl, hfs₁,
      FiniteMap.get_insert_self]
    rfl
  have hmem : (s₂.fs, c) ∈ s₃.log := by
    rw [hlog₃]
    exact List.mem_append_right _ List.mem_cons_self
  obtain ⟨start, hload, hreach⟩ := hfirst.fresh
  have hkeeps := h _ _ _ _ _ _
    ⟨start, hload, .exec _ _ (.exec _ _ (.exec _ _ hreach hexec₁) hexec₂) hexec₃⟩ hmem hcall hf
  have hname : InodeRaw.encodeName "a" = InodeRaw.encodeName "b" := hkeeps.name
  revert hname
  decide

end Vexfs
