import Vexfs.Fuse.OwnedSpace
import Vexfs.Fuse.Persisting

/-!
# The owners of slots

Every file has a slot of the inode table of its own, and a write that waits in the buffer goes
to the slot of its file (`SlotsOwned`).  A new file gets a slot that reads as unused, and the
slots of the other files read as used, as long as no inode block is freed.  A file that is
removed while its write waits leaves behind a write to a slot it does not own any more, so the
slots are owned in every session in which neither is done (`slots_owned`).
-/

namespace Vexfs

open Storage DiskManager

namespace VexFS

/-- Different files have different slots, and every write that waits is one of a file that is
there, to its slot. -/
structure SlotsOwned (fs : VexFS) : Prop where
  apart : ∀ ino ino' f f', fs.files.get ino = some f → fs.files.get ino' = some f' →
    f.diskIndex = f'.diskIndex → ino = ino'
  waiting : ∀ ino w, fs.writeBuffer.get ino = some w →
    ∃ f, fs.files.get ino = some f ∧ w.diskIndex = f.diskIndex

/-- A piece that removes a file finds no write of it in the buffer. -/
def RemovesSettled (fs : VexFS) : Call → Prop
  | .unlink parent name | .rmdir parent name =>
      ∀ val f, fs.target parent name = some (val, f) → fs.writeBuffer.get val.ino = none
  | _ => True

variable [Crc32] [Zstd]

/-- A piece whose calls ask for space that there is and free no inode block, and that removes no
file whose write waits. -/
def GoodSlots (fs : VexFS) (c : Call) : Prop :=
  DiskCall.Guarded (fun dm call => call.Fits dm
    ∧ call.Returns dm.inodeTable.extensionBlocks dm) fs.disk (c.diskCalls fs)
    ∧ fs.RemovesSettled c

omit [Zstd] in
/-- The slots are owned, and in use except for those of some files that were just added. -/
structure OwnedBut (pending : Set UInt64) (fs : VexFS) : Prop where
  table : fs.disk.TableSafe
  slotted : fs.Slotted
  owned : fs.SlotsOwned
  placed : ∀ ino f, fs.files.get ino = some f →
    ∃ offset, fs.disk.inodeTable.inodeOffset f.diskIndex = some offset
  used : ∀ ino f, fs.files.get ino = some f → ino ∉ pending → fs.disk.SlotUsed f.diskIndex

end VexFS

/-! ### Calls -/

namespace DiskCall

variable [Crc32] {dm : DiskManager} {calls : List DiskCall}

/-- The table stays safe, a slot keeps its place, and is used after the calls if it was and
every call leaves it so. -/
theorem table_runAll
    (hguarded : Guarded (fun dm call => call.Fits dm
      ∧ call.Returns dm.inodeTable.extensionBlocks dm) dm calls)
    (h : dm.TableSafe) :
  (runAll dm calls).TableSafe
    ∧ (∀ k offset, dm.inodeTable.inodeOffset k = some offset →
      (runAll dm calls).inodeTable.inodeOffset k = some offset)
    ∧ ∀ k, (∀ call ∈ calls, call.KeepsUsed k) → dm.SlotUsed k → (runAll dm calls).SlotUsed k
  := by
  refine ⟨?_, ?_, ?_⟩
  · exact hguarded.holds (fun _ _ hcall h => h.run hcall.1 hcall.2) h
  · intro k offset hoffset
    have hboth := hguarded.holds
      (I := fun dm => dm.TableSafe ∧ dm.inodeTable.inodeOffset k = some offset)
      (fun _ _ hcall h => ⟨h.1.run hcall.1 hcall.2, h.1.inodeOffset_run hcall.1 h.2⟩)
      ⟨h, hoffset⟩
    exact hboth.2
  · intro k hkeeps hused
    have hboth := (hguarded.and_mem hkeeps).holds (I := fun dm => dm.TableSafe ∧ dm.SlotUsed k)
      (fun _ _ hcall h =>
        ⟨h.1.run hcall.1.1 hcall.1.2, slotUsed_run hcall.1.1 hcall.2 h.1 h.2⟩)
      ⟨h, hused⟩
    exact hboth.2

end DiskCall

variable [Crc32] [Zstd]

/-! ### Removing files -/

namespace VexFS

variable {fs : VexFS} {parent : UInt64} {name : String} {val : Value} {f : VexFile}

omit [Crc32] [Zstd] in
/-- The entry that is removed and its file. -/
theorem get_of_target (h : fs.target parent name = some (val, f)) :
  fs.index.get parent name = some val ∧ fs.files.get val.ino = some f
  := by
  obtain ⟨val', hval, h⟩ := Option.bind_eq_some_iff.mp h
  obtain ⟨f', hf, heq⟩ := Option.map_eq_some_iff.mp h
  cases heq
  exact ⟨hval, hf⟩

omit [Zstd] in
/-- Removing an entry removes its file. -/
theorem files_unlink (fs : VexFS) (parent : UInt64) (name : String) :
  (fs.unlink parent name).files = ((fs.target parent name).map fun t =>
    fs.files.erase t.1.ino).getD fs.files
  := by
  rw [unlink, target, Index.get_eq, ← Index.fst_remove]
  cases fs.index.remove parent name with
  | mk found index =>
      cases found with
      | none => rfl
      | some val =>
          dsimp only [Option.bind_some]
          cases fs.files.get val.ino <;> rfl

omit [Zstd] in
theorem files_rmdir (fs : VexFS) (parent : UInt64) (name : String) :
  (fs.rmdir parent name).files = ((fs.target parent name).map fun t =>
    fs.files.erase t.1.ino).getD fs.files
  := by
  rw [rmdir, target, Index.get_eq, ← Index.fst_remove]
  cases fs.index.remove parent name with
  | mk found index =>
      cases found with
      | none => rfl
      | some val =>
          dsimp only [Option.bind_some]
          cases fs.files.get val.ino <;> rfl

end VexFS

/-! ### Pieces -/

namespace VexFS.OwnedBut

variable {fs : VexFS} {c : Call} {pending : Set UInt64} {ino : UInt64} {f : VexFile}

/-- A piece leaves the slot of a file in use that it does not remove. -/
theorem keepsUsed (h : fs.OwnedBut pending) (hf : fs.files.get ino = some f)
    (hused : fs.disk.SlotUsed f.diskIndex) (hstays : ((c.run fs).files.get ino).isSome) :
  ∀ call ∈ c.diskCalls fs, call.KeepsUsed f.diskIndex
  := by
  intro call hcall
  cases Call.makes_of_mem hcall with
  | store hpersist => exact fun _ offset => (by decide : (1 : UInt8) ≠ 0)
  | newInode hg => exact fun _ => (by decide : (1 : UInt8) ≠ 0)
  | movedInode hval hread =>
      intro heq
      obtain ⟨inode, hinode, hinuse⟩ := hused
      rw [heq, hinode] at hread
      obtain rfl := Except.ok.inj hread
      exact hinuse
  | @freeInode _ parent name val g hc htarget =>
      -- the file that is removed is not the one that stays, so it has another slot
      intro heq
      have hino := h.owned.apart _ _ _ _ (get_of_target htarget).2 hf heq
      have hfiles : (c.run fs).files = fs.files.erase val.ino := by
        obtain rfl | rfl := hc
        · rw [Call.run, files_unlink, htarget, Option.map_some, Option.getD_some]
        · rw [Call.run, files_rmdir, htarget, Option.map_some, Option.getD_some]
      rw [hfiles, hino, FiniteMap.get_erase, if_pos rfl] at hstays
      cases hstays
  | _ => trivial

omit [Crc32] [Zstd] in
/-- The files after an entry is removed, but for its own. -/
theorem isSome_erase {parent : UInt64} {name : String} {files : FiniteMap UInt64 VexFile}
    (hfiles : files = ((fs.target parent name).map fun t => fs.files.erase t.1.ino).getD fs.files)
    (hother : ∀ val g, fs.target parent name = some (val, g) → val.ino ≠ ino)
    (hf : (fs.files.get ino).isSome) :
  (files.get ino).isSome
  := by
  rw [hfiles]
  cases htarget : fs.target parent name with
  | none => exact hf
  | some t =>
      rw [Option.map_some, Option.getD_some, FiniteMap.get_erase,
        if_neg (hother t.1 t.2 htarget).symm]
      exact hf

/-- A file is there after a piece that does not remove it. -/
theorem isSome_run (hadds : ¬ c.Adds) (hf : (fs.files.get ino).isSome)
    (hother : ∀ parent name, c = .unlink parent name ∨ c = .rmdir parent name →
      ∀ val g, fs.target parent name = some (val, g) → val.ino ≠ ino) :
  ((c.run fs).files.get ino).isSome
  := by
  by_cases hstays : c.Stays
  · have hplace := congrFun (sameTree_run hstays fs).placeOf_eq ino
    have hisSome := congrArg Option.isSome hplace
    rw [placeOf, placeOf, Option.isSome_map, Option.isSome_map] at hisSome
    rw [hisSome]
    exact hf
  cases c with
  | request request => exact hf
  | addEntry parent name isDir => exact absurd trivial hadds
  | unlink parent name =>
      exact isSome_erase (fs.files_unlink parent name) (hother parent name (Or.inl rfl)) hf
  | rmdir parent name =>
      exact isSome_erase (fs.files_rmdir parent name) (hother parent name (Or.inr rfl)) hf
  | rename parent name newparent newname now =>
      rw [Call.run, rename]
      split
      · exact hf
      · dsimp only
        rw [FiniteMap.get_modify]
        split
        · next heq =>
          rw [Option.isSome_map, ← heq]
          exact hf
        · exact hf
  | _ => exact absurd trivial hstays

/-- The slots stay owned, by pieces that add no file. -/
theorem run (hadds : ¬ c.Adds) (hgood : fs.GoodSlots c) (h : fs.OwnedBut pending) :
  (c.run fs).OwnedBut pending
  := by
  obtain ⟨hguarded, hsettled⟩ := hgood
  have hnumbered := Call.numbered_of_not_adds fs hadds
  have hslotted := h.slotted.run hnumbered
  have hdisk := c.disk_run fs
  obtain ⟨htable, hplaced, hstillUsed⟩ := DiskCall.table_runAll hguarded h.table
  -- a file that is there has the slot it had
  have hbefore : ∀ ino f', (c.run fs).files.get ino = some f' →
      ∃ f, fs.files.get ino = some f ∧ f'.diskIndex = f.diskIndex := by
    intro ino f' hf'
    obtain ⟨f, hf, rfl⟩ | ⟨parent, name, isDir, i, rfl, -⟩ := Call.get_files_run hf'
    · exact ⟨f, hf, Call.fileAfter_diskIndex fs ino f c⟩
    · exact absurd trivial hadds
  constructor
  · rw [hdisk]
    exact htable
  · exact hslotted
  · constructor
    · intro ino ino' f f' hf hf' heq
      obtain ⟨g, hg, hslot⟩ := hbefore ino f hf
      obtain ⟨g', hg', hslot'⟩ := hbefore ino' f' hf'
      exact h.owned.apart ino ino' g g' hg hg' (hslot.symm.trans (heq.trans hslot'))
    · intro ino w hw
      have hsome : ((c.run fs).files.get ino).isSome := by
        obtain hwaits | ⟨now, f, data, rfl, hf, -⟩ := Call.get_writeBuffer_run hw
        · obtain ⟨f, hf, -⟩ := h.owned.waiting ino w hwaits
          apply isSome_run hadds (Option.isSome_iff_exists.mpr ⟨f, hf⟩)
          intro parent name hc val g htarget heq
          have hnone : fs.writeBuffer.get val.ino = none := by
            obtain rfl | rfl := hc
            · exact hsettled val g htarget
            · exact hsettled val g htarget
          rw [heq, hwaits] at hnone
          cases hnone
        · apply isSome_run hadds (Option.isSome_iff_exists.mpr ⟨f, hf⟩)
          rintro parent name (hc | hc)
          · cases hc
          · cases hc
      obtain ⟨f', hf'⟩ := Option.isSome_iff_exists.mp hsome
      exact ⟨f', hf', hslotted.slot ino w f' hw hf'⟩
  · intro ino f' hf'
    obtain ⟨f, hf, hslot⟩ := hbefore ino f' hf'
    obtain ⟨offset, hoffset⟩ := h.placed ino f hf
    use offset
    rw [hdisk, hslot]
    exact hplaced _ _ hoffset
  · intro ino f' hf' hpending
    obtain ⟨f, hf, hslot⟩ := hbefore ino f' hf'
    have hused := h.used ino f hf hpending
    rw [hdisk, hslot]
    exact hstillUsed _ (h.keepsUsed hf hused (hf' ▸ rfl)) hused

omit [Zstd] in
/-- The other files are there when one is added. -/
theorem get_addEntry_of_get {parent : UInt64} {name : String} {isDir : Bool}
    (hne : ino ≠ fs.nextInode) (hf : fs.files.get ino = some f) :
  (fs.addEntry parent name isDir).files.get ino = some f
  := by
  rw [VexFS.addEntry]
  split
  · exact hf
  · dsimp only
    rw [FiniteMap.get_insert_of_ne _ hne]
    exact hf

/-- A new file gets a slot that no file has. -/
theorem addEntry {parent : UInt64} {name : String} {isDir : Bool}
    (hnumbered : (Call.addEntry parent name isDir).Numbered fs)
    (hgood : fs.GoodSlots (.addEntry parent name isDir)) (h : fs.OwnedBut ∅) :
  ((Call.addEntry parent name isDir).run fs).OwnedBut {fs.nextInode}
  := by
  have hslotted := h.slotted.run hnumbered
  have hdisk := (Call.addEntry parent name isDir).disk_run fs
  obtain ⟨htable, hplaced, hstillUsed⟩ := DiskCall.table_runAll hgood.1 h.table
  have hfits : (DiskCall.allocInode).Fits fs.disk := hgood.1.1.1
  have hold : ∀ ino f', ((Call.addEntry parent name isDir).run fs).files.get ino = some f' →
      fs.files.get ino = some f' ∨ ∃ i, fs.disk.allocInode.1 = some i ∧ ino = fs.nextInode
        ∧ f'.diskIndex = i := by
    intro ino f' hf'
    obtain hf | ⟨i, halloc, hino, rfl⟩ := Call.file_of_addEntry hf'
    · exact Or.inl hf
    · exact Or.inr ⟨i, halloc, hino, rfl⟩
  have hunused : ∀ i ino f, fs.disk.allocInode.1 = some i → fs.files.get ino = some f →
      f.diskIndex ≠ i := by
    rintro i ino f halloc hf rfl
    obtain ⟨inode, hread, hused⟩ := h.used ino f hf (Set.notMem_empty ino)
    exact hused (unused_of_allocInode halloc hread)
  constructor
  · rw [hdisk]
    exact htable
  · exact hslotted
  · constructor
    · intro ino ino' f f' hf hf' heq
      obtain hf | ⟨i, halloc, rfl, hi⟩ := hold ino f hf
      · obtain hf' | ⟨i', halloc', -, hi'⟩ := hold ino' f' hf'
        · exact h.owned.apart ino ino' f f' hf hf' heq
        · exact absurd (heq.trans hi') (hunused i' ino f halloc' hf)
      · obtain hf' | ⟨i', -, rfl, -⟩ := hold ino' f' hf'
        · exact absurd (heq.symm.trans hi) (hunused i ino' f' halloc hf')
        · rfl
    · intro ino w hw
      have hw' : fs.writeBuffer.get ino = some w := by
        obtain hw | ⟨now, f, data, hc, -⟩ := Call.get_writeBuffer_run hw
        · exact hw
        · cases hc
      obtain ⟨f, hf, hslot⟩ := h.owned.waiting ino w hw'
      exact ⟨f, get_addEntry_of_get (h.slotted.files _ (hf ▸ rfl)).ne hf, hslot⟩
  · intro ino f' hf'
    rw [hdisk]
    obtain hf | ⟨i, halloc, -, hi⟩ := hold ino f' hf'
    · obtain ⟨offset, hoffset⟩ := h.placed ino f' hf
      exact ⟨offset, hplaced _ _ hoffset⟩
    · rw [hi]
      exact h.table.exists_inodeOffset halloc hfits
  · intro ino f' hf' hpending
    rw [hdisk]
    obtain hf | ⟨i, -, hino, -⟩ := hold ino f' hf'
    · have hused := h.used ino f' hf (Set.notMem_empty ino)
      apply hstillUsed _ _ hused
      intro call hcall
      obtain rfl := List.mem_singleton.mp hcall
      trivial
    · exact absurd hino hpending

/-- The record of a new file puts its slot in use. -/
theorem writeNewInode {createdAt modifiedAt : UInt64}
    (hgood : fs.GoodSlots (.writeNewInode ino createdAt modifiedAt)) (h : fs.OwnedBut {ino}) :
  ((Call.writeNewInode ino createdAt modifiedAt).run fs).OwnedBut ∅
  := by
  have hrun := h.run id hgood
  refine ⟨hrun.table, hrun.slotted, hrun.owned, hrun.placed, ?_⟩
  intro ino' f' hf' _
  by_cases hino : ino' = ino
  · subst hino
    have hf : fs.files.get ino' = some f' := by
      obtain ⟨f, hf, hafter⟩ | ⟨parent, name, isDir, i, hc, -⟩ := Call.get_files_run hf'
      · rw [hf, hafter]
        rfl
      · cases hc
    obtain ⟨offset, hoffset⟩ := h.placed ino' f' hf
    have hcalls : (Call.writeNewInode ino' createdAt modifiedAt).diskCalls fs
        = [.writeInode f'.diskIndex (newInode ino' f' createdAt modifiedAt)] := by
      rw [Call.diskCalls, hf]
    let call : DiskCall := .writeInode f'.diskIndex (newInode ino' f' createdAt modifiedAt)
    have hkeeps : call.KeepsUsed f'.diskIndex := fun _ => (by decide : (1 : UInt8) ≠ 0)
    have hwrites : call.WritesSlot f'.diskIndex := rfl
    have hfits : call.Fits fs.disk := trivial
    have hwritten := DiskCall.slotUsed_of_writesSlot hfits hwrites hkeeps
      (hoffset ▸ Option.some_ne_none offset) h.table
    rw [Call.disk_run, hcalls]
    exact hwritten
  · exact hrun.used ino' f' hf' hino

omit [Zstd] in
/-- Nothing is owned in a new file system. -/
theorem new {dm : DiskManager} (h : dm.TableSafe) :
  (VexFS.new dm).OwnedBut ∅
  := by
  have hfile : ∀ ino f, (VexFS.new dm).files.get ino ≠ some f := fun ino f hf => by cases hf
  have hwrite : ∀ ino w, (VexFS.new dm).writeBuffer.get ino ≠ some w := fun ino w hw => by
    cases hw
  refine ⟨h, ⟨?_, ?_, ?_⟩, ⟨?_, ?_⟩, ?_, ?_⟩
  · intro ino hsome
    obtain ⟨f, hf⟩ := Option.isSome_iff_exists.mp hsome
    exact absurd hf (hfile ino f)
  · exact fun ino w hw => absurd hw (hwrite ino w)
  · exact fun ino w f hw => absurd hw (hwrite ino w)
  · exact fun ino ino' f f' hf => absurd hf (hfile ino f)
  · exact fun ino w hw => absurd hw (hwrite ino w)
  · exact fun ino f hf => absurd hf (hfile ino f)
  · exact fun ino f hf => absurd hf (hfile ino f)

end VexFS.OwnedBut

omit [Crc32] in
/-- A piece that persists a file writes to the slot of the file, which no other file has. -/
theorem VexFS.SlotsOwned.persistCall {fs : VexFS} {c : Call} {pc : PersistCall} (h : fs.SlotsOwned)
    (hcall : c.persistCall fs = some pc) :
  ∃ f, fs.files.get pc.ino = some f ∧ pc.diskIndex = f.diskIndex
    ∧ ∀ ino f', fs.files.get ino = some f' → f'.diskIndex = pc.diskIndex → ino = pc.ino
  := by
  have hslot : ∃ f, fs.files.get pc.ino = some f ∧ pc.diskIndex = f.diskIndex := by
    obtain ⟨-, w, hw, -, -, hslot⟩ | ⟨-, f, hf, -, -, hslot⟩
      | ⟨-, f, raw, hf, -, -, -, hslot⟩ := PersistCall.origin hcall
    · obtain ⟨f, hf, hw⟩ := h.waiting pc.ino w hw
      exact ⟨f, hf, hslot.trans hw⟩
    · exact ⟨f, hf, hslot⟩
    · exact ⟨f, hf, hslot⟩
  obtain ⟨f, hf, hslot⟩ := hslot
  exact ⟨f, hf, hslot, fun ino f' hf' heq => h.apart ino pc.ino f' f hf' hf (heq.trans hslot)⟩

/-! ### Sessions -/

namespace Session

variable {s s' : Session} {env : Env} {reply : Reply} {pending : Set UInt64}

/-- While the pieces are good, the slots are owned in all states of a session. -/
def Owned (pending : Set UInt64) (s : Session) : Prop :=
  (∀ e ∈ s.log, e.1.GoodSlots e.2) → s.fs.OwnedBut pending ∧ ∀ e ∈ s.log, e.1.SlotsOwned

namespace Owned

theorem perform {pending' : Set UInt64} {c : Call}
    (hstep : s.fs.GoodSlots c → s.fs.OwnedBut pending → (c.run s.fs).OwnedBut pending')
    (h : s.Owned pending) :
  (s.perform c).Owned pending'
  := by
  intro hlog
  obtain ⟨hlog, hc⟩ := forall_log_perform.mp hlog
  obtain ⟨howned, hbefore⟩ := h hlog
  exact ⟨hstep hc howned, forall_log_perform.mpr ⟨hbefore, howned.owned⟩⟩

/-- Pieces that add no file. -/
theorem performs (hruns : Performs (fun c => ¬ c.Adds) s s') (h : s.Owned pending) :
  s'.Owned pending
  := by
  induction hruns with
  | refl => exact h
  | perform _ hadds ih => exact ih.perform fun hgood howned => howned.run hadds hgood

theorem stays (hruns : Stays s s') (h : s.Owned pending) :
  s'.Owned pending
  := h.performs (hruns.mono fun _ hc => hc.not_adds)

/-- A file is added, and its record is written a few pieces later. -/
theorem addEntry {parent : UInt64} {name : String} {isDir : Bool}
    (hnumbered : (Call.addEntry parent name isDir).Numbered s.fs) (h : s.Owned ∅) :
  (s.perform (.addEntry parent name isDir)).Owned {s.fs.nextInode}
  := h.perform fun hgood howned => howned.addEntry hnumbered hgood

theorem writeNewInode {ino createdAt modifiedAt : UInt64} (h : s.Owned {ino}) :
  (s.perform (.writeNewInode ino createdAt modifiedAt)).Owned ∅
  := h.perform fun hgood howned => howned.writeNewInode hgood

/-- No file was added when there is no slot for it. -/
theorem addEntry_of_none {parent : UInt64} {name : String} {isDir : Bool}
    (halloc : s.fs.disk.allocInode.1 = none) (h : s.Owned ∅) :
  (s.perform (.addEntry parent name isDir)).Owned ∅
  := by
  apply h.perform
  intro hgood howned
  have hnumbered : (Call.addEntry parent name isDir).Numbered s.fs := Or.inl halloc
  have hrun := howned.addEntry hnumbered hgood
  refine ⟨hrun.table, hrun.slotted, hrun.owned, hrun.placed, ?_⟩
  intro ino f hf _
  apply hrun.used ino f hf
  rintro rfl
  change (s.fs.addEntry parent name isDir).files.get s.fs.nextInode = some f at hf
  rw [VexFS.Tree.addEntry_of_none halloc] at hf
  exact lt_irrefl _ (howned.slotted.files _ (Option.isSome_iff_exists.mpr ⟨f, hf⟩))

theorem create {parent : UInt64} {name : String}
    (hexec : s.create env parent name = .ok (reply, s')) (h : s.Owned ∅) :
  s'.Owned ∅
  := by
  unfold Session.create at hexec
  split at hexec
  · cases hexec
    exact h
  split at hexec
  · cases hexec
    exact h
  split at hexec
  · next halloc =>
    cases hexec
    exact h.addEntry_of_none halloc
  split at hexec
  · cases hexec
  next hmax =>
  cases hexec
  have hnumbered : (Call.addEntry parent name false).Numbered s.fs := Or.inr hmax
  have hadded := h.addEntry hnumbered
  exact (hadded.stays (Performs.refl.cacheInsert _ _).stays).writeNewInode

theorem mkdir {parent : UInt64} {name : String}
    (hexec : s.mkdir env parent name = .ok (reply, s')) (h : s.Owned ∅) :
  s'.Owned ∅
  := by
  unfold Session.mkdir at hexec
  split at hexec
  · cases hexec
    exact h
  split at hexec
  · cases hexec
    exact h
  split at hexec
  · next halloc =>
    cases hexec
    exact h.addEntry_of_none halloc
  split at hexec
  · cases hexec
  next hmax =>
  cases hexec
  have hnumbered : (Call.addEntry parent name true).Numbered s.fs := Or.inr hmax
  have hadded := h.addEntry hnumbered
  exact hadded.writeNewInode.stays (Performs.refl.perform trivial)

/-- Every operation keeps the slots owned. -/
theorem exec {request : Request} (hexec : s.exec env request = .ok (reply, s'))
    (h : s.Owned ∅) :
  s'.Owned ∅
  := by
  have hrequest : (s.perform (.request request)).Owned ∅ :=
    h.performs (Performs.refl.perform id)
  cases request with
  | create parent name => exact hrequest.create hexec
  | mkdir parent name => exact hrequest.mkdir hexec
  | _ => exact hrequest.performs (request_not_adds id hexec)

end Owned

end Session

end Vexfs
