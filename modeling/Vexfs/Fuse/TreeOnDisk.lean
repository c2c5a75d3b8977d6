import Vexfs.Fs.Remount
import Vexfs.Fuse.History
import Vexfs.Fuse.NameTree
import Vexfs.Fuse.Names
import Vexfs.Fuse.SlotContents

/-!
# The tree on disk

The inode of a file tells its number, its name and directory, and whether it is a directory
(`InodeRaw.Tells`).  In the sessions in which names are stored whole and a file that is
persisted keeps its name, the slot of every file tells of it, and the slots that no file has are
unused (`VexFS.Told`).  So when the disk is closed and mounted again, the tree of names is the
one it was (`remount_keeps_names`).
-/

namespace Vexfs

open Bytes Storage DiskManager

/-- What an inode tells of the file with a number and a place. -/
structure InodeRaw.Tells (ino : UInt64) (p : Place) (inode : InodeRaw) : Prop where
  ino_eq : inode.ino = ino
  valid : inode.isValid = true
  name_eq : inode.getName = p.name
  parent_eq : inode.parentIno = p.parentIno
  isDir_iff : inode.isDir = 1 ↔ p.kind = .directory

/-- A used inode with a storable name tells of the place with this name. -/
theorem InodeRaw.tells_setName {ino : UInt64} {p : Place} {inode : InodeRaw}
    (hused : inode.isUsed ≠ 0) (hne : p.name ≠ "") (hstorable : Storable p.name)
    (hino : inode.ino = ino) (hparent : inode.parentIno = p.parentIno)
    (hdir : inode.isDir = 1 ↔ p.kind = .directory) :
  (inode.setName p.name).Tells ino p
  := by
  obtain ⟨hvalid, hname⟩ := (name_round_trip_iff hne hused).mpr hstorable
  exact ⟨hino, hvalid, hname, hparent, hdir⟩

theorem InodeRaw.Tells.isUsed {ino : UInt64} {p : Place} {inode : InodeRaw}
    (h : inode.Tells ino p) :
  inode.isUsed ≠ 0
  := fun hunused => isValid_of_unused hunused h.valid

/-! ### Pieces -/

/-- The pieces that give a file a name. -/
def Call.GivesName : Call → Prop
  | .addEntry _ _ _ | .rename _ _ _ _ _ => True
  | _ => False

theorem Call.Stays.not_givesName {c : Call} (h : c.Stays) :
  ¬ c.GivesName
  := by
  cases c with
  | addEntry parent name isDir => exact h.elim
  | rename parent name newparent newname now => exact h.elim
  | _ => exact id

theorem Call.not_adds_of_not_givesName {c : Call} (h : ¬ c.GivesName) :
  ¬ c.Adds
  := by
  cases c with
  | addEntry parent name isDir => exact absurd trivial h
  | _ => exact id

variable [Crc32] [Zstd]

namespace VexFS

omit [Crc32] in
/-- The names that a piece gives can be stored, and what it persists is a regular file under
the name that the file has. -/
def PutsNames (fs : VexFS) : Call → Prop
  | .addEntry _ name _ => name ≠ "" ∧ Storable name
  | .rename _ _ _ newname _ => newname ≠ "" ∧ Storable newname
  | c => ∀ pc, c.persistCall fs = some pc → ∀ p, fs.placeOf pc.ino = some p →
      pc.name = p.name ∧ p.kind = .regularFile

omit [Crc32] in
theorem PutsNames.of_not_givesName {fs : VexFS} {c : Call} {pc : PersistCall} {p : Place}
    (hgives : ¬ c.GivesName) (h : fs.PutsNames c) (hcall : c.persistCall fs = some pc)
    (hp : fs.placeOf pc.ino = some p) :
  pc.name = p.name ∧ p.kind = .regularFile
  := by
  cases c with
  | addEntry parent name isDir => exact absurd trivial hgives
  | rename parent name newparent newname now => exact absurd trivial hgives
  | _ => exact h pc hcall p hp

omit [Crc32] in
theorem PutsNames.of_none {fs : VexFS} {c : Call} (hgives : ¬ c.GivesName)
    (hnone : c.persistCall fs = none) :
  fs.PutsNames c
  := by
  cases c with
  | addEntry parent name isDir => exact absurd trivial hgives
  | rename parent name newparent newname now => exact absurd trivial hgives
  | _ => exact fun pc hcall => by cases hnone.symm.trans hcall

omit [Zstd] in
/-- The slots of the files tell of them, but for those of some files that were just added, and
the other slots are unused. -/
structure Told (pending : Set UInt64) (fs : VexFS) : Prop where
  owned : fs.OwnedBut pending
  names : ∀ ino p, fs.placeOf ino = some p → p.name ≠ "" ∧ Storable p.name
  slots : ∀ ino p, fs.placeOf ino = some p →
    fs.disk.SlotIs p.diskIndex fun inode => ino ∉ pending → inode.Tells ino p
  spare : ∀ k, fs.disk.inodeTable.inodeOffset k ≠ none →
    (∀ ino p, fs.placeOf ino = some p → p.diskIndex ≠ k) →
    fs.disk.SlotIs k fun inode => inode.isUsed = 0

namespace Told

variable {fs : VexFS} {c : Call} {pending : Set UInt64} {ino : UInt64} {p : Place}

omit [Zstd] in
/-- Different files have different slots. -/
theorem apart (h : fs.Told pending) {ino' : UInt64} {p' : Place} (hp : fs.placeOf ino = some p)
    (hp' : fs.placeOf ino' = some p') (heq : p.diskIndex = p'.diskIndex) :
  ino = ino'
  := by
  obtain ⟨f, hf, rfl⟩ := get_of_placeOf hp
  obtain ⟨f', hf', rfl⟩ := get_of_placeOf hp'
  exact h.owned.owned.apart ino ino' f f' hf hf' heq

omit [Zstd] in
/-- Every slot of the table can be read. -/
theorem readable (h : fs.Told pending) {k : ℕ} (hk : fs.disk.inodeTable.inodeOffset k ≠ none) :
  fs.disk.SlotIs k fun _ => True
  := by
  by_cases howned : ∃ ino p, fs.placeOf ino = some p ∧ p.diskIndex = k
  · obtain ⟨ino, p, hp, rfl⟩ := howned
    exact (h.slots ino p hp).mono fun _ _ => trivial
  · apply (h.spare k hk _).mono fun _ _ => trivial
    exact fun ino p hp heq => howned ⟨ino, p, hp, heq⟩

/-- A file is there after a piece that gives no name only if it was there, in the same place. -/
theorem placeOf_run (hgives : ¬ c.GivesName) (hp : (c.run fs).placeOf ino = some p) :
  fs.placeOf ino = some p
  := by
  by_cases hstays : c.Stays
  · rw [← (sameTree_run hstays fs).placeOf_eq]
    exact hp
  have herase : ∀ parent name, ((((fs.target parent name).map fun t =>
      fs.files.erase t.1.ino).getD fs.files).get ino).map VexFile.place = some p →
      fs.placeOf ino = some p := by
    intro parent name hplace
    cases htarget : fs.target parent name with
    | none =>
        rw [htarget] at hplace
        exact hplace
    | some t =>
        rw [htarget, Option.map_some, Option.getD_some] at hplace
        obtain ⟨f, hf, hplace⟩ := Option.map_eq_some_iff.mp hplace
        exact Option.map_eq_some_iff.mpr ⟨f, (FiniteMap.get_of_get_erase hf).2, hplace⟩
  cases c with
  | request request => exact hp
  | addEntry parent name isDir => exact absurd trivial hgives
  | rename parent name newparent newname now => exact absurd trivial hgives
  | unlink parent name =>
      rw [Call.run, placeOf, files_unlink] at hp
      exact herase parent name hp
  | rmdir parent name =>
      rw [Call.run, placeOf, files_rmdir] at hp
      exact herase parent name hp
  | _ => exact absurd trivial hstays

/-- A file that is there when an entry is removed is not the one that was removed. -/
theorem ne_of_removed {parent : UInt64} {name : String} {val : Value} {f : VexFile}
    (hc : c = .unlink parent name ∨ c = .rmdir parent name)
    (htarget : fs.target parent name = some (val, f)) (hp : (c.run fs).placeOf ino = some p) :
  ino ≠ val.ino
  := by
  have hfiles : (c.run fs).files = fs.files.erase val.ino := by
    obtain rfl | rfl := hc
    · rw [Call.run, files_unlink, htarget, Option.map_some, Option.getD_some]
    · rw [Call.run, files_rmdir, htarget, Option.map_some, Option.getD_some]
  obtain ⟨g, hg, -⟩ := get_of_placeOf hp
  rw [hfiles] at hg
  exact (FiniteMap.get_of_get_erase hg).1

omit [Crc32] [Zstd] in
/-- The record of a new file tells of it. -/
theorem tells_newInode {f : VexFile} {createdAt modifiedAt : UInt64} (hne : f.place.name ≠ "")
    (hstorable : Storable f.place.name) :
  (newInode ino f createdAt modifiedAt).Tells ino f.place
  := by
  refine InodeRaw.tells_setName ?_ hne hstorable rfl rfl ?_
  · exact (by decide : (1 : UInt8) ≠ 0)
  · show (if f.attr.kind = .directory then (1 : UInt8) else 0) = 1 ↔ f.attr.kind = .directory
    split
    · next hdir => exact iff_of_true rfl hdir
    · next hfile => exact iff_of_false (by decide) hfile

/-- What a piece that gives no name writes to the slot of a file tells of the file. -/
theorem puts_tells (hgives : ¬ c.GivesName) (hputs : fs.PutsNames c) (h : fs.Told pending)
    (hp : (c.run fs).placeOf ino = some p) :
  ∀ call ∈ c.diskCalls fs, call.Puts p.diskIndex fun inode => ino ∉ pending → inode.Tells ino p
  := by
  have hbefore := placeOf_run hgives hp
  obtain ⟨hne, hstorable⟩ := h.names ino p hbefore
  intro call hcall
  cases Call.makes_of_mem hcall with
  | @store _ pc hpersist =>
      intro heq offset _
      obtain ⟨f, hf, hslot, -⟩ := h.owned.owned.persistCall hpersist
      have hplace := placeOf_of_get hf
      obtain rfl : pc.ino = ino := h.apart hplace hbefore (hslot.symm.trans heq)
      obtain rfl : f.place = p := Option.some.inj (hplace.symm.trans hbefore)
      obtain ⟨hname, hkind⟩ := hputs.of_not_givesName hgives hpersist hplace
      rw [persistedInode, hname]
      refine InodeRaw.tells_setName ?_ hne hstorable rfl ?_ ?_
      · exact (by decide : (1 : UInt8) ≠ 0)
      · rw [hf]
        rfl
      · rw [hkind]
        exact iff_of_false (by decide : (0 : UInt8) ≠ 1) (by decide)
  | @newInode ino' createdAt modifiedAt f hf =>
      intro heq _
      have hplace := placeOf_of_get hf
      obtain rfl : ino' = ino := h.apart hplace hbefore heq
      obtain rfl : f.place = p := Option.some.inj (hplace.symm.trans hbefore)
      exact tells_newInode hne hstorable
  | movedInode hval hread => exact absurd trivial hgives
  | @freeInode _ parent name val g hc htarget =>
      intro heq
      have hplace := placeOf_of_get (get_of_target htarget).2
      exact absurd (h.apart hbefore hplace heq.symm) (ne_of_removed hc htarget hp)
  | _ => trivial

/-- A piece that gives no name writes nothing else to a slot that no file has after it. -/
theorem puts_unused (hgives : ¬ c.GivesName) (h : fs.Told pending) {k : ℕ}
    (hfree : ∀ ino p, (c.run fs).placeOf ino = some p → p.diskIndex ≠ k) :
  ∀ call ∈ c.diskCalls fs, call.Puts k fun inode => inode.isUsed = 0
  := by
  have hadds := Call.not_adds_of_not_givesName hgives
  -- a file that the piece does not remove has its slot
  have hstill : ∀ {ino f}, fs.files.get ino = some f →
      (∀ parent name, c ≠ .unlink parent name ∧ c ≠ .rmdir parent name) → f.diskIndex ≠ k := by
    intro ino f hf hremoves
    have hsome := OwnedBut.isSome_run hadds (Option.isSome_of_eq_some hf)
      fun parent name hc => absurd hc
        (not_or.mpr ⟨(hremoves parent name).1, (hremoves parent name).2⟩)
    obtain ⟨g, hg⟩ := Option.isSome_iff_exists.mp hsome
    have hg' := placeOf_of_get hg
    obtain ⟨f', hf', hplace⟩ := get_of_placeOf (placeOf_run hgives hg')
    obtain rfl : f = f' := Option.some.inj (hf.symm.trans hf')
    have hslot : f.diskIndex = g.diskIndex := congrArg Place.diskIndex hplace
    rw [hslot]
    exact hfree ino g.place hg'
  intro call hcall
  cases Call.makes_of_mem hcall with
  | @store _ pc hpersist =>
      intro heq
      obtain ⟨f, hf, hslot, -⟩ := h.owned.owned.persistCall hpersist
      refine absurd (hslot.symm.trans heq) (hstill hf ?_)
      intro parent name
      constructor
      · rintro rfl
        cases hpersist
      · rintro rfl
        cases hpersist
  | newInode hf =>
      intro heq
      exact absurd heq (hstill hf fun _ _ => ⟨nofun, nofun⟩)
  | movedInode hval hread => exact absurd trivial hgives
  | freeInode hc htarget => exact fun _ _ => rfl
  | _ => trivial

/-- A piece that gives no name keeps the tree on disk. -/
theorem run (hgives : ¬ c.GivesName) (hgood : fs.GoodSlots c) (hputs : fs.PutsNames c)
    (h : fs.Told pending) :
  (c.run fs).Told pending
  := by
  have hadds := Call.not_adds_of_not_givesName hgives
  have hdisk := c.disk_run fs
  have hblocks : (c.run fs).disk.inodeTable.blockOffsets = fs.disk.inodeTable.blockOffsets := by
    rw [hdisk]
    apply DiskCall.blockOffsets_runAll
    rintro call hcall rfl
    cases Call.makes_of_mem hcall with
    | allocInode parent name isDir => exact hadds trivial
  constructor
  · exact h.owned.run hadds hgood
  · exact fun ino p hp => h.names ino p (placeOf_run hgives hp)
  · intro ino p hp
    rw [hdisk]
    apply DiskCall.slotIs_runAll hgood.1 (puts_tells hgives hputs h hp) h.owned.table
    exact h.slots ino p (placeOf_run hgives hp)
  · intro k hk hfree
    rw [InodeTable.inodeOffset_congr hblocks] at hk
    have hputs' := puts_unused hgives h hfree
    rw [hdisk]
    by_cases howned : ∃ ino p, fs.placeOf ino = some p ∧ p.diskIndex = k
    · -- the file was removed, and its inode was freed
      obtain ⟨ino, p, hp, rfl⟩ := howned
      apply DiskCall.slotIs_of_mem hgood.1 hputs' _ h.owned.table (h.readable hk)
      obtain ⟨f, hf, rfl⟩ := get_of_placeOf hp
      by_contra hnone
      have hsome := OwnedBut.isSome_run hadds (Option.isSome_of_eq_some hf) (by
        rintro parent name hc val g htarget rfl
        obtain rfl : f = g := Option.some.inj (hf.symm.trans (get_of_target htarget).2)
        apply hnone
        refine ⟨.freeInode f.diskIndex, ?_, rfl⟩
        obtain rfl | rfl := hc
        · rw [Call.diskCalls, htarget]
          exact List.mem_append_right _ (List.mem_singleton_self _)
        · rw [Call.diskCalls, htarget]
          exact List.mem_cons_self)
      obtain ⟨g, hg⟩ := Option.isSome_iff_exists.mp hsome
      have hg' := placeOf_of_get hg
      apply hfree ino g.place hg'
      rw [Option.some.inj ((placeOf_run hgives hg').symm.trans hp)]
    · apply DiskCall.slotIs_runAll hgood.1 hputs' h.owned.table
      exact h.spare k hk fun ino p hp heq => howned ⟨ino, p, hp, heq⟩

/-- When its record is written, the tree on disk has a new file. -/
theorem writeNewInode {createdAt modifiedAt : UInt64}
    (hgood : fs.GoodSlots (.writeNewInode ino createdAt modifiedAt))
    (hputs : fs.PutsNames (.writeNewInode ino createdAt modifiedAt)) (h : fs.Told {ino}) :
  ((Call.writeNewInode ino createdAt modifiedAt).run fs).Told ∅
  := by
  have hrun := h.run id hgood hputs
  refine ⟨h.owned.writeNewInode hgood, hrun.names, ?_, hrun.spare⟩
  intro ino' p hp
  by_cases hino : ino' = ino
  · subst hino
    have hbefore := placeOf_run id hp
    obtain ⟨f, hf, rfl⟩ := get_of_placeOf hbefore
    have hcalls : (Call.writeNewInode ino' createdAt modifiedAt).diskCalls fs
        = [.writeInode f.diskIndex (newInode ino' f createdAt modifiedAt)] := by
      rw [Call.diskCalls, hf]
    obtain ⟨hne, hstorable⟩ := h.names ino' f.place hbefore
    have htells : (newInode ino' f createdAt modifiedAt).Tells ino' f.place :=
      tells_newInode hne hstorable
    rw [Call.disk_run]
    apply DiskCall.slotIs_of_mem hgood.1 _ _ h.owned.table ((h.slots ino' _ hbefore).mono _)
    · intro call hcall
      rw [hcalls] at hcall
      obtain rfl := List.mem_singleton.mp hcall
      exact fun _ _ => htells
    · rw [hcalls]
      exact ⟨_, List.mem_singleton_self _, rfl⟩
    · exact fun _ _ => trivial
  · exact (hrun.slots ino' p hp).mono fun inode htells _ => htells hino

omit [Zstd] in
/-- A slot of the table that a search for a free inode leaves can be read, and is unused when no
file has it. -/
theorem slotIs_allocInode (hfits : DiskCall.Fits fs.disk .allocInode) (h : fs.Told pending)
    {k : ℕ} (hk : fs.disk.allocInode.2.inodeTable.inodeOffset k ≠ none) :
  (fs.disk.allocInode.2.SlotIs k fun _ => True)
    ∧ ((∀ ino p, fs.placeOf ino = some p → p.diskIndex ≠ k) →
      fs.disk.allocInode.2.SlotIs k fun inode => inode.isUsed = 0)
  := by
  have hstays : ∀ {P : InodeRaw → Prop}, fs.disk.SlotIs k P → fs.disk.allocInode.2.SlotIs k P :=
    fun hslot => DiskCall.slotIs_run hfits trivial h.owned.table hslot
  by_cases hold : fs.disk.inodeTable.inodeOffset k = none
  · have hnew := h.owned.table.slotIs_allocInode hfits hold hk
    exact ⟨hnew.mono fun _ _ => trivial, fun _ => hnew⟩
  · exact ⟨hstays (h.readable hold), fun hfree => hstays (h.spare k hold hfree)⟩

/-- A new file gets a slot, of which nothing is told yet. -/
theorem addEntry {parent : UInt64} {name : String} {isDir : Bool}
    (hnumbered : (Call.addEntry parent name isDir).Numbered fs)
    (hgood : fs.GoodSlots (.addEntry parent name isDir))
    (hputs : fs.PutsNames (.addEntry parent name isDir)) (h : fs.Told ∅) :
  ((Call.addEntry parent name isDir).run fs).Told {fs.nextInode}
  := by
  have hfits : DiskCall.Fits fs.disk .allocInode := hgood.1.1.1
  have hdisk : ((Call.addEntry parent name isDir).run fs).disk = fs.disk.allocInode.2 :=
    disk_addEntry fs parent name isDir
  have hcases : ∀ ino p, ((Call.addEntry parent name isDir).run fs).placeOf ino = some p →
      fs.placeOf ino = some p ∨ ∃ i, fs.disk.allocInode.1 = some i ∧ ino = fs.nextInode
        ∧ p = (fs.entryFile parent name isDir i).place := by
    intro ino p hp
    obtain ⟨f, hf, rfl⟩ := get_of_placeOf hp
    obtain hf | ⟨i, halloc, hino, rfl⟩ := Call.file_of_addEntry hf
    · exact Or.inl (placeOf_of_get hf)
    · exact Or.inr ⟨i, halloc, hino, rfl⟩
  have hold : ∀ ino p, fs.placeOf ino = some p →
      ((Call.addEntry parent name isDir).run fs).placeOf ino = some p := by
    intro ino p hp
    obtain ⟨f, hf, rfl⟩ := get_of_placeOf hp
    have hlt := h.owned.slotted.files ino (Option.isSome_of_eq_some hf)
    exact placeOf_of_get (OwnedBut.get_addEntry_of_get hlt.ne hf)
  constructor
  · exact h.owned.addEntry hnumbered hgood
  · intro ino p hp
    obtain hp | ⟨i, -, -, rfl⟩ := hcases ino p hp
    · exact h.names ino p hp
    · exact hputs
  · intro ino p hp
    rw [hdisk]
    obtain hp | ⟨i, halloc, rfl, rfl⟩ := hcases ino p hp
    · have hslot := (h.slots ino p hp).mono fun inode htells
        (_ : ino ∉ ({fs.nextInode} : Set UInt64)) => htells (Set.notMem_empty ino)
      exact DiskCall.slotIs_run hfits trivial h.owned.table hslot
    · obtain ⟨offset, hoffset⟩ := h.owned.table.exists_inodeOffset halloc hfits
      have hk : fs.disk.allocInode.2.inodeTable.inodeOffset i ≠ none :=
        hoffset ▸ Option.some_ne_none offset
      exact (h.slotIs_allocInode hfits hk).1.mono fun _ _ hpending => absurd rfl hpending
  · intro k hk hfree
    rw [hdisk] at hk ⊢
    exact (h.slotIs_allocInode hfits hk).2 fun ino p hp => hfree ino p (hold ino p hp)

/-- Moving an entry tells of the new place of its file. -/
theorem rename {parent newparent now : UInt64} {name newname : String} {val : Value}
    (htree : fs.Tree) (hval : fs.index.get parent name = some val)
    (hgood : fs.GoodSlots (.rename parent name newparent newname now))
    (hputs : fs.PutsNames (.rename parent name newparent newname now)) (h : fs.Told ∅) :
  ((Call.rename parent name newparent newname now).run fs).Told ∅
  := by
  obtain ⟨p₀, hp₀, -, hindex, -⟩ := htree.entry ⟨parent, name⟩ val (Index.get_eq _ _ _ ▸ hval)
  have hplace : ∀ ino, ((Call.rename parent name newparent newname now).run fs).placeOf ino
      = if ino = val.ino then some { p₀ with name := newname, parentIno := newparent }
        else fs.placeOf ino := by
    intro ino
    rw [Call.run, placeOf, (files_rename hval newparent newname now).1, FiniteMap.get_modify]
    split
    · obtain ⟨f, hf, rfl⟩ := get_of_placeOf hp₀
      rw [hf]
      rfl
    · rfl
  obtain ⟨inode, hread, htells⟩ := (h.slots val.ino p₀ hp₀).read
  have htells := htells (Set.notMem_empty _)
  have hcalls : (Call.rename parent name newparent newname now).diskCalls fs
      = [.writeInode p₀.diskIndex (InodeRaw.setName
          { inode with parentIno := newparent, modifiedAt := now } newname), .flush] := by
    rw [hindex] at hread ⊢
    rw [Call.diskCalls, hval]
    dsimp only
    rw [hread]
  have hputsIf : ∀ k (P : InodeRaw → Prop), (p₀.diskIndex = k → P (InodeRaw.setName
      { inode with parentIno := newparent, modifiedAt := now } newname)) →
      ∀ call ∈ (Call.rename parent name newparent newname now).diskCalls fs, call.Puts k P := by
    intro k P hP call hcall
    rw [hcalls] at hcall
    obtain rfl | hcall := List.mem_cons.mp hcall
    · exact hP
    · obtain rfl := List.mem_singleton.mp hcall
      trivial
  constructor
  · exact h.owned.run id hgood
  · intro ino p hp
    rw [hplace] at hp
    split at hp
    · obtain rfl := Option.some.inj hp
      exact hputs
    · exact h.names ino p hp
  · intro ino p hp
    rw [hplace] at hp
    rw [Call.disk_run]
    split at hp
    · next hino =>
      obtain rfl := Option.some.inj hp
      have hnew : (InodeRaw.setName { inode with parentIno := newparent, modifiedAt := now }
          newname).Tells ino { p₀ with name := newname, parentIno := newparent } :=
        InodeRaw.tells_setName htells.isUsed hputs.1 hputs.2 (htells.ino_eq.trans hino.symm) rfl
          htells.isDir_iff
      apply DiskCall.slotIs_of_mem hgood.1 (hputsIf _ _ fun _ _ => hnew) _ h.owned.table
        ((h.slots val.ino p₀ hp₀).mono fun _ _ => trivial)
      rw [hcalls]
      exact ⟨_, List.mem_cons_self, rfl⟩
    · next hino =>
      apply DiskCall.slotIs_runAll hgood.1 _ h.owned.table (h.slots ino p hp)
      exact hputsIf _ _ fun heq => absurd (h.apart hp hp₀ heq.symm) hino
  · intro k hk hfree
    have hblocks : ((Call.rename parent name newparent newname now).run
        fs).disk.inodeTable.blockOffsets = fs.disk.inodeTable.blockOffsets := by
      rw [Call.disk_run, hcalls]
      exact DiskCall.blockOffsets_runAll (by simp)
    rw [InodeTable.inodeOffset_congr hblocks] at hk
    have hmoved : p₀.diskIndex ≠ k := by
      apply hfree val.ino { p₀ with name := newname, parentIno := newparent }
      rw [hplace, if_pos rfl]
    rw [Call.disk_run]
    apply DiskCall.slotIs_runAll hgood.1 (hputsIf _ _ fun heq => absurd heq hmoved) h.owned.table
    apply h.spare k hk
    intro ino p hp
    by_cases hino : ino = val.ino
    · obtain rfl : p₀ = p := Option.some.inj (hp₀.symm.trans (hino ▸ hp))
      exact hmoved
    · apply hfree ino p
      rw [hplace, if_neg hino]
      exact hp

omit [Zstd] in
/-- The tree of a new file system is on disk when its slots are unused. -/
theorem new {dm : DiskManager} (htable : dm.TableSafe)
    (hunused : ∀ k, dm.inodeTable.inodeOffset k ≠ none →
      dm.SlotIs k fun inode => inode.isUsed = 0) :
  (VexFS.new dm).Told ∅
  := by
  have hnone : ∀ ino p, (VexFS.new dm).placeOf ino ≠ some p := fun ino p hp => by cases hp
  constructor
  · exact .new htable
  · exact fun ino p hp => absurd hp (hnone ino p)
  · exact fun ino p hp => absurd hp (hnone ino p)
  · exact fun k hk _ => hunused k hk

omit [Zstd] in
/-- The slots of a formatted image are unused. -/
theorem format (image : Image) (sizeBytes now : UInt64) :
  (VexFS.new (DiskManager.format image sizeBytes now)).Told ∅
  := by
  have hblank : (DiskManager.format image sizeBytes now).Blank 0 := .format image sizeBytes now
  apply new (.format image sizeBytes now)
  intro k hk
  have hlt := hblank.blocks.inodeOffset_ne_none.mp hk
  rw [hblank.blocks.capacity_eq] at hlt
  exact ⟨hk, hblank.free k (Nat.zero_le k) hlt⟩

end Told

end VexFS

/-! ### Sessions -/

/-- The requests that give a file a name. -/
def Request.GivesName : Request → Prop
  | .create _ _ | .mkdir _ _ | .rename _ _ _ _ => True
  | _ => False

namespace Session

variable {s s' : Session} {env : Env} {reply : Reply} {pending pending' : Set UInt64}
  {parent newparent : UInt64} {name newname : String}

theorem Performs.not_givesName (h : Stays s s') :
  Performs (fun c => ¬ c.GivesName) s s'
  := h.mono fun _ hc => hc.not_givesName

/-- The other requests perform no piece that gives a name. -/
theorem request_not_givesName {request : Request} (hgives : ¬ request.GivesName)
    (h : s.exec env request = .ok (reply, s')) :
  Performs (fun c => ¬ c.GivesName) (s.perform (.request request)) s'
  := by
  unfold exec at h
  cases request with
  | create parent name => exact absurd trivial hgives
  | mkdir parent name => exact absurd trivial hgives
  | rename parent name newparent newname => exact absurd trivial hgives
  | write ino offset data => exact (write_stays h).not_givesName
  | setattr ino size => exact (setattr_stays h).not_givesName
  | unlink parent name =>
      rw [← snd_of_ok h]
      unfold unlink
      split
      · exact Performs.refl.perform id
      · split <;> exact Performs.refl.perform id
  | rmdir parent name =>
      rw [← snd_of_ok h]
      unfold rmdir
      split
      · exact .refl
      split
      · exact .refl
      split
      · exact .refl
      · split <;> exact Performs.refl.perform id
  | read ino offset size =>
      rw [← snd_of_ok h]
      exact (read_stores _ ino offset size).stays.not_givesName
  | flush ino =>
      cases h
      exact (Performs.refl.flushFile ino).stays.not_givesName
  | fsync ino =>
      cases h
      exact (Performs.refl.flushFile ino).stays.not_givesName
  | release ino =>
      cases h
      exact .refl
  | destroy =>
      cases h
      exact (Performs.refl.persistAll _).stays.not_givesName

/-- While the pieces are good and put names whole, the tree is on disk. -/
abbrev Told (pending : Set UInt64) (s : Session) : Prop :=
  s.Holds (fun fs c => fs.GoodSlots c ∧ fs.PutsNames c) fun fs => fs.Told pending

namespace Told

theorem perform {c : Call}
    (hstep : s.fs.GoodSlots c → s.fs.PutsNames c → s.fs.Told pending →
      (c.run s.fs).Told pending')
    (h : s.Told pending) :
  (s.perform c).Told pending'
  := by
  intro hlog
  obtain ⟨hlog, hgood, hputs⟩ := forall_log_perform.mp hlog
  exact hstep hgood hputs (h hlog)

theorem performs (hruns : Performs (fun c => ¬ c.GivesName) s s') (h : s.Told pending) :
  s'.Told pending
  := hruns.holds (fun _ _ hgives hgood htold => htold.run hgives hgood.1 hgood.2) h

theorem addEntry {isDir : Bool} (hnumbered : (Call.addEntry parent name isDir).Numbered s.fs)
    (h : s.Told ∅) :
  (s.perform (.addEntry parent name isDir)).Told {s.fs.nextInode}
  := h.perform fun hgood hputs htold => htold.addEntry hnumbered hgood hputs

theorem writeNewInode {ino createdAt modifiedAt : UInt64} (h : s.Told {ino}) :
  (s.perform (.writeNewInode ino createdAt modifiedAt)).Told ∅
  := h.perform fun hgood hputs htold => htold.writeNewInode hgood hputs

/-- No file was added when there is no slot for it. -/
theorem addEntry_of_none {isDir : Bool} (halloc : s.fs.disk.allocInode.1 = none)
    (h : s.Told ∅) :
  (s.perform (.addEntry parent name isDir)).Told ∅
  := by
  apply perform _ h
  intro hgood hputs htold
  have hnumbered : (Call.addEntry parent name isDir).Numbered s.fs := Or.inl halloc
  have hrun := htold.addEntry hnumbered hgood hputs
  have hfiles : ((Call.addEntry parent name isDir).run s.fs).files = s.fs.files := by
    rw [Call.run, VexFS.Tree.addEntry_of_none halloc]
  have hne : ∀ ino p, ((Call.addEntry parent name isDir).run s.fs).placeOf ino = some p →
      ino ≠ s.fs.nextInode := by
    rintro ino p hp rfl
    obtain ⟨f, hf, -⟩ := VexFS.get_of_placeOf hp
    rw [hfiles] at hf
    exact lt_irrefl _ (htold.owned.slotted.files _ (Option.isSome_of_eq_some hf))
  refine ⟨⟨hrun.owned.table, hrun.owned.slotted, hrun.owned.owned, hrun.owned.placed, ?_⟩,
    hrun.names, ?_, hrun.spare⟩
  · intro ino f hf _
    exact hrun.owned.used ino f hf (hne ino f.place (VexFS.placeOf_of_get hf))
  · intro ino p hp
    exact (hrun.slots ino p hp).mono fun inode htells _ => htells (hne ino p hp)

theorem create (hexec : s.create env parent name = .ok (reply, s')) (h : s.Told ∅) :
  s'.Told ∅
  := by
  unfold Session.create at hexec
  split at hexec
  · cases hexec
    exact h
  split at hexec
  · cases hexec
    exact h
  split at hexec
  · next halloc =>
    cases hexec
    exact addEntry_of_none halloc h
  split at hexec
  · cases hexec
  next hmax =>
  cases hexec
  have hnumbered : (Call.addEntry parent name false).Numbered s.fs := Or.inr hmax
  have hadded := addEntry hnumbered h
  exact writeNewInode (performs (Performs.refl.cacheInsert _ _).stays.not_givesName hadded)

theorem mkdir (hexec : s.mkdir env parent name = .ok (reply, s')) (h : s.Told ∅) :
  s'.Told ∅
  := by
  unfold Session.mkdir at hexec
  split at hexec
  · cases hexec
    exact h
  split at hexec
  · cases hexec
    exact h
  split at hexec
  · next halloc =>
    cases hexec
    exact addEntry_of_none halloc h
  split at hexec
  · cases hexec
  next hmax =>
  cases hexec
  have hnumbered : (Call.addEntry parent name true).Numbered s.fs := Or.inr hmax
  have hadded := addEntry hnumbered h
  exact performs (Performs.refl.perform id) (writeNewInode hadded)

theorem rename (htree : s.fs.Tree) (h : s.Told ∅) :
  (s.rename env parent name newparent newname).2.Told ∅
  := by
  unfold Session.rename
  split
  · exact h
  split
  · exact h
  · next val hval =>
    exact perform (fun hgood hputs htold => htold.rename htree hval hgood hputs) h

/-- Every operation keeps the tree on disk. -/
theorem exec {request : Request} (hexec : s.exec env request = .ok (reply, s'))
    (htree : s.fs.Tree) (h : s.Told ∅) :
  s'.Told ∅
  := by
  have hrequest : (s.perform (.request request)).Told ∅ := performs (Performs.refl.perform id) h
  cases request with
  | create parent name => exact create hexec hrequest
  | mkdir parent name => exact mkdir hexec hrequest
  | rename parent name newparent newname =>
      rw [← snd_of_ok hexec]
      exact rename htree hrequest
  | _ => exact performs (request_not_givesName id hexec) hrequest

end Told

end Session

/-- In every session of a formatted image whose requests keep the namespace, the tree is on disk,
while the pieces are good and put names whole. -/
theorem Reachable.told {image : Image} {sizeBytes now : UInt64} {s : Session}
    (h : Reachable (VexFS.new (DiskManager.format image sizeBytes now)) s)
    (hnames : ∀ fs request, (fs, Call.request request) ∈ s.log → Session.KeepsNames fs request) :
  s.fs.Tree ∧ s.Told ∅
  := by
  induction h with
  | start => exact ⟨VexFS.tree_new _, fun _ => .format image sizeBytes now⟩
  | @exec s s' reply env request _ hexec ih =>
      have hstarted := Session.log_extends_exec hexec
      have hrequest : (s.fs, Call.request request) ∈ s'.log :=
        hstarted.subset (List.mem_append_right _ List.mem_cons_self)
      obtain ⟨htree, htold⟩ := ih fun fs request h =>
        hnames fs request (hstarted.subset (List.mem_append_left _ h))
      exact ⟨Session.tree_exec (hnames _ _ hrequest) htree hexec, htold.exec hexec htree⟩

/-! ### Mounting -/

omit [Zstd] in
/-- The inodes of a disk tell of the files of a file system, and of nothing else. -/
structure DiskManager.Describes (dm : DiskManager) (fs : VexFS) : Prop where
  named : ∀ ino p, fs.placeOf ino = some p → p.name ≠ ""
  apart : ∀ ino ino' p p', fs.placeOf ino = some p → fs.placeOf ino' = some p' →
    p.diskIndex = p'.diskIndex → ino = ino'
  below : ∀ ino p, fs.placeOf ino = some p → p.diskIndex < dm.inodeTable.capacity
  slots : ∀ ino p, fs.placeOf ino = some p →
    ∃ inode, dm.readInode p.diskIndex = .ok inode ∧ inode.Tells ino p
  spare : ∀ k < dm.inodeTable.capacity, (∀ ino p, fs.placeOf ino = some p → p.diskIndex ≠ k) →
    ∃ inode, dm.readInode k = .ok inode ∧ inode.isUsed = 0

namespace VexFS

variable {fs src : VexFS} {k : ℕ} {ino : UInt64} {p : Place} {inode : InodeRaw}

/-- The files of another file system that have slots below `k` are there, with their
entries. -/
structure LoadedUpTo (src : VexFS) (k : ℕ) (fs : VexFS) : Prop where
  places : ∀ ino p, fs.placeOf ino = some p ↔ src.placeOf ino = some p ∧ p.diskIndex < k
  entries : ∀ key ino, fs.nameTree.ino key = some ino ↔
    ∃ p, fs.placeOf ino = some p ∧ p.key = key

omit [Crc32] [Zstd] in
/-- A file is in the directory that its inode is read to be in. -/
theorem Tree.getParentIno_eq (h : src.Tree) (hp : src.placeOf ino = some p)
    (htells : inode.Tells ino p) :
  inode.getParentIno = p.parentIno
  := by
  have hne : inode.parentIno ≠ 0 := by
    rw [htells.parent_eq]
    obtain hroot | ⟨d, hd, -⟩ := h.parent ino p hp
    · rw [hroot]
      decide
    · have hlt := (h.fresh _ d hd).1
      intro hzero
      rw [hzero] at hlt
      exact absurd hlt (by decide)
  rw [InodeRaw.getParentIno, if_neg hne, htells.parent_eq]

omit [Crc32] [Zstd] in
/-- Two files with the same place are the same file. -/
theorem Tree.ino_eq (h : src.Tree) {ino' : UInt64} {p' : Place} (hp : src.placeOf ino = some p)
    (hp' : src.placeOf ino' = some p') (hkey : p.key = p'.key) :
  ino = ino'
  := by
  obtain ⟨val, hval, rfl⟩ := h.file ino p hp
  obtain ⟨val', hval', rfl⟩ := h.file ino' p' hp'
  rw [hkey, hval'] at hval
  rw [Option.some.inj hval]

omit [Crc32] in
/-- The inode of the next file is loaded. -/
theorem LoadedUpTo.loadInode (htree : src.Tree)
    (hapart : ∀ ino ino' p p', src.placeOf ino = some p → src.placeOf ino' = some p' →
      p.diskIndex = p'.diskIndex → ino = ino')
    (hp : src.placeOf ino = some p) (htells : inode.Tells ino p)
    (h : LoadedUpTo src p.diskIndex fs) :
  ∃ fs', fs.loadInode p.diskIndex inode = .ok fs' ∧ LoadedUpTo src (p.diskIndex + 1) fs'
  := by
  have hmax : ino + 1 ≠ 0 := by
    have hlt := UInt64.lt_iff_toNat_lt.mp (htree.fresh ino p hp).2
    have hsize := src.nextInode.toNat_lt
    intro hzero
    have hnat := congrArg UInt64.toNat hzero
    rw [UInt64.toNat_add] at hnat
    have hone : (1 : UInt64).toNat = 1 := rfl
    have hnull : (0 : UInt64).toNat = 0 := rfl
    omega
  obtain ⟨fs', hload⟩ : ∃ fs', fs.loadInode p.diskIndex inode = .ok fs' := by
    unfold VexFS.loadInode
    dsimp only
    rw [if_neg (by rw [htells.ino_eq]; exact fun hover => hmax hover.2)]
    exact ⟨_, rfl⟩
  refine ⟨fs', hload, ?_⟩
  obtain ⟨hplace, hentry⟩ : (∀ i, fs'.placeOf i = if i = ino then some p else fs.placeOf i)
      ∧ ∀ key, fs'.nameTree.ino key = if key = p.key then some ino else fs.nameTree.ino key := by
    have hparent := htree.getParentIno_eq hp htells
    unfold VexFS.loadInode at hload
    dsimp only at hload
    split at hload
    · cases hload
    obtain rfl := Except.ok.inj hload
    constructor
    · intro i
      rw [placeOf]
      dsimp only
      rw [FiniteMap.get_insert, htells.ino_eq]
      split
      · show some (Place.mk inode.getName inode.getParentIno p.diskIndex
          (makeAttr ino inode.size (inode.isDir = 1)).kind) = some p
        have hkind : (makeAttr ino inode.size (inode.isDir = 1)).kind = p.kind := by
          dsimp only [makeAttr]
          cases hp : p.kind with
          | directory => rw [if_pos (decide_eq_true (htells.isDir_iff.mpr hp))]
          | regularFile =>
              rw [if_neg]
              intro hdir
              rw [htells.isDir_iff.mp (of_decide_eq_true hdir)] at hp
              cases hp
        rw [htells.name_eq, hparent, hkind]
      · rfl
    · intro key
      dsimp only [nameTree]
      rw [Index.entries_insert, SortedMap.lookup_insert, htells.name_eq, hparent, htells.ino_eq]
      show Option.map Value.ino (if key = p.key then _ else _) = _
      split <;> rfl
  constructor
  · intro i q
    rw [hplace]
    split
    · next hi =>
      subst hi
      constructor
      · intro heq
        obtain rfl := Option.some.inj heq
        exact ⟨hp, Nat.lt_succ_self _⟩
      · rintro ⟨hq, -⟩
        exact hp.symm.trans hq
    · next hi =>
      rw [h.places]
      apply and_congr_right
      intro hq
      have hne : q.diskIndex ≠ p.diskIndex := fun heq => hi (hapart _ _ _ _ hq hp heq)
      omega
  · intro key i
    rw [hentry]
    split
    · next hkey =>
      subst hkey
      constructor
      · intro heq
        obtain rfl := Option.some.inj heq
        exact ⟨p, by rw [hplace, if_pos rfl], rfl⟩
      · rintro ⟨q, hq, hkey⟩
        rw [hplace] at hq
        split at hq
        · next hi => rw [hi]
        · exact congrArg some (htree.ino_eq hp ((h.places i q).mp hq).1 hkey.symm)
    · next hkey =>
      rw [h.entries]
      constructor
      · rintro ⟨q, hq, hkey'⟩
        refine ⟨q, ?_, hkey'⟩
        rw [hplace, if_neg, hq]
        rintro rfl
        obtain ⟨hq', hlt⟩ := (h.places i q).mp hq
        rw [Option.some.inj (hp.symm.trans hq')] at hlt
        exact lt_irrefl _ hlt
      · rintro ⟨q, hq, hkey'⟩
        rw [hplace] at hq
        split at hq
        · obtain rfl := Option.some.inj hq
          exact absurd hkey'.symm hkey
        · exact ⟨q, hq, hkey'⟩

omit [Crc32] [Zstd] in
/-- Nothing is loaded before the first slot. -/
theorem loadedUpTo_zero (dm : DiskManager) :
  LoadedUpTo src 0 (VexFS.new dm)
  := by
  constructor
  · intro ino p
    constructor
    · rintro hp
      cases hp
    · rintro ⟨-, hlt⟩
      exact absurd hlt (Nat.not_lt_zero _)
  · intro key ino
    constructor
    · rintro hino
      cases hino
    · rintro ⟨p, hp, -⟩
      cases hp

omit [Crc32] [Zstd] in
/-- A slot that no file has adds nothing. -/
theorem LoadedUpTo.skip (hfree : ∀ ino p, src.placeOf ino = some p → p.diskIndex ≠ k)
    (h : LoadedUpTo src k fs) :
  LoadedUpTo src (k + 1) fs
  := by
  refine ⟨fun ino p => (h.places ino p).trans (and_congr_right fun hp => ?_), h.entries⟩
  have hne := hfree ino p hp
  omega

/-- The files of the slots of a disk are loaded, in any stretch of slots that starts where
loading stopped. -/
theorem LoadedUpTo.loadInodes {n : ℕ} (htree : src.Tree) (hdisk : fs.disk.Describes src)
    (hn : k + n ≤ fs.disk.inodeTable.capacity) (h : LoadedUpTo src k fs) :
  ∃ fs', fs.loadInodes (List.range' k n) = .ok fs' ∧ LoadedUpTo src (k + n) fs'
  := by
  induction n generalizing fs k with
  | zero => exact ⟨fs, rfl, h⟩
  | succ n ih =>
      rw [List.range'_succ, VexFS.loadInodes]
      have hcount : k + 1 + n = k + (n + 1) := by omega
      by_cases hfree : ∀ ino p, src.placeOf ino = some p → p.diskIndex ≠ k
      · obtain ⟨inode, hread, hunused⟩ := hdisk.spare k (by omega) hfree
        rw [hread]
        dsimp only
        rw [if_neg fun hnamed => InodeRaw.isValid_of_unused hunused hnamed.1]
        rw [← hcount] at hn ⊢
        exact ih hdisk hn (h.skip hfree)
      · push Not at hfree
        obtain ⟨ino, p, hp, rfl⟩ := hfree
        obtain ⟨inode, hread, htells⟩ := hdisk.slots ino p hp
        obtain ⟨fs', hload, hloaded⟩ := h.loadInode htree hdisk.apart hp htells
        have hname : inode.getName ≠ "" := htells.name_eq ▸ hdisk.named ino p hp
        rw [hread]
        dsimp only
        rw [if_pos ⟨htells.valid, hname⟩, hload]
        rw [← hcount] at hn ⊢
        rw [← disk_loadInode hload] at hdisk hn
        exact ih hdisk hn hloaded

omit [Crc32] [Zstd] in
/-- When all slots are loaded, the names are those of the other file system. -/
theorem LoadedUpTo.nameTree_eq (htree : src.Tree)
    (hbelow : ∀ ino p, src.placeOf ino = some p → p.diskIndex < k) (h : LoadedUpTo src k fs) :
  fs.nameTree = { src.nameTree with next := fs.nextInode }
  := by
  have hplaces : ∀ ino, fs.placeOf ino = src.placeOf ino := fun ino =>
    Option.ext fun p => (h.places ino p).trans
      ⟨fun hp => hp.1, fun hp => ⟨hp, hbelow ino p hp⟩⟩
  have hentries : ∀ key, fs.nameTree.ino key = src.nameTree.ino key := by
    intro key
    ext ino
    rw [h.entries, hplaces]
    constructor
    · rintro ⟨p, hp, rfl⟩
      obtain ⟨val, hval, rfl⟩ := htree.file ino p hp
      exact congrArg (Option.map Value.ino) hval
    · intro hino
      obtain ⟨val, hval, rfl⟩ := Option.map_eq_some_iff.mp hino
      obtain ⟨p, hp, hkey, -⟩ := htree.entry key val hval
      exact ⟨p, hp, hkey⟩
  have hkinds : ∀ ino, fs.nameTree.kind ino = src.nameTree.kind ino := fun ino =>
    congrArg (Option.map Place.kind) (hplaces ino)
  show NameTree.mk fs.nameTree.ino fs.nameTree.kind fs.nextInode = _
  rw [funext hentries, funext hkinds]

/-- A disk that describes a file system is mounted with its names, as long as the snapshots have
numbers. -/
theorem Tree.load (htree : src.Tree) {dm : DiskManager} {nextId : UInt32}
    (hdisk : dm.Describes src)
    (hnext : restoredNextId (loadSnapshots dm (.new 10) (List.range maxSnapshotSlots))
      = .ok nextId) :
  ∃ fs, VexFS.load dm = .ok fs ∧ fs.nameTree = { src.nameTree with next := fs.nextInode }
  := by
  have hzero : LoadedUpTo src 0 (VexFS.new dm) := loadedUpTo_zero dm
  have hnew : (VexFS.new dm).disk = dm := rfl
  obtain ⟨start, hload, hloaded⟩ := hzero.loadInodes
    (n := (VexFS.new dm).disk.inodeTable.capacity) htree hdisk (Nat.zero_add _).le
  rw [← List.range_eq_range', hnew] at hload
  rw [Nat.zero_add] at hloaded
  have hnames := hloaded.nameTree_eq htree hdisk.below
  refine ⟨{ start with snapshots := { loadSnapshots dm (.new 10) (List.range maxSnapshotSlots)
    with nextId } }, ?_, hnames⟩
  rw [VexFS.load, hload]
  dsimp only [bind, Except.bind]
  rw [hnext]
  rfl

end VexFS

omit [Zstd] in
/-- When the tree of a file system is on disk, the disk that is opened after it was closed
describes the file system. -/
theorem VexFS.Told.describes {fs : VexFS} {dm : DiskManager}
    (hreads : SameReads fs.disk.flush dm)
    (hblocks : dm.inodeTable.blockOffsets = fs.disk.inodeTable.blockOffsets)
    (h : fs.Told ∅) :
  dm.Describes fs
  := by
  obtain ⟨blocks, htable, -⟩ := h.owned.table.blocks
  have hplaced := h.owned.table.order.kept.placed
  have hslot : ∀ k, fs.disk.inodeTable.inodeOffset k ≠ none ↔ k < dm.inodeTable.capacity := by
    intro k
    rw [← InodeTable.inodeOffset_congr hblocks k]
    exact (htable.congr hblocks).inodeOffset_ne_none
  have hread : ∀ {k : ℕ} {P : InodeRaw → Prop}, fs.disk.SlotIs k P →
      ∃ inode, dm.readInode k = .ok inode ∧ P inode := by
    intro k P his
    obtain ⟨inode, hread, hinode⟩ := his.read
    use inode, ?_, hinode
    rw [hreads.inodes k]
    exact (changesIn_flush _).readInode rfl hplaced hread
      (disjoint_slotRange_metadataRange hplaced k)
  constructor
  · exact fun ino p hp => (h.names ino p hp).1
  · exact fun ino ino' p p' hp hp' => h.apart hp hp'
  · exact fun ino p hp => (hslot _).mp (h.slots ino p hp).slot
  · intro ino p hp
    obtain ⟨inode, hinode, htells⟩ := hread (h.slots ino p hp)
    exact ⟨inode, hinode, htells (Set.notMem_empty ino)⟩
  · exact fun k hk hfree => hread (h.spare k ((hslot k).mpr hk) hfree)

omit [Crc32] [Zstd] in
/-- In some session a file is made and its name is put whole, and the disk can be closed and
opened again. -/
theorem exists_putFile :
  let _ := Crc32.ieee
  let _ := Zstd.refusing
  ∃ s, FreshSession Image.empty 0 0 s
    ∧ (∀ fs request, (fs, Call.request request) ∈ s.log → Session.KeepsNames fs request)
    ∧ (∀ e ∈ s.log, e.1.GoodSlots e.2 ∧ e.1.PutsNames e.2)
    ∧ Reopenable s.fs.disk ∧ s.fs.nameTree.ino ⟨rootIno, "a"⟩ = some 2
    ∧ ∃ dm, DiskManager.open s.fs.disk.flush.image = .ok dm ∧ dm.NoSnapshots
  := by
  intro _ _
  let start := VexFS.new (DiskManager.format Image.empty 0 0)
  let requested : Session := (⟨start, []⟩ : Session).perform (.request (.create rootIno "a"))
  have hblank : start.disk.Blank 0 := .format Image.empty 0 0
  obtain ⟨s, i, hi, hexec, hfs, -, -, hdisk, -⟩ := Session.exec_create_of_blank
    (s := ⟨start, []⟩) rootIno "a" rfl rfl hblank (by decide) (by decide)
    (FileCache.room_new (n := 0) (by decide)) Env.still
  have hlt : i < 1024 := Nat.lt_of_le_of_lt hi (by decide)
  let searched : DiskManager := { start.disk with inodeTable := { start.disk.inodeTable with
    nextDiskEnd := start.disk.superblock.nextDataOffset } }
  have hsearched : searched.Blank 0 := hblank.congr_table _
  have hreopenable : Reopenable searched := (Reopenable.format Image.empty 0 0).congr_table _
  have hwritten : s.fs.disk = (searched.writeInode i _).2 := hdisk
  refine ⟨s, .of_reachable (.exec Env.still (.create rootIno "a") .start hexec), ?_, ?_, ?_, ?_,
    ?_⟩
  · intro fs request hmem
    obtain hnil | ⟨-, rfl⟩ := Session.mem_requests_exec hexec hmem
    · cases hnil
    · trivial
  · obtain ⟨i', -, halloc⟩ := hblank.allocInode (by decide)
    have hcreate : requested.create Env.still rootIno "a" = .ok _ :=
      Session.create_eq rfl rfl (congrArg Prod.fst halloc) (by decide)
    have hadded : requested.fs.addEntry rootIno "a" false = _ :=
      VexFS.addEntry_of_some halloc rootIno "a" false
    have hroom : (requested.perform (.addEntry rootIno "a" false)).fs.cache.Room
        (([] : List UInt8).length + 0) := by
      show (requested.fs.addEntry rootIno "a" false).cache.Room _
      rw [hadded]
      exact FileCache.room_new (by decide)
    rw [Session.cacheInsert_eq_of_room _ hroom] at hcreate
    obtain rfl := congrArg Prod.snd (Except.ok.inj (hcreate.symm.trans hexec))
    have hnear : requested.fs.disk.superblock.nextDataOffset.toNat + inodeBlockSize ≤ 2 ^ 63 := by
      show (UInt64.ofNat dataOffset).toNat + inodeBlockSize ≤ 2 ^ 63
      decide
    have hquiet : ∀ (fs : VexFS) c, c.diskCalls fs = [] → fs.RemovesSettled c →
        c.persistCall fs = none → ¬ c.GivesName → fs.GoodSlots c ∧ fs.PutsNames c := by
      intro fs c hcalls hsettled hnone hgives
      refine ⟨⟨?_, hsettled⟩, .of_none hgives hnone⟩
      rw [hcalls]
      trivial
    rw [Session.forall_log_perform, Session.forall_log_perform, Session.forall_log_perform,
      Session.forall_log_perform, Session.forall_log_perform]
    refine ⟨⟨⟨⟨⟨List.forall_mem_nil _, ?_⟩, ?_⟩, ?_⟩, ?_⟩, ?_⟩
    · exact hquiet _ _ rfl trivial rfl id
    · exact ⟨⟨⟨⟨hnear, trivial⟩, trivial⟩, trivial⟩, by decide, by decide,
        List.all_eq_true.mp (by decide), by decide⟩
    · exact hquiet _ _ rfl trivial rfl id
    · exact hquiet _ _ rfl trivial rfl id
    · refine ⟨⟨?_, trivial⟩, .of_none id rfl⟩
      rw [Call.diskCalls]
      split
      · trivial
      · exact ⟨⟨trivial, trivial⟩, trivial⟩
  · rw [hwritten]
    exact hsearched.reopenable_writeInode hlt _ hreopenable
  · rw [VexFS.ino_nameTree, hfs, Index.get_eq]
    show ((start.index.insert rootIno "a" _).entries.lookup _).map Value.ino = _
    rw [Index.entries_insert, SortedMap.lookup_insert, if_pos rfl]
    rfl
  · obtain ⟨dm, hopen, -, hsnapshots, -⟩ := open_written hsearched
      (noSnapshots_format Image.empty 0 0) hreopenable (Nat.zero_le _) hi hlt _
    rw [hwritten]
    exact ⟨dm, hopen, hsnapshots⟩

/-- In every session of a formatted image whose requests keep the namespace, and whose pieces
keep the slots and put names whole, the disk can be closed and mounted again with the tree of
names that there is, as long as its journal agrees with it and its snapshots have numbers. -/
theorem remount_keeps_names {image : Image} {sizeBytes now : UInt64} {s : Session}
    (h : FreshSession image sizeBytes now s)
    (hnames : ∀ fs request, (fs, Call.request request) ∈ s.log → Session.KeepsNames fs request)
    (hgood : ∀ e ∈ s.log, e.1.GoodSlots e.2 ∧ e.1.PutsNames e.2)
    (hdisk : Reopenable s.fs.disk) :
  ∃ dm, DiskManager.open s.fs.disk.flush.image = .ok dm
    ∧ ∀ nextId, VexFS.restoredNextId (VexFS.loadSnapshots dm (.new 10)
        (List.range maxSnapshotSlots)) = .ok nextId →
      ∃ fs, VexFS.load dm = .ok fs
        ∧ fs.nameTree = { s.fs.nameTree with next := fs.nextInode }
  := by
  obtain ⟨htree, htold⟩ := h.reachable.told hnames
  obtain ⟨dm, hopen, hreads, hblocks⟩ := hdisk.reopen_table
  refine ⟨dm, hopen, fun nextId hnext => ?_⟩
  exact htree.load ((htold hgood).describes hreads hblocks) hnext

omit [Crc32] [Zstd] in
/-- A file that was made is found under its name when the image is mounted again. -/
theorem remount_keeps_names_one_file :
  let _ := Crc32.ieee
  let _ := Zstd.refusing
  ∃ s dm fs, FreshSession Image.empty 0 0 s
    ∧ DiskManager.open s.fs.disk.flush.image = .ok dm ∧ VexFS.load dm = .ok fs
    ∧ s.fs.nameTree.ino ⟨rootIno, "a"⟩ = some 2 ∧ fs.nameTree.ino ⟨rootIno, "a"⟩ = some 2
  := by
  intro _ _
  obtain ⟨s, hfresh, hnames, hgood, hdisk, hino, dm, hopen, hsnapshots⟩ := exists_putFile
  obtain ⟨dm', hopen', hload⟩ := remount_keeps_names hfresh hnames hgood hdisk
  obtain rfl := Except.ok.inj (hopen.symm.trans hopen')
  have hnext : VexFS.restoredNextId (VexFS.loadSnapshots dm (.new 10)
      (List.range maxSnapshotSlots)) = .ok (SnapshotManager.new 10).nextId := by
    rw [VexFS.loadSnapshots_of_unused hsnapshots]
    rfl
  obtain ⟨fs, hload, hsame⟩ := hload _ hnext
  refine ⟨s, dm, fs, hfresh, hopen, hload, hino, ?_⟩
  rw [hsame]
  exact hino

end Vexfs
