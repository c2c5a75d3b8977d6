import Vexfs.Fuse.Roomy

/-!
# The namespace of a session

The index and the files describe one tree: `Tree` says that each of them determines the
other, and that every entry lies in the root or in a directory that is there.  The
operations keep it, with two exceptions.  `rename` onto the name of another entry leaves
that entry's file without an entry, and `rmdir` takes a directory for empty when all its
entries have names past the end of a scan (`Request.KeepsNames`).
-/

namespace Vexfs

/-! ### Places -/

/-- Where the namespace has a file. -/
structure Place where
  name : String
  parentIno : UInt64
  diskIndex : ℕ
  kind : FileType
deriving DecidableEq, Repr

namespace Place

/-- The key of the entry of a file. -/
def key (p : Place) : Key := ⟨p.parentIno, p.name⟩

end Place

def VexFile.place (f : VexFile) : Place where
  name := f.name
  parentIno := f.parentIno
  diskIndex := f.diskIndex
  kind := f.attr.kind

namespace VexFS

/-- The place of a file, if there is one with the inode number. -/
def placeOf (fs : VexFS) (ino : UInt64) : Option Place := (fs.files.get ino).map VexFile.place

theorem placeOf_of_get {fs : VexFS} {ino : UInt64} {f : VexFile}
    (h : fs.files.get ino = some f) :
  fs.placeOf ino = some f.place
  := by rw [placeOf, h, Option.map_some]

theorem get_of_placeOf {fs : VexFS} {ino : UInt64} {p : Place} (h : fs.placeOf ino = some p) :
  ∃ f, fs.files.get ino = some f ∧ f.place = p
  := Option.map_eq_some_iff.mp h

/-- The index and the files describe the same tree. -/
structure Tree (fs : VexFS) : Prop where
  /-- A file has the entry of its place. -/
  file : ∀ ino p, fs.placeOf ino = some p → ∃ val,
    fs.index.entries.lookup p.key = some val ∧ val.ino = ino
  /-- An entry has a file, whose place it is. -/
  entry : ∀ key val, fs.index.entries.lookup key = some val → ∃ p,
    fs.placeOf val.ino = some p ∧ p.key = key ∧ p.diskIndex = val.diskIndex
      ∧ (val.isDir = true ↔ p.kind = .directory)
  /-- A file is in the root or in a directory. -/
  parent : ∀ ino p, fs.placeOf ino = some p → p.parentIno = rootIno
    ∨ ∃ d, fs.placeOf p.parentIno = some d ∧ d.kind = .directory
  /-- Inode numbers are given in order, after that of the root. -/
  fresh : ∀ ino p, fs.placeOf ino = some p → rootIno < ino ∧ ino < fs.nextInode
  next : rootIno < fs.nextInode

/-- Whether there is a directory with an inode number. -/
def IsDirectory (fs : VexFS) (ino : UInt64) : Prop :=
  ino = rootIno ∨ ∃ f, fs.files.get ino = some f ∧ f.attr.kind = .directory

/-- The namespace as the operations promise it. -/
structure NamesConsistent (fs : VexFS) : Prop where
  /-- The entry of a file is found under its parent and name, and is that of the file. -/
  found : ∀ ino f, fs.files.get ino = some f → ∃ val,
    fs.index.get f.parentIno f.name = some val ∧ val.ino = ino ∧ val.diskIndex = f.diskIndex
  /-- An entry has a file. -/
  live : ∀ parent name val, fs.index.get parent name = some val →
    (fs.files.get val.ino).isSome
  /-- An entry is in a directory. -/
  under : ∀ parent name val, fs.index.get parent name = some val → fs.IsDirectory parent

theorem Tree.consistent {fs : VexFS} (h : fs.Tree) :
  fs.NamesConsistent
  := by
  constructor
  · intro ino f hf
    obtain ⟨val, hval, rfl⟩ := h.file ino f.place (placeOf_of_get hf)
    obtain ⟨p, hp, -, hindex, -⟩ := h.entry _ val hval
    obtain rfl := Option.some.inj ((placeOf_of_get hf).symm.trans hp)
    exact ⟨val, (fs.index.get_eq _ _).trans hval, rfl, hindex.symm⟩
  · intro parent name val hval
    rw [Index.get_eq] at hval
    obtain ⟨p, hp, -⟩ := h.entry _ val hval
    obtain ⟨f, hf, -⟩ := get_of_placeOf hp
    exact Option.isSome_of_eq_some hf
  · intro parent name val hval
    rw [Index.get_eq] at hval
    obtain ⟨p, hp, hkey, -⟩ := h.entry _ val hval
    have hparent : p.parentIno = parent := congrArg Key.parentIno hkey
    obtain hroot | ⟨d, hd, hkind⟩ := h.parent _ p hp
    · exact Or.inl (hparent.symm.trans hroot)
    · obtain ⟨f, hf, rfl⟩ := get_of_placeOf hd
      rw [hparent] at hf
      exact Or.inr ⟨f, hf, hkind⟩

/-! ### What leaves the namespace alone -/

/-- Two states have the same namespace. -/
structure SameTree (fs fs' : VexFS) : Prop where
  entries_eq : fs'.index.entries = fs.index.entries
  nextInode_eq : fs'.nextInode = fs.nextInode
  placeOf_eq : fs'.placeOf = fs.placeOf

theorem SameTree.refl (fs : VexFS) :
  SameTree fs fs
  := ⟨rfl, rfl, rfl⟩

theorem SameTree.trans {fs fs' fs'' : VexFS} (h : SameTree fs fs') (h' : SameTree fs' fs'') :
  SameTree fs fs''
  := ⟨h'.entries_eq.trans h.entries_eq, h'.nextInode_eq.trans h.nextInode_eq,
    h'.placeOf_eq.trans h.placeOf_eq⟩

theorem Tree.congr {fs fs' : VexFS} (hsame : SameTree fs fs') (h : fs.Tree) :
  fs'.Tree
  := by
  obtain ⟨hindex, hnext, hplace⟩ := hsame
  constructor
  · rw [hindex, hplace]
    exact h.file
  · rw [hindex, hplace]
    exact h.entry
  · rw [hplace]
    exact h.parent
  · rw [hplace, hnext]
    exact h.fresh
  · rw [hnext]
    exact h.next

/-- Changing a file without moving it leaves the places. -/
theorem SameTree.of_modify {fs fs' : VexFS} {ino : UInt64} {g : VexFile → VexFile}
    (hindex : fs'.index.entries = fs.index.entries) (hnext : fs'.nextInode = fs.nextInode)
    (hfiles : fs'.files = fs.files.modify ino g) (hg : ∀ f, (g f).place = f.place) :
  SameTree fs fs'
  := by
  refine ⟨hindex, hnext, ?_⟩
  funext ino'
  rw [placeOf, placeOf, hfiles, FiniteMap.get_modify]
  split
  · next heq =>
    rw [heq, Option.map_map]
    congr 1
    funext f
    exact hg f
  · rfl

variable [Crc32] [Zstd]

theorem SameTree.persistToDisk {fs fs' : VexFS} (h : SameTree fs fs') (p : Persistence)
    (ino : UInt64) (name : String) (data : List UInt8) (diskIndex : ℕ) :
  SameTree fs (fs'.persistToDisk p ino name data diskIndex)
  := by
  apply h.trans
  exact .of_modify (g := fun f => { f with dataOffset :=
    (allocFor (freeExtent fs'.disk (fs'.oldExtent ino)) (p.dataToWrite name data)).1 })
    rfl rfl rfl fun _ => rfl

omit [Crc32] [Zstd] in
theorem sameTree_stage (fs : VexFS) (ino now : UInt64) :
  SameTree fs (fs.stage ino now)
  := by
  unfold stage
  split
  · exact .refl fs
  · next f hf =>
    have hfiles : fs.files.insert ino { f with dirty := false }
        = fs.files.modify ino fun f => { f with dirty := false } := by
      rw [FiniteMap.modify, hf]
    split
    · rw [hfiles]
      dsimp only
      split <;> exact .of_modify rfl rfl rfl fun _ => rfl
    · exact .refl fs

/-- A piece that does not change the namespace. -/
theorem sameTree_run {c : Call} (hc : c.Stays) (fs : VexFS) :
  SameTree fs (c.run fs)
  := by
  cases c with
  | request request => exact hc.elim
  | cacheGet ino => exact ⟨rfl, rfl, rfl⟩
  | cachePut ino data => exact ⟨rfl, rfl, rfl⟩
  | drainEvicted => exact ⟨rfl, rfl, rfl⟩
  | stage ino now => exact sameTree_stage fs ino now
  | clean ino => exact .of_modify rfl rfl rfl fun _ => rfl
  | persistBuffered p ino =>
      show SameTree fs (fs.persistBuffered p ino)
      unfold persistBuffered
      split
      · exact .refl fs
      · apply SameTree.persistToDisk
        exact ⟨rfl, rfl, rfl⟩
  | persistCached p ino =>
      show SameTree fs (fs.persistCached p ino)
      unfold persistCached
      split
      · exact .refl fs
      split
      · exact ⟨rfl, rfl, rfl⟩
      · apply SameTree.persistToDisk
        exact ⟨rfl, rfl, rfl⟩
  | persistRecovered p ino =>
      show SameTree fs (fs.persistRecovered p ino)
      unfold persistRecovered
      split
      · exact .refl fs
      split
      · exact .refl fs
      · exact (SameTree.refl fs).persistToDisk _ _ _ _ _
  | setSize ino size => exact .of_modify rfl rfl rfl fun _ => rfl
  | takeSnapshot ino data takenAt recordedAt =>
      show SameTree fs (fs.takeSnapshot ino data takenAt recordedAt)
      unfold takeSnapshot
      split
      · exact .refl fs
      · dsimp only
        split <;> exact ⟨rfl, rfl, rfl⟩
  | maybeGcSnapshots order =>
      show SameTree fs (fs.maybeGcSnapshots order)
      unfold maybeGcSnapshots
      split
      · exact .refl fs
      · exact ⟨rfl, rfl, rfl⟩
  | writeNewInode ino createdAt modifiedAt =>
      show SameTree fs (fs.writeNewInode ino createdAt modifiedAt)
      unfold writeNewInode
      split
      · exact .refl fs
      · exact ⟨rfl, rfl, rfl⟩
  | flushDisk => exact ⟨rfl, rfl, rfl⟩
  | addEntry parent name isDir => exact hc.elim
  | unlink parent name => exact hc.elim
  | rmdir parent name => exact hc.elim
  | rename parent name newparent newname now => exact hc.elim

omit [Crc32] [Zstd]

/-! ### Adding, removing and moving an entry -/

/-- A number below the last one grows. -/
theorem lt_add_one {n : UInt64} (h : n + 1 ≠ 0) :
  n < n + 1
  := by
  rw [UInt64.lt_iff_toNat_lt]
  have hne : (n + 1).toNat ≠ 0 := fun h0 => h (UInt64.toNat_inj.mp h0)
  have hsmall := n.toNat_lt
  have hone : (1 : UInt64).toNat = 1 := rfl
  rw [UInt64.toNat_add, hone] at hne ⊢
  omega

namespace Tree

variable {fs fs' : VexFS} {key key' : Key} {val : Value}

/-- The place of the file of an entry. -/
theorem exists_place (h : fs.Tree) (hval : fs.index.entries.lookup key = some val) :
  ∃ p, fs.placeOf val.ino = some p ∧ p.key = key
  := by
  obtain ⟨p, hp, hkey, -⟩ := h.entry key val hval
  exact ⟨p, hp, hkey⟩

/-- Two entries of one file are the same entry. -/
theorem key_eq (h : fs.Tree) {val' : Value} (hval : fs.index.entries.lookup key = some val)
    (hval' : fs.index.entries.lookup key' = some val') (hino : val'.ino = val.ino) :
  key' = key
  := by
  obtain ⟨p, hp, hkey⟩ := h.exists_place hval
  obtain ⟨p', hp', hkey'⟩ := h.exists_place hval'
  rw [hino, hp] at hp'
  rw [← hkey, ← hkey', Option.some.inj hp']

/-- A new entry with a new inode number, under a name that is free. -/
theorem add {p : Place} (h : fs.Tree) (hfree : fs.index.entries.lookup p.key = none)
    (hparent : p.parentIno = rootIno
      ∨ ∃ d, fs.placeOf p.parentIno = some d ∧ d.kind = .directory)
    (hino : val.ino = fs.nextInode) (hdisk : p.diskIndex = val.diskIndex)
    (hdir : val.isDir = true ↔ p.kind = .directory) (hmax : fs.nextInode + 1 ≠ 0)
    (hindex : fs'.index.entries = SortedMap.insert p.key val fs.index.entries)
    (hplace : ∀ ino, fs'.placeOf ino = if ino = fs.nextInode then some p else fs.placeOf ino)
    (hnext : fs'.nextInode = fs.nextInode + 1) :
  fs'.Tree
  := by
  have hlt := lt_add_one hmax
  have hnone : fs.placeOf fs.nextInode = none := by
    apply Option.eq_none_iff_forall_ne_some.mpr
    intro q hq
    exact lt_irrefl _ (h.fresh _ q hq).2
  have hold : ∀ {ino q}, fs.placeOf ino = some q → fs'.placeOf ino = some q := by
    intro ino q hq
    rw [hplace, if_neg, hq]
    rintro rfl
    cases hnone.symm.trans hq
  constructor
  · intro ino q hq
    rw [hplace] at hq
    rw [hindex]
    split at hq
    · next heq =>
      obtain rfl := Option.some.inj hq
      use val
      rw [SortedMap.lookup_insert, if_pos rfl]
      exact ⟨rfl, hino.trans heq.symm⟩
    · obtain ⟨val', hval', hino'⟩ := h.file ino q hq
      use val'
      rw [SortedMap.lookup_insert, if_neg]
      · exact ⟨hval', hino'⟩
      · intro heq
        rw [heq, hfree] at hval'
        cases hval'
  · intro k v hv
    rw [hindex, SortedMap.lookup_insert] at hv
    split at hv
    · next heq =>
      obtain rfl := Option.some.inj hv
      refine ⟨p, ?_, heq.symm, hdisk, hdir⟩
      rw [hplace, if_pos hino]
    · obtain ⟨q, hq, hrest⟩ := h.entry k v hv
      exact ⟨q, hold hq, hrest⟩
  · intro ino q hq
    rw [hplace] at hq
    have hq' : q.parentIno = rootIno
        ∨ ∃ d, fs.placeOf q.parentIno = some d ∧ d.kind = .directory := by
      split at hq
      · obtain rfl := Option.some.inj hq
        exact hparent
      · exact h.parent ino q hq
    obtain hroot | ⟨d, hd, hkind⟩ := hq'
    · exact Or.inl hroot
    · exact Or.inr ⟨d, hold hd, hkind⟩
  · intro ino q hq
    rw [hnext]
    rw [hplace] at hq
    split at hq
    · next heq =>
      rw [heq]
      exact ⟨h.next, hlt⟩
    · obtain ⟨hlo, hhi⟩ := h.fresh ino q hq
      exact ⟨hlo, hhi.trans hlt⟩
  · rw [hnext]
    exact h.next.trans hlt

/-- An entry is removed with its file, when nothing lies under it. -/
theorem remove (h : fs.Tree) (hval : fs.index.entries.lookup key = some val)
    (hempty : ∀ ino p, fs.placeOf ino = some p → p.parentIno ≠ val.ino)
    (hindex : fs'.index.entries = SortedMap.erase key fs.index.entries)
    (hplace : ∀ ino, fs'.placeOf ino = if ino = val.ino then none else fs.placeOf ino)
    (hnext : fs'.nextInode = fs.nextInode) :
  fs'.Tree
  := by
  have hleft : ∀ {ino q}, fs'.placeOf ino = some q → ino ≠ val.ino ∧ fs.placeOf ino = some q := by
    intro ino q hq
    rw [hplace] at hq
    split at hq
    · cases hq
    · exact ⟨‹_›, hq⟩
  constructor
  · intro ino q hq
    obtain ⟨hne, hq⟩ := hleft hq
    obtain ⟨v, hv, rfl⟩ := h.file ino q hq
    use v
    rw [hindex, SortedMap.lookup_erase, if_neg]
    · exact ⟨hv, rfl⟩
    · intro heq
      rw [heq, hval] at hv
      exact hne (congrArg Value.ino (Option.some.inj hv).symm)
  · intro k v hv
    rw [hindex, SortedMap.lookup_erase] at hv
    split at hv
    · cases hv
    · next hne =>
      obtain ⟨q, hq, hrest⟩ := h.entry k v hv
      use q
      rw [hplace, if_neg fun hino => hne (h.key_eq hval hv hino)]
      exact ⟨hq, hrest⟩
  · intro ino q hq
    obtain ⟨-, hq⟩ := hleft hq
    obtain hroot | ⟨d, hd, hkind⟩ := h.parent ino q hq
    · exact Or.inl hroot
    · right
      use d
      rw [hplace, if_neg (hempty ino q hq)]
      exact ⟨hd, hkind⟩
  · intro ino q hq
    rw [hnext]
    exact h.fresh ino q (hleft hq).2
  · rw [hnext]
    exact h.next

/-- An entry is moved with its file, to a name that is free or its own. -/
theorem move (h : fs.Tree) (hval : fs.index.entries.lookup key = some val)
    (hfree : key' = key ∨ fs.index.entries.lookup key' = none)
    (hparent : key'.parentIno = rootIno
      ∨ ∃ d, fs.placeOf key'.parentIno = some d ∧ d.kind = .directory)
    (hindex : fs'.index.entries
      = SortedMap.insert key' val (SortedMap.erase key fs.index.entries))
    (hplace : ∀ ino, fs'.placeOf ino = if ino = val.ino then
        (fs.placeOf ino).map fun p => { p with name := key'.name, parentIno := key'.parentIno }
      else fs.placeOf ino)
    (hnext : fs'.nextInode = fs.nextInode) :
  fs'.Tree
  := by
  obtain ⟨p, hp, hkey, hdisk, hdir⟩ := h.entry key val hval
  have hlookup : ∀ k, fs'.index.entries.lookup k
      = if k = key' then some val else if k = key then none
        else fs.index.entries.lookup k := by
    intro k
    rw [hindex, SortedMap.lookup_insert, SortedMap.lookup_erase]
  have hmoved : fs'.placeOf val.ino
      = some { p with name := key'.name, parentIno := key'.parentIno } := by
    rw [hplace, if_pos rfl, hp, Option.map_some]
  have hstays : ∀ {ino}, ino ≠ val.ino → fs'.placeOf ino = fs.placeOf ino := by
    intro ino hne
    rw [hplace, if_neg hne]
  -- A directory is still one, wherever it is now.
  have hdirs : ∀ {ino d}, fs.placeOf ino = some d → d.kind = .directory →
      ∃ d', fs'.placeOf ino = some d' ∧ d'.kind = .directory := by
    intro ino d hd hkind
    by_cases hino : ino = val.ino
    · subst hino
      rw [hp] at hd
      obtain rfl := Option.some.inj hd
      exact ⟨_, hmoved, hkind⟩
    · exact ⟨d, (hstays hino).trans hd, hkind⟩
  constructor
  · intro ino q hq
    by_cases hino : ino = val.ino
    · subst hino
      rw [hmoved] at hq
      obtain rfl := Option.some.inj hq
      use val
      rw [hlookup]
      exact ⟨if_pos rfl, rfl⟩
    · rw [hstays hino] at hq
      obtain ⟨v, hv, rfl⟩ := h.file ino q hq
      use v
      rw [hlookup]
      have hne : q.key ≠ key := by
        intro heq
        rw [heq, hval] at hv
        exact hino (congrArg Value.ino (Option.some.inj hv).symm)
      have hne' : q.key ≠ key' := by
        intro heq
        obtain hsame | hnone := hfree
        · exact hne (heq.trans hsame)
        · rw [heq, hnone] at hv
          cases hv
      rw [if_neg hne', if_neg hne]
      exact ⟨hv, rfl⟩
  · intro k v hv
    rw [hlookup] at hv
    split at hv
    · next heq =>
      obtain rfl := Option.some.inj hv
      exact ⟨_, hmoved, heq.symm, hdisk, hdir⟩
    · split at hv
      · cases hv
      · next hne =>
        obtain ⟨q, hq, hrest⟩ := h.entry k v hv
        use q
        rw [hstays fun hino => hne (h.key_eq hval hv hino)]
        exact ⟨hq, hrest⟩
  · intro ino q hq
    have hq' : q.parentIno = rootIno
        ∨ ∃ d, fs.placeOf q.parentIno = some d ∧ d.kind = .directory := by
      by_cases hino : ino = val.ino
      · subst hino
        rw [hmoved] at hq
        obtain rfl := Option.some.inj hq
        exact hparent
      · rw [hstays hino] at hq
        exact h.parent ino q hq
    obtain hroot | ⟨d, hd, hkind⟩ := hq'
    · exact Or.inl hroot
    · exact Or.inr (hdirs hd hkind)
  · intro ino q hq
    rw [hnext]
    by_cases hino : ino = val.ino
    · rw [hino]
      exact h.fresh _ p hp
    · rw [hstays hino] at hq
      exact h.fresh ino q hq
  · rw [hnext]
    exact h.next

/-! ### The operations -/

/-- A directory is the root or has a place. -/
theorem isDirectory_iff {ino : UInt64} :
  fs.IsDirectory ino ↔ ino = rootIno ∨ ∃ d, fs.placeOf ino = some d ∧ d.kind = .directory
  := by
  constructor
  · rintro (hroot | ⟨f, hf, hkind⟩)
    · exact Or.inl hroot
    · exact Or.inr ⟨f.place, placeOf_of_get hf, hkind⟩
  · rintro (hroot | ⟨d, hd, hkind⟩)
    · exact Or.inl hroot
    · obtain ⟨f, hf, rfl⟩ := get_of_placeOf hd
      exact Or.inr ⟨f, hf, hkind⟩

theorem isDirectory_of_parentError {parent : UInt64}
    (h : Session.parentError fs parent = none) :
  fs.IsDirectory parent
  := by
  unfold Session.parentError at h
  split at h
  · exact Or.inl ‹_›
  split at h
  · cases h
  · next f hf =>
    split at h
    · exact Or.inr ⟨f, hf, ‹_›⟩
    · cases h

/-- A file lies under a directory only if the directory has an entry. -/
theorem parentIno_ne (h : fs.Tree) {dir : UInt64}
    (hempty : ∀ name val, fs.index.entries.lookup ⟨dir, name⟩ ≠ some val) {ino : UInt64}
    {p : Place} (hp : fs.placeOf ino = some p) :
  p.parentIno ≠ dir
  := by
  rintro rfl
  obtain ⟨val, hval, -⟩ := h.file ino p hp
  exact hempty _ _ hval

variable [Crc32] {parent newparent : UInt64} {name newname : String}

/-- The search for a free inode changes the disk alone. -/
theorem addEntry_of_none (halloc : fs.disk.allocInode.1 = none) (isDir : Bool) :
  fs.addEntry parent name isDir = { fs with disk := fs.disk.allocInode.2 }
  := by
  unfold VexFS.addEntry
  cases hcases : fs.disk.allocInode with
  | mk r disk =>
      rw [hcases] at halloc
      obtain rfl : r = none := halloc
      rfl

theorem addEntry (h : fs.Tree) (hparent : Session.parentError fs parent = none)
    (hfree : fs.index.get parent name = none) (hmax : fs.nextInode + 1 ≠ 0) (isDir : Bool) :
  (fs.addEntry parent name isDir).Tree
  := by
  rw [Index.get_eq] at hfree
  unfold VexFS.addEntry
  split
  · apply Tree.congr _ h
    exact ⟨rfl, rfl, rfl⟩
  · next diskIndex disk _ =>
    have hdir := isDirectory_iff.mp (isDirectory_of_parentError hparent)
    have hkind : isDir = true ↔ (makeAttr fs.nextInode 0 isDir).kind = .directory := by
      cases isDir <;> simp [makeAttr]
    apply h.add (p := ⟨name, parent, diskIndex, (makeAttr fs.nextInode 0 isDir).kind⟩)
      hfree hdir (rfl : (⟨fs.nextInode, 0, isDir, diskIndex⟩ : Value).ino = fs.nextInode) rfl
    · exact hkind
    · exact hmax
    · exact fs.index.entries_insert parent name _
    · intro ino
      show ((fs.files.insert fs.nextInode _).get ino).map VexFile.place = _
      rw [FiniteMap.get_insert]
      split
      · rfl
      · rfl
    · rfl

/-- Removing what is not a directory. -/
theorem unlink (h : fs.Tree)
    (hfile : ∀ val, fs.index.get parent name = some val → val.isDir = false) :
  (fs.unlink parent name).Tree
  := by
  simp only [Index.get_eq] at hfile
  have hindex := fs.index.entries_remove parent name
  have hfound := fs.index.fst_remove parent name
  unfold VexFS.unlink
  split
  · next index heq =>
    rw [heq] at hindex hfound
    -- Without an entry there is nothing to erase.
    apply Tree.congr _ h
    refine ⟨?_, rfl, rfl⟩
    show index.entries = _
    rw [hindex]
    exact SortedMap.erase_of_lookup_none hfound.symm
  · next val index heq =>
    rw [heq] at hindex hfound
    obtain ⟨p, hp, -, -, hkind⟩ := h.entry _ val hfound.symm
    obtain ⟨f, hf, -⟩ := get_of_placeOf hp
    rw [hf]
    refine h.remove hfound.symm ?_ hindex ?_ rfl
    · rintro ino q hq hparent
      obtain hroot | ⟨d, hd, hdir⟩ := h.parent ino q hq
      · have hlt := (h.fresh _ p hp).1
        rw [← hparent, hroot] at hlt
        exact lt_irrefl _ hlt
      · rw [hparent, hp] at hd
        obtain rfl := Option.some.inj hd
        have hnot := hfile val hfound.symm
        rw [hkind.mpr hdir] at hnot
        cases hnot
    · intro ino
      show ((fs.files.erase val.ino).get ino).map VexFile.place = _
      rw [FiniteMap.get_erase]
      split
      · rfl
      · rfl

/-- Removing a directory that has no entries. -/
theorem rmdir (h : fs.Tree)
    (hempty : ∀ val, fs.index.get parent name = some val →
      ∀ child v, fs.index.get val.ino child ≠ some v) :
  (fs.rmdir parent name).Tree
  := by
  simp only [Index.get_eq] at hempty
  have hindex := fs.index.entries_remove parent name
  have hfound := fs.index.fst_remove parent name
  unfold VexFS.rmdir
  split
  · next index heq =>
    rw [heq] at hindex hfound
    apply Tree.congr _ h
    refine ⟨?_, rfl, rfl⟩
    show index.entries = _
    rw [hindex]
    exact SortedMap.erase_of_lookup_none hfound.symm
  · next val index heq =>
    rw [heq] at hindex hfound
    obtain ⟨p, hp, -⟩ := h.exists_place hfound.symm
    obtain ⟨f, hf, -⟩ := get_of_placeOf hp
    rw [hf]
    refine h.remove hfound.symm ?_ hindex ?_ rfl
    · intro ino q hq
      exact h.parentIno_ne (hempty val hfound.symm) hq
    · intro ino
      show ((fs.files.erase val.ino).get ino).map VexFile.place = _
      rw [FiniteMap.get_erase]
      split
      · rfl
      · rfl

/-- Moving an entry into a directory, to a name that is free or its own. -/
theorem rename (h : fs.Tree) (hdir : fs.IsDirectory newparent)
    (hfree : newparent = parent ∧ newname = name ∨ fs.index.get newparent newname = none)
    (now : UInt64) :
  (fs.rename parent name newparent newname now).Tree
  := by
  rw [Index.get_eq] at hfree
  have hindex := fs.index.entries_remove parent name
  have hfound := fs.index.fst_remove parent name
  unfold VexFS.rename
  split
  · next index heq =>
    rw [heq] at hindex hfound
    apply Tree.congr _ h
    refine ⟨?_, rfl, rfl⟩
    show index.entries = _
    rw [hindex]
    exact SortedMap.erase_of_lookup_none hfound.symm
  · next val index heq =>
    rw [heq] at hindex hfound
    have hfree' : (⟨newparent, newname⟩ : Key) = ⟨parent, name⟩
        ∨ fs.index.entries.lookup ⟨newparent, newname⟩ = none := by
      obtain ⟨rfl, rfl⟩ | hnone := hfree
      · exact Or.inl rfl
      · exact Or.inr hnone
    apply h.move hfound.symm hfree' (isDirectory_iff.mp hdir)
    · rw [← hindex]
      exact index.entries_insert newparent newname val
    · intro ino
      show ((fs.files.modify val.ino _).get ino).map VexFile.place = _
      rw [FiniteMap.get_modify]
      split
      · next heq =>
        rw [heq, placeOf, Option.map_map, Option.map_map]
        rfl
      · rfl
    · rfl

end Tree

end VexFS

/-! ### Sessions -/

namespace Session

open VexFS

variable [Crc32] [Zstd] {s s' : Session} {env : Env} {reply : Reply}
  {parent newparent : UInt64} {name newname : String}

theorem Performs.sameTree (h : Stays s s') :
  SameTree s.fs s'.fs
  := by
  induction h with
  | refl => exact .refl _
  | perform _ hc ih => exact ih.trans (sameTree_run hc _)

/-- The piece that changes the namespace in an operation, with what was checked before. -/
inductive Moves (env : Env) (fs : VexFS) : Request → Call → Prop where
  | create {parent : UInt64} {name : String} (hparent : parentError fs parent = none)
      (hfree : fs.index.get parent name = none) (hmax : fs.nextInode + 1 ≠ 0) :
      Moves env fs (.create parent name) (.addEntry parent name false)
  | mkdir {parent : UInt64} {name : String} (hparent : parentError fs parent = none)
      (hfree : fs.index.get parent name = none) (hmax : fs.nextInode + 1 ≠ 0) :
      Moves env fs (.mkdir parent name) (.addEntry parent name true)
  | unlink (parent : UInt64) (name : String) :
      Moves env fs (.unlink parent name) (.unlink parent name)
  | rmdir {parent : UInt64} {name : String} {val : Value}
      (hval : fs.index.get parent name = some val) (hempty : fs.index.listDir val.ino = []) :
      Moves env fs (.rmdir parent name) (.rmdir parent name)
  | rename (parent : UInt64) (name : String) (newparent : UInt64) (newname : String) :
      Moves env fs (.rename parent name newparent newname)
        (.rename parent name newparent newname env.modifiedAt)

/-- Without a free inode there is nothing to add. -/
theorem sameTree_addEntry_of_none (halloc : s.fs.disk.allocInode.1 = none) (isDir : Bool) :
  SameTree s.fs (s.perform (.addEntry parent name isDir)).fs
  := by
  rw [fs_perform, Call.run, Tree.addEntry_of_none halloc]
  exact ⟨rfl, rfl, rfl⟩

theorem create_moves (hexec : s.create env parent name = .ok (reply, s')) :
  SameTree s.fs s'.fs
    ∨ ∃ c, Moves env s.fs (.create parent name) c ∧ SameTree (c.run s.fs) s'.fs
  := by
  unfold create at hexec
  split at hexec
  · cases hexec
    exact Or.inl (.refl _)
  next hparent =>
  split at hexec
  · cases hexec
    exact Or.inl (.refl _)
  next hfree =>
  split at hexec
  · next halloc =>
    cases hexec
    exact Or.inl (sameTree_addEntry_of_none halloc false)
  split at hexec
  · cases hexec
  next hmax =>
  cases hexec
  refine Or.inr ⟨_, .create hparent (Option.not_isSome_iff_eq_none.mp hfree) hmax, ?_⟩
  exact Performs.sameTree (s := s.perform (.addEntry parent name false))
    ((Performs.refl.cacheInsert _ _).stays.perform trivial)

theorem mkdir_moves (hexec : s.mkdir env parent name = .ok (reply, s')) :
  SameTree s.fs s'.fs
    ∨ ∃ c, Moves env s.fs (.mkdir parent name) c ∧ SameTree (c.run s.fs) s'.fs
  := by
  unfold mkdir at hexec
  split at hexec
  · cases hexec
    exact Or.inl (.refl _)
  next hparent =>
  split at hexec
  · cases hexec
    exact Or.inl (.refl _)
  next hfree =>
  split at hexec
  · next halloc =>
    cases hexec
    exact Or.inl (sameTree_addEntry_of_none halloc true)
  split at hexec
  · cases hexec
  next hmax =>
  cases hexec
  refine Or.inr ⟨_, .mkdir hparent (Option.not_isSome_iff_eq_none.mp hfree) hmax, ?_⟩
  exact Performs.sameTree (s := s.perform (.addEntry parent name true))
    ((Performs.refl.perform trivial).perform trivial)

theorem unlink_moves (s : Session) (env : Env) (parent : UInt64) (name : String) :
  ∃ c, Moves env s.fs (.unlink parent name) c
    ∧ SameTree (c.run s.fs) (s.unlink parent name).2.fs
  := by
  refine ⟨_, .unlink parent name, ?_⟩
  unfold unlink
  split
  · exact .refl _
  · split <;> exact .refl _

theorem rmdir_moves (s : Session) (env : Env) (parent : UInt64) (name : String) :
  SameTree s.fs (s.rmdir parent name).2.fs
    ∨ ∃ c, Moves env s.fs (.rmdir parent name) c
      ∧ SameTree (c.run s.fs) (s.rmdir parent name).2.fs
  := by
  unfold rmdir
  split
  · exact Or.inl (.refl _)
  next val hval =>
  split
  · exact Or.inl (.refl _)
  split
  · exact Or.inl (.refl _)
  next hlist =>
  refine Or.inr ⟨_, .rmdir hval (not_not.mp hlist), ?_⟩
  split <;> exact .refl _

theorem rename_moves (s : Session) (env : Env) (parent : UInt64) (name : String)
    (newparent : UInt64) (newname : String) :
  SameTree s.fs (s.rename env parent name newparent newname).2.fs
    ∨ ∃ c, Moves env s.fs (.rename parent name newparent newname) c
      ∧ SameTree (c.run s.fs) (s.rename env parent name newparent newname).2.fs
  := by
  unfold rename
  split
  · exact Or.inl (.refl _)
  split
  · exact Or.inl (.refl _)
  · exact Or.inr ⟨_, .rename parent name newparent newname, .refl _⟩

/-- An operation changes the namespace by one piece at most. -/
theorem exec_moves {request : Request} (hexec : s.exec env request = .ok (reply, s')) :
  SameTree s.fs s'.fs ∨ ∃ c, Moves env s.fs request c ∧ SameTree (c.run s.fs) s'.fs
  := by
  obtain ⟨s₁, hs₁, hfs⟩ : ∃ s₁, s.perform (.request request) = s₁ ∧ s₁.fs = s.fs :=
    ⟨_, rfl, rfl⟩
  rw [← hfs]
  unfold exec at hexec
  rw [hs₁] at hexec
  clear hs₁ hfs
  cases request with
  | create parent name => exact create_moves hexec
  | mkdir parent name => exact mkdir_moves hexec
  | unlink parent name =>
      rw [← snd_of_ok hexec]
      exact Or.inr (unlink_moves _ env parent name)
  | rmdir parent name =>
      rw [← snd_of_ok hexec]
      exact rmdir_moves _ env parent name
  | rename parent name newparent newname =>
      rw [← snd_of_ok hexec]
      exact rename_moves _ env parent name newparent newname
  | write ino offset data => exact Or.inl (write_stays hexec).sameTree
  | setattr ino size => exact Or.inl (setattr_stays hexec).sameTree
  | read ino offset size =>
      rw [← snd_of_ok hexec]
      exact Or.inl (read_stores _ ino offset size).stays.sameTree
  | flush ino =>
      rw [← snd_of_ok hexec]
      exact Or.inl (Performs.refl.flushFile ino).stays.sameTree
  | fsync ino =>
      rw [← snd_of_ok hexec]
      exact Or.inl (Performs.refl.flushFile ino).stays.sameTree
  | release ino =>
      rw [← snd_of_ok hexec]
      exact Or.inl (.refl _)
  | destroy =>
      rw [← snd_of_ok hexec]
      exact Or.inl (Performs.refl.persistAll _).stays.sameTree

/-! ### The tree of a session -/

omit [Crc32] [Zstd] in
/-- A directory whose listing is empty has no entries, when none of its names is past the
end of a scan. -/
theorem empty_of_listDir {fs : VexFS} {dir : UInt64} (hlist : fs.index.listDir dir = [])
    (hnames : ∀ child v, fs.index.get dir child = some v → child ≤ Key.lastName)
    (child : String) (v : Value) :
  fs.index.get dir child ≠ some v
  := by
  intro hv
  have hle := hnames child v hv
  rw [Index.get_eq] at hv
  have hmem := (SortedMap.mem_iff_lookup fs.index.increasing).mpr hv
  have hlisted : (⟨dir, child⟩, v) ∈ fs.index.listDir dir := by
    rw [Index.listDir_eq]
    exact List.mem_filter.mpr ⟨hmem, decide_eq_true ⟨rfl, hle⟩⟩
  rw [hlist] at hlisted
  cases hlisted

/-- A request that keeps the namespace: it removes no directory as if it were a file, removes
no directory that has entries past the end of a scan, and moves an entry into a directory,
to a name that is free or its own. -/
def KeepsNames (fs : VexFS) : Request → Prop
  | .unlink parent name => ∀ val, fs.index.get parent name = some val → val.isDir = false
  | .rmdir parent name => ∀ val, fs.index.get parent name = some val →
      ∀ child v, fs.index.get val.ino child = some v → child ≤ Key.lastName
  | .rename parent name newparent newname => fs.IsDirectory newparent
      ∧ (newparent = parent ∧ newname = name ∨ fs.index.get newparent newname = none)
  | _ => True

theorem tree_exec {request : Request} (hgood : KeepsNames s.fs request) (h : s.fs.Tree)
    (hexec : s.exec env request = .ok (reply, s')) :
  s'.fs.Tree
  := by
  obtain hsame | ⟨c, hmoves, hsame⟩ := exec_moves hexec
  · exact h.congr hsame
  apply VexFS.Tree.congr hsame
  cases hmoves with
  | create hparent hfree hmax => exact h.addEntry hparent hfree hmax false
  | mkdir hparent hfree hmax => exact h.addEntry hparent hfree hmax true
  | unlink parent name => exact h.unlink hgood
  | rmdir hval hempty =>
      apply h.rmdir
      intro val' hval' child v
      obtain rfl := Option.some.inj (hval.symm.trans hval')
      exact empty_of_listDir hempty (hgood _ hval) child v
  | rename parent name newparent newname => exact h.rename hgood.1 hgood.2 env.modifiedAt

end Session

/-- An empty file system has an empty tree. -/
theorem VexFS.tree_new (disk : DiskManager) :
  (VexFS.new disk).Tree
  := by
  constructor
  · intro ino p hp
    cases hp
  · intro key val hval
    cases hval
  · intro ino p hp
    cases hp
  · intro ino p hp
    cases hp
  · show rootIno < 2
    decide

variable [Crc32] [Zstd]

/-- In every session of a freshly formatted image whose requests keep the namespace, every
file is found under its parent and name, every entry has a file, and every entry is in the
root or in a directory. -/
theorem names_consistent {image : Storage.Image} {sizeBytes now : UInt64} {s : Session}
    (h : FreshSession image sizeBytes now s)
    (hgood : ∀ fs request, (fs, Call.request request) ∈ s.log →
      Session.KeepsNames fs request) :
  s.fs.NamesConsistent
  := by
  have htree := h.reachable.holds_of_requests (I := VexFS.Tree)
    (VexFS.tree_new _) (fun _ _ _ _ _ hgood h hexec => Session.tree_exec hgood h hexec)
  exact (htree hgood).consistent

omit [Crc32] [Zstd] in
/-- A file is made in a formatted image, and found. -/
theorem names_consistent_one_file :
  let _ := Crc32.ieee
  let _ := Zstd.refusing
  ∃ s, FreshSession Storage.Image.empty 0 0 s ∧ (s.fs.files.get 2).isSome
    ∧ s.fs.NamesConsistent
  := by
  intro _ _
  let start := VexFS.new (DiskManager.format Storage.Image.empty 0 0)
  obtain ⟨s, i, -, hexec, hfs, -⟩ := Session.exec_create_of_blank (s := ⟨start, []⟩)
    rootIno "a" rfl rfl (.format Storage.Image.empty 0 0) (by decide) (by decide)
    (FileCache.room_new (n := 0) (by decide)) Env.still
  have hfresh : FreshSession Storage.Image.empty 0 0 s :=
    .of_reachable (.exec Env.still (.create rootIno "a") .start hexec)
  refine ⟨s, hfresh, ?_, ?_⟩
  · rw [hfs]
    exact Option.isSome_of_eq_some (FiniteMap.get_insert_self _ _ _)
  · apply names_consistent hfresh
    intro fs request hmem
    obtain hnil | ⟨-, rfl⟩ := Session.mem_requests_exec hexec hmem
    · cases hnil
    · trivial

/-! ### A name that is taken -/

omit [Crc32] [Zstd] in
theorem VexFS.files_rename [Crc32] {fs : VexFS} {parent : UInt64} {name : String}
    {val : Value} (hval : fs.index.get parent name = some val) (newparent : UInt64)
    (newname : String) (now : UInt64) :
  (fs.rename parent name newparent newname now).files = fs.files.modify val.ino (fun f =>
      { f with name := newname, parentIno := newparent, dirty := true })
    ∧ (fs.rename parent name newparent newname now).index.get newparent newname = some val
  := by
  have hfound := fs.index.fst_remove parent name
  rw [← Index.get_eq, hval] at hfound
  unfold VexFS.rename
  split
  · next heq =>
    rw [heq] at hfound
    cases hfound
  · next heq =>
    rw [heq] at hfound
    obtain rfl := Option.some.inj hfound
    refine ⟨rfl, ?_⟩
    rw [Index.get_eq, Index.entries_insert, SortedMap.lookup_insert, if_pos rfl]

omit [Crc32] [Zstd] in
/-- Moving an entry to the place of another file leaves that file without an entry. -/
theorem VexFS.not_consistent_rename [Crc32] {fs : VexFS} {parent : UInt64} {name : String}
    {val : Value} {ino : UInt64} {f : VexFile} (hf : fs.files.get ino = some f)
    (hval : fs.index.get parent name = some val) (hne : val.ino ≠ ino) (now : UInt64) :
  ¬ (fs.rename parent name f.parentIno f.name now).NamesConsistent
  := by
  intro h
  obtain ⟨hfiles, hindex⟩ := files_rename hval f.parentIno f.name now
  have hf' : (fs.rename parent name f.parentIno f.name now).files.get ino = some f := by
    rw [hfiles, FiniteMap.get_modify, if_neg hne.symm, hf]
  obtain ⟨val', hval', hino, -⟩ := h.found ino f hf'
  rw [hindex] at hval'
  obtain rfl := Option.some.inj hval'
  exact hne hino

/-- The requests on names: files are unlinked, not directories, and entries are moved into
directories. -/
def Session.OnNames (fs : VexFS) : Request → Prop
  | .create _ _ | .mkdir _ _ | .rmdir _ _ => True
  | .unlink parent name => ∀ val, fs.index.get parent name = some val → val.isDir = false
  | .rename _ _ newparent _ => fs.IsDirectory newparent
  | _ => False

omit [Crc32] [Zstd] in
/-- Make the files "a" and "b" in the root and rename "a" to "b": the file that was "b" is
not found any more. -/
theorem not_names_consistent :
  let _ := Crc32.ieee
  let _ := Zstd.refusing
  ¬ ∀ s, FreshSession Storage.Image.empty 0 0 s →
      (∀ fs request, (fs, Call.request request) ∈ s.log → Session.OnNames fs request) →
      s.fs.NamesConsistent
  := by
  intro _ _ h
  let start := VexFS.new (DiskManager.format Storage.Image.empty 0 0)
  obtain ⟨s₁, i, -, hexec₁, hfs₁, hroom₁, hblank₁, -⟩ := Session.exec_create_of_blank
    (s := ⟨start, []⟩) rootIno "a" rfl rfl
    (.format Storage.Image.empty 0 0) (by decide) (by decide)
    (FileCache.room_new (n := 0) (by decide)) Env.still
  have hindex₁ : s₁.fs.index.entries = SortedMap.insert ⟨rootIno, "a"⟩ ⟨2, 0, false, i⟩
      start.index.entries := by
    rw [hfs₁]
    exact start.index.entries_insert rootIno "a" _
  have hfree : s₁.fs.index.get rootIno "b" = none := by
    rw [Index.get_eq, hindex₁, SortedMap.lookup_insert, if_neg (by decide)]
    rfl
  have hnext₁ : s₁.fs.nextInode = 3 := by
    rw [hfs₁]
    rfl
  obtain ⟨s₂, j, -, hexec₂, hfs₂, -⟩ := Session.exec_create_of_blank (s := s₁)
    rootIno "b" rfl hfree hblank₁ (by decide) (by rw [hnext₁]; decide) hroom₁ Env.still
  rw [hnext₁] at hfs₂
  have hval : s₂.fs.index.get rootIno "a" = some ⟨2, 0, false, i⟩ := by
    rw [Index.get_eq, hfs₂]
    dsimp only
    rw [Index.entries_insert, SortedMap.lookup_insert, if_neg (by decide), hindex₁,
      SortedMap.lookup_insert, if_pos rfl]
  have hfile : s₂.fs.files.get 3 = some (s₁.fs.entryFile rootIno "b" false j) := by
    rw [hfs₂]
    exact FiniteMap.get_insert_self _ _ _
  let s₃ := (s₂.perform (.request (.rename rootIno "a" rootIno "b"))).perform
    (.rename rootIno "a" rootIno "b" 0)
  have hexec₃ : s₂.exec Env.still (.rename rootIno "a" rootIno "b") = .ok (.ok, s₃) := by
    rw [Session.exec, Session.rename, if_neg (fun h => h.1 rfl)]
    split
    · next hnone => exact absurd (hval.symm.trans hnone) (by simp)
    · rfl
  have hreach : Reachable start s₃ :=
    .exec _ _ (.exec _ _ (.exec _ _ .start hexec₁) hexec₂) hexec₃
  have hrequests : ∀ fs request, (fs, Call.request request) ∈ s₃.log →
      Session.OnNames fs request := by
    intro fs request hmem
    obtain hmem | ⟨-, rfl⟩ := Session.mem_requests_exec hexec₃ hmem
    · obtain hmem | ⟨-, rfl⟩ := Session.mem_requests_exec hexec₂ hmem
      · obtain hmem | ⟨-, rfl⟩ := Session.mem_requests_exec hexec₁ hmem
        · cases hmem
        · trivial
      · trivial
    · exact Or.inl rfl
  have hs₃ : s₃.fs = s₂.fs.rename rootIno "a" rootIno "b" 0 := by
    rw [Session.fs_perform, Call.run]
    rfl
  have hconsistent := h s₃ (.of_reachable hreach) hrequests
  rw [hs₃] at hconsistent
  exact VexFS.not_consistent_rename hfile hval (show (2 : UInt64) ≠ 3 by decide) 0 hconsistent

end Vexfs
