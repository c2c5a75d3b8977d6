import Vexfs.Fuse.Namespace

/-!
# Operations that fail

`unlink`, `rmdir` and `rename` remove an entry from the index before they look for its file.
They never fail there: in every session each entry of the index has a file, and different
entries have different files (`EntriesLive`), even where the namespace is not consistent.  So
an operation that replies with an error has changed nothing.
-/

namespace Vexfs

namespace VexFS

/-! ### Entries and files -/

/-- Every entry has a file, which is that of no other entry. -/
structure EntriesLive (fs : VexFS) : Prop where
  live : ∀ key val, fs.index.entries.lookup key = some val → (fs.files.get val.ino).isSome
  key_eq : ∀ key key' val val', fs.index.entries.lookup key = some val →
    fs.index.entries.lookup key' = some val' → val.ino = val'.ino → key = key'
  fresh : ∀ key val, fs.index.entries.lookup key = some val → val.ino < fs.nextInode

/-- What matters are the entries, which inode numbers have files, and the next of them. -/
theorem EntriesLive.congr {fs fs' : VexFS} (h : fs.EntriesLive)
    (hentries : fs'.index.entries = fs.index.entries) (hnext : fs'.nextInode = fs.nextInode)
    (hfiles : ∀ ino, (fs.files.get ino).isSome → (fs'.files.get ino).isSome) :
  fs'.EntriesLive
  := by
  constructor
  · rw [hentries]
    exact fun key val hval => hfiles _ (h.live key val hval)
  · rw [hentries]
    exact h.key_eq
  · rw [hentries, hnext]
    exact h.fresh

theorem EntriesLive.of_sameTree {fs fs' : VexFS} (hsame : SameTree fs fs')
    (h : fs.EntriesLive) :
  fs'.EntriesLive
  := by
  apply h.congr hsame.entries_eq hsame.nextInode_eq
  intro ino hsome
  have hplace := congrFun hsame.placeOf_eq ino
  have hsome' : (fs'.placeOf ino).isSome := by
    rw [hplace, placeOf, Option.isSome_map]
    exact hsome
  rwa [placeOf, Option.isSome_map] at hsome'

theorem entriesLive_new (disk : DiskManager) :
  (VexFS.new disk).EntriesLive
  := by
  constructor
  · intro key val hval
    cases hval
  · intro key key' val val' hval
    cases hval
  · intro key val hval
    cases hval

variable [Crc32] {fs : VexFS} {parent newparent : UInt64} {name newname : String}

theorem EntriesLive.addEntry (h : fs.EntriesLive) (hmax : fs.nextInode + 1 ≠ 0)
    (isDir : Bool) :
  (fs.addEntry parent name isDir).EntriesLive
  := by
  unfold VexFS.addEntry
  split
  · exact EntriesLive.congr h rfl rfl fun _ hsome => hsome
  · next diskIndex disk _ =>
    have hlookup : ∀ key, (fs.index.insert parent name
        ⟨fs.nextInode, 0, isDir, diskIndex⟩).entries.lookup key
        = if key = ⟨parent, name⟩ then some ⟨fs.nextInode, 0, isDir, diskIndex⟩
          else fs.index.entries.lookup key := by
      intro key
      rw [Index.entries_insert, SortedMap.lookup_insert]
    constructor
    · intro key val hval
      dsimp only at hval ⊢
      rw [hlookup] at hval
      rw [FiniteMap.get_insert]
      split
      · rfl
      · next hne =>
        split at hval
        · obtain rfl := Option.some.inj hval
          exact absurd rfl hne
        · exact h.live key val hval
    · intro key key' val val' hval hval' hino
      dsimp only at hval hval'
      rw [hlookup] at hval hval'
      split at hval <;> split at hval'
      · next heq heq' => rw [heq, heq']
      · obtain rfl := Option.some.inj hval
        exact absurd (hino ▸ h.fresh _ _ hval') (lt_irrefl _)
      · obtain rfl := Option.some.inj hval'
        exact absurd (hino ▸ h.fresh _ _ hval) (lt_irrefl _)
      · exact h.key_eq key key' val val' hval hval' hino
    · intro key val hval
      dsimp only at hval ⊢
      rw [hlookup] at hval
      split at hval
      · obtain rfl := Option.some.inj hval
        exact lt_add_one hmax
      · exact (h.fresh key val hval).trans (lt_add_one hmax)

omit [Crc32] in
/-- Removing an entry and its file. -/
theorem EntriesLive.remove {fs' : VexFS} {key : Key} {val : Value} (h : fs.EntriesLive)
    (hval : fs.index.entries.lookup key = some val)
    (hentries : fs'.index.entries = SortedMap.erase key fs.index.entries)
    (hfiles : fs'.files = fs.files.erase val.ino) (hnext : fs'.nextInode = fs.nextInode) :
  fs'.EntriesLive
  := by
  have hlookup : ∀ {key' val'}, fs'.index.entries.lookup key' = some val' →
      key' ≠ key ∧ fs.index.entries.lookup key' = some val' := by
    intro key' val' hval'
    rw [hentries, SortedMap.lookup_erase] at hval'
    split at hval'
    · cases hval'
    · exact ⟨‹_›, hval'⟩
  constructor
  · intro key' val' hval'
    obtain ⟨hne, hold⟩ := hlookup hval'
    rw [hfiles, FiniteMap.get_erase, if_neg]
    · exact h.live key' val' hold
    · exact fun hino => hne (h.key_eq key' key val' val hold hval hino)
  · intro key' key'' val' val'' hval' hval''
    exact h.key_eq key' key'' val' val'' (hlookup hval').2 (hlookup hval'').2
  · intro key' val' hval'
    rw [hnext]
    exact h.fresh key' val' (hlookup hval').2

omit [Crc32] in
/-- The entries that are left when there was nothing to remove. -/
theorem entries_of_remove_none {index : Index}
    (heq : fs.index.remove parent name = (none, index)) :
  index.entries = fs.index.entries
  := by
  have hindex := fs.index.entries_remove parent name
  have hfound := fs.index.fst_remove parent name
  rw [heq] at hindex hfound
  exact hindex.trans (SortedMap.erase_of_lookup_none hfound.symm)

theorem EntriesLive.unlink (h : fs.EntriesLive) :
  (fs.unlink parent name).EntriesLive
  := by
  have hindex := fs.index.entries_remove parent name
  have hfound := fs.index.fst_remove parent name
  unfold VexFS.unlink
  split
  · next index heq => exact h.congr (entries_of_remove_none heq) rfl fun _ hsome => hsome
  · next val index heq =>
    rw [heq] at hindex hfound
    obtain ⟨f, hf⟩ := Option.isSome_iff_exists.mp (h.live _ val hfound.symm)
    rw [hf]
    exact h.remove hfound.symm hindex rfl rfl

theorem EntriesLive.rmdir (h : fs.EntriesLive) :
  (fs.rmdir parent name).EntriesLive
  := by
  have hindex := fs.index.entries_remove parent name
  have hfound := fs.index.fst_remove parent name
  unfold VexFS.rmdir
  split
  · next index heq => exact h.congr (entries_of_remove_none heq) rfl fun _ hsome => hsome
  · next val index heq =>
    rw [heq] at hindex hfound
    obtain ⟨f, hf⟩ := Option.isSome_iff_exists.mp (h.live _ val hfound.symm)
    rw [hf]
    exact h.remove hfound.symm hindex rfl rfl

/-- Moving an entry, also onto another one, which is lost. -/
theorem EntriesLive.rename (h : fs.EntriesLive) (now : UInt64) :
  (fs.rename parent name newparent newname now).EntriesLive
  := by
  have hindex := fs.index.entries_remove parent name
  have hfound := fs.index.fst_remove parent name
  unfold VexFS.rename
  split
  · next index heq => exact h.congr (entries_of_remove_none heq) rfl fun _ hsome => hsome
  · next val index heq =>
    rw [heq] at hindex hfound
    have hval : fs.index.entries.lookup ⟨parent, name⟩ = some val := hfound.symm
    have hlookup : ∀ key, (index.insert newparent newname val).entries.lookup key
        = if key = ⟨newparent, newname⟩ then some val
          else if key = ⟨parent, name⟩ then none else fs.index.entries.lookup key := by
      intro key
      rw [Index.entries_insert, SortedMap.lookup_insert]
      dsimp only at hindex
      rw [hindex, SortedMap.lookup_erase]
    -- An entry after the move comes from the one moved or from another one.
    have hold : ∀ {key v}, (index.insert newparent newname val).entries.lookup key = some v →
        (key = ⟨newparent, newname⟩ ∧ v = val)
          ∨ (key ≠ ⟨parent, name⟩ ∧ fs.index.entries.lookup key = some v) := by
      intro key v hv
      rw [hlookup] at hv
      split at hv
      · next heq => exact Or.inl ⟨heq, (Option.some.inj hv).symm⟩
      · split at hv
        · cases hv
        · next hne => exact Or.inr ⟨hne, hv⟩
    constructor
    · intro key v hv
      show ((fs.files.modify val.ino _).get v.ino).isSome
      rw [FiniteMap.isSome_get_modify]
      obtain ⟨-, rfl⟩ | ⟨-, hv⟩ := hold hv
      · exact h.live _ v hval
      · exact h.live key v hv
    · intro key key' v v' hv hv' hino
      obtain ⟨hkey, heq⟩ | ⟨hne, hother⟩ := hold hv
      · obtain ⟨hkey', -⟩ | ⟨hne', hother'⟩ := hold hv'
        · rw [hkey, hkey']
        · rw [heq] at hino
          exact absurd (h.key_eq _ _ _ _ hother' hval hino.symm) hne'
      · obtain ⟨-, heq'⟩ | ⟨-, hother'⟩ := hold hv'
        · rw [heq'] at hino
          exact absurd (h.key_eq _ _ _ _ hother hval hino) hne
        · exact h.key_eq key key' v v' hother hother' hino
    · intro key v hv
      obtain ⟨-, rfl⟩ | ⟨-, hv⟩ := hold hv
      · exact h.fresh _ v hval
      · exact h.fresh key v hv

end VexFS

/-! ### Sessions -/

namespace Session

open VexFS

variable [Crc32] [Zstd] {s s' : Session} {env : Env} {reply : Reply}
  {parent newparent : UInt64} {name newname : String}

theorem entriesLive_exec {request : Request} (h : s.fs.EntriesLive)
    (hexec : s.exec env request = .ok (reply, s')) :
  s'.fs.EntriesLive
  := by
  obtain hsame | ⟨c, hmoves, hsame⟩ := exec_moves hexec
  · exact h.of_sameTree hsame
  apply EntriesLive.of_sameTree hsame
  cases hmoves with
  | create hparent hfree hmax => exact h.addEntry hmax false
  | mkdir hparent hfree hmax => exact h.addEntry hmax true
  | unlink parent name => exact h.unlink
  | rmdir hval hempty => exact h.rmdir
  | rename parent name newparent newname => exact h.rename env.modifiedAt

end Session

/-! ### Errors -/

/-- What an operation that fails leaves alone. -/
structure Unchanged (fs fs' : VexFS) : Prop where
  entries : fs'.index.entries = fs.index.entries
  files : fs'.files = fs.files
  nextInode : fs'.nextInode = fs.nextInode
  cache : fs'.cache = fs.cache
  image : fs'.disk.image = fs.disk.image

theorem Unchanged.refl (fs : VexFS) :
  Unchanged fs fs
  := ⟨rfl, rfl, rfl, rfl, rfl⟩

namespace InodeTable

variable [Crc32] {table : InodeTable} {file : Storage.File}

/-- A search that finds no free inode writes nothing. -/
theorem allocInode_of_none (h : (table.allocInode file).1 = .ok none) :
  (table.allocInode file).2.2 = file
  := by
  unfold allocInode at h ⊢
  split
  · rfl
  · rfl
  · next hfree =>
    rw [hfree] at h
    dsimp only at h
    split
    · next hblock =>
      obtain ⟨-, -, rfl⟩ | ⟨i, hr, -⟩ := allocBlock_cases hblock
      · rfl
      · cases hr
    · next hblock =>
      rw [hblock] at h
      cases h

/-- Nor does a search that fails. -/
theorem allocInode_of_error {e : DiskError} (h : (table.allocInode file).1 = .error e) :
  (table.allocInode file).2.2 = file
  := by
  unfold allocInode at h ⊢
  split
  · rfl
  · rfl
  · next hfree =>
    rw [hfree] at h
    dsimp only at h
    split at h <;> cases h

end InodeTable

section Allocation

variable [Crc32]

theorem DiskManager.image_allocInode {dm : DiskManager} (h : dm.allocInode.1 = none) :
  dm.allocInode.2.image = dm.image
  := by
  unfold DiskManager.allocInode at h ⊢
  dsimp only at h ⊢
  split
  · next heq =>
    rw [heq] at h
    dsimp only at h
    split at h <;> cases h
  · next heq =>
    have hfile := InodeTable.allocInode_of_none (congrArg Prod.fst heq)
    rw [heq] at hfile
    exact congrArg Storage.File.image hfile
  · next heq =>
    have hfile := InodeTable.allocInode_of_error (congrArg Prod.fst heq)
    rw [heq] at hfile
    exact congrArg Storage.File.image hfile

theorem VexFS.unchanged_addEntry {fs : VexFS} (halloc : fs.disk.allocInode.1 = none)
    (parent : UInt64) (name : String) (isDir : Bool) :
  Unchanged fs (fs.addEntry parent name isDir)
  := by
  rw [Tree.addEntry_of_none halloc]
  exact ⟨rfl, rfl, rfl, rfl, DiskManager.image_allocInode halloc⟩

end Allocation

namespace Session

variable [Crc32] [Zstd] {s s' : Session} {env : Env} {errno : Errno}
  {parent newparent ino : UInt64} {name newname : String}

theorem unchanged_create (hexec : s.create env parent name = .ok (.error errno, s')) :
  Unchanged s.fs s'.fs
  := by
  unfold create at hexec
  split at hexec
  · cases hexec
    exact .refl _
  split at hexec
  · cases hexec
    exact .refl _
  split at hexec
  · next halloc =>
    cases hexec
    rw [fs_perform, Call.run]
    exact VexFS.unchanged_addEntry halloc parent name false
  split at hexec <;> cases hexec

theorem unchanged_mkdir (hexec : s.mkdir env parent name = .ok (.error errno, s')) :
  Unchanged s.fs s'.fs
  := by
  unfold mkdir at hexec
  split at hexec
  · cases hexec
    exact .refl _
  split at hexec
  · cases hexec
    exact .refl _
  split at hexec
  · next halloc =>
    cases hexec
    rw [fs_perform, Call.run]
    exact VexFS.unchanged_addEntry halloc parent name true
  split at hexec <;> cases hexec

/-- The entry is not there: where every entry has a file, nothing else goes wrong. -/
theorem unchanged_unlink (h : s.fs.EntriesLive)
    (hexec : s.unlink parent name = (.error errno, s')) :
  Unchanged s.fs s'.fs
  := by
  unfold unlink at hexec
  split at hexec
  · next hget =>
    obtain ⟨-, rfl⟩ := Prod.mk.inj hexec
    rw [Index.get_eq] at hget
    have hfound := s.fs.index.fst_remove parent name
    rw [hget] at hfound
    rw [fs_perform, Call.run]
    unfold VexFS.unlink
    split
    · next heq => exact ⟨VexFS.entries_of_remove_none heq, rfl, rfl, rfl, rfl⟩
    · next heq =>
      rw [heq] at hfound
      cases hfound
  · next val hget =>
    rw [Index.get_eq] at hget
    rw [if_pos (h.live _ val hget)] at hexec
    cases hexec

theorem unchanged_rmdir (h : s.fs.EntriesLive)
    (hexec : s.rmdir parent name = (.error errno, s')) :
  Unchanged s.fs s'.fs
  := by
  unfold rmdir at hexec
  split at hexec
  · obtain ⟨-, rfl⟩ := Prod.mk.inj hexec
    exact .refl _
  · next val hget =>
    rw [Index.get_eq] at hget
    split at hexec
    · obtain ⟨-, rfl⟩ := Prod.mk.inj hexec
      exact .refl _
    split at hexec
    · obtain ⟨-, rfl⟩ := Prod.mk.inj hexec
      exact .refl _
    rw [if_pos (h.live _ val hget)] at hexec
    cases hexec

theorem unchanged_rename (hexec : s.rename env parent name newparent newname = (.error errno, s')) :
  Unchanged s.fs s'.fs
  := by
  unfold rename at hexec
  split at hexec
  · obtain ⟨-, rfl⟩ := Prod.mk.inj hexec
    exact .refl _
  split at hexec
  · obtain ⟨-, rfl⟩ := Prod.mk.inj hexec
    exact .refl _
  · cases hexec

theorem unchanged_write {offset : Int64} {data : List UInt8}
    (hexec : s.write env ino offset data = .ok (.error errno, s')) :
  Unchanged s.fs s'.fs
  := by
  unfold write at hexec
  dsimp only at hexec
  split at hexec
  · cases hexec
  split at hexec
  · cases hexec
    exact .refl _
  split at hexec
  · cases hexec
  split at hexec <;> cases hexec

theorem unchanged_setattr {size : Option UInt64}
    (hexec : s.setattr env ino size = .ok (.error errno, s')) :
  Unchanged s.fs s'.fs
  := by
  unfold setattr at hexec
  dsimp only at hexec
  split at hexec
  · cases hexec
  split at hexec
  · cases hexec
    exact .refl _
  split at hexec
  · cases hexec
  split at hexec
  · cases hexec
  split at hexec
  · cases hexec
  split at hexec <;> cases hexec

theorem unchanged_read {offset : Int64} {size : UInt32}
    (hexec : s.read env ino offset size = (.error errno, s')) :
  Unchanged s.fs s'.fs
  := by
  unfold read at hexec
  split at hexec
  · cases hexec
  split at hexec
  · obtain ⟨-, rfl⟩ := Prod.mk.inj hexec
    exact .refl _
  split at hexec <;> cases hexec

/-- One request that fails, one case for each kind. -/
theorem unchanged_exec {request : Request} (h : s.fs.EntriesLive)
    (hexec : s.exec env request = .ok (.error errno, s')) :
  Unchanged s.fs s'.fs
  := by
  have hstart : (s.perform (.request request)).fs.EntriesLive := h
  suffices hchange : Unchanged (s.perform (.request request)).fs s'.fs from hchange
  unfold exec at hexec
  cases request with
  | create parent name => exact unchanged_create hexec
  | mkdir parent name => exact unchanged_mkdir hexec
  | unlink parent name => exact unchanged_unlink hstart (Except.ok.inj hexec)
  | rmdir parent name => exact unchanged_rmdir hstart (Except.ok.inj hexec)
  | rename parent name newparent newname => exact unchanged_rename (Except.ok.inj hexec)
  | write ino offset data => exact unchanged_write hexec
  | setattr ino size => exact unchanged_setattr hexec
  | read ino offset size => exact unchanged_read (Except.ok.inj hexec)
  | flush ino => cases hexec
  | fsync ino => cases hexec
  | release ino => cases hexec
  | destroy => cases hexec

end Session

variable [Crc32] [Zstd]

/-- A request that replies with an error leaves everything as it was, in every session of a
freshly formatted image. -/
theorem error_changes_nothing {image : Storage.Image} {sizeBytes now : UInt64}
    {s s' : Session} {env : Env} {request : Request} {errno : Errno}
    (h : FreshSession image sizeBytes now s)
    (hexec : s.exec env request = .ok (.error errno, s')) :
  Unchanged s.fs s'.fs
  := by
  have hlive : (∀ fs request, (fs, Call.request request) ∈ s.log → True) → s.fs.EntriesLive :=
    h.reachable.holds_of_requests (VexFS.entriesLive_new _)
      fun _ _ _ _ _ _ h hexec => Session.entriesLive_exec h hexec
  exact Session.unchanged_exec (hlive fun _ _ _ => trivial) hexec

omit [Crc32] [Zstd] in
/-- A file that is not there is unlinked in an empty file system. -/
theorem error_changes_nothing_missing :
  let _ := Crc32.ieee
  let _ := Zstd.refusing
  ∃ s s', FreshSession Storage.Image.empty 0 0 s
    ∧ s.exec Env.still (.unlink rootIno "a") = .ok (.error .enoent, s') ∧ Unchanged s.fs s'.fs
  := by
  intro _ _
  let start := VexFS.new (DiskManager.format Storage.Image.empty 0 0)
  let s : Session := ⟨start, []⟩
  let s' := (s.perform (.request (.unlink rootIno "a"))).perform (.unlink rootIno "a")
  have hfresh : FreshSession Storage.Image.empty 0 0 s := .of_reachable .start
  have hexec : s.exec Env.still (.unlink rootIno "a") = .ok (.error .enoent, s') := rfl
  exact ⟨s, s', hfresh, hexec, error_changes_nothing hfresh hexec⟩

end Vexfs
