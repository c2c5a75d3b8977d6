import Vexfs.Collections.Machine
import Vexfs.Fuse.Errors
import Vexfs.Fuse.Pieces
import Vexfs.Fuse.Readdir

/-!
# The tree of names

What the operations of the file system do to names can be said without an index, a disk or a
cache: names in directories stand for numbers, and numbers for files and directories
(`NameTree`).  A request is refused, or carried out, or there is no free inode
(`NameTree.Step`).  Every session refines this machine: its replies are ones the tree of names
allows, and what `lookup`, `getattr` and `readdir` reply at any moment is what the tree has
(`refines_nameTree`).
-/

namespace Vexfs

/-- The requests that add a name. -/
def Request.Adds : Request → Prop
  | .create _ _ | .mkdir _ _ => True
  | _ => False

/-! ### The machine -/

/-- Names with their numbers, and numbers with what they stand for. -/
structure NameTree where
  ino : Key → Option UInt64
  kind : UInt64 → Option FileType
  /-- The next number. -/
  next : UInt64

namespace NameTree

def empty : NameTree where
  ino _ := none
  kind _ := none
  next := 2

/-- The next number gets a name. -/
def add (t : NameTree) (key : Key) (kind : FileType) : NameTree where
  ino := Function.update t.ino key (some t.next)
  kind := Function.update t.kind t.next (some kind)
  next := t.next + 1

/-- A name is removed, and what it stands for. -/
def remove (t : NameTree) (key : Key) : NameTree where
  ino := Function.update t.ino key none
  kind ino := if t.ino key = some ino then none else t.kind ino
  next := t.next

/-- A name is replaced by another one.  What the other one stood for stays, without a name. -/
def move (t : NameTree) (key key' : Key) : NameTree where
  ino := Function.update (Function.update t.ino key none) key' (t.ino key)
  kind := t.kind
  next := t.next

/-- Why nothing can be added in a directory. -/
def parentError (t : NameTree) (parent : UInt64) : Option Errno :=
  if parent = rootIno then none
  else
    match t.kind parent with
    | none => some .enoent
    | some .regularFile => some .enotdir
    | some .directory => none

/-- A directory has a name that a listing shows. -/
def Lists (t : NameTree) (dir : UInt64) : Prop :=
  ∃ name ≤ Key.lastName, (t.ino ⟨dir, name⟩).isSome

open Classical in
/-- The error that a request is refused with. -/
noncomputable def refusal (t : NameTree) : Request → Option Errno
  | .create parent name | .mkdir parent name =>
      match t.parentError parent with
      | some errno => some errno
      | none => if (t.ino ⟨parent, name⟩).isSome then some .eexist else none
  | .unlink parent name => if (t.ino ⟨parent, name⟩).isSome then none else some .enoent
  | .rmdir parent name =>
      match t.ino ⟨parent, name⟩ with
      | none => some .enoent
      | some dir =>
          if t.kind dir ≠ some .directory then some .enotdir
          else if t.Lists dir then some .enotempty
          else none
  | .rename parent name newparent _ =>
      if newparent ≠ rootIno ∧ (t.kind newparent).isNone then some .enoent
      else if (t.ino ⟨parent, name⟩).isSome then none
      else some .enoent
  | .write ino _ _ =>
      if ino = searchIno ∨ ino = askIno then none
      else if (t.kind ino).isSome then none
      else some .enoent
  | .setattr ino size =>
      if (ino = searchIno ∨ ino = askIno) ∧ size = some 0 then none
      else if (t.kind ino).isSome then none
      else some .enoent
  | .read ino _ _ =>
      if isVirtual ino then none
      else if (t.kind ino).isSome then none
      else some .enoent
  | .flush _ | .fsync _ | .release _ | .destroy => none

/-- The tree after a request that is carried out. -/
def after (t : NameTree) : Request → NameTree
  | .create parent name => t.add ⟨parent, name⟩ .regularFile
  | .mkdir parent name => t.add ⟨parent, name⟩ .directory
  | .unlink parent name | .rmdir parent name => t.remove ⟨parent, name⟩
  | .rename parent name newparent newname => t.move ⟨parent, name⟩ ⟨newparent, newname⟩
  | _ => t

/-- The replies to a request that is carried out. -/
def Answers (t : NameTree) : Request → Reply → Prop
  | .create _ _, .entry attr => t.next + 1 ≠ 0 ∧ attr = makeAttr t.next 0 false
  | .mkdir _ _, .entry attr => t.next + 1 ≠ 0 ∧ attr = makeAttr t.next 0 true
  | .unlink _ _, .ok | .rmdir _ _, .ok | .rename _ _ _ _, .ok => True
  | .flush _, .ok | .fsync _, .ok | .release _, .ok | .destroy, .ok => True
  | .write _ _ data, .written n => n = UInt32.ofNat data.length
  | .setattr ino size, .attr attr =>
      attr.ino = ino ∧ t.kind ino = some attr.kind ∧ ∀ n ∈ size, attr.size = n
  | .setattr ino _, .virtualFile => ino = searchIno ∨ ino = askIno
  | .read ino _ _, .data _ => (t.kind ino).isSome
  | .read ino _ _, .virtualFile => isVirtual ino
  | _, _ => False

/-- A request with its reply, and what it does to the tree. -/
inductive Step (t : NameTree) : Request × Reply → NameTree → Prop where
  | refused {request : Request} {errno : Errno} (h : t.refusal request = some errno) :
      Step t (request, .error errno) t
  /-- There is no free inode. -/
  | full {request : Request} (h : t.refusal request = none) (hadds : request.Adds) :
      Step t (request, .error .enospc) t
  | done {request : Request} {reply : Reply} (h : t.refusal request = none)
      (hreply : t.Answers request reply) :
      Step t (request, reply) (t.after request)

def machine : Machine NameTree (Request × Reply) where
  Start t := t = .empty
  Step := Step

/-! ### What holds in all its runs -/

/-- Every name stands for something, no two names for the same, and numbers are given in
order. -/
structure Sound (t : NameTree) : Prop where
  named : ∀ key ino, t.ino key = some ino → (t.kind ino).isSome
  unique : ∀ key key' ino, t.ino key = some ino → t.ino key' = some ino → key = key'
  numbered : ∀ ino, (t.kind ino).isSome → rootIno < ino ∧ ino < t.next
  next : rootIno < t.next

namespace Sound

variable {t : NameTree} {key key' : Key}

theorem empty :
  NameTree.empty.Sound
  := by
  constructor
  · intro key ino h
    cases h
  · intro key key' ino h
    cases h
  · intro ino h
    cases h
  · decide

theorem add (h : t.Sound) (hmax : t.next + 1 ≠ 0) (kind : FileType) :
  (t.add key kind).Sound
  := by
  have hnext := VexFS.lt_add_one hmax
  -- A name has the next number, or it is an old one.
  have hold : ∀ {k ino}, (t.add key kind).ino k = some ino →
      k = key ∧ ino = t.next ∨ t.ino k = some ino := by
    intro k ino hino
    dsimp only [NameTree.add] at hino
    rw [Function.update_apply] at hino
    split at hino
    · next heq => exact Or.inl ⟨heq, (Option.some.inj hino).symm⟩
    · exact Or.inr hino
  have hfresh : ∀ {k}, t.ino k ≠ some t.next := fun hino =>
    lt_irrefl _ (h.numbered _ (h.named _ _ hino)).2
  constructor
  · intro k ino hino
    dsimp only [NameTree.add]
    rw [Function.update_apply]
    split
    · rfl
    · next hne =>
      obtain ⟨-, heq⟩ | hino := hold hino
      · exact absurd heq hne
      · exact h.named k ino hino
  · intro k k' ino hino hino'
    obtain ⟨rfl, rfl⟩ | hino := hold hino
    · obtain ⟨rfl, -⟩ | hino' := hold hino'
      · rfl
      · exact absurd hino' hfresh
    · obtain ⟨-, rfl⟩ | hino' := hold hino'
      · exact absurd hino hfresh
      · exact h.unique k k' ino hino hino'
  · intro ino hkind
    dsimp only [NameTree.add] at hkind ⊢
    rw [Function.update_apply] at hkind
    split at hkind
    · next heq =>
      rw [heq]
      exact ⟨h.next, hnext⟩
    · obtain ⟨hlt, hlt'⟩ := h.numbered ino hkind
      exact ⟨hlt, hlt'.trans hnext⟩
  · exact h.next.trans hnext

theorem remove (h : t.Sound) :
  (t.remove key).Sound
  := by
  have hold : ∀ {k ino}, (t.remove key).ino k = some ino → k ≠ key ∧ t.ino k = some ino := by
    intro k ino hino
    dsimp only [NameTree.remove] at hino
    rw [Function.update_apply] at hino
    split at hino
    · cases hino
    · next hne => exact ⟨hne, hino⟩
  constructor
  · intro k ino hino
    obtain ⟨hne, hino⟩ := hold hino
    dsimp only [NameTree.remove]
    rw [if_neg fun hkey => hne (h.unique k key ino hino hkey)]
    exact h.named k ino hino
  · intro k k' ino hino hino'
    exact h.unique k k' ino (hold hino).2 (hold hino').2
  · intro ino hkind
    dsimp only [NameTree.remove] at hkind
    split at hkind
    · cases hkind
    · exact h.numbered ino hkind
  · exact h.next

theorem move (h : t.Sound) :
  (t.move key key').Sound
  := by
  -- A name is the new one, with the number of the old one, or it is another one.
  have hold : ∀ {k ino}, (t.move key key').ino k = some ino →
      k = key' ∧ t.ino key = some ino ∨ k ≠ key ∧ t.ino k = some ino := by
    intro k ino hino
    dsimp only [NameTree.move] at hino
    rw [Function.update_apply] at hino
    split at hino
    · next heq => exact Or.inl ⟨heq, hino⟩
    · rw [Function.update_apply] at hino
      split at hino
      · cases hino
      · next hne => exact Or.inr ⟨hne, hino⟩
  constructor
  · intro k ino hino
    obtain ⟨-, hino⟩ | ⟨-, hino⟩ := hold hino <;> exact h.named _ ino hino
  · intro k k' ino hino hino'
    obtain ⟨hk, hkey⟩ | ⟨hne, hother⟩ := hold hino
    · obtain ⟨hk', -⟩ | ⟨hne', hother'⟩ := hold hino'
      · rw [hk, hk']
      · exact absurd (h.unique _ _ _ hother' hkey) hne'
    · obtain ⟨-, hkey⟩ | ⟨-, hother'⟩ := hold hino'
      · exact absurd (h.unique _ _ _ hother hkey) hne
      · exact h.unique k k' ino hother hother'
  · exact h.numbered
  · exact h.next

theorem after {request : Request} {reply : Reply} (h : t.Sound)
    (hreply : t.Answers request reply) :
  (t.after request).Sound
  := by
  cases request with
  | create parent name =>
      cases reply <;> first | exact hreply.elim | exact h.add hreply.1 _
  | mkdir parent name =>
      cases reply <;> first | exact hreply.elim | exact h.add hreply.1 _
  | unlink parent name => exact h.remove
  | rmdir parent name => exact h.remove
  | rename parent name newparent newname => exact h.move
  | _ => exact h

end Sound

theorem Step.sound {t t' : NameTree} {label : Request × Reply} (hstep : t.Step label t')
    (h : t.Sound) :
  t'.Sound
  := by
  cases hstep with
  | refused _ => exact h
  | full _ _ => exact h
  | done _ hreply => exact h.after hreply

/-- The number that is given in answer to a request. -/
def given : Request × Reply → Option UInt64
  | (.create _ _, .entry attr) | (.mkdir _ _, .entry attr) => some attr.ino
  | _ => none

/-- An answer gives the next number, or none. -/
theorem given_cases {t : NameTree} {request : Request} {reply : Reply}
    (hreply : t.Answers request reply) :
  (∃ key kind, given (request, reply) = some t.next ∧ t.next + 1 ≠ 0
      ∧ t.after request = t.add key kind)
    ∨ given (request, reply) = none ∧ (t.after request).next = t.next
      ∧ ∀ ino, ((t.after request).kind ino).isSome → (t.kind ino).isSome
  := by
  have hremove : ∀ key ino, ((t.remove key).kind ino).isSome → (t.kind ino).isSome := by
    intro key ino hsome
    dsimp only [remove] at hsome
    split at hsome
    · cases hsome
    · exact hsome
  cases request with
  | create parent name =>
      cases reply <;> first | exact hreply.elim | skip
      obtain ⟨hmax, rfl⟩ := hreply
      exact Or.inl ⟨_, _, rfl, hmax, rfl⟩
  | mkdir parent name =>
      cases reply <;> first | exact hreply.elim | skip
      obtain ⟨hmax, rfl⟩ := hreply
      exact Or.inl ⟨_, _, rfl, hmax, rfl⟩
  | unlink parent name => exact Or.inr ⟨rfl, rfl, hremove _⟩
  | rmdir parent name => exact Or.inr ⟨rfl, rfl, hremove _⟩
  | rename parent name newparent newname => exact Or.inr ⟨rfl, rfl, fun _ h => h⟩
  | _ => exact Or.inr ⟨rfl, rfl, fun _ h => h⟩

/-- The numbers that were given in a history. -/
structure Numbers (history : List (Request × Reply)) (t : NameTree) : Prop where
  increasing : (history.filterMap given).Pairwise (· < ·)
  below : ∀ ino ∈ history.filterMap given, ino < t.next
  /-- What is there was given a number. -/
  given : ∀ ino, (t.kind ino).isSome → ino ∈ history.filterMap given

theorem numbers_run {history : List (Request × Reply)} {t : NameTree}
    (h : machine.Run history t) :
  Numbers history t
  := by
  induction h with
  | start h =>
      obtain rfl := h
      exact ⟨List.Pairwise.nil, fun _ h => absurd h List.not_mem_nil, fun _ h => nomatch h⟩
  | @step history t t' label h hstep ih =>
      have hnone : given label = none → t'.next = t.next →
          (∀ ino, (t'.kind ino).isSome → (t.kind ino).isSome) →
          Numbers (history ++ [label]) t' := by
        intro hgiven hnext hkind
        have heq : (history ++ [label]).filterMap given = history.filterMap given := by
          rw [List.filterMap_append, List.filterMap_cons_none hgiven]
          exact List.append_nil _
        constructor
        · rw [heq]
          exact ih.increasing
        · rw [heq, hnext]
          exact ih.below
        · rw [heq]
          exact fun ino hsome => ih.given ino (hkind ino hsome)
      cases hstep with
      | @refused request errno _ =>
          apply hnone _ rfl fun _ hsome => hsome
          cases request <;> rfl
      | @full request _ _ =>
          apply hnone _ rfl fun _ hsome => hsome
          cases request <;> rfl
      | @done request reply _ hreply =>
          obtain ⟨key, kind, hgiven, hmax, hafter⟩ | ⟨hgiven, hnext, hkind⟩ := given_cases hreply
          · have heq : (history ++ [(request, reply)]).filterMap given
                = history.filterMap given ++ [t.next] := by
              rw [List.filterMap_append, List.filterMap_cons_some hgiven]
              rfl
            have hlt := VexFS.lt_add_one hmax
            constructor
            · rw [heq]
              apply List.pairwise_append.mpr
              refine ⟨ih.increasing, List.pairwise_singleton _ _, ?_⟩
              intro ino hino next hmem
              obtain rfl := List.mem_singleton.mp hmem
              exact ih.below ino hino
            · rw [heq, hafter]
              intro ino hino
              obtain hino | hino := List.mem_append.mp hino
              · exact (ih.below ino hino).trans hlt
              · obtain rfl := List.mem_singleton.mp hino
                exact hlt
            · rw [heq, hafter]
              intro ino hsome
              dsimp only [add] at hsome
              rw [Function.update_apply] at hsome
              split at hsome
              · next heq =>
                rw [heq]
                exact List.mem_append_right _ (List.mem_singleton_self _)
              · exact List.mem_append_left _ (ih.given ino hsome)
          · exact hnone hgiven hnext hkind

end NameTree

/-! ### The view of a file system -/

namespace VexFS

/-- The tree of names of a file system. -/
def nameTree (fs : VexFS) : NameTree where
  ino key := (fs.index.entries.lookup key).map Value.ino
  kind ino := (fs.placeOf ino).map Place.kind
  next := fs.nextInode

variable {fs fs' : VexFS} {parent newparent : UInt64} {name newname : String}

theorem nameTree_congr (h : SameTree fs fs') :
  fs'.nameTree = fs.nameTree
  := by
  unfold nameTree
  rw [h.entries_eq, h.placeOf_eq, h.nextInode_eq]

theorem nameTree_new (disk : DiskManager) :
  (VexFS.new disk).nameTree = .empty
  := rfl

theorem ino_nameTree (fs : VexFS) (parent : UInt64) (name : String) :
  fs.nameTree.ino ⟨parent, name⟩ = (fs.index.get parent name).map Value.ino
  := by
  rw [Index.get_eq]
  rfl

theorem isSome_ino_nameTree (fs : VexFS) (parent : UInt64) (name : String) :
  (fs.nameTree.ino ⟨parent, name⟩).isSome = (fs.index.get parent name).isSome
  := by
  rw [ino_nameTree, Option.isSome_map]

theorem kind_nameTree (fs : VexFS) (ino : UInt64) :
  fs.nameTree.kind ino = (fs.files.get ino).map fun f => f.attr.kind
  := by
  show ((fs.files.get ino).map VexFile.place).map Place.kind = _
  rw [Option.map_map]
  rfl

theorem isSome_kind_nameTree (fs : VexFS) (ino : UInt64) :
  (fs.nameTree.kind ino).isSome = (fs.files.get ino).isSome
  := by
  rw [kind_nameTree, Option.isSome_map]

theorem parentError_nameTree (fs : VexFS) (parent : UInt64) :
  fs.nameTree.parentError parent = Session.parentError fs parent
  := by
  unfold NameTree.parentError Session.parentError
  rw [kind_nameTree]
  split
  · rfl
  cases hf : fs.files.get parent with
  | none => rfl
  | some f =>
      rw [Option.map_some]
      dsimp only
      cases f.attr.kind <;> rfl

/-- The entries of a directory that a listing shows. -/
theorem lists_nameTree_iff (fs : VexFS) (dir : UInt64) :
  fs.nameTree.Lists dir ↔ fs.index.listDir dir ≠ []
  := by
  rw [fs.index.listDir_eq]
  constructor
  · rintro ⟨name, hname, hsome⟩ hnil
    rw [isSome_ino_nameTree, Option.isSome_iff_exists] at hsome
    obtain ⟨val, hval⟩ := hsome
    rw [Index.get_eq] at hval
    have hmem := (SortedMap.mem_iff_lookup fs.index.increasing).mpr hval
    exact List.filter_eq_nil_iff.mp hnil _ hmem (decide_eq_true ⟨rfl, hname⟩)
  · intro hne
    obtain ⟨⟨⟨parent, name⟩, val⟩, hmem⟩ := List.exists_mem_of_ne_nil _ hne
    obtain ⟨hentry, hkey⟩ := List.mem_filter.mp hmem
    obtain ⟨rfl, hname⟩ := of_decide_eq_true hkey
    use name, hname
    rw [isSome_ino_nameTree, Index.get_eq,
      (SortedMap.mem_iff_lookup fs.index.increasing).mp hentry]
    rfl

/-! ### Adding, removing and moving -/

/-- What an entry says its file is. -/
def fileType (isDir : Bool) : FileType := if isDir then .directory else .regularFile

theorem fileType_injective :
  Function.Injective fileType
  := by decide

variable [Crc32] {key : Key} {val : Value}

theorem nameTree_addEntry {i : ℕ} (halloc : fs.disk.allocInode.1 = some i) (isDir : Bool) :
  (fs.addEntry parent name isDir).nameTree
    = fs.nameTree.add ⟨parent, name⟩ (fileType isDir)
  := by
  rw [addEntry_of_some (Prod.ext halloc rfl)]
  unfold nameTree NameTree.add
  congr 1
  · funext key
    rw [Index.entries_insert, SortedMap.lookup_insert, Function.update_apply]
    split <;> rfl
  · funext ino
    rw [Function.update_apply]
    dsimp only [placeOf]
    rw [FiniteMap.get_insert]
    split
    · rfl
    · rfl

omit [Crc32] in
/-- An entry is removed with its file. -/
theorem nameTree_removed (hval : fs.index.entries.lookup key = some val)
    (hentries : fs'.index.entries = SortedMap.erase key fs.index.entries)
    (hfiles : fs'.files = fs.files.erase val.ino) (hnext : fs'.nextInode = fs.nextInode) :
  fs'.nameTree = fs.nameTree.remove key
  := by
  have hino : (fs.index.entries.lookup key).map Value.ino = some val.ino :=
    congrArg (Option.map Value.ino) hval
  unfold nameTree NameTree.remove
  congr 1
  · funext key'
    rw [hentries, SortedMap.lookup_erase, Function.update_apply]
    split <;> rfl
  · funext ino
    dsimp only [placeOf]
    rw [hfiles, FiniteMap.get_erase]
    by_cases heq : ino = val.ino
    · rw [if_pos heq, if_pos (hino.trans (congrArg some heq.symm))]
      rfl
    · rw [if_neg heq, if_neg fun h => heq (Option.some.inj (h.symm.trans hino))]

theorem nameTree_unlink (hval : fs.index.get parent name = some val)
    (hlive : (fs.files.get val.ino).isSome) :
  (fs.unlink parent name).nameTree = fs.nameTree.remove ⟨parent, name⟩
  := by
  have hindex := fs.index.entries_remove parent name
  have hfound := fs.index.fst_remove parent name
  rw [Index.get_eq] at hval
  obtain ⟨f, hf⟩ := Option.isSome_iff_exists.mp hlive
  unfold VexFS.unlink
  split
  · next heq =>
    rw [heq, hval] at hfound
    cases hfound
  · next val' index heq =>
    rw [heq] at hindex hfound
    obtain rfl := Option.some.inj (hfound.trans hval)
    rw [hf]
    exact nameTree_removed hval hindex rfl rfl

theorem nameTree_rmdir (hval : fs.index.get parent name = some val)
    (hlive : (fs.files.get val.ino).isSome) :
  (fs.rmdir parent name).nameTree = fs.nameTree.remove ⟨parent, name⟩
  := by
  have hindex := fs.index.entries_remove parent name
  have hfound := fs.index.fst_remove parent name
  rw [Index.get_eq] at hval
  obtain ⟨f, hf⟩ := Option.isSome_iff_exists.mp hlive
  unfold VexFS.rmdir
  split
  · next heq =>
    rw [heq, hval] at hfound
    cases hfound
  · next val' index heq =>
    rw [heq] at hindex hfound
    obtain rfl := Option.some.inj (hfound.trans hval)
    rw [hf]
    exact nameTree_removed hval hindex rfl rfl

theorem nameTree_rename (hval : fs.index.get parent name = some val) (now : UInt64) :
  (fs.rename parent name newparent newname now).nameTree
    = fs.nameTree.move ⟨parent, name⟩ ⟨newparent, newname⟩
  := by
  have hindex := fs.index.entries_remove parent name
  have hfound := fs.index.fst_remove parent name
  rw [Index.get_eq] at hval
  unfold VexFS.rename
  split
  · next heq =>
    rw [heq, hval] at hfound
    cases hfound
  · next val' index heq =>
    rw [heq] at hindex hfound
    obtain rfl := Option.some.inj (hfound.trans hval)
    unfold nameTree NameTree.move
    congr 1
    · funext key
      rw [Index.entries_insert, SortedMap.lookup_insert, Function.update_apply,
        Function.update_apply]
      split
      · exact (congrArg (Option.map Value.ino) hval).symm
      · dsimp only at hindex
        rw [hindex, SortedMap.lookup_erase]
        split <;> rfl
    · funext ino
      dsimp only [placeOf]
      rw [FiniteMap.get_modify]
      split
      · next heq =>
        rw [heq, Option.map_map, Option.map_map, Option.map_map]
        rfl
      · rfl

/-! ### What files and entries say of themselves -/

/-- Every entry says of its file whether it is a directory. -/
def EntriesTrue (fs : VexFS) : Prop :=
  ∀ key val, fs.index.entries.lookup key = some val →
    fs.nameTree.kind val.ino = some (fileType val.isDir)

omit [Crc32] in
/-- It stays true of the entries that are still there. -/
theorem EntriesTrue.of_old (h : fs.EntriesTrue)
    (hold : ∀ key val, fs'.index.entries.lookup key = some val →
      (∃ key, fs.index.entries.lookup key = some val)
        ∧ fs'.nameTree.kind val.ino = fs.nameTree.kind val.ino) :
  fs'.EntriesTrue
  := by
  intro key val hval
  obtain ⟨⟨key', hval'⟩, hkind⟩ := hold key val hval
  rw [hkind]
  exact h key' val hval'

omit [Crc32] in
theorem EntriesTrue.congr (hsame : SameTree fs fs') (h : fs.EntriesTrue) :
  fs'.EntriesTrue
  := by
  apply h.of_old
  intro key val hval
  rw [hsame.entries_eq] at hval
  exact ⟨⟨key, hval⟩, congrFun (congrArg NameTree.kind (nameTree_congr hsame)) val.ino⟩

theorem EntriesTrue.addEntry (h : fs.EntriesTrue) (hsound : fs.nameTree.Sound) (isDir : Bool) :
  (fs.addEntry parent name isDir).EntriesTrue
  := by
  cases halloc : fs.disk.allocInode.1 with
  | none =>
      rw [Tree.addEntry_of_none halloc]
      exact h
  | some i =>
      have htree : (fs.addEntry parent name isDir).nameTree
          = fs.nameTree.add ⟨parent, name⟩ (fileType isDir) := nameTree_addEntry halloc isDir
      intro key val hval
      rw [htree]
      dsimp only [NameTree.add]
      rw [addEntry_of_some (Prod.ext halloc rfl)] at hval
      dsimp only at hval
      rw [Index.entries_insert, SortedMap.lookup_insert] at hval
      rw [Function.update_apply]
      split at hval
      · obtain rfl := Option.some.inj hval
        exact if_pos rfl
      · have hkind := h key val hval
        have hlt := (hsound.numbered val.ino (Option.isSome_of_eq_some hkind)).2
        rw [if_neg (ne_of_lt hlt)]
        exact hkind

omit [Crc32] in
theorem EntriesTrue.removed (h : fs.EntriesTrue) (hsound : fs.nameTree.Sound)
    (hentries : fs'.index.entries = SortedMap.erase key fs.index.entries)
    (hkind : fs'.nameTree.kind = fs.nameTree.kind ∨ fs'.nameTree = fs.nameTree.remove key) :
  fs'.EntriesTrue
  := by
  apply h.of_old
  intro key' val hval
  rw [hentries, SortedMap.lookup_erase] at hval
  split at hval
  · cases hval
  next hne =>
  refine ⟨⟨key', hval⟩, ?_⟩
  have hino : fs.nameTree.ino key' = some val.ino := congrArg (Option.map Value.ino) hval
  obtain hkind | htree := hkind
  · rw [hkind]
  · rw [htree]
    exact if_neg fun hkey => hne (hsound.unique key' key val.ino hino hkey)

theorem EntriesTrue.unlink (h : fs.EntriesTrue) (hsound : fs.nameTree.Sound) :
  (fs.unlink parent name).EntriesTrue
  := by
  have hentries : (fs.unlink parent name).index.entries
      = SortedMap.erase ⟨parent, name⟩ fs.index.entries := by
    rw [← Index.entries_remove]
    unfold VexFS.unlink
    split
    · next heq => rw [heq]
    · next heq =>
      rw [heq]
      split <;> rfl
  apply h.removed hsound hentries
  cases hval : fs.index.get parent name with
  | none =>
      left
      have hfound := fs.index.fst_remove parent name
      rw [← Index.get_eq, hval] at hfound
      unfold VexFS.unlink
      split
      · rfl
      · next heq =>
        rw [heq] at hfound
        cases hfound
  | some val =>
      right
      apply nameTree_unlink hval
      rw [Index.get_eq] at hval
      rw [← isSome_kind_nameTree, h _ val hval]
      rfl

theorem EntriesTrue.rmdir (h : fs.EntriesTrue) (hsound : fs.nameTree.Sound)
    (hval : fs.index.get parent name = some val) :
  (fs.rmdir parent name).EntriesTrue
  := by
  have hentries : (fs.rmdir parent name).index.entries
      = SortedMap.erase ⟨parent, name⟩ fs.index.entries := by
    rw [← Index.entries_remove]
    unfold VexFS.rmdir
    split
    · next heq => rw [heq]
    · next heq =>
      rw [heq]
      split <;> rfl
  apply h.removed hsound hentries
  right
  apply nameTree_rmdir hval
  rw [Index.get_eq] at hval
  rw [← isSome_kind_nameTree, h _ val hval]
  rfl

theorem EntriesTrue.rename (h : fs.EntriesTrue) (now : UInt64) :
  (fs.rename parent name newparent newname now).EntriesTrue
  := by
  have hindex := fs.index.entries_remove parent name
  have hfound := fs.index.fst_remove parent name
  apply h.of_old
  intro key val hval
  constructor
  · rw [VexFS.rename] at hval
    split at hval
    · next heq =>
      rw [entries_of_remove_none heq] at hval
      exact ⟨key, hval⟩
    · next val' index heq =>
      rw [heq] at hindex hfound
      dsimp only at hval hindex
      rw [Index.entries_insert, SortedMap.lookup_insert] at hval
      split at hval
      · obtain rfl := Option.some.inj hval
        exact ⟨_, hfound.symm⟩
      · rw [hindex, SortedMap.lookup_erase] at hval
        split at hval
        · cases hval
        · exact ⟨key, hval⟩
  · cases hget : fs.index.get parent name with
    | none =>
        rw [← Index.get_eq, hget] at hfound
        unfold VexFS.rename
        split
        · rfl
        · next heq =>
          rw [heq] at hfound
          cases hfound
    | some _ =>
        rw [nameTree_rename hget]
        rfl

/-- What holds of the names in every session. -/
structure Named (fs : VexFS) : Prop where
  sound : fs.nameTree.Sound
  entries : fs.EntriesTrue
  /-- A file has its number in its attributes. -/
  numbered : ∀ ino f, fs.files.get ino = some f → f.attr.ino = ino

omit [Crc32] in
theorem Named.new (disk : DiskManager) :
  (VexFS.new disk).Named
  := by
  constructor
  · exact NameTree.Sound.empty
  · intro key val hval
    cases hval
  · intro ino f hf
    cases hf

omit [Crc32] in
/-- An entry has a file. -/
theorem Named.live (h : fs.Named) (hval : fs.index.get parent name = some val) :
  ∃ f, fs.files.get val.ino = some f ∧ f.attr.ino = val.ino
    ∧ f.attr.kind = fileType val.isDir
  := by
  rw [Index.get_eq] at hval
  have hkind := h.entries _ val hval
  rw [kind_nameTree] at hkind
  obtain ⟨f, hf, hfkind⟩ := Option.map_eq_some_iff.mp hkind
  exact ⟨f, hf, h.numbered _ f hf, hfkind⟩

end VexFS

/-! ### Operations -/

namespace Session

open VexFS

variable [Crc32] [Zstd] {s s' : Session} {env : Env} {reply : Reply}
  {parent newparent : UInt64} {name newname : String}

theorem Performs.nameTree (h : Stays s s') :
  s'.fs.nameTree = s.fs.nameTree
  := nameTree_congr h.sameTree

/-- A name is added, and nothing more happens to the names. -/
theorem step_of_added (parent : UInt64) (name : String) (isDir : Bool) {i : ℕ}
    {label : Request × Reply} (halloc : s.fs.disk.allocInode.1 = some i)
    (h : Stays (s.perform (.addEntry parent name isDir)) s')
    (hstep : NameTree.Step s.fs.nameTree label
      (s.fs.nameTree.add ⟨parent, name⟩ (fileType isDir))) :
  NameTree.Step s.fs.nameTree label s'.fs.nameTree
  := by
  rw [h.nameTree, fs_perform, Call.run, nameTree_addEntry halloc isDir]
  exact hstep

theorem create_step (hexec : s.create env parent name = .ok (reply, s')) :
  NameTree.Step s.fs.nameTree (.create parent name, reply) s'.fs.nameTree
  := by
  unfold create at hexec
  rw [← parentError_nameTree] at hexec
  split at hexec
  · next errno herror =>
    cases hexec
    apply NameTree.Step.refused
    rw [NameTree.refusal, herror]
  next herror =>
  split at hexec
  · next hsome =>
    cases hexec
    apply NameTree.Step.refused
    rw [NameTree.refusal, herror]
    dsimp only
    rw [isSome_ino_nameTree, if_pos hsome]
  next hfree =>
  have hrefusal : s.fs.nameTree.refusal (.create parent name) = none := by
    rw [NameTree.refusal, herror]
    dsimp only
    rw [isSome_ino_nameTree, if_neg hfree]
  split at hexec
  · next halloc =>
    cases hexec
    rw [nameTree_congr (sameTree_addEntry_of_none halloc false)]
    exact .full hrefusal trivial
  next i halloc =>
  split at hexec
  · cases hexec
  next hmax =>
  have hanswers : s.fs.nameTree.Answers (.create parent name)
      (.entry (makeAttr s.fs.nextInode 0 false)) := ⟨hmax, rfl⟩
  cases hexec
  apply step_of_added parent name false halloc _ (.done hrefusal hanswers)
  exact (Performs.refl.cacheInsert _ _).stays.perform trivial

theorem mkdir_step (hexec : s.mkdir env parent name = .ok (reply, s')) :
  NameTree.Step s.fs.nameTree (.mkdir parent name, reply) s'.fs.nameTree
  := by
  unfold mkdir at hexec
  rw [← parentError_nameTree] at hexec
  split at hexec
  · next errno herror =>
    cases hexec
    apply NameTree.Step.refused
    rw [NameTree.refusal, herror]
  next herror =>
  split at hexec
  · next hsome =>
    cases hexec
    apply NameTree.Step.refused
    rw [NameTree.refusal, herror]
    dsimp only
    rw [isSome_ino_nameTree, if_pos hsome]
  next hfree =>
  have hrefusal : s.fs.nameTree.refusal (.mkdir parent name) = none := by
    rw [NameTree.refusal, herror]
    dsimp only
    rw [isSome_ino_nameTree, if_neg hfree]
  split at hexec
  · next halloc =>
    cases hexec
    rw [nameTree_congr (sameTree_addEntry_of_none halloc true)]
    exact .full hrefusal trivial
  next i halloc =>
  split at hexec
  · cases hexec
  next hmax =>
  have hanswers : s.fs.nameTree.Answers (.mkdir parent name)
      (.entry (makeAttr s.fs.nextInode 0 true)) := ⟨hmax, rfl⟩
  cases hexec
  apply step_of_added parent name true halloc _ (.done hrefusal hanswers)
  exact (Performs.refl.perform trivial).perform trivial

theorem unlink_step (h : s.fs.Named) :
  NameTree.Step s.fs.nameTree (.unlink parent name, (s.unlink parent name).1)
    (s.unlink parent name).2.fs.nameTree
  := by
  have hsome := isSome_ino_nameTree s.fs parent name
  unfold unlink
  split
  · next hnone =>
    rw [hnone] at hsome
    have hfound := s.fs.index.fst_remove parent name
    rw [← Index.get_eq, hnone] at hfound
    have hsame : ((s.perform (.unlink parent name)).fs).nameTree = s.fs.nameTree := by
      show (s.fs.unlink parent name).nameTree = _
      unfold VexFS.unlink
      split
      · next heq =>
        exact nameTree_congr ⟨entries_of_remove_none heq, rfl, rfl⟩
      · next heq =>
        rw [heq] at hfound
        cases hfound
    rw [hsame]
    apply NameTree.Step.refused
    rw [NameTree.refusal, hsome]
    rfl
  · next val hval =>
    rw [hval] at hsome
    obtain ⟨f, hf, -⟩ := h.live hval
    have hlive := Option.isSome_of_eq_some hf
    rw [if_pos hlive]
    have htree : ((s.perform (.unlink parent name)).fs).nameTree
        = s.fs.nameTree.after (.unlink parent name) := nameTree_unlink hval hlive
    have hrefusal : s.fs.nameTree.refusal (.unlink parent name) = none := by
      rw [NameTree.refusal, hsome]
      rfl
    rw [htree]
    exact .done hrefusal trivial

theorem rmdir_step (h : s.fs.Named) :
  NameTree.Step s.fs.nameTree (.rmdir parent name, (s.rmdir parent name).1)
    (s.rmdir parent name).2.fs.nameTree
  := by
  have hino := ino_nameTree s.fs parent name
  unfold rmdir
  split
  · next hnone =>
    rw [hnone] at hino
    apply NameTree.Step.refused
    rw [NameTree.refusal, hino]
    rfl
  next val hval =>
  rw [hval, Option.map_some] at hino
  obtain ⟨f, hf, -, hkind⟩ := h.live hval
  have hlive := Option.isSome_of_eq_some hf
  have hkind' : s.fs.nameTree.kind val.ino = some (fileType val.isDir) := by
    rw [kind_nameTree, hf, Option.map_some, hkind]
  split
  · next hfile =>
    apply NameTree.Step.refused
    rw [NameTree.refusal, hino]
    dsimp only
    rw [hkind', if_pos]
    rw [Bool.not_eq_true'] at hfile
    rw [hfile]
    decide
  next hdir =>
  have hdirectory : ¬ s.fs.nameTree.kind val.ino ≠ some .directory := by
    rw [hkind', not_not]
    rw [Bool.not_eq_true', Bool.not_eq_false] at hdir
    rw [hdir]
    rfl
  split
  · next hlist =>
    apply NameTree.Step.refused
    rw [NameTree.refusal, hino]
    dsimp only
    rw [if_neg hdirectory, if_pos ((lists_nameTree_iff _ _).mpr hlist)]
  next hlist =>
  have htree : ((s.perform (.rmdir parent name)).fs).nameTree
      = s.fs.nameTree.after (.rmdir parent name) := nameTree_rmdir hval hlive
  have hrefusal : s.fs.nameTree.refusal (.rmdir parent name) = none := by
    rw [NameTree.refusal, hino]
    dsimp only
    rw [if_neg hdirectory, if_neg fun hlists => hlist ((lists_nameTree_iff _ _).mp hlists)]
  rw [htree]
  exact .done hrefusal trivial

theorem rename_step (env : Env) (newparent : UInt64) (newname : String) :
  NameTree.Step s.fs.nameTree
    (.rename parent name newparent newname, (s.rename env parent name newparent newname).1)
    (s.rename env parent name newparent newname).2.fs.nameTree
  := by
  have hsome := isSome_ino_nameTree s.fs parent name
  have hparent := isSome_kind_nameTree s.fs newparent
  unfold rename
  rw [← Option.not_isSome, ← hparent]
  split
  · next hmissing =>
    apply NameTree.Step.refused
    rw [NameTree.refusal, ← Option.not_isSome, if_pos hmissing]
  next hpresent =>
  split
  · next hnone =>
    rw [hnone] at hsome
    apply NameTree.Step.refused
    rw [NameTree.refusal, ← Option.not_isSome, if_neg hpresent, hsome]
    rfl
  · next val hval =>
    rw [hval] at hsome
    have htree : ((s.perform (.rename parent name newparent newname env.modifiedAt)).fs).nameTree
        = s.fs.nameTree.after (.rename parent name newparent newname) := nameTree_rename hval _
    have hrefusal : s.fs.nameTree.refusal (.rename parent name newparent newname) = none := by
      rw [NameTree.refusal, ← Option.not_isSome, if_neg hpresent, hsome]
      rfl
    rw [htree]
    exact .done hrefusal trivial

theorem write_step {ino : UInt64} {offset : Int64} {data : List UInt8}
    (hexec : s.write env ino offset data = .ok (reply, s')) :
  NameTree.Step s.fs.nameTree (.write ino offset data, reply) s'.fs.nameTree
  := by
  have hsome := isSome_kind_nameTree s.fs ino
  rw [(write_stays hexec).nameTree]
  unfold write at hexec
  dsimp only at hexec
  split at hexec
  · next hvirtual =>
    cases hexec
    have hrefusal : s.fs.nameTree.refusal (.write ino offset data) = none := by
      rw [NameTree.refusal, if_pos hvirtual]
    exact .done hrefusal rfl
  next hvirtual =>
  split at hexec
  · next hnone =>
    cases hexec
    rw [hnone] at hsome
    apply NameTree.Step.refused
    rw [NameTree.refusal, if_neg hvirtual, hsome]
    rfl
  next f hf =>
  have hrefusal : s.fs.nameTree.refusal (.write ino offset data) = none := by
    rw [NameTree.refusal, if_neg hvirtual, hsome, hf]
    rfl
  split at hexec
  · cases hexec
  split at hexec
  · cases hexec
  · cases hexec
    exact .done hrefusal rfl

theorem setattr_step (h : s.fs.Named) {ino : UInt64} {size : Option UInt64}
    (hexec : s.setattr env ino size = .ok (reply, s')) :
  NameTree.Step s.fs.nameTree (.setattr ino size, reply) s'.fs.nameTree
  := by
  have hkind := kind_nameTree s.fs ino
  rw [(setattr_stays hexec).nameTree]
  unfold setattr at hexec
  split at hexec
  · next hvirtual =>
    cases hexec
    have hrefusal : s.fs.nameTree.refusal (.setattr ino size) = none := by
      rw [NameTree.refusal, if_pos hvirtual]
    exact .done hrefusal hvirtual.1
  next hvirtual =>
  split at hexec
  · next hnone =>
    cases hexec
    rw [hnone] at hkind
    apply NameTree.Step.refused
    rw [NameTree.refusal, if_neg hvirtual, hkind]
    rfl
  next f hf =>
  rw [hf, Option.map_some] at hkind
  have hino := h.numbered ino f hf
  have hrefusal : s.fs.nameTree.refusal (.setattr ino size) = none := by
    rw [NameTree.refusal, if_neg hvirtual, hkind]
    rfl
  split at hexec
  · cases hexec
    have hanswers : s.fs.nameTree.Answers (.setattr ino none) (.attr f.attr) :=
      ⟨hino, hkind, fun _ hn => nomatch hn⟩
    exact .done hrefusal hanswers
  next n =>
  split at hexec
  · next heq =>
    cases hexec
    have hanswers : s.fs.nameTree.Answers (.setattr ino (some n)) (.attr f.attr) :=
      ⟨hino, hkind, fun _ hn => heq.symm.trans (Option.some.inj hn)⟩
    exact .done hrefusal hanswers
  dsimp only at hexec
  split at hexec
  · cases hexec
  split at hexec
  · cases hexec
  · cases hexec
    have hanswers : s.fs.nameTree.Answers (.setattr ino (some n))
        (.attr { f.attr with size := n }) := ⟨hino, hkind, fun _ hn => Option.some.inj hn⟩
    exact .done hrefusal hanswers

theorem read_step (env : Env) (ino : UInt64) (offset : Int64) (size : UInt32) :
  NameTree.Step s.fs.nameTree (.read ino offset size, (s.read env ino offset size).1)
    (s.read env ino offset size).2.fs.nameTree
  := by
  have hsome := isSome_kind_nameTree s.fs ino
  rw [(read_stores s ino offset size).stays.nameTree]
  unfold read
  split
  · next hvirtual =>
    have hrefusal : s.fs.nameTree.refusal (.read ino offset size) = none := by
      rw [NameTree.refusal, if_pos hvirtual]
    exact .done hrefusal hvirtual
  next hvirtual =>
  split
  · next hnone =>
    rw [hnone] at hsome
    apply NameTree.Step.refused
    rw [NameTree.refusal, if_neg hvirtual, hsome]
    rfl
  next f hf =>
  rw [hf] at hsome
  have hrefusal : s.fs.nameTree.refusal (.read ino offset size) = none := by
    rw [NameTree.refusal, if_neg hvirtual, hsome]
    rfl
  split
  · exact .done hrefusal hsome
  · exact .done hrefusal hsome

omit [Crc32] [Zstd] in
theorem step_of_ok {t : NameTree} {request : Request} {r : Reply × Session}
    (h : NameTree.Step t (request, r.1) r.2.fs.nameTree)
    (hexec : (Except.ok r : Except SessionPanic (Reply × Session)) = .ok (reply, s')) :
  NameTree.Step t (request, reply) s'.fs.nameTree
  := by
  cases hexec
  exact h

/-- Every request is a step of the tree of names. -/
theorem exec_step {request : Request} (h : s.fs.Named)
    (hexec : s.exec env request = .ok (reply, s')) :
  NameTree.Step s.fs.nameTree (request, reply) s'.fs.nameTree
  := by
  obtain ⟨s₁, hs₁, hfs⟩ : ∃ s₁, s.perform (.request request) = s₁ ∧ s₁.fs = s.fs :=
    ⟨_, rfl, rfl⟩
  rw [← hfs] at h ⊢
  unfold exec at hexec
  rw [hs₁] at hexec
  clear hs₁ hfs
  cases request with
  | create parent name => exact create_step hexec
  | mkdir parent name => exact mkdir_step hexec
  | unlink parent name => exact step_of_ok (unlink_step h) hexec
  | rmdir parent name => exact step_of_ok (rmdir_step h) hexec
  | rename parent name newparent newname =>
      exact step_of_ok (rename_step env newparent newname) hexec
  | write ino offset data => exact write_step hexec
  | setattr ino size => exact setattr_step h hexec
  | read ino offset size => exact step_of_ok (read_step env ino offset size) hexec
  | flush ino =>
      cases hexec
      rw [(Performs.refl.flushFile ino).stays.nameTree]
      exact .done rfl trivial
  | fsync ino =>
      cases hexec
      rw [(Performs.refl.flushFile ino).stays.nameTree]
      exact .done rfl trivial
  | release ino =>
      cases hexec
      exact .done rfl trivial
  | destroy =>
      cases hexec
      have htree : (s₁.flushAll env).fs.nameTree = s₁.fs.nameTree :=
        (Performs.refl.persistAll _).stays.nameTree
      rw [htree]
      exact .done rfl trivial

theorem entriesTrue_exec {request : Request} (h : s.fs.Named)
    (hexec : s.exec env request = .ok (reply, s')) :
  s'.fs.EntriesTrue
  := by
  obtain hsame | ⟨c, hmoves, hsame⟩ := exec_moves hexec
  · exact h.entries.congr hsame
  apply EntriesTrue.congr hsame
  cases hmoves with
  | create hparent hfree hmax => exact h.entries.addEntry h.sound false
  | mkdir hparent hfree hmax => exact h.entries.addEntry h.sound true
  | unlink parent name => exact h.entries.unlink h.sound
  | rmdir hval hempty => exact h.entries.rmdir h.sound hval
  | rename parent name newparent newname => exact h.entries.rename env.modifiedAt

omit [Crc32] in
theorem fileAfter_ino (fs : VexFS) (ino : UInt64) (f : VexFile) (c : Call) :
  (c.fileAfter fs ino f).attr.ino = f.attr.ino
  := by
  unfold Call.fileAfter
  split
  · split <;> rfl
  · split <;> rfl
  · split <;> rfl
  · split <;> rfl
  · split
    · split <;> rfl
    · rfl

/-- A piece leaves the numbers of files alone, and gives one it adds its own. -/
theorem numbered_run (fs : VexFS) (c : Call)
    (h : ∀ ino f, fs.files.get ino = some f → f.attr.ino = ino) (ino : UInt64) (f : VexFile)
    (hf : (c.run fs).files.get ino = some f) :
  f.attr.ino = ino
  := by
  obtain ⟨f₀, hf₀, rfl⟩ | ⟨parent, name, isDir, i, -, rfl, rfl⟩ := Call.get_files_run hf
  · rw [fileAfter_ino]
    exact h ino f₀ hf₀
  · rfl

theorem numbered_exec {request : Request} (h : s.fs.Named)
    (hexec : s.exec env request = .ok (reply, s')) (ino : UInt64) (f : VexFile)
    (hf : s'.fs.files.get ino = some f) :
  f.attr.ino = ino
  := by
  have hstart : Holds (fun _ _ => True)
      (fun fs => ∀ ino f, fs.files.get ino = some f → f.attr.ino = ino) s :=
    fun _ => h.numbered
  exact (exec_performs hexec).holds (fun fs c _ _ => numbered_run fs c) hstart
    (fun _ _ => trivial) ino f hf

theorem named_exec {request : Request} (h : s.fs.Named)
    (hexec : s.exec env request = .ok (reply, s')) :
  s'.fs.Named
  where
    sound := (exec_step h hexec).sound h.sound
    entries := entriesTrue_exec h hexec
    numbered := numbered_exec h hexec

/-- The sessions of an empty file system, with their requests and replies. -/
def machine (disk : DiskManager) : Machine Session (Request × Reply) where
  Start s := s = ⟨.new disk, []⟩
  Step s label s' := ∃ env, s.exec env label.1 = .ok (label.2, s')

theorem refinement (disk : DiskManager) :
  (machine disk).Refinement NameTree.machine (fun s => s.fs.Named) fun s => s.fs.nameTree
  where
    start := by
      rintro s rfl
      exact .new disk
    step := by
      rintro s label s' h ⟨env, hexec⟩
      exact named_exec h hexec
    start_view := by
      rintro s rfl
      exact nameTree_new disk
    step_view := by
      rintro s label s' h ⟨env, hexec⟩
      exact exec_step h hexec

end Session

/-! ### What is shown of the names -/

/-- The number of a virtual file, by its name. -/
def virtualNamed (name : String) : Option UInt64 :=
  if name = searchFilename then some searchIno
  else if name = telemetryFilename then some telemetryIno
  else if name = askFilename then some askIno
  else if name = contextFilename then some contextIno
  else if name = jarvisFilename then some jarvisIno
  else none

/-- The attributes of a virtual file, of which the AI engine gives the size. -/
def virtualAttr (sizes : UInt64 → UInt64) (ino : UInt64) : FileAttr where
  ino
  size := if ino = telemetryIno then 4096 else sizes ino
  kind := .regularFile

def rootAttr : FileAttr where
  ino := rootIno
  size := 0
  kind := .directory

namespace VexFS

def lookup (fs : VexFS) (sizes : UInt64 → UInt64) (parent : UInt64) (name : String) : Reply :=
  match if parent = rootIno then virtualNamed name else none with
  | some ino => .entry (virtualAttr sizes ino)
  | none =>
      match fs.index.get parent name with
      | none => .error .enoent
      | some val =>
          match fs.files.get val.ino with
          | none => .error .enoent
          | some f => .entry f.attr

def getattr (fs : VexFS) (sizes : UInt64 → UInt64) (ino : UInt64) : Reply :=
  if ino = rootIno then .attr rootAttr
  else if isVirtual ino then .attr (virtualAttr sizes ino)
  else
    match fs.files.get ino with
    | none => .error .enoent
    | some f => .attr f.attr

end VexFS

/-- A reply to a search for a name is as a tree of names has it. -/
def NameTree.Finds (t : NameTree) (parent : UInt64) (name : String) : Reply → Prop
  | .entry attr => t.ino ⟨parent, name⟩ = some attr.ino ∧ t.kind attr.ino = some attr.kind
  | .error errno => errno = .enoent ∧ t.ino ⟨parent, name⟩ = none
  | _ => False

/-- A reply with attributes is as a tree of names has them. -/
def NameTree.Describes (t : NameTree) (ino : UInt64) : Reply → Prop
  | .attr attr => attr.ino = ino ∧ t.kind ino = some attr.kind
  | .error errno => errno = .enoent ∧ t.kind ino = none
  | _ => False

/-- What is shown of the names is as a tree of names has it, apart from the virtual files. -/
structure VexFS.Shows (fs : VexFS) (t : NameTree) : Prop where
  lookup : ∀ sizes parent name, parent ≠ rootIno ∨ virtualNamed name = none →
    t.Finds parent name (fs.lookup sizes parent name)
  getattr : ∀ sizes ino, ino ≠ rootIno → ¬ isVirtual ino →
    t.Describes ino (fs.getattr sizes ino)
  readdir : ∀ dir child isDir name, .child child isDir name ∈ fs.childEntries dir
    ↔ name ≤ Key.lastName ∧ t.ino ⟨dir, name⟩ = some child
      ∧ t.kind child = some (VexFS.fileType isDir)

theorem VexFS.Named.shows {fs : VexFS} (h : fs.Named) :
  fs.Shows fs.nameTree
  := by
  constructor
  · intro sizes parent name hreal
    have hnone : (if parent = rootIno then virtualNamed name else none) = none := by
      split
      · next hroot => exact hreal.resolve_left (not_not.mpr hroot)
      · rfl
    have hino := ino_nameTree fs parent name
    unfold lookup
    rw [hnone]
    dsimp only
    split
    · next hget =>
      rw [hget] at hino
      exact ⟨rfl, hino⟩
    · next val hget =>
      rw [hget] at hino
      obtain ⟨f, hf, hfile, hkind⟩ := h.live hget
      rw [hf]
      refine ⟨hino.trans (congrArg some hfile.symm), ?_⟩
      rw [hfile, kind_nameTree, hf]
      rfl
  · intro sizes ino hroot hvirtual
    have hkind := kind_nameTree fs ino
    unfold getattr
    rw [if_neg hroot, if_neg hvirtual]
    split
    · next hnone =>
      rw [hnone] at hkind
      exact ⟨rfl, hkind⟩
    · next f hf =>
      rw [hf] at hkind
      exact ⟨h.numbered ino f hf, hkind⟩
  · intro dir child isDir name
    rw [mem_childEntries_iff, ino_nameTree]
    constructor
    · rintro ⟨hname, val, hget, rfl, rfl⟩
      rw [hget]
      rw [Index.get_eq] at hget
      exact ⟨hname, rfl, h.entries _ val hget⟩
    · rintro ⟨hname, hino, hkind⟩
      obtain ⟨val, hget, rfl⟩ := Option.map_eq_some_iff.mp hino
      refine ⟨hname, val, hget, rfl, ?_⟩
      rw [Index.get_eq] at hget
      rw [h.entries _ val hget] at hkind
      exact fileType_injective (Option.some.inj hkind)

variable [Crc32] [Zstd]

/-- Every session of an empty file system is a run of the tree of names with the same requests
and replies, after which every name has a file that no other name has, and the replies of
`lookup`, `getattr` and `readdir` are as the tree has them. -/
theorem refines_nameTree {disk : DiskManager} {history : List (Request × Reply)} {s : Session}
    (h : (Session.machine disk).Run history s) :
  ∃ t, NameTree.machine.Run history t ∧ t.Sound ∧ s.fs.Shows t
  := by
  have hnamed := h.holds (Session.refinement disk).toInvariant
  exact ⟨s.fs.nameTree, (Session.refinement disk).run h, hnamed.sound, hnamed.shows⟩

omit [Crc32] [Zstd] in
/-- In some session a file was made. -/
theorem exists_madeFile :
  let _ := Crc32.ieee
  let _ := Zstd.refusing
  ∃ s, (Session.machine (DiskManager.format Storage.Image.empty 0 0)).Run
      [(.create rootIno "a", .entry (makeAttr 2 0 false))] s
    ∧ (s.fs.files.get 2).isSome
  := by
  intro _ _
  let start := VexFS.new (DiskManager.format Storage.Image.empty 0 0)
  obtain ⟨s, i, -, hexec, hfs, -⟩ := Session.exec_create_of_blank (s := ⟨start, []⟩)
    rootIno "a" rfl rfl (.format Storage.Image.empty 0 0) (by decide) (by decide)
    (FileCache.room_new (n := 0) (by decide)) Env.still
  use s, .step (.start rfl) ⟨Env.still, hexec⟩
  rw [hfs]
  exact Option.isSome_of_eq_some (FiniteMap.get_insert_self _ _ _)

omit [Crc32] [Zstd] in
/-- A file that was made. -/
theorem refines_nameTree_one_file :
  let _ := Crc32.ieee
  let _ := Zstd.refusing
  ∃ (s : Session) (t : NameTree), t.Sound ∧ s.fs.Shows t
    ∧ NameTree.machine.Run [(.create rootIno "a", .entry (makeAttr 2 0 false))] t
  := by
  intro _ _
  obtain ⟨s, hrun, -⟩ := exists_madeFile
  obtain ⟨t, hrun', hsound, hshows⟩ := refines_nameTree hrun
  exact ⟨s, t, hsound, hshows, hrun'⟩

/-- In every session of an empty file system, the numbers that are given to new files and
directories increase, so none is given twice, and every file has a number that was given. -/
theorem numbers_given_once {disk : DiskManager} {history : List (Request × Reply)} {s : Session}
    (h : (Session.machine disk).Run history s) :
  (history.filterMap NameTree.given).Pairwise (· < ·)
    ∧ ∀ ino, (s.fs.files.get ino).isSome → ino ∈ history.filterMap NameTree.given
  := by
  have hnumbers := NameTree.numbers_run ((Session.refinement disk).run h)
  refine ⟨hnumbers.increasing, fun ino hsome => hnumbers.given ino ?_⟩
  rw [VexFS.isSome_kind_nameTree]
  exact hsome

omit [Crc32] [Zstd] in
/-- The number of a file that was made. -/
theorem numbers_given_once_one_file :
  let _ := Crc32.ieee
  let _ := Zstd.refusing
  ∃ s : Session, (s.fs.files.get 2).isSome ∧ ∀ ino, (s.fs.files.get ino).isSome → ino ∈ [2]
  := by
  intro _ _
  obtain ⟨s, hrun, hfile⟩ := exists_madeFile
  exact ⟨s, hfile, (numbers_given_once hrun).2⟩

end Vexfs
