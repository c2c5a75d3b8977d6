import Vexfs.Collections.Cycles
import Vexfs.Fuse.SnapRestore

/-!
# The tree of an image

The command lists the inodes of an image below their parents, and prints a directory and then,
by the number of its inode, what is listed below this number.  It keeps no record of the
directories it is in, so without a limit of the depth it ends exactly when no directory that
is reached from the root comes below itself (`cmdTree_ends_iff`).
-/

namespace Vexfs

open Storage

/-! ### The command -/

/-- What is listed of an inode. -/
structure TreeEntry where
  ino : UInt64
  name : String
  size : UInt64
  isDir : Bool
deriving DecidableEq, Repr

def TreeEntry.ofInode (inode : InodeRaw) : TreeEntry :=
  ⟨inode.ino, inode.getName, inode.size, inode.isDir = 1⟩

/-- Directories come first, and then the names decide. -/
def TreeEntry.le (a b : TreeEntry) : Bool :=
  if a.isDir = b.isDir then a.name ≤ b.name else a.isDir

/-- A line of the tree, behind an indent. -/
structure TreeLine where
  indent : String
  last : Bool
  entry : TreeEntry
deriving DecidableEq, Repr

/-- What is printed, and counted. -/
structure TreeOutput where
  lines : List TreeLine
  totalFiles : ℕ
  totalDirs : ℕ
deriving DecidableEq, Repr

def TreeOutput.start : TreeOutput := ⟨[], 0, 0⟩

def TreeOutput.print (out : TreeOutput) (line : TreeLine) : TreeOutput :=
  if line.entry.isDir then
    { out with lines := out.lines ++ [line], totalDirs := out.totalDirs + 1 }
  else { out with lines := out.lines ++ [line], totalFiles := out.totalFiles + 1 }

/-- The entries of a directory, each followed by what `descend` prints for a directory. -/
def printEntries (descend : UInt64 → String → TreeOutput → Option TreeOutput)
    (indent : String) : List TreeEntry → TreeOutput → Option TreeOutput
  | [], out => some out
  | entry :: entries, out =>
      let out := out.print ⟨indent, entries.isEmpty, entry⟩
      if entry.isDir then
        (descend entry.ino (indent ++ if entries.isEmpty then "    " else "│   ") out).bind
          (printEntries descend indent entries)
      else printEntries descend indent entries out

/-- The tree below a node.  `fuel` bounds the depth of the recursion, and `maxDepth` limits it
unless it is 0. -/
def printTree (children : FiniteMap UInt64 (List TreeEntry)) (maxDepth : ℕ) :
    ℕ → UInt64 → String → ℕ → TreeOutput → Option TreeOutput
  | 0, _, _, _, _ => none
  | fuel + 1, node, indent, depth, out =>
      match children.get node with
      | none => some out
      | some entries =>
          printEntries
            (fun ino indent out =>
              if maxDepth = 0 ∨ depth < maxDepth then
                printTree children maxDepth fuel ino indent (depth + 1) out
              else some out)
            indent entries out

namespace DiskManager

variable [Crc32]

/-- Put the inodes of some slots below their parents, up to the first slot that cannot be
read. -/
def collectChildren (dm : DiskManager) : List ℕ → FiniteMap UInt64 (List TreeEntry) →
    FiniteMap UInt64 (List TreeEntry)
  | [], children => children
  | i :: is, children =>
      match dm.readInode i with
      | .error _ => children
      | .ok inode =>
          collectChildren dm is
            (if inode.isValid ∧ inode.getName ≠ "" then
              children.push inode.getParentIno (.ofInode inode)
            else children)

/-- The entries below each inode, in order. -/
def children (dm : DiskManager) : FiniteMap UInt64 (List TreeEntry) :=
  (dm.collectChildren (List.range maxFiles) .empty).map fun entries =>
    entries.mergeSort TreeEntry.le

end DiskManager

/-- Print the tree below the root, unless the fuel is too little. -/
def cmdTree [Crc32] (fuel : ℕ) (image : Image) (maxDepth : ℕ) :
    DiskResult (Option TreeOutput) := do
  let dm ← DiskManager.open image
  return printTree dm.children maxDepth fuel 1 "" 0 .start

/-! ### Printing -/

/-- A directory is listed below a node. -/
def DirectoryBelow (children : FiniteMap UInt64 (List TreeEntry)) (a b : UInt64) : Prop :=
  ∃ entry ∈ (children.get a).getD [], entry.isDir = true ∧ entry.ino = b

/-- Some entries are not printed when one of them is a directory that is not. -/
theorem printEntries_eq_none_iff {descend : UInt64 → String → TreeOutput → Option TreeOutput}
    {P : UInt64 → Prop} (h : ∀ ino indent out, descend ino indent out = none ↔ P ino)
    (indent : String) (entries : List TreeEntry) (out : TreeOutput) :
  printEntries descend indent entries out = none
    ↔ ∃ entry ∈ entries, entry.isDir = true ∧ P entry.ino
  := by
  induction entries generalizing out with
  | nil => simp [printEntries]
  | cons entry entries ih =>
      rw [printEntries, List.exists_mem_cons_iff]
      split
      · next hdir =>
        rw [and_iff_right hdir,
          ← h entry.ino (indent ++ if entries.isEmpty then "    " else "│   ")
            (out.print ⟨indent, entries.isEmpty, entry⟩)]
        cases descend entry.ino (indent ++ if entries.isEmpty then "    " else "│   ")
            (out.print ⟨indent, entries.isEmpty, entry⟩) with
        | none => simp
        | some out' => simp [ih]
      · next hfile => simp [hfile, ih]

/-- Without a limit the fuel is too little when directories come below each other so often. -/
theorem printTree_eq_none_iff (children : FiniteMap UInt64 (List TreeEntry)) (fuel : ℕ)
    (node : UInt64) (indent : String) (depth : ℕ) (out : TreeOutput) :
  printTree children 0 fuel node indent depth out = none
    ↔ Cycles.Deep (DirectoryBelow children) fuel node
  := by
  induction fuel generalizing node indent depth out with
  | zero => exact iff_of_true rfl trivial
  | succ fuel ih =>
      have hdescend (ino : UInt64) (indent : String) (out : TreeOutput) :
          (if 0 = 0 ∨ depth < 0 then printTree children 0 fuel ino indent (depth + 1) out
            else some out) = none ↔ Cycles.Deep (DirectoryBelow children) fuel ino := by
        rw [if_pos (.inl rfl)]
        exact ih ino indent (depth + 1) out
      rw [printTree, Cycles.Deep]
      cases hget : children.get node with
      | none =>
          simp [DirectoryBelow, hget]
      | some entries =>
          dsimp only
          rw [printEntries_eq_none_iff hdescend]
          simp only [DirectoryBelow, hget, Option.getD_some]
          constructor
          · rintro ⟨entry, hentry, hdir, hdeep⟩
            exact ⟨entry.ino, ⟨entry, hentry, hdir, rfl⟩, hdeep⟩
          · rintro ⟨_, ⟨entry, hentry, hdir, rfl⟩, hdeep⟩
            exact ⟨entry, hentry, hdir, hdeep⟩

/-- More fuel prints the same. -/
theorem printEntries_mono {descend descend' : UInt64 → String → TreeOutput → Option TreeOutput}
    (h : ∀ ino indent out out', descend ino indent out = some out' →
      descend' ino indent out = some out')
    {indent : String} {entries : List TreeEntry} {out out' : TreeOutput}
    (hprint : printEntries descend indent entries out = some out') :
  printEntries descend' indent entries out = some out'
  := by
  induction entries generalizing out with
  | nil => exact hprint
  | cons entry entries ih =>
      rw [printEntries] at hprint ⊢
      split at hprint
      · next hdir =>
        obtain ⟨next, hnext, hrest⟩ := Option.bind_eq_some_iff.mp hprint
        rw [if_pos hdir, h _ _ _ _ hnext]
        exact ih hrest
      · next hfile =>
        rw [if_neg hfile]
        exact ih hprint

theorem printTree_succ {children : FiniteMap UInt64 (List TreeEntry)} {maxDepth fuel : ℕ}
    {node : UInt64} {indent : String} {depth : ℕ} {out out' : TreeOutput}
    (h : printTree children maxDepth fuel node indent depth out = some out') :
  printTree children maxDepth (fuel + 1) node indent depth out = some out'
  := by
  induction fuel generalizing node indent depth out out' with
  | zero => cases h
  | succ fuel ih =>
      rw [printTree] at h ⊢
      cases hget : children.get node with
      | none =>
          rw [hget] at h
          exact h
      | some entries =>
          rw [hget] at h
          dsimp only at h ⊢
          apply printEntries_mono _ h
          intro ino indent out out' hdescend
          split at hdescend
          · next hlimit =>
            rw [if_pos hlimit]
            exact ih hdescend
          · next hlimit =>
            rw [if_neg hlimit]
            exact hdescend

theorem printTree_mono {children : FiniteMap UInt64 (List TreeEntry)} {maxDepth fuel fuel' : ℕ}
    {node : UInt64} {indent : String} {depth : ℕ} {out out' : TreeOutput} (hle : fuel ≤ fuel')
    (h : printTree children maxDepth fuel node indent depth out = some out') :
  printTree children maxDepth fuel' node indent depth out = some out'
  := by
  induction hle with
  | refl => exact h
  | step _ ih => exact printTree_succ ih

/-- With a limit the tree ends, whatever comes below what. -/
theorem exists_printTree {children : FiniteMap UInt64 (List TreeEntry)} {maxDepth : ℕ}
    (hlimit : maxDepth ≠ 0) {fuel depth : ℕ} (hfuel : maxDepth < depth + fuel)
    (hdepth : depth ≤ maxDepth) (node : UInt64) (indent : String) (out : TreeOutput) :
  ∃ out', printTree children maxDepth fuel node indent depth out = some out'
  := by
  induction fuel generalizing depth node indent out with
  | zero => omega
  | succ fuel ih =>
      rw [← Option.ne_none_iff_exists', printTree]
      cases children.get node with
      | none => exact Option.some_ne_none _
      | some entries =>
          have hdescend (ino : UInt64) (indent : String) (out : TreeOutput) :
              (if maxDepth = 0 ∨ depth < maxDepth then
                  printTree children maxDepth fuel ino indent (depth + 1) out
                else some out) = none ↔ False := by
            split
            · next hlt =>
              have hnext : maxDepth < depth + 1 + fuel := by omega
              obtain ⟨out', hout'⟩ := ih hnext (hlt.resolve_left hlimit) ino indent out
              simp [hout']
            · simp
          dsimp only
          rw [Ne, printEntries_eq_none_iff hdescend]
          simp

/-! ### What is listed -/

namespace DiskManager

variable [Crc32] {dm : DiskManager}

/-- An inode is listed. -/
def Lists (dm : DiskManager) (inode : InodeRaw) : Prop := dm.ListsIn 0 maxFiles inode

/-- A directory with the second number is listed below the first one. -/
def HoldsDirectory (dm : DiskManager) (a b : UInt64) : Prop :=
  ∃ inode, dm.Lists inode ∧ inode.getParentIno = a ∧ inode.isDir = 1 ∧ inode.ino = b

/-- What is below an inode once some slots were taken. -/
theorem mem_collectChildren {k n : ℕ} {children : FiniteMap UInt64 (List TreeEntry)}
    {a : UInt64} {entry : TreeEntry} :
  entry ∈ ((dm.collectChildren (List.range' k n) children).get a).getD []
    ↔ entry ∈ (children.get a).getD []
      ∨ ∃ inode, dm.ListsIn k n inode ∧ inode.getParentIno = a ∧ .ofInode inode = entry
  := by
  induction n generalizing k children with
  | zero =>
      apply (or_iff_left _).symm
      rintro ⟨inode, ⟨i, hlo, hhi, -⟩, -⟩
      omega
  | succ n ih =>
      rw [List.range'_succ, collectChildren]
      cases hread : dm.readInode k with
      | error e =>
          apply (or_iff_left _).symm
          rintro ⟨inode, hlists, -⟩
          exact not_listsIn_of_error hread inode hlists
      | ok x =>
          dsimp only
          rw [ih]
          simp only [listsIn_succ hread]
          split
          · next hvalid =>
            have hpush : entry ∈ ((children.push x.getParentIno (.ofInode x)).get a).getD []
                ↔ entry ∈ (children.get a).getD []
                  ∨ x.getParentIno = a ∧ .ofInode x = entry := by
              rw [FiniteMap.push, FiniteMap.get_insert]
              split
              · next heq =>
                rw [heq, Option.getD_some, List.mem_append, List.mem_singleton, and_iff_right rfl,
                  eq_comm (a := entry)]
              · next hne =>
                have hne' : x.getParentIno ≠ a := fun heq => hne heq.symm
                rw [or_iff_left fun h => hne' h.1]
            rw [hpush, or_assoc]
            apply or_congr_right
            constructor
            · rintro (⟨hparent, hentry⟩ | ⟨inode, hlists, hinode⟩)
              · exact ⟨x, .inl ⟨rfl, hvalid⟩, hparent, hentry⟩
              · exact ⟨inode, .inr hlists, hinode⟩
            · rintro ⟨inode, ⟨rfl, -⟩ | hlists, hinode⟩
              · exact .inl hinode
              · exact .inr ⟨inode, hlists, hinode⟩
          · next hinvalid =>
            apply or_congr_right
            apply exists_congr
            intro inode
            rw [or_iff_right]
            rintro ⟨-, hvalid⟩
            exact hinvalid hvalid

/-- What is below an inode in the end. -/
theorem mem_children {a : UInt64} {entry : TreeEntry} :
  entry ∈ (dm.children.get a).getD []
    ↔ ∃ inode, dm.Lists inode ∧ inode.getParentIno = a ∧ .ofInode inode = entry
  := by
  have hsorted : entry ∈ (dm.children.get a).getD [] ↔ entry
      ∈ ((dm.collectChildren (List.range' 0 maxFiles) .empty).get a).getD [] := by
    rw [children, FiniteMap.get_map, List.range_eq_range']
    cases (dm.collectChildren (List.range' 0 maxFiles) .empty).get a with
    | none => exact Iff.rfl
    | some entries => exact List.mem_mergeSort
  rw [hsorted, mem_collectChildren, FiniteMap.get_empty]
  exact or_iff_right List.not_mem_nil

theorem directoryBelow_children {a b : UInt64} :
  DirectoryBelow dm.children a b ↔ dm.HoldsDirectory a b
  := by
  constructor
  · rintro ⟨entry, hentry, hdir, rfl⟩
    obtain ⟨inode, hlists, hparent, rfl⟩ := mem_children.mp hentry
    exact ⟨inode, hlists, hparent, of_decide_eq_true hdir, rfl⟩
  · rintro ⟨inode, hlists, hparent, hdir, rfl⟩
    exact ⟨.ofInode inode, mem_children.mpr ⟨inode, hlists, hparent, rfl⟩, decide_eq_true hdir,
      rfl⟩

end DiskManager

/-- The numbers of the entries of a tree. -/
def listedInos (children : FiniteMap UInt64 (List TreeEntry)) : Finset UInt64 :=
  (children.entries.flatMap fun e => e.2.map TreeEntry.ino).toFinset

theorem mem_listedInos {children : FiniteMap UInt64 (List TreeEntry)} {a b : UInt64}
    (h : DirectoryBelow children a b) :
  b ∈ listedInos children
  := by
  obtain ⟨entry, hentry, -, rfl⟩ := h
  cases hget : children.get a with
  | none =>
      rw [hget] at hentry
      cases hentry
  | some entries =>
      rw [hget, Option.getD_some] at hentry
      rw [listedInos, List.mem_toFinset, List.mem_flatMap]
      exact ⟨(a, entries), FiniteMap.mem_entries.mpr hget, List.mem_map_of_mem hentry⟩

/-! ### Ending -/

section Ending

variable [Crc32]

/-- Without a limit of the depth the tree of an image is printed, with any fuel that is large
enough, exactly when no directory that is reached from the root comes below itself. -/
theorem cmdTree_ends_iff {image : Image} {dm : DiskManager}
    (h : DiskManager.open image = .ok dm) :
  (∃ out bound, ∀ fuel, bound ≤ fuel → cmdTree fuel image 0 = .ok (some out))
    ↔ ¬ ∃ ino, Relation.ReflTransGen dm.HoldsDirectory 1 ino
      ∧ Relation.TransGen dm.HoldsDirectory ino ino
  := by
  have htree (fuel : ℕ) : cmdTree fuel image 0
      = .ok (printTree dm.children 0 fuel 1 "" 0 .start) := by
    rw [cmdTree, h]
    rfl
  have hbelow : DirectoryBelow dm.children = dm.HoldsDirectory := by
    funext a b
    exact propext DiskManager.directoryBelow_children
  have hmem (a b : UInt64) (hab : DirectoryBelow dm.children a b) :
      b ∈ listedInos dm.children := mem_listedInos hab
  rw [hbelow] at hmem
  have hcycle : (∀ n, Cycles.Deep dm.HoldsDirectory n 1) ↔ _ := Cycles.forall_deep_iff hmem
  rw [← hcycle]
  constructor
  · rintro ⟨out, bound, hout⟩ hdeep
    have hnone := (printTree_eq_none_iff dm.children bound 1 "" 0 .start).mpr
      (hbelow ▸ hdeep bound)
    have hsome := hout bound (Nat.le_refl _)
    rw [htree, hnone] at hsome
    cases hsome
  · intro hdeep
    obtain ⟨bound, hbound⟩ := not_forall.mp hdeep
    rw [← hbelow, ← printTree_eq_none_iff dm.children bound 1 "" 0 .start,
      ← Ne, Option.ne_none_iff_exists'] at hbound
    obtain ⟨out, hout⟩ := hbound
    refine ⟨out, bound, ?_⟩
    intro fuel hfuel
    rw [htree, printTree_mono hfuel hout]

/-- With a limit of the depth the tree of every image is printed. -/
theorem cmdTree_ends_of_limit {image : Image} {dm : DiskManager}
    (h : DiskManager.open image = .ok dm) {maxDepth : ℕ} (hlimit : maxDepth ≠ 0) :
  ∃ out bound, ∀ fuel, bound ≤ fuel → cmdTree fuel image maxDepth = .ok (some out)
  := by
  have hfuel : maxDepth < 0 + (maxDepth + 1) := by omega
  obtain ⟨out, hout⟩ : ∃ out, printTree dm.children maxDepth (maxDepth + 1) 1 "" 0 .start
      = some out := exists_printTree hlimit hfuel (Nat.zero_le _) 1 "" .start
  refine ⟨out, maxDepth + 1, ?_⟩
  intro fuel hle
  rw [cmdTree, h]
  exact congrArg Except.ok (printTree_mono hle hout)

/-- An image with a directory in the root. -/
theorem open_directory (ino : UInt64) :
  ∃ image dm, DiskManager.open image = .ok dm
    ∧ dm.readInode 0 = .ok (plainInode ino 1 "d" 1)
    ∧ ∀ i x, 1 ≤ i → dm.readInode i = .ok x → x.isUsed = 0
  := by
  let dm₀ := DiskManager.format Image.empty 1048576 0
  let dm₁ := (dm₀.writeInode 0 (plainInode ino 1 "d" 1)).2
  have hblank₀ : dm₀.Blank 0 := .format Image.empty 1048576 0
  have hblank₁ : dm₁.Blank 1 := hblank₀.writeInode (Nat.le_refl 0) _
  have hre₁ : Reopenable dm₁ := hblank₀.reopenable_writeInode (by decide) _
    (Reopenable.format Image.empty 1048576 0)
  obtain ⟨-, hlist⟩ := dm₀.metadata_writeInode 0 (plainInode ino 1 "d" 1)
  obtain ⟨dm, hopen, -, hreads⟩ := open_of_reopenable hblank₁.kept hre₁
    (by rw [hlist]; exact Nat.zero_le _)
  refine ⟨_, dm, hopen, ?_, ?_⟩
  · rw [hreads]
    exact (hblank₀.readInode_writeInode (by decide) _).1
  · intro i x hi hread
    rw [hreads] at hread
    exact hblank₁.isUsed_eq_zero hi hread

/-- The directory is all that is listed. -/
theorem holdsDirectory_iff {dm : DiskManager} {ino : UInt64}
    (hfirst : dm.readInode 0 = .ok (plainInode ino 1 "d" 1))
    (hrest : ∀ i x, 1 ≤ i → dm.readInode i = .ok x → x.isUsed = 0) {a b : UInt64} :
  dm.HoldsDirectory a b ↔ a = 1 ∧ b = ino
  := by
  constructor
  · rintro ⟨inode, ⟨i, -, -, -, hread, hvalid, -⟩, rfl, -, rfl⟩
    cases i with
    | zero =>
        obtain rfl := Except.ok.inj (hfirst.symm.trans hread)
        exact ⟨rfl, rfl⟩
    | succ i =>
        have hunused := hrest (i + 1) inode (Nat.le_add_left 1 i) hread
        rw [InodeRaw.isValid, hunused] at hvalid
        cases hvalid
  · rintro ⟨rfl, rfl⟩
    refine ⟨_, ⟨0, Nat.le_refl 0, by decide, fun j _ hj => absurd hj (Nat.not_lt_zero j), hfirst,
      ?_, ?_⟩, rfl, rfl, rfl⟩
    · rfl
    · have hname : (plainInode b 1 "d" 1).getName = "d" := by rfl
      rw [hname]
      decide

end Ending

/-- The tree of an image with one directory ends. -/
theorem cmdTree_ends_directory :
  let _ := Crc32.ieee
  ∃ image dm, DiskManager.open image = .ok dm
    ∧ dm.readInode 0 = .ok (plainInode 2 1 "d" 1)
    ∧ ∃ out bound, ∀ fuel, bound ≤ fuel → cmdTree fuel image 0 = .ok (some out)
  := by
  intro _
  obtain ⟨image, dm, hopen, hfirst, hrest⟩ := open_directory 2
  refine ⟨image, dm, hopen, hfirst, (cmdTree_ends_iff hopen).mpr ?_⟩
  rintro ⟨ino, -, hcycle⟩
  obtain ⟨b, hfrom, -⟩ := Relation.TransGen.head'_iff.mp hcycle
  obtain ⟨c, -, hto⟩ := Relation.TransGen.tail'_iff.mp hcycle
  obtain ⟨rfl, -⟩ := (holdsDirectory_iff hfirst hrest).mp hfrom
  have heq := ((holdsDirectory_iff hfirst hrest).mp hto).2
  exact absurd heq (by decide)

/-- The tree of an image in which a directory has the number of the root does not end. -/
theorem not_cmdTree_ends :
  let _ := Crc32.ieee
  ¬ ∀ image dm, DiskManager.open image = .ok dm →
    ∃ out bound, ∀ fuel, bound ≤ fuel → cmdTree fuel image 0 = .ok (some out)
  := by
  intro _ h
  obtain ⟨image, dm, hopen, hfirst, hrest⟩ := open_directory 1
  obtain ⟨out, bound, hout⟩ := h image dm hopen
  have hself : DirectoryBelow dm.children 1 1 :=
    DiskManager.directoryBelow_children.mpr ((holdsDirectory_iff hfirst hrest).mpr ⟨rfl, rfl⟩)
  have hdeep := Cycles.forall_deep_of_cycle (Relation.TransGen.single hself) bound
  have hsome := hout bound (Nat.le_refl _)
  rw [cmdTree, hopen] at hsome
  change Except.ok (printTree dm.children 0 bound 1 "" 0 .start) = _ at hsome
  rw [(printTree_eq_none_iff dm.children bound 1 "" 0 .start).mpr hdeep] at hsome
  cases hsome

end Vexfs
