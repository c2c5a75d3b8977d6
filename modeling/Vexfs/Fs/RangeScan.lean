import Vexfs.Fs.BTreeMap

/-!
# Range scans of the index

`list_dir` collects the keys between two sentinels of a parent directory, and skips the
children of a node that cannot hold such keys.  The skipping loses nothing: a range scan of
an ordered tree finds the pairs in the range, in order (`BPlusTree.Valid.listDir_eq`).

The end sentinel is the name of a single character, the largest there is; a name that
starts with this character and goes on is larger, and no scan of its directory finds it.

`Index` is a tree that carries its invariant, with the operations of a finite map.
-/

namespace Vexfs

open SortedMap (Increasing)

/-! ### The scan of a node -/

namespace Node

variable {K V : Type} [LinearOrder K]

mutual

/-- Collect the pairs with keys from `start` to `stop`. -/
def collectRange (start stop : K) : Node K V → List (K × V)
  | .leaf keys vals => (keys.zip vals).filter fun e => start ≤ e.1 ∧ e.1 ≤ stop
  | .internal keys children => collectRangeFrom start stop keys 0 children

/-- Collect the pairs in the range from the children at position `i` and after it.  The
child at `i` has keys from the separator at `i - 1` on and below the separator at `i`. -/
def collectRangeFrom (start stop : K) (keys : List K) : ℕ → List (Node K V) → List (K × V)
  | _, [] => []
  | i, child :: children =>
      let aboveMin := i = 0 ∨ keys[i - 1]?.all (· ≤ stop)
      let belowMax := keys[i]?.all (start ≤ ·)
      let found := if aboveMin ∧ belowMax then child.collectRange start stop else []
      found ++ collectRangeFrom start stop keys (i + 1) children

end

/-- The pairs of a list with keys from `start` to `stop`. -/
def range (start stop : K) (es : List (K × V)) : List (K × V) :=
  es.filter fun e => start ≤ e.1 ∧ e.1 ≤ stop

theorem range_append (start stop : K) (es es' : List (K × V)) :
  range start stop (es ++ es') = range start stop es ++ range start stop es'
  := List.filter_append es es'

theorem range_eq_nil {start stop : K} {es : List (K × V)}
    (h : ∀ e ∈ es, e.1 < start ∨ stop < e.1) :
  range start stop es = []
  := by
  apply List.filter_eq_nil_iff.mpr
  intro e he hin
  obtain ⟨hlo, hhi⟩ := of_decide_eq_true hin
  obtain hlt | hlt := h e he
  · exact hlo.not_gt hlt
  · exact hhi.not_gt hlt

mutual

/-- The scan of a node finds the pairs in the range. -/
theorem collectRange_eq (node : Node K V) {lo : WithBot K} {hi : WithTop K}
    (h : node.Ordered lo hi) (start stop : K) :
  node.collectRange start stop = range start stop node.collectAll
  := by
  cases node with
  | leaf keys vals => rw [collectRange, collectAll, range]
  | internal keys children =>
      rw [collectRange, collectAll]
      exact collectRangeFrom_eq children rfl (fun _ hpos => absurd rfl hpos.1) h start stop

/-- The scan of the children from position `i` on finds their pairs in the range, when the
separator before `i` is the lower end of what they cut up. -/
theorem collectRangeFrom_eq (children : List (Node K V)) {i : ℕ} {keys rest : List K}
    {lo : WithBot K} {hi : WithTop K} (hrest : keys.drop i = rest)
    (hlo : ∀ s, i ≠ 0 ∧ keys[i - 1]? = some s → lo = s)
    (h : OrderedChildren children rest lo hi) (start stop : K) :
  collectRangeFrom start stop keys i children = range start stop (collectChildren children)
  := by
  cases children with
  | nil => exact h.elim
  | cons child children =>
      rw [collectRangeFrom, collectChildren, range_append]
      -- A child is skipped when its range lies above `stop` or below `start`.
      have hskip : ∀ {hi' : WithTop K}, child.Ordered lo hi' →
          (∀ s, keys[i]? = some s → hi' = s) →
          (if (i = 0 ∨ keys[i - 1]?.all (· ≤ stop)) ∧ keys[i]?.all (start ≤ ·) then
              child.collectRange start stop else [])
            = range start stop child.collectAll := by
        intro hi' hchild hhi
        split
        · exact collectRange_eq child hchild start stop
        · rename_i hskip
          symm
          apply range_eq_nil
          intro e he
          obtain ⟨hle, hlt⟩ := (collectAll_within child hchild).2 e he
          obtain habove | hbelow := not_and_or.mp hskip
          · obtain ⟨hpos, hall⟩ := not_or.mp habove
            cases hkey : keys[i - 1]? with
            | none => simp [hkey] at hall
            | some s =>
                rw [hlo s ⟨hpos, hkey⟩] at hle
                right
                simp only [hkey, Option.all_some, decide_eq_true_eq, not_le] at hall
                exact hall.trans_le (WithBot.coe_le_coe.mp hle)
          · cases hkey : keys[i]? with
            | none => simp [hkey] at hbelow
            | some s =>
                rw [hhi s hkey] at hlt
                left
                simp only [hkey, Option.all_some, decide_eq_true_eq, not_le] at hbelow
                exact (WithTop.coe_lt_coe.mp hlt).trans hbelow
      cases rest with
      | nil =>
          obtain ⟨rfl, hchild⟩ := h
          have hnone : keys[i]? = none := by
            apply List.getElem?_eq_none
            exact List.drop_eq_nil_iff.mp hrest
          have hfound := hskip hchild (by simp [hnone])
          rw [hfound, collectRangeFrom, collectChildren]
          rfl
      | cons s rest =>
          obtain ⟨hchild, -, hchildren⟩ := h
          have hsome : keys[i]? = some s := by
            rw [← List.head?_drop, hrest, List.head?_cons]
          have hdrop : keys.drop (i + 1) = rest := by
            rw [← List.tail_drop, hrest, List.tail_cons]
          have hnext : ∀ t, i + 1 ≠ 0 ∧ keys[i + 1 - 1]? = some t → (s : WithBot K) = t := by
            rintro t ⟨-, ht⟩
            rw [Nat.add_sub_cancel, hsome] at ht
            rw [Option.some.inj ht]
          have hfound := hskip hchild (by simp [hsome])
          rw [hfound, collectRangeFrom_eq children hdrop hnext hchildren]

end

end Node

/-! ### Listing a directory -/

namespace Key

/-- The smallest key of a directory. -/
def dirStart (parentIno : UInt64) : Key := ⟨parentIno, ""⟩

/-- The name of the end sentinel: the largest character, alone. -/
def lastName : String := String.singleton (Char.ofNat 0x10FFFF)

/-- The key that ends the scan of a directory. -/
def dirEnd (parentIno : UInt64) : Key := ⟨parentIno, lastName⟩

/-- Two keys compare by their parents, then by their names. -/
theorem le_iff {a b : Key} :
  a ≤ b ↔ a.parentIno.toNat < b.parentIno.toNat
    ∨ a.parentIno = b.parentIno ∧ a.name ≤ b.name
  := by
  rw [← UInt64.toNat_inj]
  exact Prod.Lex.toLex_le_toLex

theorem empty_le (s : String) :
  "" ≤ s
  := by
  rw [← not_lt, String.lt_iff_toList_lt, String.toList_empty]
  generalize s.toList = cs
  intro h
  cases h

/-- The keys a scan of a directory finds. -/
theorem scanned_iff {parentIno : UInt64} {key : Key} :
  dirStart parentIno ≤ key ∧ key ≤ dirEnd parentIno
    ↔ key.parentIno = parentIno ∧ key.name ≤ lastName
  := by
  simp only [le_iff, dirStart, dirEnd]
  constructor
  · rintro ⟨hlo | ⟨rfl, -⟩, hhi | ⟨heq, hname⟩⟩
    · omega
    · rw [heq] at hlo
      exact absurd hlo (Nat.lt_irrefl _)
    · exact absurd hhi (Nat.lt_irrefl _)
    · exact ⟨rfl, hname⟩
  · rintro ⟨rfl, hname⟩
    exact ⟨Or.inr ⟨rfl, empty_le _⟩, Or.inr ⟨rfl, hname⟩⟩

end Key

namespace BPlusTree

/-- List the entries of a directory. -/
def listDir (tree : BPlusTree) (parentIno : UInt64) : List (Key × Value) :=
  tree.root.collectRange (.dirStart parentIno) (.dirEnd parentIno)

/-- Range scan by raw keys. -/
def rangeKeys (tree : BPlusTree) (start stop : Key) : List (Key × Value) :=
  tree.root.collectRange start stop

/-- A range scan finds the entries in the range, whichever end is the larger. -/
theorem Valid.rangeKeys_eq {tree : BPlusTree} (h : tree.Valid) (start stop : Key) :
  tree.rangeKeys start stop = tree.listAll.filter fun e => start ≤ e.1 ∧ e.1 ≤ stop
  := Node.collectRange_eq tree.root h.ordered start stop

/-- Listing a directory finds its entries up to the end sentinel. -/
theorem Valid.listDir_eq {tree : BPlusTree} (h : tree.Valid) (parentIno : UInt64) :
  tree.listDir parentIno = tree.listAll.filter fun e =>
    e.1.parentIno = parentIno ∧ e.1.name ≤ Key.lastName
  := by
  rw [listDir, ← rangeKeys, h.rangeKeys_eq]
  apply List.filter_congr
  intro e _
  rw [decide_eq_decide]
  exact Key.scanned_iff

/-- The listing of a directory has all its entries exactly when none has a name past the end
sentinel. -/
theorem Valid.listDir_eq_filter_iff {tree : BPlusTree} (h : tree.Valid) (parentIno : UInt64) :
  (tree.listDir parentIno = tree.listAll.filter fun e => e.1.parentIno = parentIno)
    ↔ ∀ e ∈ tree.listAll, e.1.parentIno = parentIno → e.1.name ≤ Key.lastName
  := by
  rw [h.listDir_eq]
  constructor
  · intro heq e he hparent
    have hmem : e ∈ tree.listAll.filter fun e => e.1.parentIno = parentIno :=
      List.mem_filter.mpr ⟨he, decide_eq_true hparent⟩
    rw [← heq] at hmem
    exact (of_decide_eq_true (List.mem_filter.mp hmem).2).2
  · intro hnames
    apply List.filter_congr
    intro e he
    rw [decide_eq_decide]
    exact and_iff_left_of_imp (hnames e he)

end BPlusTree

/-- After any calls on a new tree, a range scan gives the entries of the list of all entries
that are in the range, in their order. -/
theorem range_scan_complete (calls : List TreeCall) :
  ∃ tree, calls.foldlM TreeCall.run BPlusTree.new = .ok tree ∧ ∀ start stop,
    tree.rangeKeys start stop = tree.listAll.filter fun e => start ≤ e.1 ∧ e.1 ≤ stop
  := by
  obtain ⟨tree, hrun, hvalid, -⟩ := TreeCall.foldlM_run_eq BPlusTree.valid_new calls
  exact ⟨tree, hrun, hvalid.rangeKeys_eq⟩

/-- After any calls on a new tree, listing a directory gives all its entries, in the order of
the list of all entries, exactly when no entry of the directory has a name past the end
sentinel. -/
theorem listDir_complete_iff (calls : List TreeCall) (parentIno : UInt64) :
  ∃ tree, calls.foldlM TreeCall.run BPlusTree.new = .ok tree ∧
    ((tree.listDir parentIno = tree.listAll.filter fun e => e.1.parentIno = parentIno)
      ↔ ∀ name, (TreeCall.contents calls ⟨parentIno, name⟩).isSome → name ≤ Key.lastName)
  := by
  obtain ⟨tree, hrun, hvalid, hlookup⟩ := TreeCall.foldlM_run_eq BPlusTree.valid_new calls
  have hcontents : ∀ key, tree.listAll.lookup key = TreeCall.contents calls key :=
    fun key => congrFun hlookup key
  use tree, hrun
  rw [hvalid.listDir_eq_filter_iff]
  constructor
  · intro hnames name hsome
    rw [← hcontents] at hsome
    obtain ⟨value, hvalue⟩ := Option.isSome_iff_exists.mp hsome
    exact hnames _ ((SortedMap.mem_iff_lookup hvalid.increasing).mpr hvalue) rfl
  · rintro hnames ⟨⟨p, name⟩, value⟩ he rfl
    apply hnames
    rw [← hcontents, (SortedMap.mem_iff_lookup hvalid.increasing).mp he]
    rfl

/-- A name that starts with the largest character and goes on is not listed. -/
theorem not_listDir_complete :
  ¬ ∀ (calls : List TreeCall) (tree : BPlusTree) (parentIno : UInt64),
      calls.foldlM TreeCall.run BPlusTree.new = .ok tree →
      tree.listDir parentIno = tree.listAll.filter fun e => e.1.parentIno = parentIno
  := by
  intro h
  let name := Key.lastName ++ "a"
  let calls : List TreeCall := [.insert 1 name ⟨2, 0, false, 0⟩]
  obtain ⟨tree, hrun, hvalid, hlookup⟩ := TreeCall.foldlM_run_eq BPlusTree.valid_new calls
  have hsome : tree.listAll.lookup ⟨1, name⟩ = some ⟨2, 0, false, 0⟩ := by
    apply Eq.trans (congrFun hlookup ⟨1, name⟩)
    rw [List.foldl_cons, List.foldl_nil, TreeCall.apply, Function.update_self]
  have hmem := (SortedMap.mem_iff_lookup hvalid.increasing).mpr hsome
  have hle := (hvalid.listDir_eq_filter_iff 1).mp (h calls tree 1 hrun) _ hmem rfl
  exact absurd hle (by decide)

/-! ### A tree with its invariant -/

/-- A tree whose operations never fail. -/
structure Index where
  tree : BPlusTree
  valid : tree.Valid

namespace Index

def new : Index := ⟨.new, BPlusTree.valid_new⟩

/-- The entries of the index. -/
def entries (index : Index) : List (Key × Value) := index.tree.listAll

/-- `BPlusTree::insert`, which goes through. -/
def insert (index : Index) (parentIno : UInt64) (name : String) (value : Value) : Index :=
  match h : index.tree.insert parentIno name value with
  | .ok tree => ⟨tree, by
      obtain ⟨tree', heq, hvalid, -⟩ := index.valid.insert_eq parentIno name value
      rw [h] at heq
      cases heq
      exact hvalid⟩
  | .error _ => index

/-- `BPlusTree::remove`, which goes through. -/
def remove (index : Index) (parentIno : UInt64) (name : String) : Option Value × Index :=
  match h : index.tree.remove parentIno name with
  | .ok (tree, val) => (val, ⟨tree, by
      obtain ⟨tree', heq, hvalid, -⟩ := index.valid.remove_eq parentIno name
      rw [h] at heq
      cases heq
      exact hvalid⟩)
  | .error _ => (none, index)

/-- `BPlusTree::get`, which goes through. -/
def get (index : Index) (parentIno : UInt64) (name : String) : Option Value :=
  match index.tree.get parentIno name with
  | .ok val => val
  | .error _ => none

def listDir (index : Index) (parentIno : UInt64) : List (Key × Value) :=
  index.tree.listDir parentIno

@[simp]
theorem entries_new :
  new.entries = []
  := rfl

theorem increasing (index : Index) :
  Increasing index.entries
  := index.valid.increasing

@[simp]
theorem get_eq (index : Index) (parentIno : UInt64) (name : String) :
  index.get parentIno name = index.entries.lookup ⟨parentIno, name⟩
  := by
  rw [get, index.valid.get_eq, entries]

@[simp]
theorem entries_insert (index : Index) (parentIno : UInt64) (name : String) (value : Value) :
  (index.insert parentIno name value).entries
    = SortedMap.insert ⟨parentIno, name⟩ value index.entries
  := by
  obtain ⟨tree', heq, -, hall⟩ := index.valid.insert_eq parentIno name value
  unfold insert
  split
  · rename_i tree h
    rw [h] at heq
    cases heq
    exact hall
  · rename_i h
    rw [h] at heq
    cases heq

theorem remove_cases (index : Index) (parentIno : UInt64) (name : String) :
  (index.remove parentIno name).1 = index.entries.lookup ⟨parentIno, name⟩
    ∧ (index.remove parentIno name).2.entries
      = SortedMap.erase ⟨parentIno, name⟩ index.entries
  := by
  obtain ⟨tree', heq, -, hall⟩ := index.valid.remove_eq parentIno name
  unfold remove
  split
  · rename_i tree val h
    rw [h] at heq
    cases heq
    exact ⟨rfl, hall⟩
  · rename_i h
    rw [h] at heq
    cases heq

@[simp]
theorem fst_remove (index : Index) (parentIno : UInt64) (name : String) :
  (index.remove parentIno name).1 = index.entries.lookup ⟨parentIno, name⟩
  := (index.remove_cases parentIno name).1

@[simp]
theorem entries_remove (index : Index) (parentIno : UInt64) (name : String) :
  (index.remove parentIno name).2.entries
    = SortedMap.erase ⟨parentIno, name⟩ index.entries
  := (index.remove_cases parentIno name).2

theorem listDir_eq (index : Index) (parentIno : UInt64) :
  index.listDir parentIno = index.entries.filter fun e =>
    e.1.parentIno = parentIno ∧ e.1.name ≤ Key.lastName
  := index.valid.listDir_eq parentIno

end Index

end Vexfs
