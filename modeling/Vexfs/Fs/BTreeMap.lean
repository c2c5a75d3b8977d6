import Mathlib.Algebra.Order.Ring.Nat
import Mathlib.Data.ENat.Basic
import Mathlib.Logic.Function.Basic
import Vexfs.Fs.BTree

/-!
# The metadata index is a finite map

`Node.Ordered lo hi` is the invariant of a node: it survives every insertion, with the
splits of leaves and internal nodes that it causes, and every removal.  Under it the
operations of a node are those of the sorted list of its pairs, and the operations of the
tree are those of a finite map from keys to values.
-/

namespace Vexfs

open SortedMap (Increasing)

variable {K V : Type} [LinearOrder K]

/-- The keys of a range: at least `lo` and less than `hi`. -/
def Within (lo : WithBot K) (hi : WithTop K) (k : K) : Prop :=
  lo ≤ k ∧ k < hi

/-- The separators of a range: strictly between its ends. -/
def Between (lo : WithBot K) (hi : WithTop K) (s : K) : Prop :=
  lo < s ∧ s < hi

theorem Between.le_trans {lo : WithBot K} {hi : WithTop K} {s k : K} (h : Between lo hi s)
    (hk : s ≤ k) :
  lo ≤ k
  := h.1.le.trans (WithBot.coe_le_coe.mpr hk)

theorem Between.lt_trans {lo : WithBot K} {hi : WithTop K} {s k : K} (h : Between lo hi s)
    (hk : k < s) :
  (k : WithTop K) < hi
  := (WithTop.coe_lt_coe.mpr hk).trans h.2

namespace Node

mutual

/-- The keys under a node increase and lie in its range, and the separators of an internal
node cut its range into those of its children. -/
def Ordered : Node K V → WithBot K → WithTop K → Prop
  | .leaf keys vals, lo, hi =>
      keys.length = vals.length ∧ keys.Pairwise (· < ·) ∧ ∀ k ∈ keys, Within lo hi k
  | .internal keys children, lo, hi => OrderedChildren children keys lo hi

/-- The separators cut a range into those of the children. -/
def OrderedChildren : List (Node K V) → List K → WithBot K → WithTop K → Prop
  | [], _, _, _ => False
  | child :: children, [], lo, hi => children = [] ∧ child.Ordered lo hi
  | child :: children, s :: keys, lo, hi =>
      child.Ordered lo s ∧ Between lo hi s ∧ OrderedChildren children keys s hi

end

/-! ### Leaves -/

/-- The leaf of a list of pairs. -/
def ofPairs (es : List (K × V)) : Node K V :=
  .leaf (es.map Prod.fst) (es.map Prod.snd)

omit [LinearOrder K] in
theorem collectAll_ofPairs (es : List (K × V)) :
  (ofPairs es).collectAll = es
  := by
  rw [ofPairs, collectAll, ← List.unzip_fst, ← List.unzip_snd, List.zip_unzip]

theorem ordered_ofPairs {es : List (K × V)} {lo : WithBot K} {hi : WithTop K} :
  (ofPairs es).Ordered lo hi ↔ Increasing es ∧ ∀ e ∈ es, Within lo hi e.1
  := by
  simp [ofPairs, Ordered, Increasing, List.pairwise_map]

theorem Ordered.exists_pairs {keys : List K} {vals : List V} {lo : WithBot K}
    {hi : WithTop K} (h : (leaf keys vals).Ordered lo hi) :
  ∃ es, leaf keys vals = ofPairs es
  := by
  use keys.zip vals
  rw [ofPairs, List.map_fst_zip h.1.le, List.map_snd_zip h.1.ge]

theorem partitionPoint_keys {key : K} {lower upper : List (K × V)}
    (hl : ∀ e ∈ lower, e.1 < key) (hu : ∀ e ∈ upper, key ≤ e.1) :
  Vec.partitionPoint (· < key) ((lower ++ upper).map Prod.fst) = lower.length
  := by
  rw [List.map_append, Vec.partitionPoint_append, List.length_map]
  · intro k hk
    obtain ⟨e, he, rfl⟩ := List.mem_map.mp hk
    simpa using hl e he
  · intro k hk
    obtain ⟨e, he, rfl⟩ := List.mem_map.mp hk
    simpa using hu e he

/-- The search position of a leaf holds the key exactly when the leaf maps it. -/
theorem get_ofPairs {es : List (K × V)} (h : Increasing es) (key : K) :
  (ofPairs es).get key = .ok (es.lookup key)
  := by
  obtain ⟨lower, upper, rfl, hl, hu⟩ := h.exists_split key
  rw [SortedMap.lookup_append_right _ hl]
  obtain ⟨v, rest, rfl, hr⟩ | hu := hu
  · rw [ofPairs, get,
      partitionPoint_keys hl (List.forall_mem_cons.mpr ⟨le_rfl, fun e he => (hr e he).le⟩)]
    simp only [List.map_append, List.map_cons]
    rw [Vec.index_append (by simp)]
    simp
  · rw [ofPairs, get, partitionPoint_keys hl fun e he => (hu e he).le,
      SortedMap.lookup_eq_none fun e he => (hu e he).ne']
    cases upper with
    | nil => simp
    | cons e upper => simp [(hu e (by simp)).ne']

/-- What an insertion leaves: a node and, when it was split, a right node, which together
hold `es` within the range that the node had. -/
def Holds (lo : WithBot K) (hi : WithTop K) (es : List (K × V)) (node : Node K V) :
    InsertResult K V → Prop
  | .ok => node.Ordered lo hi ∧ node.collectAll = es
  | .split promoted right =>
      Between lo hi promoted ∧ node.Ordered lo promoted ∧ right.Ordered promoted hi ∧
        node.collectAll ++ right.collectAll = es

/-- A leaf that may have become too long is split into leaves of the same range. -/
theorem splitLeaf_ofPairs {es : List (K × V)} {lo : WithBot K} {hi : WithTop K}
    (h : (ofPairs es).Ordered lo hi) :
  ∃ node result, splitLeaf (es.map Prod.fst) (es.map Prod.snd) = .ok (node, result) ∧
    Holds lo hi es node result
  := by
  by_cases hlen : es.length ≥ order
  · have hmid : 0 < es.length / 2 ∧ es.length / 2 < es.length := by
      rw [order] at hlen
      omega
    obtain ⟨left, e, rest, hes, hleft⟩ := Vec.exists_cut hmid.2
    obtain ⟨d, left', rfl⟩ := List.exists_cons_of_length_pos (hleft ▸ hmid.1)
    obtain ⟨hinc, hin⟩ := ordered_ofPairs.mp h
    rw [hes] at hinc hin
    obtain ⟨hincl, hincr, hlt⟩ := List.pairwise_append.mp hinc
    have hd : d.1 < e.1 := hlt d (by simp) e (by simp)
    use ofPairs (d :: left'), .split e.1 (ofPairs (e :: rest))
    constructor
    · simp only [splitLeaf, List.length_map, if_pos hlen]
      rw [hleft, hes, List.map_append, List.map_append, Vec.splitOff_append (by simp),
        Vec.splitOff_append (by simp)]
      rfl
    · refine ⟨⟨?_, ?_⟩, ordered_ofPairs.mpr ⟨hincl, ?_⟩, ordered_ofPairs.mpr ⟨hincr, ?_⟩, ?_⟩
      · exact (hin d (by simp)).1.trans_lt (WithBot.coe_lt_coe.mpr hd)
      · exact (hin e (by simp)).2
      · intro f hf
        exact ⟨(hin f (List.mem_append_left _ hf)).1,
          WithTop.coe_lt_coe.mpr (hlt f hf e (by simp))⟩
      · intro f hf
        refine ⟨WithBot.coe_le_coe.mpr ?_, (hin f (List.mem_append_right _ hf)).2⟩
        obtain rfl | hf := List.mem_cons.mp hf
        · exact le_rfl
        · exact ((List.pairwise_cons.mp hincr).1 f hf).le
      · rw [collectAll_ofPairs, collectAll_ofPairs, hes]
  · use ofPairs es, .ok
    exact ⟨by simp [splitLeaf, hlen, ofPairs]; rfl, h, collectAll_ofPairs es⟩

/-- Inserting into a leaf. -/
theorem insert_ofPairs {es : List (K × V)} {lo : WithBot K} {hi : WithTop K} {key : K}
    (h : (ofPairs es).Ordered lo hi) (hkey : Within lo hi key) (val : V) :
  ∃ node result, (ofPairs es).insert key val = .ok (node, result) ∧
    Holds lo hi (SortedMap.insert key val es) node result
  := by
  obtain ⟨hes, hin⟩ := ordered_ofPairs.mp h
  have hinserted : (ofPairs (SortedMap.insert key val es)).Ordered lo hi := by
    apply ordered_ofPairs.mpr
    use hes.insert key val
    intro e he
    obtain rfl | he := SortedMap.mem_of_mem_insert he
    · exact hkey
    · exact hin e he
  obtain ⟨lower, upper, rfl, hl, hu⟩ := hes.exists_split key
  rw [SortedMap.insert_append_right val _ hl] at hinserted ⊢
  obtain ⟨w, rest, rfl, hr⟩ | hu := hu
  · rw [SortedMap.insert_cons_self hr] at hinserted ⊢
    use ofPairs (lower ++ (key, val) :: rest), .ok
    refine ⟨?_, hinserted, collectAll_ofPairs _⟩
    rw [ofPairs, insert, partitionPoint_keys hl
      (List.forall_mem_cons.mpr ⟨le_rfl, fun e he => (hr e he).le⟩)]
    simp only [List.map_append, List.map_cons]
    rw [if_pos (by simp), Vec.update_append (by simp)]
    simp [ofPairs]
  · rw [SortedMap.insert_of_lt hu] at hinserted ⊢
    obtain ⟨node, result, hsplit, hholds⟩ := splitLeaf_ofPairs hinserted
    use node, result
    refine ⟨?_, hholds⟩
    have habsent : ((lower ++ upper).map Prod.fst)[lower.length]? ≠ some key := by
      cases upper with
      | nil => simp
      | cons e upper => simp [(hu e (by simp)).ne']
    rw [ofPairs, insert, partitionPoint_keys hl fun e he => (hu e he).le]
    simp only [if_neg habsent]
    rw [List.map_append, List.map_append, Vec.insert_append (by simp),
      Vec.insert_append (by simp), ← hsplit, List.map_append, List.map_append]
    rfl

/-- What a removal answers about the value that the key had. -/
def removed : Option V → RemoveResult V
  | some val => .ok (some val)
  | none => .notFound

/-- Removing from a leaf. -/
theorem remove_ofPairs {es : List (K × V)} {lo : WithBot K} {hi : WithTop K}
    (h : (ofPairs es).Ordered lo hi) (key : K) :
  (ofPairs es).remove key = .ok (ofPairs (SortedMap.erase key es), removed (es.lookup key)) ∧
    (ofPairs (SortedMap.erase key es)).Ordered lo hi
  := by
  obtain ⟨hes, hin⟩ := ordered_ofPairs.mp h
  constructor
  · obtain ⟨lower, upper, rfl, hl, hu⟩ := hes.exists_split key
    rw [SortedMap.lookup_append_right _ hl, SortedMap.erase_append_right _ hl]
    obtain ⟨w, rest, rfl, hr⟩ | hu := hu
    · rw [SortedMap.erase_cons_self hr, List.lookup_cons_self, ofPairs, remove,
        partitionPoint_keys hl (List.forall_mem_cons.mpr ⟨le_rfl, fun e he => (hr e he).le⟩)]
      simp only [List.map_append, List.map_cons]
      rw [if_pos (by simp), Vec.remove_append (by simp), Vec.remove_append (by simp)]
      simp [ofPairs, removed]
      rfl
    · have habsent : ((lower ++ upper).map Prod.fst)[lower.length]? ≠ some key := by
        cases upper with
        | nil => simp
        | cons e upper => simp [(hu e (by simp)).ne']
      rw [SortedMap.erase_eq_self fun e he => (hu e he).ne',
        SortedMap.lookup_eq_none fun e he => (hu e he).ne', ofPairs, remove,
        partitionPoint_keys hl fun e he => (hu e he).le]
      simp only [if_neg habsent]
      rfl
  · apply ordered_ofPairs.mpr
    exact ⟨hes.erase key, fun e he => hin e (SortedMap.mem_of_mem_erase he)⟩

/-! ### Nodes -/

mutual

/-- The pairs under a node increase and lie in its range. -/
theorem collectAll_within (node : Node K V) {lo : WithBot K} {hi : WithTop K}
    (h : node.Ordered lo hi) :
  Increasing node.collectAll ∧ ∀ e ∈ node.collectAll, Within lo hi e.1
  := by
  cases node with
  | leaf keys vals =>
      obtain ⟨es, hes⟩ := h.exists_pairs
      rw [hes] at h ⊢
      rw [collectAll_ofPairs]
      exact ordered_ofPairs.mp h
  | internal keys children => exact collectChildren_within children h

/-- The pairs of the children increase and lie in the range the children cut up. -/
theorem collectChildren_within (children : List (Node K V)) {keys : List K}
    {lo : WithBot K} {hi : WithTop K} (h : OrderedChildren children keys lo hi) :
  Increasing (collectChildren children) ∧ ∀ e ∈ collectChildren children, Within lo hi e.1
  := by
  cases children with
  | nil => exact h.elim
  | cons child children =>
      cases keys with
      | nil =>
          obtain ⟨rfl, hchild⟩ := h
          rw [collectChildren, collectChildren, List.append_nil]
          exact collectAll_within child hchild
      | cons s keys =>
          obtain ⟨hchild, hs, hrest⟩ := h
          obtain ⟨hinc, hin⟩ := collectAll_within child hchild
          obtain ⟨hinc', hin'⟩ := collectChildren_within children hrest
          rw [collectChildren]
          constructor
          · apply List.pairwise_append.mpr
            refine ⟨hinc, hinc', ?_⟩
            intro e he e' he'
            apply WithTop.coe_lt_coe.mp
            apply (hin e he).2.trans_le
            exact WithTop.coe_le_coe.mpr (WithBot.coe_le_coe.mp (hin' e' he').1)
          · intro e he
            obtain he | he := List.mem_append.mp he
            · exact ⟨(hin e he).1, hs.lt_trans (WithTop.coe_lt_coe.mp (hin e he).2)⟩
            · exact ⟨hs.le_trans (WithBot.coe_le_coe.mp (hin' e he).1), (hin' e he).2⟩

end

/-- Pairs left of a separator are below every key from the separator on. -/
theorem Ordered.lt_of_le {child : Node K V} {lo : WithBot K} {s key : K}
    (h : child.Ordered lo s) (hkey : s ≤ key) :
  ∀ e ∈ child.collectAll, e.1 < key
  := fun e he =>
    (WithTop.coe_lt_coe.mp ((collectAll_within child h).2 e he).2).trans_le hkey

/-- Pairs right of a separator are above every key before the separator. -/
theorem OrderedChildren.lt_of_lt {children : List (Node K V)} {keys : List K}
    {hi : WithTop K} {s key : K} (h : OrderedChildren children keys s hi) (hkey : key < s) :
  ∀ e ∈ collectChildren children, key < e.1
  := fun e he =>
    hkey.trans_le (WithBot.coe_le_coe.mp ((collectChildren_within children h).2 e he).1)

mutual

/-- Searching a node reads its pairs. -/
theorem get_eq (node : Node K V) {lo : WithBot K} {hi : WithTop K} (h : node.Ordered lo hi)
    (key : K) :
  node.get key = .ok (node.collectAll.lookup key)
  := by
  cases node with
  | leaf keys vals =>
      obtain ⟨es, hes⟩ := h.exists_pairs
      rw [hes] at h ⊢
      rw [get_ofPairs (ordered_ofPairs.mp h).1, collectAll_ofPairs]
  | internal keys children =>
      rw [get, collectAll]
      exact getChild_eq children h key

/-- The search position of an internal node leads to the child that may hold the key. -/
theorem getChild_eq (children : List (Node K V)) {keys : List K} {lo : WithBot K}
    {hi : WithTop K} (h : OrderedChildren children keys lo hi) (key : K) :
  getChild children (Vec.partitionPoint (· ≤ key) keys) key
    = .ok ((collectChildren children).lookup key)
  := by
  cases children with
  | nil => exact h.elim
  | cons child children =>
      cases keys with
      | nil =>
          obtain ⟨rfl, hchild⟩ := h
          rw [collectChildren, collectChildren, List.append_nil]
          exact get_eq child hchild key
      | cons s keys =>
          obtain ⟨hchild, hs, hrest⟩ := h
          rw [collectChildren]
          by_cases hkey : s ≤ key
          · rw [Vec.partitionPoint_cons_of_pos (by simpa using hkey), getChild,
              SortedMap.lookup_append_right _ (hchild.lt_of_le hkey)]
            exact getChild_eq children hrest key
          · rw [Vec.partitionPoint_cons_of_neg (by simpa using hkey), getChild,
              SortedMap.lookup_append_left _
                (OrderedChildren.lt_of_lt hrest (not_le.mp hkey))]
            exact get_eq child hchild key

end

/-! ### Insertion -/

/-- What an insertion into the children leaves: the children and, when one was split, the
right node to put in behind it, which together hold `es` within the range. -/
def HoldsAt (lo : WithBot K) (hi : WithTop K) (es : List (K × V)) (keys : List K) (pos : ℕ)
    (children : List (Node K V)) : InsertResult K V → Prop
  | .ok => OrderedChildren children keys lo hi ∧ collectChildren children = es
  | .split promoted right => ∃ keys' children',
      Vec.insert keys pos promoted = .ok keys' ∧
        Vec.insert children (pos + 1) right = .ok children' ∧
        OrderedChildren children' keys' lo hi ∧ collectChildren children' = es

/-- A separator cuts the children in two. -/
theorem OrderedChildren.cut {children : List (Node K V)} {lower upper : List K} {s : K}
    {lo : WithBot K} {hi : WithTop K}
    (h : OrderedChildren children (lower ++ s :: upper) lo hi) :
  ∃ left right, children = left ++ right ∧ lower.length + 1 = left.length ∧
    Between lo hi s ∧ OrderedChildren left lower lo s ∧ OrderedChildren right upper s hi
  := by
  induction lower generalizing children lo with
  | nil =>
      cases children with
      | nil => exact h.elim
      | cons child children =>
          obtain ⟨hchild, hs, hrest⟩ := h
          exact ⟨[child], children, rfl, rfl, hs, ⟨rfl, hchild⟩, hrest⟩
  | cons t lower ih =>
      cases children with
      | nil => exact h.elim
      | cons child children =>
          obtain ⟨hchild, ht, hrest⟩ := h
          obtain ⟨left, right, rfl, hlen, hs, hleft, hright⟩ := ih hrest
          refine ⟨child :: left, right, rfl, by simp [hlen], ⟨?_, hs.2⟩, ?_, hright⟩
          · exact ht.1.trans hs.1
          · exact ⟨hchild, ⟨ht.1, WithTop.coe_lt_coe.mpr (WithBot.coe_lt_coe.mp hs.1)⟩, hleft⟩

omit [LinearOrder K] in
theorem collectChildren_append (left right : List (Node K V)) :
  collectChildren (left ++ right) = collectChildren left ++ collectChildren right
  := by
  induction left with
  | nil => rfl
  | cons child left ih => simp [collectChildren, ih]

/-- An internal node that may have become too long is split at its middle separator. -/
theorem splitInternal_holds {keys : List K} {children : List (Node K V)} {lo : WithBot K}
    {hi : WithTop K} (h : OrderedChildren children keys lo hi) :
  ∃ node result, splitInternal keys children = .ok (node, result) ∧
    Holds lo hi (collectChildren children) node result
  := by
  by_cases hlen : keys.length ≥ order
  · have hmid : keys.length / 2 < keys.length := by
      rw [order] at hlen
      omega
    obtain ⟨lower, s, upper, hkeys, hlower⟩ := Vec.exists_cut hmid
    rw [hkeys] at h
    obtain ⟨left, right, rfl, hleft, hs, hl, hr⟩ := OrderedChildren.cut h
    use .internal lower left, .split s (.internal upper right)
    constructor
    · simp only [splitInternal, if_pos hlen]
      rw [hlower, hkeys, Vec.index_append rfl, Vec.splitOff_append hleft,
        show lower ++ s :: upper = (lower ++ [s]) ++ upper by simp,
        Vec.splitOff_append (by simp)]
      show Except.ok (internal (lower ++ [s]).dropLast left, _) = _
      rw [List.dropLast_concat]
    · exact ⟨hs, hl, hr, (collectChildren_append left right).symm⟩
  · use .internal keys children, .ok
    exact ⟨by simp [splitInternal, hlen]; rfl, h, rfl⟩

mutual

/-- Inserting into a node keeps the invariant and inserts into its pairs. -/
theorem insert_holds (node : Node K V) {lo : WithBot K} {hi : WithTop K} {key : K}
    (h : node.Ordered lo hi) (hkey : Within lo hi key) (val : V) :
  ∃ node' result, node.insert key val = .ok (node', result) ∧
    Holds lo hi (SortedMap.insert key val node.collectAll) node' result
  := by
  cases node with
  | leaf keys vals =>
      obtain ⟨es, hes⟩ := h.exists_pairs
      rw [hes] at h ⊢
      rw [collectAll_ofPairs]
      exact insert_ofPairs h hkey val
  | internal keys children =>
      obtain ⟨children', result, hinsert, hholds⟩ := insertChild_holds children h hkey val
      rw [insert, hinsert, collectAll]
      cases result with
      | ok => exact ⟨.internal keys children', .ok, rfl, hholds⟩
      | split promoted right =>
          obtain ⟨keys', children'', hkeys, hchildren, hordered, hes⟩ := hholds
          rw [← hes]
          obtain ⟨node, result, hsplit, hnode⟩ := splitInternal_holds hordered
          use node, result
          refine ⟨?_, hnode⟩
          rw [← hsplit]
          show (do
            let keys ← Vec.insert keys _ promoted
            let children ← Vec.insert children' _ right
            splitInternal keys children) = _
          rw [hkeys, hchildren]
          rfl

/-- Inserting into the child at the search position. -/
theorem insertChild_holds (children : List (Node K V)) {keys : List K} {lo : WithBot K}
    {hi : WithTop K} {key : K} (h : OrderedChildren children keys lo hi)
    (hkey : Within lo hi key) (val : V) :
  ∃ children' result,
    insertChild children (Vec.partitionPoint (· ≤ key) keys) key val
      = .ok (children', result) ∧
    HoldsAt lo hi (SortedMap.insert key val (collectChildren children)) keys
      (Vec.partitionPoint (· ≤ key) keys) children' result
  := by
  cases children with
  | nil => exact h.elim
  | cons child children =>
      cases keys with
      | nil =>
          obtain ⟨rfl, hchild⟩ := h
          obtain ⟨child', result, hinsert, hholds⟩ := insert_holds child hchild hkey val
          rw [collectChildren, collectChildren, List.append_nil, Vec.partitionPoint_nil,
            insertChild, hinsert]
          use [child'], result, rfl
          cases result with
          | ok => exact ⟨⟨rfl, hholds.1⟩, by simpa [collectChildren] using hholds.2⟩
          | split promoted right =>
              obtain ⟨hp, hl, hr, hes⟩ := hholds
              exact ⟨[promoted], [child', right], rfl, rfl, ⟨hl, hp, rfl, hr⟩,
                by simpa [collectChildren] using hes⟩
      | cons s keys =>
          obtain ⟨hchild, hs, hrest⟩ := h
          rw [collectChildren]
          by_cases hle : s ≤ key
          · obtain ⟨children', result, hinsert, hholds⟩ :=
              insertChild_holds children hrest ⟨WithBot.coe_le_coe.mpr hle, hkey.2⟩ val
            rw [SortedMap.insert_append_right val _ (hchild.lt_of_le hle),
              Vec.partitionPoint_cons_of_pos (by simpa using hle), insertChild, hinsert]
            use child :: children', result, rfl
            cases result with
            | ok => exact ⟨⟨hchild, hs, hholds.1⟩, by rw [collectChildren, hholds.2]⟩
            | split promoted right =>
                obtain ⟨keys', children'', hkeys, hchildren, hordered, hes⟩ := hholds
                use s :: keys', child :: children''
                rw [Vec.insert_cons, Vec.insert_cons, hkeys, hchildren]
                exact ⟨rfl, rfl, ⟨hchild, hs, hordered⟩, by rw [collectChildren, hes]⟩
          · obtain ⟨child', result, hinsert, hholds⟩ :=
              insert_holds child hchild ⟨hkey.1, WithTop.coe_lt_coe.mpr (not_le.mp hle)⟩ val
            rw [SortedMap.insert_append_left val _
                (OrderedChildren.lt_of_lt hrest (not_le.mp hle)),
              Vec.partitionPoint_cons_of_neg (by simpa using hle), insertChild, hinsert]
            use child' :: children, result, rfl
            cases result with
            | ok => exact ⟨⟨hholds.1, hs, hrest⟩, by rw [collectChildren, hholds.2]⟩
            | split promoted right =>
                obtain ⟨hp, hl, hr, hes⟩ := hholds
                use promoted :: s :: keys, child' :: right :: children
                refine ⟨rfl, rfl, ⟨hl, ⟨hp.1, hs.lt_trans (WithTop.coe_lt_coe.mp hp.2)⟩, hr,
                  ⟨WithBot.coe_lt_coe.mpr (WithTop.coe_lt_coe.mp hp.2), hs.2⟩, hrest⟩, ?_⟩
                rw [collectChildren, collectChildren, ← List.append_assoc, hes]

end

/-! ### Removal -/

mutual

/-- Removing from a node keeps the invariant and removes from its pairs. -/
theorem remove_eq (node : Node K V) {lo : WithBot K} {hi : WithTop K}
    (h : node.Ordered lo hi) (key : K) :
  ∃ node', node.remove key = .ok (node', removed (node.collectAll.lookup key)) ∧
    node'.Ordered lo hi ∧ node'.collectAll = SortedMap.erase key node.collectAll
  := by
  cases node with
  | leaf keys vals =>
      obtain ⟨es, hes⟩ := h.exists_pairs
      rw [hes] at h ⊢
      obtain ⟨hremove, hordered⟩ := remove_ofPairs h key
      use ofPairs (SortedMap.erase key es)
      rw [collectAll_ofPairs, collectAll_ofPairs]
      exact ⟨hremove, hordered, rfl⟩
  | internal keys children =>
      obtain ⟨children', hremove, hordered, hes⟩ := removeChild_eq children h key
      use .internal keys children'
      rw [remove, hremove, collectAll]
      exact ⟨rfl, hordered, hes⟩

/-- Removing from the child at the search position. -/
theorem removeChild_eq (children : List (Node K V)) {keys : List K} {lo : WithBot K}
    {hi : WithTop K} (h : OrderedChildren children keys lo hi) (key : K) :
  ∃ children', removeChild children (Vec.partitionPoint (· ≤ key) keys) key
      = .ok (children', removed ((collectChildren children).lookup key)) ∧
    OrderedChildren children' keys lo hi ∧
    collectChildren children' = SortedMap.erase key (collectChildren children)
  := by
  cases children with
  | nil => exact h.elim
  | cons child children =>
      cases keys with
      | nil =>
          obtain ⟨rfl, hchild⟩ := h
          obtain ⟨child', hremove, hordered, hes⟩ := remove_eq child hchild key
          use [child']
          rw [collectChildren, collectChildren, List.append_nil, Vec.partitionPoint_nil,
            removeChild, hremove, collectChildren, collectChildren, List.append_nil]
          exact ⟨rfl, ⟨rfl, hordered⟩, hes⟩
      | cons s keys =>
          obtain ⟨hchild, hs, hrest⟩ := h
          rw [collectChildren]
          by_cases hle : s ≤ key
          · obtain ⟨children', hremove, hordered, hes⟩ := removeChild_eq children hrest key
            use child :: children'
            rw [SortedMap.erase_append_right _ (hchild.lt_of_le hle),
              SortedMap.lookup_append_right _ (hchild.lt_of_le hle),
              Vec.partitionPoint_cons_of_pos (by simpa using hle), removeChild, hremove,
              collectChildren, hes]
            exact ⟨rfl, ⟨hchild, hs, hordered⟩, rfl⟩
          · obtain ⟨child', hremove, hordered, hes⟩ := remove_eq child hchild key
            have habove := OrderedChildren.lt_of_lt hrest (not_le.mp hle)
            use child' :: children
            rw [SortedMap.erase_append_left _ habove, SortedMap.lookup_append_left _ habove,
              Vec.partitionPoint_cons_of_neg (by simpa using hle), removeChild, hremove,
              collectChildren, hes]
            exact ⟨rfl, ⟨hordered, hs, hrest⟩, rfl⟩

end

end Node

/-! ### The tree -/

namespace BPlusTree

/-- The invariant of the tree. -/
structure Valid (tree : BPlusTree) : Prop where
  ordered : tree.root.Ordered ⊥ ⊤
  size_eq : tree.size = tree.listAll.length

theorem Valid.increasing {tree : BPlusTree} (h : tree.Valid) :
  Increasing tree.listAll
  := (Node.collectAll_within tree.root h.ordered).1

theorem valid_new :
  new.Valid
  where
  ordered := by
    show (Node.ofPairs []).Ordered ⊥ ⊤
    exact Node.ordered_ofPairs.mpr ⟨List.Pairwise.nil, by simp⟩
  size_eq := rfl

theorem Valid.get_eq {tree : BPlusTree} (h : tree.Valid) (parentIno : UInt64)
    (name : String) :
  tree.get parentIno name = .ok (tree.listAll.lookup ⟨parentIno, name⟩)
  := Node.get_eq tree.root h.ordered _

theorem within_all (key : K) :
  Within ⊥ ⊤ key
  := ⟨bot_le, WithTop.coe_lt_top key⟩

/-- Inserting into the tree, with the root growing by a level when it was split. -/
theorem Valid.insert_eq {tree : BPlusTree} (h : tree.Valid) (parentIno : UInt64)
    (name : String) (value : Value) :
  ∃ tree', tree.insert parentIno name value = .ok tree' ∧ tree'.Valid ∧
    tree'.listAll = SortedMap.insert ⟨parentIno, name⟩ value tree.listAll
  := by
  obtain ⟨root, result, hinsert, hholds⟩ :=
    Node.insert_holds tree.root h.ordered (within_all ⟨parentIno, name⟩) value
  rw [← listAll] at hholds
  have hsize := h.increasing.length_insert ⟨parentIno, name⟩ value
  rw [insert, Node.get_eq tree.root h.ordered, hinsert]
  cases result with
  | ok =>
      refine ⟨_, rfl, ⟨hholds.1, ?_⟩, hholds.2⟩
      rw [listAll, hholds.2, h.size_eq]
      exact hsize.symm
  | split promoted right =>
      obtain ⟨hp, hl, hr, hes⟩ := hholds
      have hall : (Node.internal [promoted] [root, right]).collectAll
          = SortedMap.insert ⟨parentIno, name⟩ value tree.listAll := by
        simpa [Node.collectAll, Node.collectChildren] using hes
      refine ⟨_, rfl, ⟨⟨hl, hp, rfl, hr⟩, ?_⟩, hall⟩
      rw [listAll, hall, h.size_eq]
      exact hsize.symm

/-- Removing from the tree. -/
theorem Valid.remove_eq {tree : BPlusTree} (h : tree.Valid) (parentIno : UInt64)
    (name : String) :
  ∃ tree', tree.remove parentIno name
      = .ok (tree', tree.listAll.lookup ⟨parentIno, name⟩) ∧ tree'.Valid ∧
    tree'.listAll = SortedMap.erase ⟨parentIno, name⟩ tree.listAll
  := by
  obtain ⟨root, hremove, hordered, hes⟩ :=
    Node.remove_eq tree.root h.ordered ⟨parentIno, name⟩
  rw [← listAll] at hremove hes
  have hsize := h.increasing.length_erase ⟨parentIno, name⟩
  rw [remove, hremove]
  cases hlookup : tree.listAll.lookup ⟨parentIno, name⟩ with
  | none =>
      refine ⟨⟨root, tree.size⟩, rfl, ⟨hordered, ?_⟩, hes⟩
      show tree.size = root.collectAll.length
      rw [hes, hsize, hlookup, h.size_eq]
      rfl
  | some value =>
      refine ⟨⟨root, tree.size - 1⟩, rfl, ⟨hordered, ?_⟩, hes⟩
      show tree.size - 1 = root.collectAll.length
      rw [hes, hsize, hlookup, h.size_eq]
      rfl

end BPlusTree

/-! ### Runs -/

/-- A call that changes the tree. -/
inductive TreeCall where
  | insert (parentIno : UInt64) (name : String) (value : Value)
  | remove (parentIno : UInt64) (name : String)

namespace TreeCall

/-- What a call does to the tree. -/
def run (tree : BPlusTree) : TreeCall → Except Panic BPlusTree
  | .insert parentIno name value => tree.insert parentIno name value
  | .remove parentIno name => Prod.fst <$> tree.remove parentIno name

/-- What a call means for a map from keys to values. -/
def apply (m : Key → Option Value) : TreeCall → Key → Option Value
  | .insert parentIno name value => Function.update m ⟨parentIno, name⟩ (some value)
  | .remove parentIno name => Function.update m ⟨parentIno, name⟩ none

/-- The map that calls on an empty one lead to: a key has the value it was inserted with
last, unless it was removed since. -/
def contents (calls : List TreeCall) : Key → Option Value :=
  calls.foldl apply fun _ => none

/-- A call keeps the invariant and does to the pairs of the tree what it means. -/
theorem run_eq {tree : BPlusTree} (h : tree.Valid) (call : TreeCall) :
  ∃ tree', call.run tree = .ok tree' ∧ tree'.Valid ∧
    (fun key => tree'.listAll.lookup key) = call.apply fun key => tree.listAll.lookup key
  := by
  cases call with
  | insert parentIno name value =>
      obtain ⟨tree', hrun, hvalid, hall⟩ := h.insert_eq parentIno name value
      refine ⟨tree', hrun, hvalid, ?_⟩
      funext key
      rw [hall, SortedMap.lookup_insert, apply, Function.update_apply]
  | remove parentIno name =>
      obtain ⟨tree', hrun, hvalid, hall⟩ := h.remove_eq parentIno name
      refine ⟨tree', by rw [run, hrun]; rfl, hvalid, ?_⟩
      funext key
      rw [hall, SortedMap.lookup_erase, apply, Function.update_apply]

/-- Every run of calls keeps the invariant and leads to the pairs the calls mean. -/
theorem foldlM_run_eq {tree : BPlusTree} (h : tree.Valid) (calls : List TreeCall) :
  ∃ tree', calls.foldlM run tree = .ok tree' ∧ tree'.Valid ∧
    (fun key => tree'.listAll.lookup key)
      = calls.foldl apply fun key => tree.listAll.lookup key
  := by
  induction calls generalizing tree with
  | nil => exact ⟨tree, rfl, h, rfl⟩
  | cons call calls ih =>
      obtain ⟨next, hrun, hnext, hlookup⟩ := run_eq h call
      obtain ⟨tree', hruns, hvalid, hlookups⟩ := ih hnext
      refine ⟨tree', ?_, hvalid, by rw [hlookups, hlookup]; rfl⟩
      rw [List.foldlM_cons, hrun]
      exact hruns

end TreeCall

/-- After any calls on a new tree: searching a key gives the value the calls left it with,
removing it gives the same value, the length is the number of keys present, and the list of
all entries has exactly the present pairs in increasing order of their keys. -/
theorem tree_refines_map (calls : List TreeCall) :
  ∃ tree, calls.foldlM TreeCall.run BPlusTree.new = .ok tree ∧
    (∀ parentIno name,
      tree.get parentIno name = .ok (TreeCall.contents calls ⟨parentIno, name⟩)) ∧
    (∀ parentIno name, ∃ tree',
      tree.remove parentIno name = .ok (tree', TreeCall.contents calls ⟨parentIno, name⟩)) ∧
    (tree.len : ℕ∞) = {key | (TreeCall.contents calls key).isSome}.encard ∧
    tree.listAll.Pairwise (fun e e' => e.1 < e'.1) ∧
    ∀ key value, (key, value) ∈ tree.listAll ↔ TreeCall.contents calls key = some value
  := by
  obtain ⟨tree, hrun, hvalid, hlookup⟩ := TreeCall.foldlM_run_eq BPlusTree.valid_new calls
  have hcontents : ∀ key, tree.listAll.lookup key = TreeCall.contents calls key :=
    fun key => congrFun hlookup key
  refine ⟨tree, hrun, ?_, ?_, ?_, hvalid.increasing, ?_⟩
  · intro parentIno name
    rw [hvalid.get_eq, hcontents]
  · intro parentIno name
    obtain ⟨tree', hremove, _⟩ := hvalid.remove_eq parentIno name
    exact ⟨tree', by rw [hremove, hcontents]⟩
  · simp only [← hcontents]
    rw [hvalid.increasing.encard_keys, BPlusTree.len, hvalid.size_eq]
  · intro key value
    rw [← hcontents]
    exact SortedMap.mem_iff_lookup hvalid.increasing

end Vexfs
