import Mathlib.Data.Nat.Log
import Vexfs.Fs.BTreeMap

/-!
# The shape of the index

A node is `Shaped l k d` when its leaves all lie `d` levels below it and no node is too long,
and the nodes under it are filled: a leaf with at least `l` keys, an internal node with at
least `k`.  The halves of a split have four keys, or four and three, so an insertion keeps the
shape for every `l` up to 4 and every `k` up to 3.  A removal merges no nodes: it keeps the
shape when the leaf it takes a key from has more than `l` keys.

With no minimum this is the shape of every tree (`tree_shape`).  With the minimum of a split it
bounds the depth of a tree by the number of its entries (`depth_logarithmic`), which is so as
long as no leaf loses more keys.
-/

namespace Vexfs

variable {K V : Type} [LinearOrder K]

namespace Node

/-! ### Nodes by their depth -/

def isLeaf : Node K V → Bool
  | .leaf _ _ => true
  | .internal _ _ => false

def keys : Node K V → List K
  | .leaf keys _ => keys
  | .internal keys _ => keys

/-- The nodes that lie some levels below a node. -/
def level : ℕ → Node K V → List (Node K V)
  | 0, node => [node]
  | _ + 1, .leaf _ _ => []
  | n + 1, .internal _ children => children.flatMap (level n)

mutual

/-- The nodes that a search for a key visits, from the top. -/
def visited : Node K V → K → List (Node K V)
  | .leaf keys vals, _ => [.leaf keys vals]
  | .internal keys children, key =>
      .internal keys children
        :: visitedChild children (Vec.partitionPoint (· ≤ key) keys) key

/-- The nodes that the search visits from the child at a position on. -/
def visitedChild : List (Node K V) → ℕ → K → List (Node K V)
  | [], _, _ => []
  | child :: _, 0, key => child.visited key
  | _ :: children, pos + 1, key => visitedChild children pos key

end

/-! ### Shape -/

/-- A leaf has at least `l` keys, an internal node at least `k`. -/
def Filled (l k : ℕ) : Node K V → Prop
  | .leaf keys _ => l ≤ keys.length
  | .internal keys _ => k ≤ keys.length

/-- The leaves lie `d` levels below the node, no node is too long, and every node below it is
filled. -/
inductive Shaped (l k : ℕ) : ℕ → Node K V → Prop where
  | leaf {keys : List K} {vals : List V} (hmax : keys.length < order) :
      Shaped l k 0 (.leaf keys vals)
  | internal {d : ℕ} {keys : List K} {children : List (Node K V)} (hpos : 0 < keys.length)
      (hmax : keys.length < order) (hlength : children.length = keys.length + 1)
      (hshaped : ∀ child ∈ children, Shaped l k d child)
      (hfilled : ∀ child ∈ children, child.Filled l k) :
      Shaped l k (d + 1) (.internal keys children)

/-- Children that lie above leaves `d` levels down, and are filled. -/
def ShapedChildren (l k d : ℕ) (children : List (Node K V)) : Prop :=
  (∀ child ∈ children, Shaped l k d child) ∧ ∀ child ∈ children, child.Filled l k

variable {l k d : ℕ}

omit [LinearOrder K] in
/-- What an insertion leaves of a node of some shape: a node of that shape, or two that are
filled. -/
def StaysShaped (l k d : ℕ) (node node' : Node K V) : InsertResult K V → Prop
  | .ok => node'.Shaped l k d ∧ (node.Filled l k → node'.Filled l k)
  | .split _ right => ShapedChildren l k d [node', right]

omit [LinearOrder K] in
theorem shapedChildren_cons {child : Node K V} {children : List (Node K V)} :
  ShapedChildren l k d (child :: children)
    ↔ (child.Shaped l k d ∧ child.Filled l k) ∧ ShapedChildren l k d children
  := by
  simp only [ShapedChildren, List.forall_mem_cons]
  tauto

omit [LinearOrder K] in
theorem ShapedChildren.subset {children children' : List (Node K V)}
    (h : ShapedChildren l k d children) (hsub : children' ⊆ children) :
  ShapedChildren l k d children'
  := ⟨fun child hchild => h.1 child (hsub hchild), fun child hchild => h.2 child (hsub hchild)⟩

/-! ### Insertion -/

omit [LinearOrder K] in
/-- A leaf that may have become too long by one key is split in the middle. -/
theorem splitLeaf_shaped {keys : List K} {vals : List V} {node' : Node K V}
    {result : InsertResult K V} (hl : l ≤ order / 2) (hmax : keys.length ≤ order)
    (h : splitLeaf keys vals = .ok (node', result)) (vals' : List V) :
  StaysShaped l k 0 (.leaf keys vals') node' result
  := by
  unfold splitLeaf at h
  split at h
  · next hge =>
    obtain ⟨⟨lower, upper⟩, hkeys, h⟩ := Vec.bind_eq_ok.mp h
    obtain ⟨⟨lowerVals, upperVals⟩, -, h⟩ := Vec.bind_eq_ok.mp h
    obtain ⟨promoted, -, h⟩ := Vec.bind_eq_ok.mp h
    cases h
    obtain ⟨rfl, hlower⟩ := Vec.splitOff_ok hkeys
    rw [List.length_append] at hge hmax hlower
    have hupper : upper.length = order / 2 := by
      rw [order] at hge hmax ⊢
      omega
    have hlower' : lower.length = order / 2 := by
      rw [order] at hge hmax ⊢
      omega
    rw [StaysShaped, shapedChildren_cons, shapedChildren_cons]
    refine ⟨⟨.leaf ?_, ?_⟩, ⟨.leaf ?_, ?_⟩, by simp [ShapedChildren]⟩
    · rw [hlower']
      decide
    · rwa [Filled, hlower']
    · rw [hupper]
      decide
    · rwa [Filled, hupper]
  · next hlt =>
    cases h
    exact ⟨.leaf (not_le.mp hlt), id⟩

omit [LinearOrder K] in
/-- An internal node that may have become too long by one key is split in the middle, and the
key in the middle moves up. -/
theorem splitInternal_shaped {keys : List K} {children : List (Node K V)} {node' : Node K V}
    {result : InsertResult K V} (hk : k < order / 2) (hpos : 0 < keys.length)
    (hmax : keys.length ≤ order) (hlength : children.length = keys.length + 1)
    (hchildren : ShapedChildren l k d children)
    (h : splitInternal keys children = .ok (node', result)) :
  StaysShaped l k (d + 1) (.internal keys children) node' result
  := by
  unfold splitInternal at h
  split at h
  · next hge =>
    obtain ⟨promoted, -, h⟩ := Vec.bind_eq_ok.mp h
    obtain ⟨⟨lower, upper⟩, hkeys, h⟩ := Vec.bind_eq_ok.mp h
    obtain ⟨⟨left, right⟩, hsplit, h⟩ := Vec.bind_eq_ok.mp h
    cases h
    obtain ⟨rfl, hlower⟩ := Vec.splitOff_ok hkeys
    obtain ⟨rfl, hleft⟩ := Vec.splitOff_ok hsplit
    rw [List.length_append] at hge hmax hlower hleft hlength
    rw [List.length_append] at hlength
    have hlower' : lower.dropLast.length = order / 2 := by
      rw [List.length_dropLast]
      rw [order] at hge hmax ⊢
      omega
    have hupper : upper.length + 1 = order / 2 := by
      rw [order] at hge hmax ⊢
      omega
    rw [StaysShaped, shapedChildren_cons, shapedChildren_cons]
    refine ⟨⟨.internal ?_ ?_ ?_ ?_ ?_, ?_⟩, ⟨.internal ?_ ?_ ?_ ?_ ?_, ?_⟩,
      by simp [ShapedChildren]⟩
    · rw [hlower']
      decide
    · rw [hlower']
      decide
    · rw [order] at hge hmax hlower'
      omega
    · exact fun child hchild => hchildren.1 child (List.mem_append_left _ hchild)
    · exact fun child hchild => hchildren.2 child (List.mem_append_left _ hchild)
    · rw [Filled, hlower']
      exact hk.le
    · rw [order] at hupper
      omega
    · rw [order] at hupper ⊢
      omega
    · rw [order] at hge hmax hlower'
      omega
    · exact fun child hchild => hchildren.1 child (List.mem_append_right _ hchild)
    · exact fun child hchild => hchildren.2 child (List.mem_append_right _ hchild)
    · rw [Filled]
      omega
  · next hlt =>
    cases h
    exact ⟨.internal hpos (not_le.mp hlt) hlength hchildren.1 hchildren.2, id⟩

mutual

/-- An insertion keeps the shape of a node. -/
theorem insert_shaped (node : Node K V) {d : ℕ} {node' : Node K V} {key : K} {val : V}
    {result : InsertResult K V} (hl : l ≤ order / 2) (hk : k < order / 2)
    (h : node.Shaped l k d) (hinsert : node.insert key val = .ok (node', result)) :
  StaysShaped l k d node node' result
  := by
  cases node with
  | leaf keys vals =>
      cases h with
      | leaf hmax =>
          unfold insert at hinsert
          dsimp only at hinsert
          split at hinsert
          · obtain ⟨vals', -, hinsert⟩ := Vec.bind_eq_ok.mp hinsert
            cases hinsert
            exact ⟨.leaf hmax, id⟩
          · obtain ⟨keys', hkeys, hinsert⟩ := Vec.bind_eq_ok.mp hinsert
            obtain ⟨vals', -, hinsert⟩ := Vec.bind_eq_ok.mp hinsert
            obtain ⟨hlength, -⟩ := Vec.insert_ok hkeys
            have hsplit : StaysShaped l k 0 (.leaf keys' vals) node' result :=
              splitLeaf_shaped hl (by omega) hinsert vals
            cases result with
            | ok => exact ⟨hsplit.1, fun hfilled => hsplit.2 (by
                rw [Filled] at hfilled ⊢
                omega)⟩
            | split promoted right => exact hsplit
  | internal keys children =>
      cases h with
      | internal hpos hmax hlength hshaped hfilled =>
          unfold insert at hinsert
          obtain ⟨⟨children', result'⟩, hchild, hinsert⟩ := Vec.bind_eq_ok.mp hinsert
          obtain ⟨hlength', hshaped', hright⟩ :=
            insertChild_shaped children hl hk ⟨hshaped, hfilled⟩ hchild
          cases result' with
          | ok =>
              cases hinsert
              exact ⟨.internal hpos hmax (hlength'.trans hlength) hshaped'.1 hshaped'.2, id⟩
          | split promoted right =>
              obtain ⟨keys', hkeys, hinsert⟩ := Vec.bind_eq_ok.mp hinsert
              obtain ⟨children'', hchildren, hinsert⟩ := Vec.bind_eq_ok.mp hinsert
              obtain ⟨hkeysLength, -⟩ := Vec.insert_ok hkeys
              obtain ⟨hchildrenLength, hsub⟩ := Vec.insert_ok hchildren
              have hall : ShapedChildren l k _ children'' :=
                (shapedChildren_cons.mpr ⟨hright _ _ rfl, hshaped'⟩).subset hsub
              have hsplit : StaysShaped l k _ (.internal keys' children'') node' result :=
                splitInternal_shaped hk (by omega) (by omega) (by omega) hall hinsert
              cases result with
              | ok => exact ⟨hsplit.1, fun hfilled => hsplit.2 (by
                  rw [Filled] at hfilled ⊢
                  omega)⟩
              | split promoted right => exact hsplit

/-- An insertion into a child keeps the shape of the children, and leaves a right node of
their shape when the child was split. -/
theorem insertChild_shaped (children : List (Node K V)) {d : ℕ} {children' : List (Node K V)}
    {pos : ℕ} {key : K} {val : V} {result : InsertResult K V} (hl : l ≤ order / 2)
    (hk : k < order / 2) (h : ShapedChildren l k d children)
    (hinsert : insertChild children pos key val = .ok (children', result)) :
  children'.length = children.length ∧ ShapedChildren l k d children'
    ∧ ∀ promoted right, result = .split promoted right →
      right.Shaped l k d ∧ right.Filled l k
  := by
  cases children with
  | nil => cases pos <;> cases hinsert
  | cons child children =>
      obtain ⟨hchild, hrest⟩ := shapedChildren_cons.mp h
      cases pos with
      | zero =>
          obtain ⟨⟨child', result'⟩, hinsert', hret⟩ := Vec.bind_eq_ok.mp hinsert
          cases hret
          have hstays := insert_shaped child hl hk hchild.1 hinsert'
          cases result with
          | ok =>
              refine ⟨rfl, shapedChildren_cons.mpr ⟨⟨hstays.1, hstays.2 hchild.2⟩, hrest⟩, ?_⟩
              intro _ _ heq
              cases heq
          | split promoted right =>
              obtain ⟨hleft, hright⟩ := shapedChildren_cons.mp hstays
              refine ⟨rfl, shapedChildren_cons.mpr ⟨hleft, hrest⟩, ?_⟩
              intro _ _ heq
              cases heq
              exact (shapedChildren_cons.mp hright).1
      | succ pos =>
          obtain ⟨⟨children'', result'⟩, hinsert', hret⟩ := Vec.bind_eq_ok.mp hinsert
          cases hret
          obtain ⟨hlength, hshaped, hright⟩ := insertChild_shaped children hl hk hrest hinsert'
          exact ⟨by simp [hlength], shapedChildren_cons.mpr ⟨hchild, hshaped⟩, hright⟩

end

/-! ### Removal -/

/-- The leaf that holds a key has more than `l` keys. -/
def Spares (l : ℕ) (key : K) (node : Node K V) : Prop :=
  ∀ keys vals, .leaf keys vals ∈ node.visited key → key ∈ keys → l < keys.length

/-- A removal takes at most the one key out of a leaf. -/
theorem remove_leaf {keys : List K} {vals : List V} {node' : Node K V} {key : K}
    {result : RemoveResult V} (hremove : (leaf keys vals).remove key = .ok (node', result)) :
  ∃ keys' vals', node' = .leaf keys' vals'
    ∧ (keys' = keys ∨ key ∈ keys ∧ keys'.length + 1 = keys.length)
  := by
  unfold remove at hremove
  dsimp only at hremove
  split at hremove
  · next hkey =>
    obtain ⟨⟨_, keys'⟩, hkeys, hremove⟩ := Vec.bind_eq_ok.mp hremove
    obtain ⟨⟨val, vals'⟩, -, hremove⟩ := Vec.bind_eq_ok.mp hremove
    cases hremove
    exact ⟨keys', vals', rfl, Or.inr ⟨List.mem_of_getElem? hkey, Vec.remove_ok hkeys⟩⟩
  · cases hremove
    exact ⟨keys, vals, rfl, Or.inl rfl⟩

omit [LinearOrder K] in
theorem Shaped.of_leaf {node : Node K V} (h : node.Shaped l k d) (hleaf : node.isLeaf) :
  d = 0 ∧ ∃ keys vals, node = .leaf keys vals ∧ keys.length < order
  := by
  cases h with
  | leaf hmax => exact ⟨rfl, _, _, rfl, hmax⟩
  | internal => cases hleaf

/-- A leaf that has nothing above it keeps its shape, however few keys it has left. -/
theorem remove_shaped_leaf {node node' : Node K V} {key : K} {result : RemoveResult V}
    (h : node.Shaped l k d) (hleaf : node.isLeaf)
    (hremove : node.remove key = .ok (node', result)) :
  node'.Shaped l k d
  := by
  obtain ⟨rfl, keys, vals, rfl, hmax⟩ := h.of_leaf hleaf
  obtain ⟨keys', vals', rfl, rfl | ⟨-, hlength⟩⟩ := remove_leaf hremove
  · exact .leaf hmax
  · exact .leaf (by omega)

mutual

/-- A removal from a leaf that can spare the key keeps the shape of a node. -/
theorem remove_shaped (node : Node K V) {d : ℕ} {node' : Node K V} {key : K}
    {result : RemoveResult V} (h : node.Shaped l k d) (hspares : node.Spares l key)
    (hremove : node.remove key = .ok (node', result)) :
  node'.Shaped l k d ∧ (node.Filled l k → node'.Filled l k)
  := by
  cases node with
  | leaf keys vals =>
      cases h with
      | leaf hmax =>
          obtain ⟨keys', vals', rfl, rfl | ⟨hkey, hlength⟩⟩ := remove_leaf hremove
          · exact ⟨.leaf hmax, id⟩
          · have hmore : l < keys.length := by
              apply hspares keys vals _ hkey
              rw [visited]
              exact List.mem_cons_self
            refine ⟨.leaf (by omega), fun _ => ?_⟩
            rw [Filled]
            omega
  | internal keys children =>
      cases h with
      | internal hpos hmax hlength hshaped hfilled =>
          unfold remove at hremove
          obtain ⟨⟨children', result'⟩, hchild, hret⟩ := Vec.bind_eq_ok.mp hremove
          cases hret
          obtain ⟨hlength', hchildren⟩ :=
            removeChild_shaped children ⟨hshaped, hfilled⟩ (fun keys' vals' hmem =>
              hspares keys' vals' (by
                rw [visited]
                exact List.mem_cons_of_mem _ hmem)) hchild
          exact ⟨.internal hpos hmax (hlength'.trans hlength) hchildren.1 hchildren.2, id⟩

/-- A removal from a child keeps the shape of the children. -/
theorem removeChild_shaped (children : List (Node K V)) {d : ℕ} {children' : List (Node K V)}
    {pos : ℕ} {key : K} {result : RemoveResult V} (h : ShapedChildren l k d children)
    (hspares : ∀ keys vals, .leaf keys vals ∈ visitedChild children pos key → key ∈ keys →
      l < keys.length)
    (hremove : removeChild children pos key = .ok (children', result)) :
  children'.length = children.length ∧ ShapedChildren l k d children'
  := by
  cases children with
  | nil => cases pos <;> cases hremove
  | cons child children =>
      obtain ⟨hchild, hrest⟩ := shapedChildren_cons.mp h
      cases pos with
      | zero =>
          obtain ⟨⟨child', result'⟩, hremove', hret⟩ := Vec.bind_eq_ok.mp hremove
          cases hret
          rw [visitedChild] at hspares
          obtain ⟨hshaped, hfilled⟩ := remove_shaped child hchild.1 hspares hremove'
          exact ⟨rfl, shapedChildren_cons.mpr ⟨⟨hshaped, hfilled hchild.2⟩, hrest⟩⟩
      | succ pos =>
          obtain ⟨⟨children'', result'⟩, hremove', hret⟩ := Vec.bind_eq_ok.mp hremove
          cases hret
          rw [visitedChild] at hspares
          obtain ⟨hlength, hshaped⟩ := removeChild_shaped children hrest hspares hremove'
          exact ⟨by simp [hlength], shapedChildren_cons.mpr ⟨hchild, hshaped⟩⟩

end

/-! ### What the shape says -/

omit [LinearOrder K] in
/-- The nodes some levels below a node have its shape, for fewer levels. -/
theorem Shaped.level {node below : Node K V} {n : ℕ} (h : node.Shaped l k d)
    (hmem : below ∈ node.level n) :
  n ≤ d ∧ below.Shaped l k (d - n)
  := by
  induction n generalizing node d with
  | zero =>
      rw [Node.level, List.mem_singleton] at hmem
      subst hmem
      exact ⟨Nat.zero_le d, h⟩
  | succ n ih =>
      cases h with
      | leaf _ =>
          rw [Node.level] at hmem
          cases hmem
      | internal _ _ _ hshaped _ =>
          rw [Node.level] at hmem
          obtain ⟨child, hchild, hmem⟩ := List.mem_flatMap.mp hmem
          obtain ⟨hle, hbelow⟩ := ih (hshaped child hchild) hmem
          exact ⟨Nat.succ_le_succ hle, by rwa [Nat.add_sub_add_right]⟩

omit [LinearOrder K] in
theorem Shaped.leaf_level {node : Node K V} {n : ℕ} {keys : List K} {vals : List V}
    (h : node.Shaped l k d) (hmem : .leaf keys vals ∈ node.level n) :
  n = d
  := by
  obtain ⟨hle, hbelow⟩ := h.level hmem
  have hzero : d - n = 0 := by
    generalize d - n = e at hbelow
    cases hbelow
    rfl
  omega

mutual

/-- A search goes through one node on each level. -/
theorem length_visited (node : Node K V) {d : ℕ} (h : node.Shaped l k d) (key : K) :
  (node.visited key).length = d + 1
  := by
  cases node with
  | leaf keys vals =>
      cases h
      rw [visited]
      rfl
  | internal keys children =>
      cases h with
      | internal _ _ hlength hshaped _ =>
          have hpos : Vec.partitionPoint (· ≤ key) keys < children.length := by
            rw [hlength, Nat.lt_succ_iff]
            exact (List.takeWhile_prefix _).length_le
          rw [visited, List.length_cons, length_visitedChild children hshaped hpos key]

theorem length_visitedChild (children : List (Node K V)) {d pos : ℕ}
    (h : ∀ child ∈ children, Shaped l k d child) (hpos : pos < children.length) (key : K) :
  (visitedChild children pos key).length = d + 1
  := by
  cases children with
  | nil => cases hpos
  | cons child children =>
      cases pos with
      | zero =>
          rw [visitedChild]
          exact length_visited child (h child List.mem_cons_self) key
      | succ pos =>
          rw [visitedChild]
          exact length_visitedChild children
            (fun child' hchild => h child' (List.mem_cons_of_mem _ hchild))
            (Nat.lt_of_succ_lt_succ hpos) key

end

/-- The range of a child ends at the separators beside it. -/
theorem OrderedChildren.child {children : List (Node K V)} {child : Node K V} {keys : List K}
    {lo : WithBot K} {hi : WithTop K} {i : ℕ} (h : OrderedChildren children keys lo hi)
    (hchild : children[i]? = some child) :
  ∃ lo' hi', child.Ordered lo' hi' ∧ (∀ key, Within lo' hi' key → Within lo hi key)
    ∧ (i = 0 → lo' = lo) ∧ (∀ s, 0 < i → keys[i - 1]? = some s → lo' = s)
    ∧ ∀ s, keys[i]? = some s → hi' = s
  := by
  induction children generalizing keys lo i with
  | nil => exact h.elim
  | cons first children ih =>
      cases keys with
      | nil =>
          obtain ⟨rfl, hfirst⟩ := h
          cases i with
          | zero =>
              cases hchild
              exact ⟨lo, hi, hfirst, fun _ => id, fun _ => rfl,
                fun s hpos => absurd hpos (Nat.lt_irrefl 0), fun s hs => nomatch hs⟩
          | succ i => cases hchild
      | cons t keys =>
          obtain ⟨hfirst, ht, hrest⟩ := h
          cases i with
          | zero =>
              cases hchild
              refine ⟨lo, t, hfirst, fun key hkey => ?_, fun _ => rfl,
                fun s hpos => absurd hpos (Nat.lt_irrefl 0), fun s hs => ?_⟩
              · exact ⟨hkey.1, ht.lt_trans (WithTop.coe_lt_coe.mp hkey.2)⟩
              · cases hs
                rfl
          | succ i =>
              obtain ⟨lo', hi', hordered, hsub, hfirst', hlo, hhi⟩ := ih hrest hchild
              refine ⟨lo', hi', hordered, fun key hkey => ?_, ?_, fun s _ hs => ?_, hhi⟩
              · obtain ⟨hge, hlt⟩ := hsub key hkey
                exact ⟨ht.le_trans (WithBot.coe_le_coe.mp hge), hlt⟩
              · intro hzero
                cases hzero
              · cases i with
                | zero =>
                    cases hs
                    exact hfirst' rfl
                | succ i => exact hlo s (Nat.succ_pos i) hs

theorem OrderedChildren.mem {children : List (Node K V)} {child : Node K V} {keys : List K}
    {lo : WithBot K} {hi : WithTop K} (h : OrderedChildren children keys lo hi)
    (hchild : child ∈ children) :
  ∃ lo' hi', child.Ordered lo' hi' ∧ ∀ key, Within lo' hi' key → Within lo hi key
  := by
  obtain ⟨i, hi⟩ := List.mem_iff_getElem?.mp hchild
  obtain ⟨lo', hi', hordered, hsub, -⟩ := h.child hi
  exact ⟨lo', hi', hordered, hsub⟩

/-- The separators of a node increase, and lie in its range. -/
theorem OrderedChildren.separators {children : List (Node K V)} {keys : List K}
    {lo : WithBot K} {hi : WithTop K} (h : OrderedChildren children keys lo hi) :
  keys.Pairwise (· < ·) ∧ ∀ s ∈ keys, Between lo hi s
  := by
  induction children generalizing keys lo with
  | nil => exact h.elim
  | cons first children ih =>
      cases keys with
      | nil => exact ⟨List.Pairwise.nil, fun s hs => nomatch hs⟩
      | cons t keys =>
          obtain ⟨-, ht, hrest⟩ := h
          obtain ⟨hincreasing, hbetween⟩ := ih hrest
          refine ⟨List.pairwise_cons.mpr ⟨fun s hs => ?_, hincreasing⟩, fun s hs => ?_⟩
          · exact WithBot.coe_lt_coe.mp (hbetween s hs).1
          · obtain rfl | hs := List.mem_cons.mp hs
            · exact ht
            · obtain ⟨hlo, hhi⟩ := hbetween s hs
              exact ⟨ht.1.trans hlo, hhi⟩

/-- The keys of the nodes below a node lie in its range. -/
theorem Ordered.level {node below : Node K V} {lo : WithBot K} {hi : WithTop K} {n : ℕ}
    (h : node.Ordered lo hi) (hmem : below ∈ node.level n) :
  (∃ lo' hi', below.Ordered lo' hi') ∧ ∀ key ∈ below.keys, Within lo hi key
  := by
  induction n generalizing node lo hi with
  | zero =>
      rw [Node.level, List.mem_singleton] at hmem
      subst hmem
      refine ⟨⟨lo, hi, h⟩, fun key hkey => ?_⟩
      cases below with
      | leaf keys vals => exact h.2.2 key hkey
      | internal keys children =>
          obtain ⟨hlo, hhi⟩ := h.separators.2 key hkey
          exact ⟨hlo.le, hhi⟩
  | succ n ih =>
      cases node with
      | leaf keys vals =>
          rw [Node.level] at hmem
          cases hmem
      | internal keys children =>
          rw [Node.level] at hmem
          obtain ⟨child, hchild, hmem⟩ := List.mem_flatMap.mp hmem
          obtain ⟨lo', hi', hordered, hsub⟩ := OrderedChildren.mem h hchild
          obtain ⟨hbelow, hkeys⟩ := ih hordered hmem
          exact ⟨hbelow, fun key hkey => hsub key (hkeys key hkey)⟩

/-- What a tree of nodes should look like. -/
structure WellShaped (root : Node K V) : Prop where
  /-- The leaves are all at the same depth. -/
  leaves : ∃ d, ∀ n keys vals, .leaf keys vals ∈ root.level n → n = d
  length_keys : ∀ n, ∀ node ∈ root.level n, node.keys.length ≤ order - 1
  length_children : ∀ n keys children, .internal keys children ∈ root.level n →
    children.length = keys.length + 1 ∧ 2 ≤ children.length
  separators : ∀ n keys children, .internal keys children ∈ root.level n →
    keys.Pairwise (· < ·)
  /-- The keys of all nodes from a child on lie between the separators beside the child. -/
  ranges : ∀ n keys children, .internal keys children ∈ root.level n →
    ∀ (i : ℕ) child, children[i]? = some child → ∀ m, ∀ node ∈ child.level m,
      ∀ key ∈ node.keys, (∀ s, 0 < i → keys[i - 1]? = some s → s ≤ key)
        ∧ ∀ s, keys[i]? = some s → key < s

theorem Shaped.wellShaped {root : Node K V} {lo : WithBot K} {hi : WithTop K}
    (h : root.Shaped l k d) (hordered : root.Ordered lo hi) :
  root.WellShaped where
  leaves := ⟨d, fun _ _ _ hmem => h.leaf_level hmem⟩
  length_keys n node hmem := by
    obtain ⟨-, hshaped⟩ := h.level hmem
    apply Nat.le_sub_one_of_lt
    generalize d - n = e at hshaped
    cases hshaped with
    | leaf hmax => exact hmax
    | internal _ hmax _ _ _ => exact hmax
  length_children n keys children hmem := by
    obtain ⟨-, hshaped⟩ := h.level hmem
    generalize d - n = e at hshaped
    cases hshaped with
    | internal hpos _ hlength _ _ => omega
  separators n keys children hmem := by
    obtain ⟨⟨lo', hi', hnode⟩, -⟩ := hordered.level hmem
    exact OrderedChildren.separators hnode |>.1
  ranges n keys children hmem i child hchild m node hnode key hkey := by
    obtain ⟨⟨lo', hi', hat⟩, -⟩ := hordered.level hmem
    obtain ⟨lo'', hi'', hbelow, -, -, hlo, hhi⟩ := OrderedChildren.child hat hchild
    obtain ⟨hge, hlt⟩ := (hbelow.level hnode).2 key hkey
    constructor
    · intro s hpos hs
      rw [hlo s hpos hs] at hge
      exact WithBot.coe_le_coe.mp hge
    · intro s hs
      rw [hhi s hs] at hlt
      exact WithTop.coe_lt_coe.mp hlt

/-! ### Entries -/

omit [LinearOrder K] in
/-- Children that have at least `n` entries each. -/
theorem mul_le_length_collectChildren {n : ℕ} {children : List (Node K V)}
    (h : ∀ child ∈ children, n ≤ child.collectAll.length) :
  children.length * n ≤ (collectChildren children).length
  := by
  induction children with
  | nil => simp
  | cons child children ih =>
      have hchild := h child List.mem_cons_self
      have hrest := ih fun child' hchild' => h child' (List.mem_cons_of_mem _ hchild')
      rw [collectChildren, List.length_append, List.length_cons, Nat.add_one_mul]
      omega

/-- A node whose nodes are as long as a split leaves them has four times as many entries for
each level. -/
theorem Shaped.pow_le {node : Node K V} {lo : WithBot K} {hi : WithTop K}
    (h : node.Shaped (order / 2) (order / 2 - 1) d)
    (hfilled : node.Filled (order / 2) (order / 2 - 1)) (hordered : node.Ordered lo hi) :
  4 ^ (d + 1) ≤ node.collectAll.length
  := by
  induction h generalizing lo hi with
  | @leaf keys vals hmax =>
      have hkeys : 4 ≤ keys.length := hfilled
      rw [collectAll, List.length_zip, ← hordered.1, Nat.min_self]
      omega
  | @internal d keys children _ _ hlength _ hchildren ih =>
      have hkeys : 3 ≤ keys.length := hfilled
      have hall : ∀ child ∈ children, 4 ^ (d + 1) ≤ child.collectAll.length := by
        intro child hchild
        obtain ⟨lo', hi', hchild', -⟩ := OrderedChildren.mem hordered hchild
        exact ih child hchild (hchildren child hchild) hchild'
      rw [collectAll, Nat.pow_succ, Nat.mul_comm]
      apply le_trans _ (mul_le_length_collectChildren hall)
      apply Nat.mul_le_mul_right
      omega

/-- A root that has children has two at least. -/
theorem Shaped.two_mul_pow_le {root : Node K V} {lo : WithBot K} {hi : WithTop K}
    (h : root.Shaped (order / 2) (order / 2 - 1) d) (hordered : root.Ordered lo hi)
    (hpos : 1 ≤ d) :
  2 * 4 ^ d ≤ root.collectAll.length
  := by
  cases h with
  | leaf _ => omega
  | @internal d keys children hkeys _ hlength hshaped hfilled =>
      have hall : ∀ child ∈ children, 4 ^ (d + 1) ≤ child.collectAll.length := by
        intro child hchild
        obtain ⟨lo', hi', hchild', -⟩ := OrderedChildren.mem hordered hchild
        exact (hshaped child hchild).pow_le (hfilled child hchild) hchild'
      rw [collectAll]
      apply le_trans _ (mul_le_length_collectChildren hall)
      apply Nat.mul_le_mul_right
      omega

end Node

/-! ### The tree -/

namespace BPlusTree

variable {tree tree' : BPlusTree} {l k d : ℕ} {parentIno : UInt64} {name : String}

/-- An insertion keeps the shape of the tree, or adds a level to it. -/
theorem insert_shaped {value : Value} (hl : l ≤ order / 2) (hk : k < order / 2)
    (h : tree.root.Shaped l k d) (hinsert : tree.insert parentIno name value = .ok tree') :
  ∃ d', tree'.root.Shaped l k d'
  := by
  unfold insert at hinsert
  obtain ⟨val, -, hinsert⟩ := Vec.bind_eq_ok.mp hinsert
  obtain ⟨⟨root, result⟩, hroot, hret⟩ := Vec.bind_eq_ok.mp hinsert
  have hstays := Node.insert_shaped tree.root hl hk h hroot
  cases result with
  | ok =>
      cases hret
      exact ⟨d, hstays.1⟩
  | split promoted right =>
      cases hret
      have hmax : 1 < order := by decide
      exact ⟨d + 1, .internal Nat.one_pos hmax rfl hstays.1 hstays.2⟩

/-- A removal keeps the shape of the tree when the leaf it takes a key from can spare it, or is
the root. -/
theorem remove_shaped {val : Option Value} (h : tree.root.Shaped l k d)
    (hspares : tree.root.isLeaf ∨ tree.root.Spares l ⟨parentIno, name⟩)
    (hremove : tree.remove parentIno name = .ok (tree', val)) :
  tree'.root.Shaped l k d
  := by
  unfold remove at hremove
  obtain ⟨⟨root, result⟩, hroot, hret⟩ := Vec.bind_eq_ok.mp hremove
  have hroot' : root.Shaped l k d := by
    obtain hleaf | hspares := hspares
    · exact Node.remove_shaped_leaf h hleaf hroot
    · exact (Node.remove_shaped tree.root h hspares hroot).1
  cases result with
  | ok val =>
      cases hret
      exact hroot'
  | notFound =>
      cases hret
      exact hroot'

end BPlusTree

/-! ### Runs -/

/-- A call takes no key from a leaf that has no more keys than a split leaves it, unless the
leaf is the root. -/
def TreeCall.KeepsLeaves (tree : BPlusTree) : TreeCall → Prop
  | .insert _ _ _ => True
  | .remove parentIno name =>
      tree.root.isLeaf ∨ tree.root.Spares (order / 2) ⟨parentIno, name⟩

theorem TreeCall.run_shaped {l k d : ℕ} {tree tree' : BPlusTree} {call : TreeCall}
    (hl : l ≤ order / 2) (hk : k < order / 2) (h : tree.root.Shaped l k d)
    (hspares : ∀ parentIno name, call = .remove parentIno name →
      tree.root.isLeaf ∨ tree.root.Spares l ⟨parentIno, name⟩)
    (hrun : call.run tree = .ok tree') :
  ∃ d', tree'.root.Shaped l k d'
  := by
  cases call with
  | insert parentIno name value => exact BPlusTree.insert_shaped hl hk h hrun
  | remove parentIno name =>
      cases hremove : tree.remove parentIno name with
      | error e =>
          rw [run, hremove] at hrun
          cases hrun
      | ok found =>
          rw [run, hremove] at hrun
          cases hrun
          exact ⟨d, BPlusTree.remove_shaped h (hspares parentIno name rfl) hremove⟩

theorem shaped_new (l k : ℕ) :
  BPlusTree.new.root.Shaped l k 0
  := .leaf (by decide)

/-- Calls that each keep the leaves filled keep the shape. -/
theorem foldlM_run_shaped {l k : ℕ} {calls : List TreeCall} {tree : BPlusTree}
    (hl : l ≤ order / 2) (hk : k < order / 2)
    (hspares : ∀ before parentIno name tree, before ++ [.remove parentIno name] <+: calls →
      before.foldlM TreeCall.run BPlusTree.new = .ok tree →
      tree.root.isLeaf ∨ tree.root.Spares l ⟨parentIno, name⟩)
    (hrun : calls.foldlM TreeCall.run BPlusTree.new = .ok tree) :
  ∃ d, tree.root.Shaped l k d
  := by
  induction calls using List.reverseRecOn generalizing tree with
  | nil =>
      cases hrun
      exact ⟨0, shaped_new l k⟩
  | append_singleton calls call ih =>
      rw [List.foldlM_append] at hrun
      obtain ⟨before, hbefore, hlast⟩ := Vec.bind_eq_ok.mp hrun
      rw [List.foldlM_cons] at hlast
      obtain ⟨tree', hcall, hret⟩ := Vec.bind_eq_ok.mp hlast
      cases hret
      obtain ⟨d, hshaped⟩ := ih (fun before' p n t hpre =>
        hspares before' p n t (hpre.trans (List.prefix_append _ _))) hbefore
      refine TreeCall.run_shaped hl hk hshaped ?_ hcall
      rintro parentIno name rfl
      exact hspares calls parentIno name before (List.prefix_refl _) hbefore

/-- After any calls on a new tree, all leaves are at the same depth, no node has more than
seven keys, an internal node has one child more than it has separators, which increase, and at
least two, and the keys from a child on lie between the separators beside it. -/
theorem tree_shape (calls : List TreeCall) :
  ∃ tree, calls.foldlM TreeCall.run BPlusTree.new = .ok tree ∧ tree.root.WellShaped
  := by
  obtain ⟨tree, hrun, hvalid, -⟩ := TreeCall.foldlM_run_eq BPlusTree.valid_new calls
  obtain ⟨d, hshaped⟩ : ∃ d, tree.root.Shaped 0 0 d := by
    refine foldlM_run_shaped (Nat.zero_le _) (by decide) ?_ hrun
    -- A leaf that holds a key has more than none.
    exact fun _ _ _ _ _ _ => Or.inr fun keys _ _ hkey => List.length_pos_of_mem hkey
  exact ⟨tree, hrun, hshaped.wellShaped hvalid.ordered⟩

/-- After calls on a new tree of which none takes a key from a leaf that is only half full,
unless the leaf is the root, a tree with some levels of internal nodes has twice the power of
four of their number of entries, and a search visits at most logarithmically many nodes. -/
theorem depth_logarithmic (calls : List TreeCall)
    (hkeeps : ∀ before call tree, before ++ [call] <+: calls →
      before.foldlM TreeCall.run BPlusTree.new = .ok tree → call.KeepsLeaves tree) :
  ∃ tree, calls.foldlM TreeCall.run BPlusTree.new = .ok tree
    ∧ (∀ d keys vals, 1 ≤ d → .leaf keys vals ∈ tree.root.level d → 2 * 4 ^ d ≤ tree.len)
    ∧ ∀ key, (tree.root.visited key).length ≤ Nat.log 4 (tree.len / 2) + 1
  := by
  obtain ⟨tree, hrun, hvalid, -⟩ := TreeCall.foldlM_run_eq BPlusTree.valid_new calls
  obtain ⟨d, hshaped⟩ : ∃ d, tree.root.Shaped (order / 2) (order / 2 - 1) d :=
    foldlM_run_shaped (Nat.le_refl _) (by decide)
      (fun before parentIno name tree => hkeeps before (.remove parentIno name) tree) hrun
  have hlen : 1 ≤ d → 2 * 4 ^ d ≤ tree.len := fun hpos =>
    (hshaped.two_mul_pow_le hvalid.ordered hpos).trans_eq hvalid.size_eq.symm
  refine ⟨tree, hrun, fun e keys vals hpos hleaf => ?_, fun key => ?_⟩
  · obtain rfl := hshaped.leaf_level hleaf
    exact hlen hpos
  · rw [Node.length_visited tree.root hshaped]
    apply Nat.add_le_add_right
    cases d with
    | zero => exact Nat.zero_le _
    | succ d =>
        have hle := hlen (Nat.succ_pos d)
        apply Nat.le_log_of_pow_le (by decide)
        omega

/-- Insertions take no keys from leaves. -/
theorem depth_logarithmic_eight_files :
  let calls : List TreeCall := (List.range 8).map fun i =>
    .insert (UInt64.ofNat i) "a" ⟨2, 0, false, 0⟩
  ∃ tree, calls.foldlM TreeCall.run BPlusTree.new = .ok tree
    ∧ (∀ d keys vals, 1 ≤ d → .leaf keys vals ∈ tree.root.level d → 2 * 4 ^ d ≤ tree.len)
    ∧ ∀ key, (tree.root.visited key).length ≤ Nat.log 4 (tree.len / 2) + 1
  := by
  apply depth_logarithmic
  intro before call tree hpre _
  have hcall := hpre.subset (List.mem_append_right _ List.mem_cons_self)
  obtain ⟨i, -, rfl⟩ := List.mem_map.mp hcall
  trivial

/-- Eight entries split the root, and the seven that a removal leaves are still in two
leaves. -/
theorem not_depth_logarithmic :
  ¬ ∀ (calls : List TreeCall) (tree : BPlusTree) d keys vals,
      calls.foldlM TreeCall.run BPlusTree.new = .ok tree → 1 ≤ d →
      .leaf keys vals ∈ tree.root.level d → 2 * 4 ^ d ≤ tree.len
  := by
  intro h
  let val : Value := ⟨2, 0, false, 0⟩
  let key (i : UInt64) : Key := ⟨i, "a"⟩
  let left : Node Key Value := .leaf [key 1, key 2, key 3] [val, val, val]
  let right : Node Key Value := .leaf [key 4, key 5, key 6, key 7] [val, val, val, val]
  let calls : List TreeCall :=
    ([0, 1, 2, 3, 4, 5, 6, 7].map fun i => .insert i "a" val) ++ [.remove 0 "a"]
  have hrun : calls.foldlM TreeCall.run BPlusTree.new
      = .ok ⟨.internal [key 4] [left, right], 7⟩ := rfl
  have hlen := h calls _ 1 _ _ hrun (Nat.le_refl 1) (List.mem_cons_self (a := left))
  exact absurd hlen (by decide)

end Vexfs
