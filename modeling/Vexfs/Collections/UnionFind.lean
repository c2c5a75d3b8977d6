import Mathlib.Data.Finset.Card
import Mathlib.Logic.Relation
import Vexfs.Collections.FiniteMap

/-!
# Union-find

A finite map gives every element of a forest its parent, where a root is its own parent.
Finding the root of an element lets the root become the parent of all elements on the way, and
uniting two elements lets one of their roots become the parent of the other.

`Forest parent root` says that the parents lead to the roots.  Both operations end without
missing a parent, and keep a forest (`Forest.find`, `Forest.union`).  After some pairs were
united, two elements have the same root exactly when the pairs connect them
(`exists_unions`).
-/

namespace UnionFind

/-- Why an operation stops without a result. -/
inductive Stop where
  | missingKey
  | outOfFuel
deriving DecidableEq, Repr

variable {α : Type*} [LinearOrder α]

/-- The root of an element.  It becomes the parent of the elements on the way to it. -/
def find : ℕ → FiniteMap α α → α → Except Stop (α × FiniteMap α α)
  | 0, _, _ => .error .outOfFuel
  | fuel + 1, parent, x =>
      match parent.get x with
      | none => .error .missingKey
      | some y =>
          if y = x then .ok (x, parent)
          else do
            let (p, parent) ← find fuel parent y
            return (p, parent.insert x p)

/-- Let the root of `b` become the parent of the root of `a`. -/
def union (fuel : ℕ) (parent : FiniteMap α α) (a b : α) : Except Stop (FiniteMap α α) := do
  let (ra, parent) ← find fuel parent a
  let (rb, parent) ← find fuel parent b
  return if ra ≠ rb then parent.insert ra rb else parent

/-- Unite pairs one after the other. -/
def unions (fuel : ℕ) (parent : FiniteMap α α) (pairs : List (α × α)) :
    Except Stop (FiniteMap α α) :=
  pairs.foldlM (fun parent p => union fuel parent p.1 p.2) parent

/-- Every element is a root. -/
def singletons (elements : List α) : FiniteMap α α :=
  elements.foldl (fun parent x => parent.insert x x) .empty

/-! ### Forests -/

/-- The elements with the same root. -/
def classOf (parent : FiniteMap α α) (root : α → α) (x : α) : Finset α :=
  parent.keys.toFinset.filter fun y => root y = root x

/-- The parents lead to the roots: they are less deep, and an element is less deep than its
class is large. -/
structure Forest (parent : FiniteMap α α) (root : α → α) : Prop where
  closed : ∀ {x y}, parent.get x = some y → (parent.get y).isSome
  root_parent : ∀ {x y}, parent.get x = some y → root y = root x
  get_root : ∀ {x}, (parent.get x).isSome → parent.get (root x) = some (root x)
  root_of_self : ∀ {x}, parent.get x = some x → root x = x
  root_of_none : ∀ {x}, parent.get x = none → root x = x
  depth : ∃ depth : α → ℕ, (∀ {x y}, parent.get x = some y → y ≠ x → depth y < depth x)
    ∧ ∀ {x}, (parent.get x).isSome → depth x < (classOf parent root x).card

/-- The roots after the root `ra` became a child of the root `rb`. -/
def linked (root : α → α) (ra rb x : α) : α := if root x = ra then rb else root x

/-- Some elements got their root as parent. -/
structure Shortened (root : α → α) (parent parent' : FiniteMap α α) : Prop where
  keys_eq : parent'.keys = parent.keys
  get_eq : ∀ x, parent'.get x = parent.get x
    ∨ (parent.get x).isSome ∧ parent'.get x = some (root x)

namespace Forest

variable {parent parent' : FiniteMap α α} {root : α → α}

theorem root_root (h : Forest parent root) (x : α) :
  root (root x) = root x
  := by
  cases hx : parent.get x with
  | none => rw [h.root_of_none hx, h.root_of_none hx]
  | some y => exact h.root_of_self (h.get_root (by rw [hx]; rfl))

/-- A root is less deep than the other elements of its class. -/
theorem depth_root_lt (h : Forest parent root) {depth : α → ℕ}
    (hdepth : ∀ {x y}, parent.get x = some y → y ≠ x → depth y < depth x) {x : α}
    (hx : (parent.get x).isSome) (hne : root x ≠ x) :
  depth (root x) < depth x
  := by
  induction hd : depth x using Nat.strong_induction_on generalizing x with
  | h d ih =>
      obtain ⟨y, hy⟩ := Option.isSome_iff_exists.mp hx
      have hyx : y ≠ x := by
        rintro rfl
        exact hne (h.root_of_self hy)
      have hlt := hdepth hy hyx
      rw [hd] at hlt
      rw [← h.root_parent hy]
      by_cases hroot : root y = y
      · rw [hroot]
        exact hlt
      · exact (ih (depth y) hlt (h.closed hy) hroot rfl).trans hlt

/-- Shortening keeps a forest. -/
theorem shortened (hshort : Shortened root parent parent') (h : Forest parent root) :
  Forest parent' root
  := by
  have hsome (x : α) : (parent'.get x).isSome = (parent.get x).isSome := by
    rw [Bool.eq_iff_iff, ← FiniteMap.mem_keys, ← FiniteMap.mem_keys, hshort.keys_eq]
  have hroot {x : α} (hx : (parent.get x).isSome) : parent'.get (root x) = some (root x) := by
    obtain heq | ⟨-, heq⟩ := hshort.get_eq (root x)
    · rw [heq, h.get_root hx]
    · rw [heq, h.root_root]
  obtain ⟨depth, hdepth, hclass⟩ := h.depth
  constructor
  · intro x y hy
    rw [hsome]
    obtain heq | ⟨hx, heq⟩ := hshort.get_eq x
    · exact h.closed (heq.symm.trans hy)
    · obtain rfl := Option.some.inj (heq.symm.trans hy)
      rw [h.get_root hx]
      rfl
  · intro x y hy
    obtain heq | ⟨hx, heq⟩ := hshort.get_eq x
    · exact h.root_parent (heq.symm.trans hy)
    · obtain rfl := Option.some.inj (heq.symm.trans hy)
      exact h.root_root x
  · intro x hx
    exact hroot (hsome x ▸ hx)
  · intro x hself
    obtain heq | ⟨hx, heq⟩ := hshort.get_eq x
    · exact h.root_of_self (heq.symm.trans hself)
    · exact Option.some.inj (heq.symm.trans hself)
  · intro x hnone
    apply h.root_of_none
    rw [← Option.not_isSome_iff_eq_none, ← hsome, hnone]
    exact Bool.false_ne_true
  · refine ⟨depth, ?_, ?_⟩
    · intro x y hy hne
      obtain heq | ⟨hx, heq⟩ := hshort.get_eq x
      · exact hdepth (heq.symm.trans hy) hne
      · obtain rfl := Option.some.inj (heq.symm.trans hy)
        exact h.depth_root_lt hdepth hx hne
    · intro x hx
      rw [classOf, hshort.keys_eq]
      exact hclass (hsome x ▸ hx)

/-- The root of an element is found, when there is enough fuel for its depth. -/
theorem find_of_depth (h : Forest parent root) {depth : α → ℕ}
    (hdepth : ∀ {x y}, parent.get x = some y → y ≠ x → depth y < depth x) {x : α}
    (hx : (parent.get x).isSome) :
  ∃ parent', (∀ fuel, depth x < fuel → UnionFind.find fuel parent x = .ok (root x, parent'))
    ∧ Shortened root parent parent'
  := by
  induction hd : depth x using Nat.strong_induction_on generalizing x with
  | h d ih =>
      obtain ⟨y, hy⟩ := Option.isSome_iff_exists.mp hx
      by_cases hself : y = x
      · subst hself
        refine ⟨parent, ?_, rfl, fun z => Or.inl rfl⟩
        intro fuel hfuel
        obtain ⟨fuel, rfl⟩ := Nat.exists_eq_succ_of_ne_zero (Nat.ne_zero_of_lt hfuel)
        rw [UnionFind.find, hy, h.root_of_self hy]
        exact if_pos rfl
      · have hlt := hd ▸ hdepth hy hself
        obtain ⟨parent', hfind, hshort⟩ := ih (depth y) hlt (h.closed hy) rfl
        refine ⟨parent'.insert x (root y), ?_, ?_, ?_⟩
        · intro fuel hfuel
          obtain ⟨fuel, rfl⟩ := Nat.exists_eq_succ_of_ne_zero (Nat.ne_zero_of_lt hfuel)
          rw [UnionFind.find, hy]
          dsimp only
          rw [if_neg hself, hfind fuel (hlt.trans_le (Nat.le_of_lt_succ hfuel)),
            h.root_parent hy]
          rfl
        · have hx' : (parent'.get x).isSome := by
            rw [← FiniteMap.mem_keys, hshort.keys_eq, FiniteMap.mem_keys]
            exact hx
          exact (FiniteMap.keys_insert_of_isSome hx' _).trans hshort.keys_eq
        · intro z
          rw [FiniteMap.get_insert]
          split
          · next heq =>
            rw [heq, h.root_parent hy]
            exact Or.inr ⟨hx, rfl⟩
          · exact hshort.get_eq z

/-- Finding the root of an element keeps a forest. -/
theorem find (h : Forest parent root) {x : α} (hx : x ∈ parent.keys) :
  ∃ parent', (∀ fuel, parent.len ≤ fuel → UnionFind.find fuel parent x = .ok (root x, parent'))
    ∧ Forest parent' root ∧ parent'.keys = parent.keys
  := by
  obtain ⟨depth, hdepth, hclass⟩ := h.depth
  have hsome := FiniteMap.mem_keys.mp hx
  have hcard : (classOf parent root x).card ≤ parent.len := by
    apply (Finset.card_filter_le _ _).trans
    apply (List.toFinset_card_le _).trans
    rw [FiniteMap.length_keys]
  obtain ⟨parent', hfind, hshort⟩ := h.find_of_depth hdepth hsome
  refine ⟨parent', ?_, h.shortened hshort, hshort.keys_eq⟩
  intro fuel hfuel
  exact hfind fuel ((hclass hsome).trans_le (hcard.trans hfuel))

/-- The class of the new root is made of two classes, the others stay. -/
theorem card_classOf_linked {ra rb : α} (hb : root rb = rb) (hne : ra ≠ rb) {x : α} :
  (root x = ra →
    (classOf parent (linked root ra rb) x).card
      = (classOf parent root x).card + (classOf parent root rb).card)
    ∧ (root x ≠ ra →
      (classOf parent root x).card ≤ (classOf parent (linked root ra rb) x).card)
  := by
  constructor
  · intro hx
    have hclass : classOf parent (linked root ra rb) x
        = classOf parent root x ∪ classOf parent root rb := by
      rw [classOf, classOf, classOf, ← Finset.filter_or]
      apply Finset.filter_congr
      intro y _
      rw [linked, linked, if_pos hx, hx, hb]
      split
      · next hy => simp [hy]
      · next hy => simp [hy]
    rw [hclass]
    apply Finset.card_union_of_disjoint
    rw [Finset.disjoint_left]
    intro y hy hy'
    rw [classOf, Finset.mem_filter] at hy hy'
    exact hne (hx.symm.trans (hy.2.symm.trans (hy'.2.trans hb)))
  · intro hx
    apply Finset.card_le_card
    intro y hy
    rw [classOf, Finset.mem_filter] at hy ⊢
    rw [linked, linked, hy.2]
    exact ⟨hy.1, rfl⟩

/-- Linking a root to another one keeps a forest. -/
theorem link (h : Forest parent root) {ra rb : α} (ha : parent.get ra = some ra)
    (hb : parent.get rb = some rb) (hne : ra ≠ rb) :
  Forest (parent.insert ra rb) (linked root ra rb)
  := by
  have hra := h.root_of_self ha
  have hrb := h.root_of_self hb
  have hkeys : (parent.insert ra rb).keys = parent.keys :=
    FiniteMap.keys_insert_of_isSome (by rw [ha]; rfl) rb
  have hsome (x : α) : ((parent.insert ra rb).get x).isSome = (parent.get x).isSome := by
    rw [Bool.eq_iff_iff, ← FiniteMap.mem_keys, ← FiniteMap.mem_keys, hkeys]
  have hstay {x : α} (hx : x ≠ ra) : (parent.insert ra rb).get x = parent.get x :=
    FiniteMap.get_insert_of_ne _ hx rb
  have hlinked : linked root ra rb rb = rb := by
    rw [linked, hrb, if_neg hne.symm]
  obtain ⟨depth, hdepth, hclass⟩ := h.depth
  constructor
  · intro x y hy
    rw [hsome]
    rw [FiniteMap.get_insert] at hy
    split at hy
    · obtain rfl := Option.some.inj hy
      rw [hb]
      rfl
    · exact h.closed hy
  · intro x y hy
    rw [FiniteMap.get_insert] at hy
    split at hy
    · next heq =>
      obtain rfl := Option.some.inj hy
      rw [hlinked, heq, linked, if_pos hra]
    · rw [linked, linked, h.root_parent hy]
  · intro x hx
    rw [hsome] at hx
    rw [linked]
    split
    · rw [hstay hne.symm, hb]
    · next hroot => rw [hstay hroot, h.get_root hx]
  · intro x hself
    rw [FiniteMap.get_insert] at hself
    split at hself
    · next heq => exact absurd (heq.symm.trans (Option.some.inj hself).symm) hne
    · next hx =>
      rw [linked, h.root_of_self hself, if_neg hx]
  · intro x hnone
    have hx : parent.get x = none := by
      rw [← Option.not_isSome_iff_eq_none, ← hsome, hnone]
      exact Bool.false_ne_true
    have hxa : x ≠ ra := by
      rintro rfl
      rw [ha] at hx
      cases hx
    rw [linked, h.root_of_none hx, if_neg hxa]
  · refine ⟨fun x => if root x = ra then depth x + depth rb + 1 else depth x, ?_, ?_⟩
    · intro x y hy hyx
      dsimp only
      rw [FiniteMap.get_insert] at hy
      split at hy
      · next heq =>
        obtain rfl := Option.some.inj hy
        rw [heq, if_pos hra, hrb, if_neg hne.symm]
        omega
      · rw [h.root_parent hy]
        have hlt := hdepth hy hyx
        split
        · omega
        · exact hlt
    · intro x hx
      rw [hsome] at hx
      have hlt := hclass hx
      have hltb := hclass (x := rb) (by rw [hb]; rfl)
      have hcard (z : α) : classOf (parent.insert ra rb) (linked root ra rb) z
          = classOf parent (linked root ra rb) z := by
        rw [classOf, classOf, hkeys]
      obtain ⟨hmerged, hother⟩ : (root x = ra → (classOf parent (linked root ra rb) x).card
            = (classOf parent root x).card + (classOf parent root rb).card)
          ∧ (root x ≠ ra → (classOf parent root x).card
            ≤ (classOf parent (linked root ra rb) x).card) := card_classOf_linked hrb hne
      dsimp only
      rw [hcard]
      split
      · next hroot =>
        rw [hmerged hroot]
        omega
      · next hroot => exact hlt.trans_le (hother hroot)

/-- Uniting two elements keeps a forest. -/
theorem union (h : Forest parent root) {a b : α} (ha : a ∈ parent.keys) (hb : b ∈ parent.keys) :
  ∃ parent', (∀ fuel, parent.len ≤ fuel → UnionFind.union fuel parent a b = .ok parent')
    ∧ Forest parent' (linked root (root a) (root b)) ∧ parent'.keys = parent.keys
  := by
  obtain ⟨parent₁, hfind₁, h₁, hkeys₁⟩ := h.find ha
  obtain ⟨parent₂, hfind₂, h₂, hkeys₂⟩ := h₁.find (hkeys₁ ▸ hb)
  have hkeys := hkeys₂.trans hkeys₁
  have hget {x : α} (hx : x ∈ parent.keys) : parent₂.get (root x) = some (root x) :=
    h₂.get_root (FiniteMap.mem_keys.mp (hkeys ▸ hx))
  refine ⟨if root a ≠ root b then parent₂.insert (root a) (root b) else parent₂, ?_, ?_⟩
  · intro fuel hfuel
    rw [UnionFind.union, hfind₁ fuel hfuel]
    change (UnionFind.find fuel parent₁ b >>= _) = _
    rw [hfind₂ fuel (FiniteMap.len_congr hkeys₁ ▸ hfuel)]
    rfl
  · split
    · next hne =>
      use h₂.link (hget ha) (hget hb) hne
      rw [FiniteMap.keys_insert_of_isSome (by rw [hget ha]; rfl), hkeys]
    · next heq =>
      have hsame : linked root (root a) (root b) = root := by
        funext x
        rw [linked]
        split
        · next hx => rw [hx, not_not.mp heq]
        · rfl
      rw [hsame]
      exact ⟨h₂, hkeys⟩

end Forest

/-! ### Connected elements -/

/-- Two elements have the same root exactly when a relation connects them. -/
def Connects (root : α → α) (R : α → α → Prop) : Prop :=
  ∀ x y, root x = root y ↔ Relation.EqvGen R x y

omit [LinearOrder α] in
theorem connects_id :
  Connects (id : α → α) fun _ _ => False
  := by
  intro x y
  constructor
  · rintro rfl
    exact .refl x
  · intro h
    induction h with
    | rel _ _ h => cases h
    | refl _ => rfl
    | symm _ _ _ ih => exact ih.symm
    | trans _ _ _ _ _ ih ih' => exact ih.trans ih'

/-- A link of two roots connects what they connected, and their classes. -/
theorem Connects.linked {root : α → α} {R : α → α → Prop} (h : Connects root R) (a b : α) :
  Connects (linked root (root a) (root b)) fun x y => R x y ∨ x = a ∧ y = b
  := by
  have hmono {x y : α} (hxy : root x = root y) :
      Relation.EqvGen (fun x y => R x y ∨ x = a ∧ y = b) x y :=
    Relation.EqvGen.mono (fun _ _ => Or.inl) _ _ ((h x y).mp hxy)
  have hedge : Relation.EqvGen (fun x y => R x y ∨ x = a ∧ y = b) a b :=
    .rel _ _ (Or.inr ⟨rfl, rfl⟩)
  intro x y
  rw [UnionFind.linked, UnionFind.linked]
  constructor
  · intro heq
    by_cases hx : root x = root a
    · rw [if_pos hx] at heq
      by_cases hy : root y = root a
      · exact hmono (hx.trans hy.symm)
      · rw [if_neg hy] at heq
        exact .trans _ _ _ (hmono hx) (.trans _ _ _ hedge (hmono heq))
    · rw [if_neg hx] at heq
      by_cases hy : root y = root a
      · rw [if_pos hy] at heq
        exact .trans _ _ _ (.trans _ _ _ (hmono heq) (.symm _ _ hedge)) (hmono hy.symm)
      · rw [if_neg hy] at heq
        exact hmono heq
  · intro hconn
    induction hconn with
    | rel x y hxy =>
        obtain hR | ⟨rfl, rfl⟩ := hxy
        · rw [(h x y).mpr (.rel _ _ hR)]
        · rw [if_pos rfl]
          split
          · rfl
          · rfl
    | refl _ => rfl
    | symm _ _ _ ih => exact ih.symm
    | trans _ _ _ _ _ ih ih' => exact ih.trans ih'

/-- Pairs of elements are united one after the other, and connect the elements. -/
theorem exists_unions {parent : FiniteMap α α} {root : α → α} (h : Forest parent root)
    {pairs : List (α × α)} (hpairs : ∀ p ∈ pairs, p.1 ∈ parent.keys ∧ p.2 ∈ parent.keys)
    {R : α → α → Prop} (hroot : Connects root R) :
  ∃ parent' root', (∀ fuel, parent.len ≤ fuel → unions fuel parent pairs = .ok parent')
    ∧ Forest parent' root' ∧ parent'.keys = parent.keys
    ∧ Connects root' fun x y => R x y ∨ (x, y) ∈ pairs
  := by
  induction pairs generalizing parent root R with
  | nil =>
      refine ⟨parent, root, fun _ _ => rfl, h, rfl, ?_⟩
      simpa using hroot
  | cons p pairs ih =>
      rw [List.forall_mem_cons] at hpairs
      obtain ⟨parent₁, hunion, h₁, hkeys₁⟩ := h.union hpairs.1.1 hpairs.1.2
      obtain ⟨parent', root', hrun, h', hkeys', hconnects⟩ :=
        ih h₁ (by rw [hkeys₁]; exact hpairs.2) (hroot.linked p.1 p.2)
      refine ⟨parent', root', ?_, h', hkeys'.trans hkeys₁, ?_⟩
      · intro fuel hfuel
        rw [unions, List.foldlM_cons, hunion fuel hfuel]
        exact hrun fuel (FiniteMap.len_congr hkeys₁ ▸ hfuel)
      · have hedges : (fun x y => R x y ∨ (x, y) ∈ p :: pairs)
            = fun x y => (R x y ∨ x = p.1 ∧ y = p.2) ∨ (x, y) ∈ pairs := by
          funext x y
          rw [List.mem_cons, or_assoc, Prod.ext_iff]
        rw [hedges]
        exact hconnects

/-! ### Missing elements -/

theorem find_missing {parent : FiniteMap α α} {x : α} (h : x ∉ parent.keys) {fuel : ℕ}
    (hfuel : 0 < fuel) :
  find fuel parent x = .error .missingKey
  := by
  obtain ⟨fuel, rfl⟩ := Nat.exists_eq_succ_of_ne_zero hfuel.ne'
  rw [FiniteMap.mem_keys, Option.not_isSome_iff_eq_none] at h
  rw [find, h]

/-- Uniting elements stops when one of them has no parent. -/
theorem union_missing {parent : FiniteMap α α} {root : α → α} (h : Forest parent root) {a b : α}
    (hab : ¬ (a ∈ parent.keys ∧ b ∈ parent.keys)) {fuel : ℕ} (hpos : 0 < fuel)
    (hfuel : parent.len ≤ fuel) :
  union fuel parent a b = .error .missingKey
  := by
  by_cases ha : a ∈ parent.keys
  · obtain ⟨parent', hfind, -, hkeys⟩ := h.find ha
    have hb : b ∉ parent'.keys := by
      rw [hkeys]
      exact fun hb => hab ⟨ha, hb⟩
    rw [union, hfind fuel hfuel]
    change (find fuel parent' b >>= _) = _
    rw [find_missing hb hpos]
    rfl
  · rw [union, find_missing ha hpos]
    rfl

/-- Uniting pairs stops when one of their elements has no parent. -/
theorem unions_missing {parent : FiniteMap α α} {root : α → α} (h : Forest parent root)
    {pairs : List (α × α)} (hpairs : ¬ ∀ p ∈ pairs, p.1 ∈ parent.keys ∧ p.2 ∈ parent.keys)
    {fuel : ℕ} (hpos : 0 < fuel) (hfuel : parent.len ≤ fuel) :
  unions fuel parent pairs = .error .missingKey
  := by
  induction pairs generalizing parent root with
  | nil => exact absurd (fun p hp => absurd hp List.not_mem_nil) hpairs
  | cons p pairs ih =>
      rw [unions, List.foldlM_cons]
      by_cases hp : p.1 ∈ parent.keys ∧ p.2 ∈ parent.keys
      · obtain ⟨parent', hunion, h', hkeys⟩ := h.union hp.1 hp.2
        rw [hunion fuel hfuel]
        apply ih h' _ (FiniteMap.len_congr hkeys ▸ hfuel)
        rw [hkeys]
        exact fun hrest => hpairs (List.forall_mem_cons.mpr ⟨hp, hrest⟩)
      · rw [union_missing h hp hpos hfuel]
        rfl

/-! ### The forest of single elements -/

theorem get_singletons (elements : List α) (x : α) :
  (singletons elements).get x = if x ∈ elements then some x else none
  := by
  have hfold (m : FiniteMap α α) : (elements.foldl (fun m x => m.insert x x) m).get x
      = if x ∈ elements then some x else m.get x := by
    induction elements generalizing m with
    | nil => rfl
    | cons y ys ih =>
        rw [List.foldl_cons, ih, FiniteMap.get_insert]
        by_cases hx : x = y
        · subst hx
          simp
        · simp [hx]
  exact hfold .empty

theorem mem_keys_singletons {elements : List α} {x : α} :
  x ∈ (singletons elements).keys ↔ x ∈ elements
  := by
  rw [FiniteMap.mem_keys, get_singletons]
  split
  · next hx => simp [hx]
  · next hx => simp [hx]

theorem forest_singletons (elements : List α) :
  Forest (singletons elements) id
  := by
  have hget {x y : α} (h : (singletons elements).get x = some y) : y = x ∧ x ∈ elements := by
    rw [get_singletons] at h
    split at h
    · next hx => exact ⟨(Option.some.inj h).symm, hx⟩
    · cases h
  constructor
  · intro x y h
    obtain ⟨rfl, -⟩ := hget h
    rw [h]
    rfl
  · intro x y h
    exact (hget h).1
  · intro x h
    obtain ⟨y, hy⟩ := Option.isSome_iff_exists.mp h
    obtain ⟨rfl, -⟩ := hget hy
    exact hy
  · exact fun _ => rfl
  · exact fun _ => rfl
  · refine ⟨fun _ => 0, ?_, ?_⟩
    · intro x y h hne
      exact absurd (hget h).1 hne
    · intro x h
      apply Finset.card_pos.mpr
      use x
      rw [classOf, Finset.mem_filter, List.mem_toFinset, FiniteMap.mem_keys]
      exact ⟨h, rfl⟩

end UnionFind
