import Mathlib.Data.List.Basic
import Mathlib.Data.Set.Card
import Mathlib.Order.Basic

/-!
# Finite maps as sorted lists

A list of pairs whose keys increase is a finite map, read by `List.lookup`.  This file
defines adding and removing a key, says what they do to the map, and shows that they work
inside one part of a list whose other part holds only smaller, or only larger, keys.
-/

namespace SortedMap

variable {α β : Type*} [LinearOrder α]

/-- The keys increase strictly from left to right. -/
def Increasing (es : List (α × β)) : Prop :=
  es.Pairwise fun e e' => e.1 < e'.1

/-- Map `k` to `v`, in place of what it was mapped to. -/
def insert (k : α) (v : β) (es : List (α × β)) : List (α × β) :=
  es.filter (·.1 < k) ++ (k, v) :: es.filter (k < ·.1)

/-- Remove `k` from the map. -/
def erase (k : α) (es : List (α × β)) : List (α × β) :=
  es.filter (·.1 ≠ k)

/-! ### What the operations do to the map -/

theorem lookup_filter {p : α → Bool} {k : α} (es : List (α × β)) :
  (es.filter fun e => p e.1).lookup k = if p k then es.lookup k else none
  := by
  induction es with
  | nil => simp
  | cons e es ih =>
      obtain ⟨a, b⟩ := e
      rw [List.filter_cons, List.lookup_cons]
      by_cases hk : k = a
      · subst hk
        by_cases hp : p k
        · simp [hp]
        · simpa [hp] using ih
      · by_cases hp : p a <;> simp [hp, List.lookup_cons, beq_eq_false_iff_ne.mpr hk, ih]

theorem lookup_insert (k k' : α) (v : β) (es : List (α × β)) :
  (insert k v es).lookup k' = if k' = k then some v else es.lookup k'
  := by
  rw [insert, List.lookup_append, List.lookup_cons,
    lookup_filter (p := fun x => decide (x < k)), lookup_filter (p := fun x => decide (k < x))]
  obtain h | h | h := lt_trichotomy k' k
  · simp [h, h.ne, h.not_gt, beq_eq_false_iff_ne.mpr h.ne]
  · simp [h]
  · simp [h, h.ne', h.not_gt, beq_eq_false_iff_ne.mpr h.ne']

theorem lookup_erase (k k' : α) (es : List (α × β)) :
  (erase k es).lookup k' = if k' = k then none else es.lookup k'
  := by
  rw [erase, lookup_filter (p := fun x => decide (x ≠ k))]
  by_cases h : k' = k <;> simp [h]

/-- In a list of pairs with different keys a key has the value it is paired with. -/
theorem lookup_eq_some_iff {k : α} {v : β} {es : List (α × β)}
    (hnodup : (es.map Prod.fst).Nodup) :
  es.lookup k = some v ↔ (k, v) ∈ es
  := by
  induction es with
  | nil => simp
  | cons e es ih =>
      rw [List.map_cons, List.nodup_cons] at hnodup
      rw [List.lookup_cons, List.mem_cons]
      by_cases hk : k = e.1
      · rw [beq_iff_eq.mpr hk]
        constructor
        · exact fun h => Or.inl (Prod.ext hk (Option.some.inj h).symm)
        · rintro (rfl | hmem)
          · rfl
          · exact absurd (hk ▸ List.mem_map_of_mem hmem) hnodup.1
      · rw [beq_false_of_ne hk, ih hnodup.2]
        exact (or_iff_right fun h => hk (congrArg Prod.fst h)).symm

/-- The pairs of the list are those of the map. -/
theorem mem_iff_lookup {k : α} {v : β} {es : List (α × β)} (h : Increasing es) :
  (k, v) ∈ es ↔ es.lookup k = some v
  := by
  induction es with
  | nil => simp
  | cons e es ih =>
      obtain ⟨hlt, hes⟩ := List.pairwise_cons.mp h
      obtain ⟨a, b⟩ := e
      rw [List.lookup_cons]
      by_cases hk : k = a
      · subst hk
        have hmem : (k, v) ∉ es := fun hm => lt_irrefl k (hlt _ hm)
        simp [hmem, eq_comm]
      · simp [beq_eq_false_iff_ne.mpr hk, ih hes, hk]

theorem lookup_eq_none {k : α} {es : List (α × β)} (h : ∀ e ∈ es, e.1 ≠ k) :
  es.lookup k = none
  := by
  rw [List.lookup_eq_none_iff]
  intro e he
  exact bne_iff_ne.mpr (h e he).symm

theorem mem_of_mem_insert {e : α × β} {k : α} {v : β} {es : List (α × β)}
    (h : e ∈ insert k v es) :
  e = (k, v) ∨ e ∈ es
  := by
  rw [insert, List.mem_append, List.mem_cons, List.mem_filter, List.mem_filter] at h
  obtain h | h | h := h
  · exact Or.inr h.1
  · exact Or.inl h
  · exact Or.inr h.1

theorem mem_of_mem_erase {e : α × β} {k : α} {es : List (α × β)} (h : e ∈ erase k es) :
  e ∈ es
  := (List.mem_filter.mp h).1

/-! ### Working in one part of the list -/

theorem lookup_append_left {k : α} (es : List (α × β)) {es' : List (α × β)}
    (h : ∀ e ∈ es', k < e.1) :
  (es ++ es').lookup k = es.lookup k
  := by
  rw [List.lookup_append, lookup_eq_none fun e he => (h e he).ne', Option.or_none]

theorem lookup_append_right {k : α} {es : List (α × β)} (es' : List (α × β))
    (h : ∀ e ∈ es, e.1 < k) :
  (es ++ es').lookup k = es'.lookup k
  := by
  rw [List.lookup_append, lookup_eq_none fun e he => (h e he).ne, Option.none_or]

theorem insert_append_left {k : α} (v : β) (es : List (α × β)) {es' : List (α × β)}
    (h : ∀ e ∈ es', k < e.1) :
  insert k v (es ++ es') = insert k v es ++ es'
  := by
  have hbelow : es'.filter (fun e => e.1 < k) = [] :=
    List.filter_eq_nil_iff.mpr fun e he => by simpa using (h e he).le
  have habove : es'.filter (fun e => k < e.1) = es' :=
    List.filter_eq_self.mpr fun e he => by simpa using h e he
  simp [insert, hbelow, habove]

theorem insert_append_right {k : α} (v : β) {es : List (α × β)} (es' : List (α × β))
    (h : ∀ e ∈ es, e.1 < k) :
  insert k v (es ++ es') = es ++ insert k v es'
  := by
  have hbelow : es.filter (fun e => e.1 < k) = es :=
    List.filter_eq_self.mpr fun e he => by simpa using h e he
  have habove : es.filter (fun e => k < e.1) = [] :=
    List.filter_eq_nil_iff.mpr fun e he => by simpa using (h e he).le
  simp [insert, hbelow, habove]

theorem erase_eq_self {k : α} {es : List (α × β)} (h : ∀ e ∈ es, e.1 ≠ k) :
  erase k es = es
  := List.filter_eq_self.mpr fun e he => by simpa using h e he

theorem erase_of_lookup_none {k : α} {es : List (α × β)} (h : es.lookup k = none) :
  erase k es = es
  := by
  apply erase_eq_self
  intro e he
  exact (bne_iff_ne.mp (List.lookup_eq_none_iff.mp h e he)).symm

theorem erase_append_left {k : α} (es : List (α × β)) {es' : List (α × β)}
    (h : ∀ e ∈ es', k < e.1) :
  erase k (es ++ es') = erase k es ++ es'
  := by
  rw [erase, List.filter_append, ← erase, ← erase, erase_eq_self fun e he => (h e he).ne']

theorem erase_append_right {k : α} {es : List (α × β)} (es' : List (α × β))
    (h : ∀ e ∈ es, e.1 < k) :
  erase k (es ++ es') = es ++ erase k es'
  := by
  rw [erase, List.filter_append, ← erase, ← erase, erase_eq_self fun e he => (h e he).ne]

theorem insert_of_lt {k : α} {v : β} {es : List (α × β)} (h : ∀ e ∈ es, k < e.1) :
  insert k v es = (k, v) :: es
  := insert_append_left v [] h

theorem insert_cons_self {k : α} {v w : β} {es : List (α × β)} (h : ∀ e ∈ es, k < e.1) :
  insert k v ((k, w) :: es) = (k, v) :: es
  := by
  rw [← List.singleton_append, insert_append_left v _ h]
  simp [insert]

theorem erase_cons_self {k : α} {w : β} {es : List (α × β)} (h : ∀ e ∈ es, k < e.1) :
  erase k ((k, w) :: es) = es
  := by
  rw [← List.singleton_append, erase_append_left _ h]
  simp [erase]

/-- A sorted list splits at any key. -/
theorem Increasing.exists_split {es : List (α × β)} (h : Increasing es) (k : α) :
  ∃ lower upper, es = lower ++ upper ∧ (∀ e ∈ lower, e.1 < k) ∧
    ((∃ v rest, upper = (k, v) :: rest ∧ ∀ e ∈ rest, k < e.1) ∨ ∀ e ∈ upper, k < e.1)
  := by
  induction es with
  | nil => exact ⟨[], [], by simp⟩
  | cons e es ih =>
      obtain ⟨hlt, hes⟩ := List.pairwise_cons.mp h
      obtain hk | hk | hk := lt_trichotomy e.1 k
      · obtain ⟨lower, upper, rfl, hl, hu⟩ := ih hes
        refine ⟨e :: lower, upper, rfl, ?_, hu⟩
        exact List.forall_mem_cons.mpr ⟨hk, hl⟩
      · subst hk
        exact ⟨[], e :: es, rfl, by simp, Or.inl ⟨e.2, es, rfl, hlt⟩⟩
      · refine ⟨[], e :: es, rfl, by simp, Or.inr ?_⟩
        intro e' he'
        obtain rfl | he' := List.mem_cons.mp he'
        · exact hk
        · exact hk.trans (hlt e' he')

/-! ### Order and number of the keys -/

theorem Increasing.insert {es : List (α × β)} (h : Increasing es) (k : α) (v : β) :
  Increasing (SortedMap.insert k v es)
  := by
  rw [SortedMap.insert, Increasing, List.pairwise_append]
  refine ⟨h.filter _, ?_, ?_⟩
  · refine List.pairwise_cons.mpr ⟨?_, h.filter _⟩
    intro e he
    simpa using (List.mem_filter.mp he).2
  · intro e he e' he'
    have hbelow : e.1 < k := by simpa using (List.mem_filter.mp he).2
    obtain rfl | he' := List.mem_cons.mp he'
    · exact hbelow
    · exact hbelow.trans (by simpa using (List.mem_filter.mp he').2)

theorem Increasing.erase {es : List (α × β)} (h : Increasing es) (k : α) :
  Increasing (SortedMap.erase k es)
  := List.Pairwise.filter _ h

theorem Increasing.length_insert {es : List (α × β)} (h : Increasing es) (k : α) (v : β) :
  (SortedMap.insert k v es).length
    = if (es.lookup k).isSome then es.length else es.length + 1
  := by
  obtain ⟨lower, upper, rfl, hl, hu⟩ := h.exists_split k
  rw [insert_append_right v _ hl, lookup_append_right _ hl]
  obtain ⟨w, rest, rfl, hr⟩ | hu := hu
  · rw [insert_cons_self hr]
    simp
  · rw [insert_of_lt hu, lookup_eq_none fun e he => (hu e he).ne']
    simp [Nat.add_assoc]

theorem Increasing.length_erase {es : List (α × β)} (h : Increasing es) (k : α) :
  (SortedMap.erase k es).length
    = if (es.lookup k).isSome then es.length - 1 else es.length
  := by
  obtain ⟨lower, upper, rfl, hl, hu⟩ := h.exists_split k
  rw [erase_append_right _ hl, lookup_append_right _ hl]
  obtain ⟨w, rest, rfl, hr⟩ | hu := hu
  · rw [erase_cons_self hr]
    simp
  · rw [erase_eq_self fun e he => (hu e he).ne', lookup_eq_none fun e he => (hu e he).ne']
    simp

/-- The list is as long as the map has keys. -/
theorem Increasing.encard_keys {es : List (α × β)} (h : Increasing es) :
  {k | (es.lookup k).isSome}.encard = es.length
  := by
  have hnodup : (es.map Prod.fst).Nodup := by
    apply List.Pairwise.map _ _ h
    intro e e' hlt
    exact hlt.ne
  have hkeys : {k | (es.lookup k).isSome} = ((es.map Prod.fst).toFinset : Set α) := by
    ext k
    simp only [Set.mem_ofPred_eq, List.coe_toFinset, List.mem_map, List.lookup_isSome_iff,
      beq_iff_eq]
    constructor <;> rintro ⟨e, he, rfl⟩ <;> exact ⟨e, he, rfl⟩
  rw [hkeys, Set.encard_coe_eq_coe_finsetCard, List.toFinset_card_of_nodup hnodup,
    List.length_map]

/-! ### Sums over the values -/

/-- The sum of `f` over the values of the map. -/
def sum (f : β → ℕ) (es : List (α × β)) : ℕ :=
  (es.map fun e => f e.2).sum

theorem Increasing.sum_insert {es : List (α × β)} (h : Increasing es) (f : β → ℕ) (k : α) (v : β) :
  sum f (SortedMap.insert k v es) = sum f (SortedMap.erase k es) + f v
  := by
  obtain ⟨lower, upper, rfl, hl, hu⟩ := h.exists_split k
  rw [insert_append_right v _ hl, erase_append_right _ hl]
  obtain ⟨w, rest, rfl, hr⟩ | hu := hu
  · rw [insert_cons_self hr, erase_cons_self hr]
    simp [sum]
    omega
  · rw [insert_of_lt hu, erase_eq_self fun e he => (hu e he).ne']
    simp [sum]
    omega

/-- Removing a key takes its value out of the sum. -/
theorem Increasing.sum_erase {es : List (α × β)} (h : Increasing es) (f : β → ℕ) {k : α} {v : β}
    (hk : es.lookup k = some v) :
  sum f (SortedMap.erase k es) + f v = sum f es
  := by
  obtain ⟨lower, upper, rfl, hl, hu⟩ := h.exists_split k
  rw [lookup_append_right _ hl] at hk
  obtain ⟨w, rest, rfl, hr⟩ | hu := hu
  · obtain rfl : w = v := by simpa using hk
    rw [erase_append_right _ hl, erase_cons_self hr]
    simp [sum]
    omega
  · rw [lookup_eq_none fun e he => (hu e he).ne'] at hk
    cases hk

theorem sum_erase_of_none (f : β → ℕ) {es : List (α × β)} {k : α} (hk : es.lookup k = none) :
  sum f (erase k es) = sum f es
  := by
  rw [List.lookup_eq_none_iff] at hk
  rw [erase_eq_self fun e he => (bne_iff_ne.mp (hk e he)).symm]

/-! ### Sorting by a key -/

/-- Sorting by a key puts the keys in order. -/
theorem pairwise_mergeSort {γ κ : Type*} [LinearOrder κ] (key : γ → κ) {le : γ → γ → Bool}
    {l : List γ} (hle : ∀ a b, le a b = true ↔ key a ≤ key b) :
  (l.mergeSort le).Pairwise fun a b => key a ≤ key b
  := by
  have hsorted := l.pairwise_mergeSort
    (fun a b c hab hbc => (hle a c).mpr (((hle a b).mp hab).trans ((hle b c).mp hbc)))
    fun a b => by
      rw [Bool.or_eq_true, hle, hle]
      exact le_total (key a) (key b)
  exact hsorted.imp fun {a b} hab => (hle a b).mp hab

end SortedMap
