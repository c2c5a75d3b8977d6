import Vexfs.Collections.SortedMap

/-!
# Finite maps

A finite map is a sorted list of pairs together with the fact that its keys increase.  The
order of the list stands for no order of the map: what goes through the keys of a map in an
unspecified order does so along an `Arrangement` of them.
-/

/-- A finite map from keys to values. -/
structure FiniteMap (α β : Type*) [LinearOrder α] where
  entries : List (α × β)
  increasing : SortedMap.Increasing entries

namespace FiniteMap

variable {α β : Type*} [LinearOrder α]

def empty : FiniteMap α β := ⟨[], List.Pairwise.nil⟩

/-- The value of a key. -/
def get (m : FiniteMap α β) (k : α) : Option β := m.entries.lookup k

def insert (m : FiniteMap α β) (k : α) (v : β) : FiniteMap α β :=
  ⟨SortedMap.insert k v m.entries, m.increasing.insert k v⟩

def erase (m : FiniteMap α β) (k : α) : FiniteMap α β :=
  ⟨SortedMap.erase k m.entries, m.increasing.erase k⟩

/-- Change the value of a key, if it has one. -/
def modify (m : FiniteMap α β) (k : α) (f : β → β) : FiniteMap α β :=
  match m.get k with
  | none => m
  | some v => m.insert k (f v)

/-- Change every value. -/
def map (m : FiniteMap α β) (f : β → β) : FiniteMap α β where
  entries := m.entries.map fun e => (e.1, f e.2)
  increasing := List.pairwise_map.mpr (m.increasing.imp fun h => h)

/-- Change every value by its key. -/
def mapWithKey {γ : Type*} (m : FiniteMap α β) (f : α → β → γ) : FiniteMap α γ where
  entries := m.entries.map fun e => (e.1, f e.1 e.2)
  increasing := List.pairwise_map.mpr (m.increasing.imp fun h => h)

def keys (m : FiniteMap α β) : List α := m.entries.map Prod.fst

def len (m : FiniteMap α β) : ℕ := m.entries.length

@[simp]
theorem get_empty (k : α) :
  (empty : FiniteMap α β).get k = none
  := rfl

theorem get_insert (m : FiniteMap α β) (k k' : α) (v : β) :
  (m.insert k v).get k' = if k' = k then some v else m.get k'
  := SortedMap.lookup_insert k k' v m.entries

@[simp]
theorem get_insert_self (m : FiniteMap α β) (k : α) (v : β) :
  (m.insert k v).get k = some v
  := by rw [get_insert, if_pos rfl]

theorem get_insert_of_ne (m : FiniteMap α β) {k k' : α} (h : k' ≠ k) (v : β) :
  (m.insert k v).get k' = m.get k'
  := by rw [get_insert, if_neg h]

theorem get_erase (m : FiniteMap α β) (k k' : α) :
  (m.erase k).get k' = if k' = k then none else m.get k'
  := SortedMap.lookup_erase k k' m.entries

/-- A key that is left has the value it had. -/
theorem get_of_get_erase {m : FiniteMap α β} {k k' : α} {v : β}
    (h : (m.erase k).get k' = some v) :
  k' ≠ k ∧ m.get k' = some v
  := by
  rw [get_erase] at h
  split at h
  · cases h
  · exact ⟨‹_›, h⟩

theorem get_modify (m : FiniteMap α β) (k k' : α) (f : β → β) :
  (m.modify k f).get k' = if k' = k then (m.get k).map f else m.get k'
  := by
  rw [modify]
  split
  · rename_i hnone
    split
    · rename_i heq
      rw [heq, hnone, Option.map_none]
    · rfl
  · rename_i v hsome
    rw [get_insert, hsome, Option.map_some]

/-- What a value of the changed map was. -/
theorem get_of_get_modify {m : FiniteMap α β} {k k' : α} {f : β → β} {v : β}
    (h : (m.modify k f).get k' = some v) :
  ∃ w, m.get k' = some w ∧ v = if k' = k then f w else w
  := by
  rw [get_modify] at h
  split at h
  · rename_i heq
    subst heq
    obtain ⟨w, hw, rfl⟩ := Option.map_eq_some_iff.mp h
    exact ⟨w, hw, (if_pos rfl).symm⟩
  · rename_i hne
    exact ⟨v, h, (if_neg hne).symm⟩

theorem isSome_get_modify (m : FiniteMap α β) (k k' : α) (f : β → β) :
  ((m.modify k f).get k').isSome = (m.get k').isSome
  := by
  rw [get_modify]
  split
  · rename_i heq
    rw [heq, Option.isSome_map]
  · rfl

theorem get_map (m : FiniteMap α β) (k : α) (f : β → β) :
  (m.map f).get k = (m.get k).map f
  := by
  show (m.entries.map fun e => (e.1, f e.2)).lookup k = (m.entries.lookup k).map f
  induction m.entries with
  | nil => rfl
  | cons e es ih =>
      rw [List.map_cons, List.lookup_cons, List.lookup_cons, ih]
      cases k == e.1 <;> rfl

theorem mem_entries {m : FiniteMap α β} {k : α} {v : β} :
  (k, v) ∈ m.entries ↔ m.get k = some v
  := SortedMap.mem_iff_lookup m.increasing

theorem mem_keys {m : FiniteMap α β} {k : α} :
  k ∈ m.keys ↔ (m.get k).isSome
  := by
  rw [keys, List.mem_map, Option.isSome_iff_exists]
  constructor
  · rintro ⟨⟨k, v⟩, he, rfl⟩
    exact ⟨v, mem_entries.mp he⟩
  · rintro ⟨v, hv⟩
    exact ⟨(k, v), mem_entries.mpr hv, rfl⟩

theorem nodup_keys (m : FiniteMap α β) :
  m.keys.Nodup
  := List.pairwise_map.mpr (m.increasing.imp ne_of_lt)

theorem nodup_entries (m : FiniteMap α β) :
  m.entries.Nodup
  := List.Nodup.of_map _ m.nodup_keys

/-- The keys of a map are those that have a value. -/
theorem keys_congr {γ : Type*} {m : FiniteMap α β} {m' : FiniteMap α γ}
    (h : ∀ k, (m.get k).isSome = (m'.get k).isSome) :
  m.keys = m'.keys
  := by
  have hperm : m.keys.Perm m'.keys := by
    apply (List.perm_ext_iff_of_nodup m.nodup_keys m'.nodup_keys).mpr
    intro k
    rw [mem_keys, mem_keys, h]
  apply hperm.eq_of_pairwise _ (List.pairwise_map.mpr m.increasing)
    (List.pairwise_map.mpr m'.increasing)
  exact fun a b _ _ hab hba => absurd hba hab.asymm

@[simp]
theorem keys_map (m : FiniteMap α β) (f : β → β) :
  (m.map f).keys = m.keys
  := List.map_map

@[simp]
theorem keys_mapWithKey {γ : Type*} (m : FiniteMap α β) (f : α → β → γ) :
  (m.mapWithKey f).keys = m.keys
  := List.map_map

theorem length_keys (m : FiniteMap α β) :
  m.keys.length = m.len
  := List.length_map _

theorem len_congr {γ : Type*} {m : FiniteMap α β} {m' : FiniteMap α γ} (h : m.keys = m'.keys) :
  m.len = m'.len
  := by
  rw [← length_keys, h, length_keys]

/-- Changing the value of a key keeps the keys. -/
theorem keys_insert_of_isSome {m : FiniteMap α β} {k : α} (h : (m.get k).isSome) (v : β) :
  (m.insert k v).keys = m.keys
  := by
  apply keys_congr
  intro k'
  rw [get_insert]
  split
  · next heq =>
    rw [heq, h]
    rfl
  · rfl

theorem erase_insert (m : FiniteMap α β) (k : α) (v : β) :
  ((m.insert k v).erase k).entries.Perm (m.erase k).entries
  := by
  apply (List.perm_ext_iff_of_nodup (nodup_entries _) (nodup_entries _)).mpr
  rintro ⟨k', v'⟩
  rw [mem_entries, mem_entries, get_erase, get_erase]
  split
  · exact Iff.rfl
  · next hne => rw [get_insert_of_ne _ hne]

/-- The pairs of a map, that of one key first. -/
theorem entries_perm {m : FiniteMap α β} {k : α} {v : β} (h : m.get k = some v) :
  m.entries.Perm ((k, v) :: (m.erase k).entries)
  := by
  have hnot : (k, v) ∉ (m.erase k).entries := by
    intro hmem
    exact (get_of_get_erase (mem_entries.mp hmem)).1 rfl
  apply (List.perm_ext_iff_of_nodup m.nodup_entries
    (List.nodup_cons.mpr ⟨hnot, (m.erase k).nodup_entries⟩)).mpr
  rintro ⟨k', v'⟩
  rw [List.mem_cons, mem_entries, mem_entries, get_erase, Prod.mk.injEq]
  by_cases heq : k' = k
  · subst heq
    rw [if_pos rfl, h, Option.some.injEq]
    simp [eq_comm]
  · simp [heq]

/-- A map without a key is as it was. -/
theorem entries_erase_of_none {m : FiniteMap α β} {k : α} (h : m.get k = none) :
  m.entries.Perm (m.erase k).entries
  := by
  apply (List.perm_ext_iff_of_nodup m.nodup_entries (m.erase k).nodup_entries).mpr
  rintro ⟨k', v'⟩
  rw [mem_entries, mem_entries, get_erase]
  split
  · next heq => simp [heq, h]
  · exact Iff.rfl

theorem len_erase (m : FiniteMap α β) (k : α) :
  (m.erase k).len = if (m.get k).isSome then m.len - 1 else m.len
  := by
  cases h : m.get k with
  | none => exact (entries_erase_of_none h).length_eq.symm
  | some v =>
      have hlen : m.len = (m.erase k).len + 1 := (entries_perm h).length_eq
      rw [Option.isSome_some, if_pos rfl, hlen, Nat.add_sub_cancel]

theorem len_insert (m : FiniteMap α β) (k : α) (v : β) :
  (m.insert k v).len = if (m.get k).isSome then m.len else m.len + 1
  := by
  cases h : m.get k with
  | none =>
      have hlen : (m.insert k v).len = ((m.insert k v).erase k).len + 1 :=
        (entries_perm (get_insert_self m k v)).length_eq
      have herase : ((m.insert k v).erase k).len = m.len :=
        ((erase_insert m k v).trans (entries_erase_of_none h).symm).length_eq
      rw [hlen, herase]
      rfl
  | some w => exact len_congr (keys_insert_of_isSome (h ▸ rfl) v)

/-- A map is what it gives for the keys. -/
theorem ext {m m' : FiniteMap α β} (h : ∀ k, m.get k = m'.get k) :
  m = m'
  := by
  have hperm : m.entries.Perm m'.entries := by
    apply (List.perm_ext_iff_of_nodup m.nodup_entries m'.nodup_entries).mpr
    rintro ⟨k, v⟩
    rw [mem_entries, mem_entries, h]
  have heq : m.entries = m'.entries := by
    apply hperm.eq_of_pairwise _ m.increasing m'.increasing
    exact fun a b _ _ hab hba => absurd hba hab.asymm
  obtain ⟨entries, increasing⟩ := m
  obtain rfl := heq
  rfl

end FiniteMap

/-- The order in which the keys of a map are gone through. -/
structure Arrangement (α : Type*) where
  arrange : List α → List α
  perm : ∀ keys, (arrange keys).Perm keys

namespace Arrangement

variable {α : Type*}

/-- The order of the list. -/
def id : Arrangement α := ⟨fun keys => keys, fun _ => .refl _⟩

theorem mem_arrange (order : Arrangement α) {keys : List α} {k : α} :
  k ∈ order.arrange keys ↔ k ∈ keys
  := (order.perm keys).mem_iff

end Arrangement

namespace FiniteMap

variable {α β : Type*} [LinearOrder α]

/-! ### Going through a map -/

/-- The pairs of a map, in the order in which they are gone through. -/
def iter (m : FiniteMap α β) (order : Arrangement α) : List (α × β) :=
  (order.arrange m.keys).filterMap fun k => (m.get k).map fun v => (k, v)

theorem mem_iter {m : FiniteMap α β} {order : Arrangement α} {k : α} {v : β} :
  (k, v) ∈ m.iter order ↔ m.get k = some v
  := by
  rw [iter, List.mem_filterMap]
  constructor
  · rintro ⟨k', -, hk'⟩
    obtain ⟨v', hv', heq⟩ := Option.map_eq_some_iff.mp hk'
    obtain ⟨rfl, rfl⟩ := Prod.mk.inj heq
    exact hv'
  · intro hv
    refine ⟨k, ?_, by rw [hv, Option.map_some]⟩
    rw [order.mem_arrange, mem_keys, hv]
    rfl

/-- The keys are gone through in the given order. -/
theorem keys_iter (m : FiniteMap α β) (order : Arrangement α) :
  (m.iter order).map Prod.fst = order.arrange m.keys
  := by
  have hkeys : ∀ k ∈ order.arrange m.keys, (m.get k).isSome = true :=
    fun k hk => mem_keys.mp (order.mem_arrange.mp hk)
  rw [iter]
  generalize order.arrange m.keys = keys at hkeys
  induction keys with
  | nil => rfl
  | cons k keys ih =>
      obtain ⟨v, hv⟩ := Option.isSome_iff_exists.mp (hkeys k List.mem_cons_self)
      rw [List.filterMap_cons_some (by rw [hv, Option.map_some]), List.map_cons,
        ih fun k' hk' => hkeys k' (List.mem_cons_of_mem _ hk')]

theorem nodup_keys_iter (m : FiniteMap α β) (order : Arrangement α) :
  ((m.iter order).map Prod.fst).Nodup
  := by
  rw [keys_iter]
  exact (order.perm _).nodup_iff.mpr m.nodup_keys

theorem iter_perm (m : FiniteMap α β) (order : Arrangement α) :
  (m.iter order).Perm m.entries
  := by
  apply (List.perm_ext_iff_of_nodup (.of_map _ (m.nodup_keys_iter order)) m.nodup_entries).mpr
  rintro ⟨k, v⟩
  rw [mem_iter, mem_entries]

theorem length_iter (m : FiniteMap α β) (order : Arrangement α) :
  (m.iter order).length = m.len
  := (m.iter_perm order).length_eq

/-- Inserting pairs with different keys one after the other. -/
theorem get_foldl_insert {es : List (α × β)} (hnodup : (es.map Prod.fst).Nodup)
    (m : FiniteMap α β) (k : α) :
  (es.foldl (fun m e => m.insert e.1 e.2) m).get k = (es.lookup k).or (m.get k)
  := by
  induction es generalizing m with
  | nil => rfl
  | cons e es ih =>
      rw [List.map_cons, List.nodup_cons] at hnodup
      rw [List.foldl_cons, ih hnodup.2, List.lookup_cons, get_insert]
      by_cases hk : k = e.1
      · have hnone : es.lookup k = none := SortedMap.lookup_eq_none fun e' he' heq =>
          hnodup.1 (hk ▸ heq ▸ List.mem_map_of_mem he')
        rw [hnone, if_pos hk, beq_iff_eq.mpr hk]
        rfl
      · rw [if_neg hk, beq_false_of_ne hk]

/-- A map is made anew from its pairs, in whatever order they come. -/
theorem foldl_insert_iter (m : FiniteMap α β) (order : Arrangement α) :
  (m.iter order).foldl (fun m e => m.insert e.1 e.2) empty = m
  := by
  apply ext
  intro k
  rw [get_foldl_insert (m.nodup_keys_iter order), get_empty, Option.or_none]
  apply Option.ext
  intro v
  rw [SortedMap.lookup_eq_some_iff (m.nodup_keys_iter order), mem_iter]

/-! ### Maps to lists -/

variable {γ : Type*}

theorem insert_insert (m : FiniteMap α β) (k : α) (v w : β) :
  (m.insert k v).insert k w = m.insert k w
  := by
  apply ext
  intro k'
  rw [get_insert, get_insert, get_insert]
  split <;> rfl

/-- Add an element at the end of the list of a key. -/
def push (m : FiniteMap α (List γ)) (k : α) (x : γ) : FiniteMap α (List γ) :=
  m.insert k ((m.get k).getD [] ++ [x])

/-- The elements of the lists of some keys, each with its key. -/
def elements (es : List (α × List γ)) : List (α × γ) :=
  es.flatMap fun e => e.2.map fun x => (e.1, x)

theorem length_elements_iter (m : FiniteMap α (List γ)) (order : Arrangement α) :
  (elements (m.iter order)).length = (elements m.entries).length
  := ((m.iter_perm order).flatMap_right _).length_eq

/-- Adding the elements of a list one after the other. -/
theorem foldl_push {l : List γ} (hne : l ≠ []) (m : FiniteMap α (List γ)) (k : α) :
  (l.map fun x => (k, x)).foldl (fun m e => m.push e.1 e.2) m
    = m.insert k ((m.get k).getD [] ++ l)
  := by
  induction l generalizing m with
  | nil => exact absurd rfl hne
  | cons x l ih =>
      rw [List.map_cons, List.foldl_cons]
      by_cases hl : l = []
      · rw [hl]
        rfl
      · rw [ih hl, push, insert_insert, get_insert_self, Option.getD_some, List.append_assoc]
        rfl

/-- A map to lists that are not empty is made anew from the elements of the lists. -/
theorem foldl_push_elements {m : FiniteMap α (List γ)}
    (hne : ∀ k l, m.get k = some l → l ≠ []) (order : Arrangement α) :
  (elements (m.iter order)).foldl (fun m e => m.push e.1 e.2) empty = m
  := by
  have hfold : ∀ (es : List (α × List γ)) (m' : FiniteMap α (List γ)),
      (es.map Prod.fst).Nodup → (∀ e ∈ es, e.2 ≠ [] ∧ m'.get e.1 = none) →
      (elements es).foldl (fun m e => m.push e.1 e.2) m'
        = es.foldl (fun m e => m.insert e.1 e.2) m' := by
    intro es
    induction es with
    | nil => exact fun m' _ _ => rfl
    | cons e es ih =>
        intro m' hnodup hes
        rw [List.map_cons, List.nodup_cons] at hnodup
        obtain ⟨hnil, hnew⟩ := hes e List.mem_cons_self
        rw [elements, List.flatMap_cons, List.foldl_append, foldl_push hnil, hnew,
          Option.getD_none, List.nil_append, List.foldl_cons]
        apply ih _ hnodup.2
        intro e' he'
        obtain ⟨hnil', hnew'⟩ := hes e' (List.mem_cons_of_mem _ he')
        have hkey : e'.1 ≠ e.1 := fun heq => hnodup.1 (heq ▸ List.mem_map_of_mem he')
        exact ⟨hnil', (get_insert_of_ne _ hkey _).trans hnew'⟩
  rw [hfold (m.iter order) empty (m.nodup_keys_iter order), foldl_insert_iter]
  exact fun e he => ⟨hne e.1 e.2 (mem_iter.mp he), rfl⟩

end FiniteMap
