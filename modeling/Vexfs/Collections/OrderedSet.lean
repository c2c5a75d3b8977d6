import Mathlib.Data.Finset.Card

/-!
# Ordered sets with lazy deletion

A set together with a queue that remembers the order in which its members came.  Removing
a member leaves its place in the queue behind, and taking the oldest member skips such
places.  A member that is removed and added again occurs in the queue more than once.

The one fact that keeps the two in step is `Covered`: every member occurs in the queue.
It makes the queue yield a member as long as there is one.
-/

/-- A set and the queue of its members, oldest first. -/
structure OrderedSet (α : Type*) where
  order : List α
  set : Finset α

namespace OrderedSet

variable {α : Type*}

def new : OrderedSet α :=
  ⟨[], ∅⟩

/-- The number of members. -/
def len (s : OrderedSet α) : ℕ :=
  s.set.card

def isEmpty (s : OrderedSet α) : Bool :=
  s.set.card = 0

variable [DecidableEq α]

def contains (s : OrderedSet α) (key : α) : Bool :=
  key ∈ s.set

/-- Add a member at the back.  A member that is there already keeps its place. -/
def pushBack (s : OrderedSet α) (key : α) : OrderedSet α :=
  if key ∈ s.set then s else ⟨s.order ++ [key], insert key s.set⟩

/-- Take the oldest member, dropping the places of removed members before it. -/
def popFront (s : OrderedSet α) : Option α × OrderedSet α :=
  pop s.order s.set
where
  pop : List α → Finset α → Option α × OrderedSet α
    | [], set => (none, ⟨[], set⟩)
    | key :: order, set =>
        if key ∈ set then (some key, ⟨order, set.erase key⟩) else pop order set

/-- Remove a member; its place in the queue stays. -/
def remove (s : OrderedSet α) (key : α) : Bool × OrderedSet α :=
  (key ∈ s.set, { s with set := s.set.erase key })

/-- The oldest member, left where it is. -/
def peek (s : OrderedSet α) : Option α :=
  s.order.find? (· ∈ s.set)

theorem length_pop_lt (order : List α) (set : Finset α) {key : α} {s : OrderedSet α}
    (h : popFront.pop order set = (some key, s)) :
  s.order.length < order.length
  := by
  induction order with
  | nil => cases h
  | cons k order ih =>
      rw [popFront.pop] at h
      split at h
      · cases h
        exact Nat.lt_succ_self _
      · exact (ih h).trans (Nat.lt_succ_self _)

/-- Take the oldest members until at most `max` are left. -/
def truncateTo (max : ℕ) (s : OrderedSet α) : OrderedSet α :=
  if max < s.len then
    match _h : s.popFront with
    | (some _, t) => truncateTo max t
    | (none, t) => t
  else s
termination_by s.order.length
decreasing_by exact length_pop_lt s.order s.set _h

/-! ### Members and their places -/

/-- Every member occurs in the queue. -/
def Covered (s : OrderedSet α) : Prop :=
  ∀ key ∈ s.set, key ∈ s.order

omit [DecidableEq α] in
theorem covered_new :
  Covered (new : OrderedSet α)
  := by
  simp [Covered, new]

@[simp]
theorem contains_iff {s : OrderedSet α} {key : α} :
  s.contains key ↔ key ∈ s.set
  := by
  simp [contains]

omit [DecidableEq α] in
@[simp]
theorem isEmpty_iff {s : OrderedSet α} :
  s.isEmpty ↔ s.set = ∅
  := by
  simp [isEmpty]

@[simp]
theorem mem_pushBack {s : OrderedSet α} {key key' : α} :
  key' ∈ (s.pushBack key).set ↔ key' = key ∨ key' ∈ s.set
  := by
  rw [pushBack]
  split
  · constructor
    · exact Or.inr
    · rintro (rfl | h) <;> assumption
  · simp

theorem Covered.pushBack {s : OrderedSet α} (h : s.Covered) (key : α) :
  (s.pushBack key).Covered
  := by
  rw [OrderedSet.pushBack]
  split
  · exact h
  · intro key' hkey'
    obtain rfl | hkey' := Finset.mem_insert.mp hkey'
    · simp
    · exact List.mem_append_left _ (h key' hkey')

@[simp]
theorem mem_remove {s : OrderedSet α} {key key' : α} :
  key' ∈ (s.remove key).2.set ↔ key' ≠ key ∧ key' ∈ s.set
  := Finset.mem_erase

theorem Covered.remove {s : OrderedSet α} (h : s.Covered) (key : α) :
  (s.remove key).2.Covered
  := fun key' hkey' => h key' (Finset.mem_of_mem_erase hkey')

/-- Removing a key that is no member changes nothing. -/
theorem remove_of_notMem {s : OrderedSet α} {key : α} (h : key ∉ s.set) :
  s.remove key = (false, s)
  := by
  simp [remove, h]

/-! ### Taking the oldest member -/

/-- What `popFront` returns is what `peek` sees. -/
theorem fst_popFront (s : OrderedSet α) :
  s.popFront.1 = s.peek
  := by
  obtain ⟨order, set⟩ := s
  show (popFront.pop order set).1 = order.find? (· ∈ set)
  induction order with
  | nil => rfl
  | cons key order ih =>
      rw [popFront.pop, List.find?_cons]
      by_cases h : key ∈ set
      · simp [h]
      · simpa [h] using ih

theorem set_pop (order : List α) (set : Finset α) :
  (popFront.pop order set).2.set
    = match (popFront.pop order set).1 with
      | some key => set.erase key
      | none => set
  := by
  induction order with
  | nil => rfl
  | cons key order ih =>
      rw [popFront.pop]
      split
      · rfl
      · exact ih

theorem covered_pop {order : List α} {set : Finset α} (h : ∀ key ∈ set, key ∈ order) :
  (popFront.pop order set).2.Covered
  := by
  induction order generalizing set with
  | nil => exact h
  | cons key order ih =>
      rw [popFront.pop]
      split
      · intro key' hkey'
        obtain ⟨hne, hmem⟩ := Finset.mem_erase.mp hkey'
        exact (List.mem_cons.mp (h key' hmem)).resolve_left hne
      · next hkey =>
        apply ih
        intro key' hmem
        apply (List.mem_cons.mp (h key' hmem)).resolve_left
        rintro rfl
        exact hkey hmem

/-- A set that is covered and not empty yields a member. -/
theorem Covered.popFront {s : OrderedSet α} (h : s.Covered) (hne : s.set ≠ ∅) :
  ∃ key ∈ s.set, ∃ t, s.popFront = (some key, t) ∧ t.set = s.set.erase key ∧ t.Covered
  := by
  obtain ⟨key', hkey'⟩ := Finset.nonempty_iff_ne_empty.mpr hne
  have hfind : s.peek.isSome := by
    rw [peek, List.find?_isSome]
    exact ⟨key', h key' hkey', by simpa⟩
  obtain ⟨key, hkey⟩ := Option.isSome_iff_exists.mp hfind
  have hfst : s.popFront.1 = some key := by rw [fst_popFront, hkey]
  refine ⟨key, by simpa using List.find?_some hkey, s.popFront.2, Prod.ext hfst rfl, ?_,
    covered_pop h⟩
  have hset := set_pop s.order s.set
  rw [show popFront.pop s.order s.set = s.popFront from rfl, hfst] at hset
  exact hset

theorem truncateTo_of_le {s : OrderedSet α} {max : ℕ} (h : s.len ≤ max) :
  s.truncateTo max = s
  := by
  rw [truncateTo, if_neg (Nat.not_lt.mpr h)]

/-- Truncating a covered set leaves a covered part of it with at most `max` members. -/
theorem Covered.truncateTo {s : OrderedSet α} (h : s.Covered) (max : ℕ) :
  (s.truncateTo max).Covered ∧ (s.truncateTo max).set ⊆ s.set ∧ (s.truncateTo max).len ≤ max
  := by
  -- Each round takes one member out, so the number of members is what decreases.
  induction hn : s.len generalizing s with
  | zero =>
      have hle : s.len ≤ max := hn ▸ Nat.zero_le max
      rw [truncateTo_of_le hle]
      exact ⟨h, Finset.Subset.refl _, hle⟩
  | succ n ih =>
      by_cases hle : s.len ≤ max
      · rw [truncateTo_of_le hle]
        exact ⟨h, Finset.Subset.refl _, hle⟩
      have hne : s.set ≠ ∅ := by
        rintro he
        simp [len, he] at hn
      obtain ⟨key, hkey, t, hpop, hset, ht⟩ := h.popFront hne
      have hlen : t.len = n := by
        rw [len, hset, Finset.card_erase_of_mem hkey, ← len, hn, Nat.add_sub_cancel]
      have heq : s.truncateTo max = t.truncateTo max := by
        rw [OrderedSet.truncateTo, if_pos (Nat.not_le.mp hle)]
        split <;> simp_all
      obtain ⟨hcov, hsub, hmax⟩ := ih ht hlen
      rw [heq]
      refine ⟨hcov, hsub.trans ?_, hmax⟩
      rw [hset]
      exact Finset.erase_subset _ _

end OrderedSet
