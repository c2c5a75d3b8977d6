import Vexfs.Collections.FiniteMap

/-!
# Tallies

A tally is a finite map in which a key without a value counts 0.  Bumping some keys one after
the other adds to each key as often as it comes, whatever the order is.
-/

namespace FiniteMap

variable {α β : Type*} [LinearOrder α] [AddCommMonoid β]

/-- The count of a key. -/
def tally (m : FiniteMap α β) (k : α) : β := (m.get k).getD 0

/-- Add to the count of a key. -/
def bump (d : β) (m : FiniteMap α β) (k : α) : FiniteMap α β := m.insert k ((m.get k).getD 0 + d)

@[simp]
theorem tally_empty (k : α) :
  (empty : FiniteMap α β).tally k = 0
  := rfl

theorem tally_of_none {m : FiniteMap α β} {k : α} (h : m.get k = none) :
  m.tally k = 0
  := by
  rw [tally, h]
  rfl

theorem tally_bump (d : β) (m : FiniteMap α β) (k k' : α) :
  (m.bump d k).tally k' = m.tally k' + if k = k' then d else 0
  := by
  rw [tally, bump, get_insert]
  by_cases heq : k' = k
  · rw [if_pos heq, if_pos heq.symm, heq]
    rfl
  · rw [if_neg heq, if_neg (Ne.symm heq), add_zero]
    rfl

/-- Keys count as often as they come. -/
theorem tally_foldl_bump (d : β) (m : FiniteMap α β) (ks : List α) (k : α) :
  (ks.foldl (bump d) m).tally k = m.tally k + ks.count k • d
  := by
  induction ks generalizing m with
  | nil => rw [List.foldl_nil, List.count_nil, zero_nsmul, add_zero]
  | cons k' ks ih =>
      rw [List.foldl_cons, ih, tally_bump, List.count_cons, add_nsmul, add_assoc,
        add_comm (ks.count k • d)]
      by_cases heq : k' = k
      · rw [if_pos heq, if_pos (beq_iff_eq.mpr heq), one_nsmul]
      · rw [if_neg heq, if_neg (mt beq_iff_eq.mp heq), zero_nsmul]

theorem mem_keys_bump {d : β} {m : FiniteMap α β} {k k' : α} :
  k' ∈ (m.bump d k).keys ↔ k' = k ∨ k' ∈ m.keys
  := by
  rw [mem_keys, mem_keys, bump, get_insert]
  split
  · next heq => simp [heq]
  · next hne => simp [hne]

theorem mem_keys_foldl_bump {d : β} {m : FiniteMap α β} {ks : List α} {k : α} :
  k ∈ (ks.foldl (bump d) m).keys ↔ k ∈ ks ∨ k ∈ m.keys
  := by
  induction ks generalizing m with
  | nil => simp
  | cons k' ks ih => rw [List.foldl_cons, ih, mem_keys_bump, List.mem_cons, or_left_comm, or_assoc]

theorem tally_map {γ : Type*} [AddCommMonoid γ] (m : FiniteMap α γ) {f : γ → γ} (h : f 0 = 0)
    (k : α) :
  (m.map f).tally k = f (m.tally k)
  := by
  rw [tally, tally, get_map]
  cases m.get k with
  | none => exact h.symm
  | some v => rfl

/-- Take one away from the count of a key that has one. -/
def lower (m : FiniteMap α ℕ) (k : α) : FiniteMap α ℕ := m.modify k (· - 1)

theorem tally_lower (m : FiniteMap α ℕ) (k k' : α) :
  (m.lower k).tally k' = m.tally k' - if k = k' then 1 else 0
  := by
  rw [tally, lower, get_modify, tally]
  by_cases heq : k' = k
  · rw [if_pos heq, if_pos heq.symm, heq]
    cases m.get k with
    | none => rfl
    | some n => rfl
  · rw [if_neg heq, if_neg (Ne.symm heq), Nat.sub_zero]

/-- Different keys are lowered once. -/
theorem tally_foldl_lower (m : FiniteMap α ℕ) {ks : List α} (h : ks.Nodup) (k : α) :
  (ks.foldl lower m).tally k = m.tally k - if k ∈ ks then 1 else 0
  := by
  induction ks generalizing m with
  | nil => simp
  | cons k' ks ih =>
      rw [List.nodup_cons] at h
      rw [List.foldl_cons, ih _ h.2, tally_lower]
      by_cases heq : k' = k
      · subst heq
        simp [h.1]
      · have hne : k ≠ k' := Ne.symm heq
        simp [heq, hne]

end FiniteMap
