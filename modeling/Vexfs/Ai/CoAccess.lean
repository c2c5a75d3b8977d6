import Vexfs.Ai.Memory

/-!
# Counting sessions

A session counts each pair among its first 20 inodes once.  So after some sessions a pair has
been counted as often as there are sessions that opened both of its files early, up to the
wrapping of its counter (`count_sessions`).
-/

namespace Vexfs

namespace CoAccessMap

/-- The first 20 inodes of a session, each at the place where it comes first. -/
def firstInodes (files : List (UInt64 × String)) : List UInt64 :=
  (files.map Prod.fst).eraseDups.take 20

/-- How often two files were opened together; 0 when they never were. -/
def count (m : CoAccessMap) (a b : UInt64) : UInt32 := (m.pairs.get (toLex (a, b))).getD 0

/-! ### Pairs -/

/-- The key under which a pair is counted. -/
def keyOf (p : UInt64 × UInt64) : UInt64 ×ₗ UInt64 := toLex (min p.1 p.2, max p.1 p.2)

theorem keyOf_eq_iff {p : UInt64 × UInt64} {a b : UInt64} (h : a < b) :
  keyOf p = toLex (a, b) ↔ p = (a, b) ∨ p = (b, a)
  := by
  obtain ⟨x, y⟩ := p
  have hinj : keyOf (x, y) = toLex (a, b) ↔ min x y = a ∧ max x y = b := by
    rw [keyOf, toLex.injective.eq_iff, Prod.mk.injEq]
  rw [hinj, Prod.mk.injEq, Prod.mk.injEq]
  obtain hle | hle := le_total x y
  · rw [min_eq_left hle, max_eq_right hle]
    constructor
    · exact Or.inl
    · rintro (h' | ⟨rfl, rfl⟩)
      · exact h'
      · exact absurd hle (not_le_of_gt h)
  · rw [min_eq_right hle, max_eq_left hle]
    constructor
    · rintro ⟨rfl, rfl⟩
      exact Or.inr ⟨rfl, rfl⟩
    · rintro (⟨rfl, rfl⟩ | ⟨rfl, rfl⟩)
      · exact absurd hle (not_le_of_gt h)
      · exact ⟨rfl, rfl⟩

theorem mem_pairsOf {l : List UInt64} {p : UInt64 × UInt64} (hp : p ∈ pairsOf l) :
  p.1 ∈ l ∧ p.2 ∈ l
  := by
  induction l with
  | nil => cases hp
  | cons x xs ih =>
      obtain hx | hxs := List.mem_append.mp hp
      · obtain ⟨y, hy, rfl⟩ := List.mem_map.mp hx
        exact ⟨List.mem_cons_self, List.mem_cons_of_mem _ hy⟩
      · exact ⟨List.mem_cons_of_mem _ (ih hxs).1, List.mem_cons_of_mem _ (ih hxs).2⟩

theorem ne_of_mem_pairsOf {l : List UInt64} (h : l.Nodup) {p : UInt64 × UInt64}
    (hp : p ∈ pairsOf l) :
  p.1 ≠ p.2
  := by
  induction l with
  | nil => cases hp
  | cons x xs ih =>
      obtain ⟨hx, hxs⟩ := List.nodup_cons.mp h
      obtain hfirst | hrest := List.mem_append.mp hp
      · obtain ⟨y, hy, rfl⟩ := List.mem_map.mp hfirst
        exact fun heq => hx ((show x = y from heq) ▸ hy)
      · exact ih hxs hrest

/-- Two elements are one pair of a list that has both of them, and no pair of another list. -/
theorem countP_pairsOf {l : List UInt64} (h : l.Nodup) {a b : UInt64} (hab : a < b) :
  (pairsOf l).countP (fun p => keyOf p = toLex (a, b)) = if a ∈ l ∧ b ∈ l then 1 else 0
  := by
  have hkey : (fun p => decide (keyOf p = toLex (a, b)))
      = fun p => decide (p = (a, b) ∨ p = (b, a)) := by
    funext p
    exact decide_eq_decide.mpr (keyOf_eq_iff hab)
  rw [hkey]
  induction l with
  | nil => rfl
  | cons x xs ih =>
      obtain ⟨hx, hxs⟩ := List.nodup_cons.mp h
      have hfirst : (xs.map fun y => (x, y)).countP (fun p => p = (a, b) ∨ p = (b, a))
          = if x = a then xs.count b else if x = b then xs.count a else 0 := by
        rw [List.countP_map]
        split
        · next hxa =>
          rw [List.count]
          congr 1
          funext y
          simp [hxa, hab.ne, beq_eq_decide]
        · next hxa =>
          split
          · next hxb =>
            rw [List.count]
            congr 1
            funext y
            simp [hxb, hab.ne', beq_eq_decide]
          · next hxb =>
            rw [List.countP_eq_zero]
            intro y _
            simp [hxa, hxb]
      rw [pairsOf, List.countP_append, hfirst, ih hxs]
      have hcount (z : UInt64) : xs.count z = if z ∈ xs then 1 else 0 := hxs.count
      rw [hcount, hcount]
      by_cases hxa : x = a
      · subst hxa
        simp [hx, hab.ne']
      · by_cases hxb : x = b
        · subst hxb
          simp [hx, hab.ne, hxa]
        · have hax : a ≠ x := fun heq => hxa heq.symm
          have hbx : b ≠ x := fun heq => hxb heq.symm
          simp [hxa, hxb, hax, hbx]

/-! ### Sessions -/

theorem count_countPair (m : CoAccessMap) (p : UInt64 × UInt64) (a b : UInt64) :
  (m.countPair p).count a b = m.count a b + if keyOf p = toLex (a, b) then 1 else 0
  := by
  have hpairs : (m.countPair p).pairs
      = m.pairs.insert (keyOf p) ((m.pairs.get (keyOf p)).getD 0 + 1) := rfl
  rw [count, count, hpairs, FiniteMap.get_insert]
  by_cases heq : keyOf p = toLex (a, b)
  · rw [if_pos heq.symm, if_pos heq, heq]
    rfl
  · rw [if_neg (Ne.symm heq), if_neg heq, UInt32.add_zero]

/-- Pairs count as often as they come. -/
theorem count_foldl (m : CoAccessMap) (ps : List (UInt64 × UInt64)) (a b : UInt64) :
  (ps.foldl countPair m).count a b
    = m.count a b + UInt32.ofNat (ps.countP fun p => keyOf p = toLex (a, b))
  := by
  induction ps generalizing m with
  | nil => exact (UInt32.add_zero _).symm
  | cons p ps ih =>
      rw [List.foldl_cons, ih, count_countPair, List.countP_cons, UInt32.ofNat_add,
        UInt32.add_assoc, UInt32.add_comm (UInt32.ofNat _)]
      by_cases heq : keyOf p = toLex (a, b)
      · simp [heq]
      · simp [heq]

theorem nodup_eraseDups (l : List UInt64) :
  l.eraseDups.Nodup
  := by
  induction hn : l.length using Nat.strong_induction_on generalizing l with
  | h n ih =>
      cases l with
      | nil => exact List.nodup_nil
      | cons x xs =>
          have hlt : (xs.filter fun y => !(y == x)).length < n := by
            rw [← hn, List.length_cons]
            exact Nat.lt_succ_of_le (List.length_filter_le _ _)
          rw [List.eraseDups_cons, List.nodup_cons]
          refine ⟨?_, ih _ hlt _ rfl⟩
          rw [List.mem_eraseDups, List.mem_filter]
          simp

theorem nodup_firstInodes (files : List (UInt64 × String)) :
  (firstInodes files).Nodup
  := (List.take_sublist _ _).nodup (nodup_eraseDups _)

/-- A session of less than two files has no pairs anyway. -/
theorem recordSession_eq (m : CoAccessMap) (files : List (UInt64 × String)) :
  m.recordSession files = (pairsOf (firstInodes files)).foldl countPair m
  := by
  rw [recordSession]
  split
  · next hlt =>
    cases files with
    | nil => rfl
    | cons f files =>
        obtain rfl : files = [] := List.eq_nil_of_length_eq_zero (by
          rw [List.length_cons] at hlt
          omega)
        rfl
  · rfl

/-- A session counts a pair once, if both of its files are among the first ones. -/
theorem count_recordSession (m : CoAccessMap) (files : List (UInt64 × String)) {a b : UInt64}
    (hab : a < b) :
  (m.recordSession files).count a b
    = m.count a b + if a ∈ firstInodes files ∧ b ∈ firstInodes files then 1 else 0
  := by
  rw [recordSession_eq, count_foldl, countP_pairsOf (nodup_firstInodes files) hab]
  split
  · rfl
  · rfl

/-- The keys of a map have the smaller inode first. -/
def Ordered (m : CoAccessMap) : Prop := ∀ key ∈ m.pairs.keys, (ofLex key).1 < (ofLex key).2

theorem mem_keys_countPair {m : CoAccessMap} {p : UInt64 × UInt64} {key : UInt64 ×ₗ UInt64} :
  key ∈ (m.countPair p).pairs.keys ↔ key = keyOf p ∨ key ∈ m.pairs.keys
  := by
  have hpairs : (m.countPair p).pairs
      = m.pairs.insert (keyOf p) ((m.pairs.get (keyOf p)).getD 0 + 1) := rfl
  rw [FiniteMap.mem_keys, FiniteMap.mem_keys, hpairs, FiniteMap.get_insert]
  split
  · next heq => simp [heq]
  · next hne => simp [hne]

/-- The keys of a map after some pairs are counted. -/
theorem mem_keys_foldl {m : CoAccessMap} {ps : List (UInt64 × UInt64)}
    {key : UInt64 ×ₗ UInt64} :
  key ∈ (ps.foldl countPair m).pairs.keys ↔ key ∈ m.pairs.keys ∨ ∃ p ∈ ps, keyOf p = key
  := by
  induction ps generalizing m with
  | nil => simp
  | cons p ps ih =>
      rw [List.foldl_cons, ih, mem_keys_countPair, List.exists_mem_cons_iff, or_comm (a := _ = _),
        or_assoc, eq_comm]

theorem Ordered.recordSession {m : CoAccessMap} (h : m.Ordered) (files : List (UInt64 × String)) :
  (m.recordSession files).Ordered
  := by
  intro key hkey
  rw [recordSession_eq, mem_keys_foldl] at hkey
  obtain hold | ⟨p, hp, rfl⟩ := hkey
  · exact h key hold
  · exact min_lt_max.mpr (ne_of_mem_pairsOf (nodup_firstInodes files) hp)

theorem ordered_sessions (sessions : List (List (UInt64 × String))) :
  (sessions.foldl recordSession new).Ordered
  := by
  have hfold (m : CoAccessMap) (h : m.Ordered) : (sessions.foldl recordSession m).Ordered := by
    induction sessions generalizing m with
    | nil => exact h
    | cons files sessions ih => exact ih _ (h.recordSession files)
  exact hfold new fun key hkey => absurd hkey List.not_mem_nil

theorem count_foldl_recordSession (sessions : List (List (UInt64 × String))) {a b : UInt64}
    (hab : a < b) :
  (sessions.foldl recordSession new).count a b
    = UInt32.ofNat (sessions.countP fun files =>
        a ∈ firstInodes files ∧ b ∈ firstInodes files)
  := by
  have hfold (m : CoAccessMap) : (sessions.foldl recordSession m).count a b
      = m.count a b + UInt32.ofNat (sessions.countP fun files =>
        a ∈ firstInodes files ∧ b ∈ firstInodes files) := by
    induction sessions generalizing m with
    | nil => exact (UInt32.add_zero _).symm
    | cons files sessions ih =>
        rw [List.foldl_cons, ih, count_recordSession m files hab, List.countP_cons,
          UInt32.ofNat_add, UInt32.add_assoc, UInt32.add_comm (UInt32.ofNat _)]
        by_cases hmet : a ∈ firstInodes files ∧ b ∈ firstInodes files
        · rw [if_pos hmet, if_pos (decide_eq_true hmet)]
          rfl
        · rw [if_neg hmet, if_neg (by rw [decide_eq_true_iff]; exact hmet)]
          rfl
  exact (hfold new).trans (UInt32.zero_add _)

/-- After some sessions the keys have the smaller inode first, and a pair counts the sessions
that have both of its files among their first 20 inodes, modulo `2 ^ 32`. -/
theorem count_sessions (sessions : List (List (UInt64 × String))) :
  (∀ key ∈ (sessions.foldl recordSession new).pairs.keys, (ofLex key).1 < (ofLex key).2)
    ∧ ∀ a b, a < b → (sessions.foldl recordSession new).count a b
      = UInt32.ofNat (sessions.countP fun files =>
          a ∈ firstInodes files ∧ b ∈ firstInodes files)
  := ⟨ordered_sessions sessions, fun _ _ hab => count_foldl_recordSession sessions hab⟩

/-- After `2 ^ 32` sessions with the same two files their counter is 0. -/
theorem not_count_sessions :
  ¬ ∀ (sessions : List (List (UInt64 × String))) (a b : UInt64), a < b →
    ((sessions.foldl recordSession new).count a b).toNat
      = sessions.countP fun files => a ∈ firstInodes files ∧ b ∈ firstInodes files
  := by
  intro h
  have hcount := h (.replicate (2 ^ 32) [(1, "a"), (2, "b")]) 1 2 (by decide)
  rw [count_foldl_recordSession _ (by decide), List.countP_replicate, if_pos (by decide)] at hcount
  exact absurd hcount (by decide)

end CoAccessMap

end Vexfs
