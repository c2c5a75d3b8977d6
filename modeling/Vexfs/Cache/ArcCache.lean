import Vexfs.Collections.Keys
import Vexfs.Collections.OrderedSet
import Vexfs.Collections.SortedMap

/-!
# The adaptive replacement cache

The cache keeps file contents under a memory ceiling.  Keys seen once are in `t1`, keys
seen again in `t2`, and keys whose data was evicted are remembered in `b1` and `b2`.
`ArcCache.Invariant` says how the four lists, the data and the byte count belong together;
every call keeps it, so the eviction loop of `insert` always finds something to evict.

Sizes are natural numbers: the lengths of byte arrays that are in memory together add up to
less than the machine's largest number.
-/

namespace Vexfs

/-- A cache entry. -/
structure Entry where
  data : List UInt8
  size : ℕ
deriving DecidableEq, Repr

structure ArcCache where
  /-- Recently accessed once. -/
  t1 : OrderedSet UInt64
  /-- Accessed more than once. -/
  t2 : OrderedSet UInt64
  /-- Keys evicted from `t1`. -/
  b1 : OrderedSet UInt64
  /-- Keys evicted from `t2`. -/
  b2 : OrderedSet UInt64
  data : List (UInt64 × Entry)
  /-- Target size of `t1`. -/
  p : ℕ
  maxBytes : ℕ
  usedBytes : ℕ
  /-- Keys evicted since the last drain. -/
  evicted : List UInt64

/-- The ways a call goes wrong. -/
inductive CacheFault where
  /-- A subtraction goes below zero. -/
  | underflow
  /-- The eviction loop goes on for more rounds than there are entries. -/
  | diverges
deriving DecidableEq, Repr

namespace ArcCache

/-- The most keys a ghost list holds. -/
def maxGhosts : ℕ := 1000

def new (maxBytes : ℕ) : ArcCache where
  t1 := .new
  t2 := .new
  b1 := .new
  b2 := .new
  data := []
  p := 0
  maxBytes
  usedBytes := 0
  evicted := []

/-- The keys evicted since the last drain, which are forgotten. -/
def drainEvicted (c : ArcCache) : List UInt64 × ArcCache :=
  (c.evicted, { c with evicted := [] })

def contains (c : ArcCache) (key : UInt64) : Bool :=
  (c.data.lookup key).isSome

/-- Move a key that was seen again from `t1` to `t2`. -/
def promote (c : ArcCache) (key : UInt64) : ArcCache :=
  match c.t1.remove key with
  | (true, t1) => { c with t1, t2 := c.t2.pushBack key }
  | (false, t1) => { c with t1 }

/-- Drop the data of an evicted key, with a checked subtraction. -/
def dropData (c : ArcCache) (key : UInt64) : Except CacheFault ArcCache :=
  match c.data.lookup key with
  | none => .ok c
  | some entry =>
      if entry.size ≤ c.usedBytes then
        .ok { c with
          data := SortedMap.erase key c.data
          usedBytes := c.usedBytes - entry.size }
      else .error .underflow

/-- Whether the next key to go is one of `t1`. -/
def evictFromT1 (c : ArcCache) : Bool :=
  c.p < c.t1.len || c.t2.isEmpty

/-- Evict one entry and record its key. -/
def evictOne (c : ArcCache) : Except CacheFault ArcCache :=
  if c.evictFromT1 && !c.t1.isEmpty then
    match c.t1.popFront with
    | (some key, t1) => do
        let c ← dropData { c with t1 } key
        .ok { c with
          evicted := c.evicted ++ [key]
          b1 := (c.b1.pushBack key).truncateTo maxGhosts }
    | (none, t1) => .ok { c with t1 }
  else if !c.t2.isEmpty then
    match c.t2.popFront with
    | (some key, t2) => do
        let c ← dropData { c with t2 } key
        .ok { c with
          evicted := c.evicted ++ [key]
          b2 := (c.b2.pushBack key).truncateTo maxGhosts }
    | (none, t2) => .ok { c with t2 }
  else .ok c

/-- The condition of the eviction loop: there is data, and `size` bytes more do not fit. -/
def mustEvict (c : ArcCache) (size : ℕ) : Bool :=
  !c.data.isEmpty && decide (c.maxBytes < c.usedBytes + size)

/-- The eviction loop, for at most as many rounds as the first argument says. -/
def evictWhile : ℕ → ArcCache → ℕ → Except CacheFault ArcCache
  | fuel, c, size =>
      if c.mustEvict size then
        match fuel with
        | 0 => .error .diverges
        | fuel + 1 => do evictWhile fuel (← c.evictOne) size
      else .ok c

/-- Insert a block into the cache. -/
def insert (c : ArcCache) (key : UInt64) (value : List UInt8) : Except CacheFault ArcCache :=
  let size := value.length
  match c.data.lookup key with
  | some entry =>
      -- Already in `t1` or `t2`: update in place.
      let c := { c with
        data := SortedMap.insert key ⟨value, size⟩ c.data
        usedBytes := c.usedBytes - entry.size + size }
      .ok (c.promote key)
  | none => do
      let c ← evictWhile c.data.length c size
      let c := { c with
        usedBytes := c.usedBytes + size
        data := SortedMap.insert key ⟨value, size⟩ c.data }
      if !c.t1.contains key && !c.t2.contains key then
        .ok { c with t1 := c.t1.pushBack key }
      else .ok c

/-- Get a block from the cache.  A miss on a remembered key adapts the target size. -/
def get (c : ArcCache) (key : UInt64) : Option (List UInt8) × ArcCache :=
  match c.data.lookup key with
  | some entry => (some entry.data, c.promote key)
  | none =>
      if c.b1.contains key then (none, { c with p := min (c.p + 1) c.maxBytes })
      else if c.b2.contains key then (none, { c with p := c.p - 1 })
      else (none, c)

/-- Remove a key, as when its file is deleted. -/
def remove (c : ArcCache) (key : UInt64) : Option (List UInt8) × ArcCache :=
  match c.data.lookup key with
  | some entry =>
      (some entry.data,
        { c with
          data := SortedMap.erase key c.data
          usedBytes := c.usedBytes - entry.size
          t1 := (c.t1.remove key).2
          t2 := (c.t2.remove key).2 })
  | none => (none, c)

/-- The key that would be evicted next. -/
def peekEvictionCandidate (c : ArcCache) : Option UInt64 :=
  if c.usedBytes < c.maxBytes then none
  else if c.evictFromT1 then c.t1.peek
  else c.t2.peek

/-! ### The invariant -/

/-- How the lists, the data and the byte count of a cache belong together. -/
structure Invariant (c : ArcCache) : Prop where
  t1_covered : c.t1.Covered
  t2_covered : c.t2.Covered
  b1_covered : c.b1.Covered
  b2_covered : c.b2.Covered
  /-- No key is in both `t1` and `t2`. -/
  disjoint : Disjoint c.t1.set c.t2.set
  /-- The keys in `t1` or `t2` are those with data. -/
  resident : ∀ key, key ∈ c.t1.set ∨ key ∈ c.t2.set ↔ (c.data.lookup key).isSome
  data_increasing : SortedMap.Increasing c.data
  /-- An entry records the length of its data. -/
  size_eq : ∀ key entry, c.data.lookup key = some entry → entry.size = entry.data.length
  /-- The bytes in use are those of the data. -/
  usedBytes_eq : c.usedBytes = SortedMap.sum (fun entry => entry.data.length) c.data
  p_le : c.p ≤ c.maxBytes
  b1_le : c.b1.len ≤ maxGhosts
  b2_le : c.b2.len ≤ maxGhosts

theorem invariant_new (maxBytes : ℕ) :
  (new maxBytes).Invariant where
  t1_covered := OrderedSet.covered_new
  t2_covered := OrderedSet.covered_new
  b1_covered := OrderedSet.covered_new
  b2_covered := OrderedSet.covered_new
  disjoint := Finset.disjoint_empty_left _
  resident key := by simp [new, OrderedSet.new]
  data_increasing := List.Pairwise.nil
  size_eq key entry h := by cases h
  usedBytes_eq := rfl
  p_le := Nat.zero_le _
  b1_le := Nat.zero_le _
  b2_le := Nat.zero_le _

theorem Invariant.drainEvicted {c : ArcCache} (h : c.Invariant) :
  c.drainEvicted.2.Invariant
  := { h with }

/-! ### Promotion -/

theorem promote_of_mem {c : ArcCache} {key : UInt64} (h : key ∈ c.t1.set) :
  c.promote key = { c with t1 := (c.t1.remove key).2, t2 := c.t2.pushBack key }
  := by
  simp [promote, OrderedSet.remove, h]

theorem promote_of_notMem {c : ArcCache} {key : UInt64} (h : key ∉ c.t1.set) :
  c.promote key = c
  := by
  rw [promote, OrderedSet.remove_of_notMem h]

theorem Invariant.promote {c : ArcCache} (h : c.Invariant) (key : UInt64) :
  (c.promote key).Invariant
  := by
  by_cases hkey : key ∈ c.t1.set
  · rw [promote_of_mem hkey]
    refine { h with
      t1_covered := h.t1_covered.remove key
      t2_covered := h.t2_covered.pushBack key
      disjoint := ?_
      resident := ?_ }
    · rw [Finset.disjoint_left]
      intro key' h1 h2
      obtain ⟨hne, h1⟩ := OrderedSet.mem_remove.mp h1
      obtain rfl | h2 := OrderedSet.mem_pushBack.mp h2
      · exact hne rfl
      · exact Finset.disjoint_left.mp h.disjoint h1 h2
    · intro key'
      rw [OrderedSet.mem_remove, OrderedSet.mem_pushBack, ← h.resident key']
      by_cases heq : key' = key
      · subst heq
        simp [hkey]
      · simp [heq]
  · rw [promote_of_notMem hkey]
    exact h

@[simp]
theorem promote_data (c : ArcCache) (key : UInt64) :
  (c.promote key).data = c.data
  := by
  rw [promote]
  split <;> rfl

/-! ### Eviction -/

/-- The bytes in use cover each entry. -/
theorem Invariant.size_le {c : ArcCache} (h : c.Invariant) {key : UInt64} {entry : Entry}
    (hentry : c.data.lookup key = some entry) :
  entry.size ≤ c.usedBytes
  := by
  have hsum := h.data_increasing.sum_erase (fun entry => entry.data.length) hentry
  rw [h.size_eq key entry hentry, h.usedBytes_eq]
  omega

/-- Dropping the data of a key that has left `t1` and `t2`. -/
theorem dropData_of_lookup {c : ArcCache} {key : UInt64} {entry : Entry}
    (hentry : c.data.lookup key = some entry) (hle : entry.size ≤ c.usedBytes) :
  c.dropData key = .ok { c with
    data := SortedMap.erase key c.data, usedBytes := c.usedBytes - entry.size }
  := by
  simp [dropData, hentry, hle]

/-- What one round of eviction does: the data of one key goes, and the key is recorded. -/
structure Evicts (c c' : ArcCache) (key : UInt64) : Prop where
  lookup : (c.data.lookup key).isSome
  data_eq : c'.data = SortedMap.erase key c.data
  evicted_eq : c'.evicted = c.evicted ++ [key]
  maxBytes_eq : c'.maxBytes = c.maxBytes

/-- The parts of the invariant that dropping a key from the data keeps. -/
theorem Invariant.erase {c : ArcCache} (h : c.Invariant) {key : UInt64} {entry : Entry}
    (hentry : c.data.lookup key = some entry) :
  (∀ key' entry', (SortedMap.erase key c.data).lookup key' = some entry' →
      entry'.size = entry'.data.length) ∧
    c.usedBytes - entry.size
      = SortedMap.sum (fun entry => entry.data.length) (SortedMap.erase key c.data)
  := by
  constructor
  · intro key' entry' h'
    rw [SortedMap.lookup_erase] at h'
    split at h'
    · cases h'
    · exact h.size_eq key' entry' h'
  · have hsum := h.data_increasing.sum_erase (fun entry => entry.data.length) hentry
    rw [h.size_eq key entry hentry, h.usedBytes_eq, ← hsum, Nat.add_sub_cancel]

theorem ghosts_pushBack {b : OrderedSet UInt64} (h : b.Covered) (key : UInt64) :
  ((b.pushBack key).truncateTo maxGhosts).Covered ∧
    ((b.pushBack key).truncateTo maxGhosts).len ≤ maxGhosts
  := by
  obtain ⟨hcov, -, hle⟩ := (h.pushBack key).truncateTo maxGhosts
  exact ⟨hcov, hle⟩

theorem Invariant.evictOne_t1 {c : ArcCache} (h : c.Invariant) (hfrom : c.evictFromT1)
    (hne : c.t1.set ≠ ∅) :
  ∃ c' key, c.evictOne = .ok c' ∧ c.t1.peek = some key ∧ c'.Invariant ∧ c.Evicts c' key
  := by
  obtain ⟨key, hkey, t, hpop, hset, ht⟩ := h.t1_covered.popFront hne
  obtain ⟨entry, hentry⟩ := Option.isSome_iff_exists.mp ((h.resident key).mp (Or.inl hkey))
  have hpeek : c.t1.peek = some key := by rw [← OrderedSet.fst_popFront, hpop]
  have hdrop := dropData_of_lookup (c := { c with t1 := t }) hentry (h.size_le hentry)
  obtain ⟨hb, hlen⟩ := ghosts_pushBack h.b1_covered key
  obtain ⟨hsize, hused⟩ := h.erase hentry
  have hguard : (c.evictFromT1 && !c.t1.isEmpty) = true := by
    simp [hfrom, OrderedSet.isEmpty, hne]
  let c' := { c with
    t1 := t
    data := SortedMap.erase key c.data
    usedBytes := c.usedBytes - entry.size
    evicted := c.evicted ++ [key]
    b1 := (c.b1.pushBack key).truncateTo maxGhosts }
  refine ⟨c', key, ?_, hpeek, ?_, ?_⟩
  · rw [ArcCache.evictOne, if_pos hguard, hpop]
    dsimp only
    rw [hdrop]
    rfl
  · refine { h with
      t1_covered := ht
      b1_covered := hb
      disjoint := ?_
      resident := ?_
      data_increasing := h.data_increasing.erase key
      size_eq := hsize
      usedBytes_eq := hused
      b1_le := hlen }
    · show Disjoint t.set c.t2.set
      rw [hset]
      exact h.disjoint.mono_left (Finset.erase_subset _ _)
    · intro key'
      have hkey2 : key ∉ c.t2.set := Finset.disjoint_left.mp h.disjoint hkey
      show key' ∈ t.set ∨ key' ∈ c.t2.set ↔ ((SortedMap.erase key c.data).lookup key').isSome
      rw [hset, SortedMap.lookup_erase, Finset.mem_erase]
      by_cases heq : key' = key
      · subst heq
        simp [hkey2]
      · simpa [heq] using h.resident key'
  · exact ⟨by simp [hentry], rfl, rfl, rfl⟩

theorem Invariant.evictOne_t2 {c : ArcCache} (h : c.Invariant)
    (hfrom : ¬ (c.evictFromT1 ∧ c.t1.set ≠ ∅)) (hne : c.t2.set ≠ ∅) :
  ∃ c' key, c.evictOne = .ok c' ∧ c.t2.peek = some key ∧ c'.Invariant ∧ c.Evicts c' key
  := by
  obtain ⟨key, hkey, t, hpop, hset, ht⟩ := h.t2_covered.popFront hne
  obtain ⟨entry, hentry⟩ := Option.isSome_iff_exists.mp ((h.resident key).mp (Or.inr hkey))
  have hpeek : c.t2.peek = some key := by rw [← OrderedSet.fst_popFront, hpop]
  have hdrop := dropData_of_lookup (c := { c with t2 := t }) hentry (h.size_le hentry)
  obtain ⟨hb, hlen⟩ := ghosts_pushBack h.b2_covered key
  obtain ⟨hsize, hused⟩ := h.erase hentry
  have hguard : ¬ (c.evictFromT1 && !c.t1.isEmpty) = true := by
    simpa [OrderedSet.isEmpty] using hfrom
  let c' := { c with
    t2 := t
    data := SortedMap.erase key c.data
    usedBytes := c.usedBytes - entry.size
    evicted := c.evicted ++ [key]
    b2 := (c.b2.pushBack key).truncateTo maxGhosts }
  refine ⟨c', key, ?_, hpeek, ?_, ?_⟩
  · rw [ArcCache.evictOne, if_neg hguard, if_pos (by simp [OrderedSet.isEmpty, hne]), hpop]
    dsimp only
    rw [hdrop]
    rfl
  · refine { h with
      t2_covered := ht
      b2_covered := hb
      disjoint := ?_
      resident := ?_
      data_increasing := h.data_increasing.erase key
      size_eq := hsize
      usedBytes_eq := hused
      b2_le := hlen }
    · show Disjoint c.t1.set t.set
      rw [hset]
      exact h.disjoint.mono_right (Finset.erase_subset _ _)
    · intro key'
      have hkey1 : key ∉ c.t1.set := Finset.disjoint_right.mp h.disjoint hkey
      show key' ∈ c.t1.set ∨ key' ∈ t.set ↔ ((SortedMap.erase key c.data).lookup key').isSome
      rw [hset, SortedMap.lookup_erase, Finset.mem_erase]
      by_cases heq : key' = key
      · subst heq
        simp [hkey1]
      · simpa [heq] using h.resident key'
  · exact ⟨by simp [hentry], rfl, rfl, rfl⟩

/-- As long as there is data, a round of eviction finds a key to evict. -/
theorem Invariant.evictOne {c : ArcCache} (h : c.Invariant) (hne : c.data ≠ []) :
  ∃ c' key, c.evictOne = .ok c' ∧
    (if c.evictFromT1 then c.t1.peek else c.t2.peek) = some key ∧
    c'.Invariant ∧ c.Evicts c' key
  := by
  obtain ⟨⟨key, entry⟩, hmem⟩ := List.exists_mem_of_ne_nil _ hne
  have hsome : (c.data.lookup key).isSome := by
    rw [(SortedMap.mem_iff_lookup h.data_increasing).mp hmem]
    rfl
  by_cases hfrom : c.evictFromT1
  · have hne1 : c.t1.set ≠ ∅ := by
      intro h1
      have h2 : c.t2.set = ∅ := by simpa [evictFromT1, OrderedSet.len, h1] using hfrom
      have := (h.resident key).mpr hsome
      simp [h1, h2] at this
    simpa [hfrom] using h.evictOne_t1 hfrom hne1
  · have hne2 : c.t2.set ≠ ∅ := by
      intro h2
      simp [evictFromT1, h2] at hfrom
    simpa [hfrom] using h.evictOne_t2 (by simp [hfrom]) hne2

theorem Evicts.length_data {c c' : ArcCache} {key : UInt64} (h : c.Evicts c' key)
    (hc : SortedMap.Increasing c.data) :
  c'.data.length + 1 = c.data.length
  := by
  have hpos : 0 < c.data.length := by
    rw [List.length_pos_iff]
    intro hnil
    have := h.lookup
    simp [hnil] at this
  rw [h.data_eq, hc.length_erase, if_pos h.lookup]
  omega

/-! ### The eviction loop -/

theorem data_ne_nil_of_mustEvict {c : ArcCache} {size : ℕ} (h : c.mustEvict size) :
  c.data ≠ []
  := by
  intro hnil
  simp [mustEvict, hnil] at h

/-- The states the eviction loop goes through, when `size` bytes are to be inserted. -/
inductive Rounds (size : ℕ) (c : ArcCache) : ArcCache → Prop where
  | start : Rounds size c c
  | round {c' c'' : ArcCache} : Rounds size c c' → c'.mustEvict size → c'.evictOne = .ok c'' →
      Rounds size c c''

/-- One round of the loop keeps the invariant and evicts a key. -/
theorem Invariant.round {c c' : ArcCache} {size : ℕ} (h : c.Invariant) (hmust : c.mustEvict size)
    (hround : c.evictOne = .ok c') :
  c'.Invariant ∧ ∃ key, c.Evicts c' key
  := by
  obtain ⟨c'', key, heq, -, hinv, hevicts⟩ := h.evictOne (data_ne_nil_of_mustEvict hmust)
  obtain rfl : c'' = c' := by simpa [heq] using hround
  exact ⟨hinv, key, hevicts⟩

theorem Invariant.rounds {c c' : ArcCache} {size : ℕ} (h : c.Invariant)
    (hrounds : Rounds size c c') :
  c'.Invariant
  := by
  induction hrounds with
  | start => exact h
  | round _ hmust hround ih => exact (ih.round hmust hround).1

/-- After some rounds the keys evicted in them have lost their data, and no others. -/
theorem Rounds.lookup_data {c c' : ArcCache} {size : ℕ} (hrounds : Rounds size c c')
    (h : c.Invariant) :
  ∃ keys, c'.evicted = c.evicted ++ keys ∧
    (∀ key ∈ keys, (c.data.lookup key).isSome) ∧
    ∀ key, c'.data.lookup key = if key ∈ keys then none else c.data.lookup key
  := by
  induction hrounds with
  | start => exact ⟨[], by simp⟩
  | @round c' c'' hrounds hmust hround ih =>
      obtain ⟨keys, hevicted, hkeys, hlookup⟩ := ih
      obtain ⟨-, key, hevicts⟩ := (h.rounds hrounds).round hmust hround
      refine ⟨keys ++ [key], ?_, ?_, ?_⟩
      · rw [hevicts.evicted_eq, hevicted, List.append_assoc]
      · intro key' hkey'
        obtain hkey' | hkey' := List.mem_append.mp hkey'
        · exact hkeys key' hkey'
        · obtain rfl := List.mem_singleton.mp hkey'
          have hsome := hevicts.lookup
          rw [hlookup] at hsome
          split at hsome
          · cases hsome
          · exact hsome
      · intro key'
        rw [hevicts.data_eq, SortedMap.lookup_erase, hlookup]
        by_cases heq : key' = key <;> simp [heq]

theorem Rounds.maxBytes_eq {c c' : ArcCache} {size : ℕ} (hrounds : Rounds size c c')
    (h : c.Invariant) :
  c'.maxBytes = c.maxBytes
  := by
  induction hrounds with
  | start => rfl
  | round hrounds hmust hround ih =>
      obtain ⟨-, key, hevicts⟩ := (h.rounds hrounds).round hmust hround
      rw [hevicts.maxBytes_eq, ih]

/-- There is no round when the bytes fit. -/
theorem Rounds.eq_of_not_mustEvict {c c' : ArcCache} {size : ℕ} (hrounds : Rounds size c c')
    (hfits : ¬ c.mustEvict size) :
  c' = c
  := by
  induction hrounds with
  | start => rfl
  | round _ hmust _ ih =>
      rw [ih] at hmust
      exact absurd hmust hfits

/-- The loop ends, as every round leaves one entry less. -/
theorem Invariant.evictWhile {c : ArcCache} (h : c.Invariant) {fuel : ℕ}
    (hfuel : c.data.length ≤ fuel) (size : ℕ) :
  ∃ c', evictWhile fuel c size = .ok c' ∧ Rounds size c c' ∧ ¬ c'.mustEvict size
  := by
  -- The states are those of a loop that started in `c₀`.
  suffices hloop : ∀ c₀, Rounds size c₀ c →
      ∃ c', ArcCache.evictWhile fuel c size = .ok c' ∧ Rounds size c₀ c' ∧ ¬ c'.mustEvict size
    from hloop c .start
  induction fuel generalizing c with
  | zero =>
      intro c₀ hrounds
      have hnil : c.data = [] := List.length_eq_zero_iff.mp (Nat.le_zero.mp hfuel)
      have hmust : ¬ c.mustEvict size := fun hmust => data_ne_nil_of_mustEvict hmust hnil
      exact ⟨c, by rw [ArcCache.evictWhile, if_neg hmust], hrounds, hmust⟩
  | succ fuel ih =>
      intro c₀ hrounds
      by_cases hmust : c.mustEvict size
      · obtain ⟨c', key, heq, -, hinv, hevicts⟩ := h.evictOne (data_ne_nil_of_mustEvict hmust)
        have hlen := hevicts.length_data h.data_increasing
        rw [ArcCache.evictWhile, if_pos hmust, heq]
        exact ih hinv (by omega) c₀ (.round hrounds hmust heq)
      · exact ⟨c, by rw [ArcCache.evictWhile, if_neg hmust], hrounds, hmust⟩

/-! ### The calls -/

/-- Inserting a key that has data replaces the data and promotes the key. -/
theorem Invariant.insert_of_some {c : ArcCache} (h : c.Invariant) {key : UInt64} {entry : Entry}
    (hentry : c.data.lookup key = some entry) (value : List UInt8) :
  ∃ c', c.insert key value = .ok c' ∧ c'.Invariant ∧ c'.maxBytes = c.maxBytes ∧
    c'.evicted = c.evicted ∧ c'.data = SortedMap.insert key ⟨value, value.length⟩ c.data
  := by
  let d := { c with
    data := SortedMap.insert key ⟨value, value.length⟩ c.data
    usedBytes := c.usedBytes - entry.size + value.length }
  have hd : d.Invariant := by
    obtain ⟨-, hused⟩ := h.erase hentry
    refine { h with
      resident := ?_
      data_increasing := h.data_increasing.insert key _
      size_eq := ?_
      usedBytes_eq := ?_ }
    · intro key'
      show _ ↔ ((SortedMap.insert key _ c.data).lookup key').isSome
      rw [SortedMap.lookup_insert, h.resident key']
      by_cases heq : key' = key <;> simp [heq, hentry]
    · intro key' entry' hentry'
      rw [SortedMap.lookup_insert] at hentry'
      split at hentry'
      · cases hentry'
        rfl
      · exact h.size_eq key' entry' hentry'
    · show c.usedBytes - entry.size + value.length = _
      rw [h.data_increasing.sum_insert, hused]
  refine ⟨d.promote key, ?_, hd.promote key, ?_, ?_, promote_data d key⟩
  · simp [ArcCache.insert, hentry, d]
  · rw [ArcCache.promote]
    split <;> rfl
  · rw [ArcCache.promote]
    split <;> rfl

/-- Inserting a new key evicts until there is room, and adds the key to `t1`. -/
theorem Invariant.insert_of_none {c : ArcCache} (h : c.Invariant) {key : UInt64}
    (hnone : c.data.lookup key = none) (value : List UInt8) :
  ∃ c' d, c.insert key value = .ok c' ∧ c'.Invariant ∧ Rounds value.length c d ∧
    ¬ d.mustEvict value.length ∧ c'.maxBytes = c.maxBytes ∧ c'.evicted = d.evicted ∧
    c'.data = SortedMap.insert key ⟨value, value.length⟩ d.data
  := by
  obtain ⟨d, heq, hrounds, hdone⟩ := h.evictWhile (Nat.le_refl _) value.length
  have hd := h.rounds hrounds
  obtain ⟨keys, -, -, hlookup⟩ := hrounds.lookup_data h
  have hnone' : d.data.lookup key = none := by
    rw [hlookup, hnone, ite_self]
  have hout : ¬ (key ∈ d.t1.set ∨ key ∈ d.t2.set) := by
    rw [hd.resident key, hnone']
    simp
  obtain ⟨h1, h2⟩ := not_or.mp hout
  let c' := { d with
    usedBytes := d.usedBytes + value.length
    data := SortedMap.insert key ⟨value, value.length⟩ d.data
    t1 := d.t1.pushBack key }
  refine ⟨c', d, ?_, ?_, hrounds, hdone, hrounds.maxBytes_eq h, rfl, rfl⟩
  · rw [ArcCache.insert, hnone]
    dsimp only
    rw [heq]
    simp [bind, Except.bind, OrderedSet.contains, h1, h2, c']
  · refine { hd with
      t1_covered := hd.t1_covered.pushBack key
      disjoint := ?_
      resident := ?_
      data_increasing := hd.data_increasing.insert key _
      size_eq := ?_
      usedBytes_eq := ?_ }
    · rw [Finset.disjoint_left]
      intro key' hkey'
      obtain rfl | hkey' := OrderedSet.mem_pushBack.mp hkey'
      · exact h2
      · exact Finset.disjoint_left.mp hd.disjoint hkey'
    · intro key'
      show key' ∈ (d.t1.pushBack key).set ∨ key' ∈ d.t2.set
        ↔ ((SortedMap.insert key _ d.data).lookup key').isSome
      rw [OrderedSet.mem_pushBack, SortedMap.lookup_insert, or_assoc, hd.resident key']
      by_cases heq : key' = key <;> simp [heq]
    · intro key' entry' hentry'
      rw [SortedMap.lookup_insert] at hentry'
      split at hentry'
      · cases hentry'
        rfl
      · exact hd.size_eq key' entry' hentry'
    · show d.usedBytes + value.length = _
      rw [hd.data_increasing.sum_insert, SortedMap.sum_erase_of_none _ hnone', hd.usedBytes_eq]

theorem Invariant.insert {c : ArcCache} (h : c.Invariant) (key : UInt64) (value : List UInt8) :
  ∃ c', c.insert key value = .ok c' ∧ c'.Invariant
  := by
  cases hkey : c.data.lookup key with
  | none =>
      obtain ⟨c', -, heq, hinv, -⟩ := h.insert_of_none hkey value
      exact ⟨c', heq, hinv⟩
  | some entry =>
      obtain ⟨c', heq, hinv, -⟩ := h.insert_of_some hkey value
      exact ⟨c', heq, hinv⟩

theorem Invariant.get {c : ArcCache} (h : c.Invariant) (key : UInt64) :
  (c.get key).2.Invariant
  := by
  rw [ArcCache.get]
  split
  · exact h.promote key
  split
  · exact { h with p_le := Nat.min_le_right _ _ }
  split
  · exact { h with p_le := (Nat.sub_le _ _).trans h.p_le }
  · exact h

theorem Invariant.remove {c : ArcCache} (h : c.Invariant) (key : UInt64) :
  (c.remove key).2.Invariant
  := by
  rw [ArcCache.remove]
  split
  · next entry hentry =>
    obtain ⟨hsize, hused⟩ := h.erase hentry
    refine { h with
      t1_covered := h.t1_covered.remove key
      t2_covered := h.t2_covered.remove key
      disjoint := ?_
      resident := ?_
      data_increasing := h.data_increasing.erase key
      size_eq := hsize
      usedBytes_eq := hused }
    · exact h.disjoint.mono (Finset.erase_subset _ _) (Finset.erase_subset _ _)
    · intro key'
      show key' ∈ (c.t1.remove key).2.set ∨ key' ∈ (c.t2.remove key).2.set
        ↔ ((SortedMap.erase key c.data).lookup key').isSome
      rw [OrderedSet.mem_remove, OrderedSet.mem_remove, SortedMap.lookup_erase]
      by_cases heq : key' = key
      · simp [heq]
      · simpa [heq] using h.resident key'
  · exact h

/-- A call of the cache. -/
inductive CacheCall where
  | insert (key : UInt64) (value : List UInt8)
  | get (key : UInt64)
  | remove (key : UInt64)
  | drainEvicted

/-- What a call makes of the cache. -/
def run (c : ArcCache) : CacheCall → Except CacheFault ArcCache
  | .insert key value => c.insert key value
  | .get key => .ok (c.get key).2
  | .remove key => .ok (c.remove key).2
  | .drainEvicted => .ok c.drainEvicted.2

/-- What a sequence of calls makes of the cache. -/
def runAll (c : ArcCache) : List CacheCall → Except CacheFault ArcCache
  | [] => .ok c
  | call :: calls => do runAll (← c.run call) calls

/-- Every call goes through and keeps the invariant. -/
theorem Invariant.run {c : ArcCache} (h : c.Invariant) (call : CacheCall) :
  ∃ c', c.run call = .ok c' ∧ c'.Invariant
  := by
  cases call with
  | insert key value => exact h.insert key value
  | get key => exact ⟨_, rfl, h.get key⟩
  | remove key => exact ⟨_, rfl, h.remove key⟩
  | drainEvicted => exact ⟨_, rfl, h.drainEvicted⟩

theorem Invariant.runAll {c : ArcCache} (h : c.Invariant) (calls : List CacheCall) :
  ∃ c', c.runAll calls = .ok c' ∧ c'.Invariant
  := by
  induction calls generalizing c with
  | nil => exact ⟨c, rfl, h⟩
  | cons call calls ih =>
      obtain ⟨d, hrun, hd⟩ := h.run call
      rw [ArcCache.runAll, hrun]
      exact ih hd

/-- Any calls on a new cache go through, without a subtraction that goes below zero and
without an eviction loop that goes on, and keep the invariant.  Whatever is inserted next,
every round of the eviction loop takes the data of one key out, and the loop ends. -/
theorem runAll_invariant (maxBytes : ℕ) (calls : List CacheCall) :
  ∃ c, (new maxBytes).runAll calls = .ok c ∧ c.Invariant ∧
    (∀ size c', Rounds size c c' → c'.mustEvict size →
      ∃ c'' key, c'.evictOne = .ok c'' ∧ (c'.data.lookup key).isSome ∧
        c''.data = SortedMap.erase key c'.data ∧ c''.data.length + 1 = c'.data.length) ∧
    ∀ size, ∃ c', Rounds size c c' ∧ ¬ c'.mustEvict size
  := by
  obtain ⟨c, heq, h⟩ := (invariant_new maxBytes).runAll calls
  refine ⟨c, heq, h, ?_, ?_⟩
  · intro size c' hrounds hmust
    have h' := h.rounds hrounds
    obtain ⟨c'', key, hround, -, -, hevicts⟩ := h'.evictOne (data_ne_nil_of_mustEvict hmust)
    exact ⟨c'', key, hround, hevicts.lookup, hevicts.data_eq,
      hevicts.length_data h'.data_increasing⟩
  · intro size
    obtain ⟨c', -, hrounds, hdone⟩ := h.evictWhile (Nat.le_refl _) size
    exact ⟨c', hrounds, hdone⟩

end ArcCache

end Vexfs
