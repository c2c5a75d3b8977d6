import Vexfs.Cache.CacheRun

/-!
# The cache of file contents

`FileCache` is a cache with its invariant, so that no call of it fails.  `contents` is the
map from inode numbers to the contents that are in the cache; what the calls do is said of
this map and of the keys that were evicted.
-/

namespace Vexfs

/-- A cache whose calls never fail. -/
structure FileCache where
  cache : ArcCache
  invariant : cache.Invariant

namespace FileCache

def new (maxBytes : ℕ) : FileCache := ⟨.new maxBytes, ArcCache.invariant_new maxBytes⟩

def usedBytes (c : FileCache) : ℕ := c.cache.usedBytes

def maxBytes (c : FileCache) : ℕ := c.cache.maxBytes

/-- The contents in the cache. -/
def contents (c : FileCache) (ino : UInt64) : Option (List UInt8) :=
  (c.cache.data.lookup ino).map Entry.data

/-- The keys evicted since the last drain. -/
def evicted (c : FileCache) : List UInt64 := c.cache.evicted

def get (c : FileCache) (ino : UInt64) : Option (List UInt8) × FileCache :=
  ((c.cache.get ino).1, ⟨(c.cache.get ino).2, c.invariant.get ino⟩)

def remove (c : FileCache) (ino : UInt64) : Option (List UInt8) × FileCache :=
  ((c.cache.remove ino).1, ⟨(c.cache.remove ino).2, c.invariant.remove ino⟩)

def drainEvicted (c : FileCache) : List UInt64 × FileCache :=
  (c.cache.drainEvicted.1, ⟨c.cache.drainEvicted.2, c.invariant.drainEvicted⟩)

/-- `ArcCache::insert`, which goes through. -/
def insert (c : FileCache) (ino : UInt64) (data : List UInt8) : FileCache :=
  match h : c.cache.insert ino data with
  | .ok cache => ⟨cache, by
      obtain ⟨c', heq, hinv⟩ := c.invariant.insert ino data
      rw [h] at heq
      cases heq
      exact hinv⟩
  | .error _ => c

def peekEvictionCandidate (c : FileCache) : Option UInt64 := c.cache.peekEvictionCandidate

/-! ### What the calls do -/

@[simp]
theorem contents_new (maxBytes : ℕ) (ino : UInt64) :
  (new maxBytes).contents ino = none
  := rfl

@[simp]
theorem fst_get (c : FileCache) (ino : UInt64) :
  (c.get ino).1 = c.contents ino
  := c.cache.fst_get ino

@[simp]
theorem contents_get (c : FileCache) (ino : UInt64) :
  (c.get ino).2.contents = c.contents
  := by
  obtain ⟨hdata, -⟩ := c.cache.get_frame ino
  funext ino'
  show ((c.cache.get ino).2.data.lookup ino').map Entry.data = _
  rw [hdata]
  rfl

@[simp]
theorem evicted_get (c : FileCache) (ino : UInt64) :
  (c.get ino).2.evicted = c.evicted
  := (c.cache.get_frame ino).2.1

@[simp]
theorem usedBytes_get (c : FileCache) (ino : UInt64) :
  (c.get ino).2.usedBytes = c.usedBytes
  := (c.cache.get_frame ino).2.2.1

@[simp]
theorem maxBytes_get (c : FileCache) (ino : UInt64) :
  (c.get ino).2.maxBytes = c.maxBytes
  := (c.cache.get_frame ino).2.2.2

theorem contents_remove (c : FileCache) (ino ino' : UInt64) :
  (c.remove ino).2.contents ino' = if ino' = ino then none else c.contents ino'
  := by
  show ((c.cache.remove ino).2.data.lookup ino').map Entry.data = _
  rw [ArcCache.remove]
  split
  · show ((SortedMap.erase ino c.cache.data).lookup ino').map Entry.data = _
    rw [SortedMap.lookup_erase]
    split
    · rfl
    · rfl
  · next hnone =>
    split
    · next heq => rw [heq, hnone, Option.map_none]
    · rfl

@[simp]
theorem contents_drainEvicted (c : FileCache) :
  c.drainEvicted.2.contents = c.contents
  := rfl

@[simp]
theorem evicted_drainEvicted (c : FileCache) :
  c.drainEvicted.2.evicted = []
  := rfl

@[simp]
theorem fst_drainEvicted (c : FileCache) :
  c.drainEvicted.1 = c.evicted
  := rfl

/-- The insertion of `ArcCache` that an insertion makes. -/
theorem insert_eq {c : FileCache} {ino : UInt64} {data : List UInt8} {c' : ArcCache}
    (h : c.cache.insert ino data = .ok c') :
  (c.insert ino data).cache = c'
  := by
  unfold insert
  split
  · next heq => exact Except.ok.inj (heq.symm.trans h)
  · next heq => cases heq.symm.trans h

/-- After an insertion the keys evicted by it have no contents, and only they have lost
them; the inserted key is not among them. -/
theorem insert_cases (c : FileCache) (ino : UInt64) (data : List UInt8) :
  ∃ keys, (c.insert ino data).evicted = c.evicted ++ keys ∧ ino ∉ keys
    ∧ (∀ key ∈ keys, (c.contents key).isSome)
    ∧ ∀ key, (c.insert ino data).contents key
      = if key = ino then some data else if key ∈ keys then none else c.contents key
  := by
  cases hino : c.cache.data.lookup ino with
  | some entry =>
      obtain ⟨c', heq, -, -, hevicted, hdata⟩ := c.invariant.insert_of_some hino data
      use []
      rw [evicted, insert_eq heq, hevicted]
      refine ⟨(List.append_nil _).symm, List.not_mem_nil, by simp, ?_⟩
      intro key
      rw [contents, insert_eq heq, hdata, SortedMap.lookup_insert]
      split
      · rfl
      · rw [if_neg List.not_mem_nil, contents]
  | none =>
      obtain ⟨c', d, heq, -, hrounds, -, -, hevicted, hdata⟩ :=
        c.invariant.insert_of_none hino data
      obtain ⟨keys, hkeys, hsome, hlookup⟩ := hrounds.lookup_data c.invariant
      use keys
      rw [evicted, insert_eq heq, hevicted, hkeys]
      refine ⟨rfl, ?_, ?_, ?_⟩
      · intro hmem
        have hino' := hsome ino hmem
        rw [hino] at hino'
        cases hino'
      · intro key hkey
        rw [contents, Option.isSome_map]
        exact hsome key hkey
      · intro key
        rw [contents, insert_eq heq, hdata, SortedMap.lookup_insert, hlookup]
        split
        · rfl
        · split
          · rfl
          · rfl

@[simp]
theorem maxBytes_insert (c : FileCache) (ino : UInt64) (data : List UInt8) :
  (c.insert ino data).maxBytes = c.maxBytes
  := by
  cases hino : c.cache.data.lookup ino with
  | some entry =>
      obtain ⟨c', heq, -, hmax, -⟩ := c.invariant.insert_of_some hino data
      rw [maxBytes, insert_eq heq]
      exact hmax
  | none =>
      obtain ⟨c', d, heq, -, -, -, hmax, -⟩ := c.invariant.insert_of_none hino data
      rw [maxBytes, insert_eq heq]
      exact hmax

/-- Cached contents are replaced without evicting anything. -/
theorem insert_of_cached {c : FileCache} {ino : UInt64} {old : List UInt8}
    (h : c.contents ino = some old) (data : List UInt8) :
  (c.insert ino data).evicted = c.evicted
    ∧ ∀ key, (c.insert ino data).contents key = if key = ino then some data else c.contents key
  := by
  obtain ⟨entry, hentry, -⟩ := Option.map_eq_some_iff.mp h
  obtain ⟨c', heq, -, -, hevicted, hdata⟩ := c.invariant.insert_of_some hentry data
  rw [evicted, insert_eq heq]
  refine ⟨hevicted, ?_⟩
  intro key
  rw [contents, insert_eq heq, hdata, SortedMap.lookup_insert]
  split <;> rfl

/-- Cached contents count as bytes in use. -/
theorem length_le_usedBytes {c : FileCache} {ino : UInt64} {data : List UInt8}
    (h : c.contents ino = some data) :
  data.length ≤ c.usedBytes
  := by
  obtain ⟨entry, hentry, rfl⟩ := Option.map_eq_some_iff.mp h
  have herase := c.invariant.data_increasing.sum_erase (fun entry => entry.data.length) hentry
  rw [usedBytes, c.invariant.usedBytes_eq]
  omega

/-- Contents that are larger than the cache do not stay when others are inserted that fit. -/
theorem contents_insert_of_large {c : FileCache} {ino ino' : UInt64} {data old : List UInt8}
    (hnew : c.contents ino = none) (hold : c.contents ino' = some old)
    (hlarge : c.maxBytes < old.length) (hfits : data.length ≤ c.maxBytes) :
  (c.insert ino data).contents ino' = none
  := by
  have hne : ino' ≠ ino := by
    rintro rfl
    rw [hnew] at hold
    cases hold
  obtain ⟨c', d, heq, -⟩ := c.invariant.insert_of_none (Option.map_eq_none_iff.mp hnew) data
  have hle : (c.insert ino data).usedBytes ≤ c.maxBytes := by
    rw [usedBytes, insert_eq heq]
    exact (c.invariant.usedBytes_insert_of_none (Option.map_eq_none_iff.mp hnew) heq).mpr hfits
  obtain ⟨keys, -, -, -, hcontents⟩ := c.insert_cases ino data
  have hold' := hcontents ino'
  rw [if_neg hne] at hold'
  split at hold'
  · exact hold'
  · have hstays := length_le_usedBytes (hold'.trans hold)
    omega

/-! ### Insertions that evict nothing -/

/-- Nothing waits to be drained, and `n` bytes more stay below the ceiling. -/
structure Room (c : FileCache) (n : ℕ) : Prop where
  evicted : c.evicted = []
  used_lt : c.usedBytes + n < c.maxBytes

theorem room_new {maxBytes n : ℕ} (h : n < maxBytes) :
  (new maxBytes).Room n
  := ⟨rfl, by simpa [new, usedBytes, FileCache.maxBytes, ArcCache.new] using h⟩

theorem Room.get {c : FileCache} {n : ℕ} (h : c.Room n) (ino : UInt64) :
  (c.get ino).2.Room n
  := by
  constructor
  · rw [evicted_get, h.evicted]
  · rw [usedBytes_get, maxBytes_get]
    exact h.used_lt

theorem Room.mono {c : FileCache} {m n : ℕ} (hle : m ≤ n) (h : c.Room n) :
  c.Room m
  := ⟨h.evicted, (Nat.add_le_add_left hle _).trans_lt h.used_lt⟩

/-- With room for it, an insertion evicts nothing, and takes no more room than its bytes. -/
theorem Room.insert {c : FileCache} {data : List UInt8} {n : ℕ}
    (h : c.Room (data.length + n)) (ino : UInt64) :
  (c.insert ino data).Room n
    ∧ ∀ key, (c.insert ino data).contents key = if key = ino then some data else c.contents key
  := by
  have hlt := h.used_lt
  cases hino : c.cache.data.lookup ino with
  | some entry =>
      obtain ⟨c', heq, hinv, hmax, hevicted, hdata⟩ := c.invariant.insert_of_some hino data
      have hused : c'.usedBytes ≤ c.usedBytes + data.length := by
        have herase := c.invariant.data_increasing.sum_erase
          (fun entry => entry.data.length) hino
        rw [hinv.usedBytes_eq, hdata, c.invariant.data_increasing.sum_insert, usedBytes,
          c.invariant.usedBytes_eq]
        dsimp only at herase ⊢
        omega
      rw [← insert_eq heq] at hmax hevicted hdata hused
      refine ⟨⟨hevicted.trans h.evicted, ?_⟩, ?_⟩
      · show (c.insert ino data).cache.usedBytes + n < (c.insert ino data).cache.maxBytes
        have hmax' : (c.insert ino data).cache.maxBytes = c.maxBytes := hmax
        omega
      · intro key
        rw [contents, hdata, SortedMap.lookup_insert]
        split
        · rfl
        · rfl
  | none =>
      obtain ⟨c', d, heq, hinv, hrounds, -, hmax, hevicted, hdata⟩ :=
        c.invariant.insert_of_none hino data
      have hfits : ¬ c.cache.mustEvict data.length := by
        have hle : c.cache.usedBytes + data.length ≤ c.cache.maxBytes := by
          show c.usedBytes + data.length ≤ c.maxBytes
          omega
        simp [ArcCache.mustEvict, hle]
      obtain rfl := hrounds.eq_of_not_mustEvict hfits
      have hused : c'.usedBytes = c.usedBytes + data.length := by
        rw [hinv.usedBytes_eq, hdata, c.invariant.data_increasing.sum_insert, usedBytes,
          SortedMap.sum_erase_of_none _ hino, c.invariant.usedBytes_eq]
      rw [← insert_eq heq] at hmax hevicted hdata hused
      refine ⟨⟨hevicted.trans h.evicted, ?_⟩, ?_⟩
      · show (c.insert ino data).cache.usedBytes + n < (c.insert ino data).cache.maxBytes
        have hmax' : (c.insert ino data).cache.maxBytes = c.maxBytes := hmax
        omega
      · intro key
        rw [contents, hdata, SortedMap.lookup_insert]
        split
        · rfl
        · rfl

end FileCache

end Vexfs
