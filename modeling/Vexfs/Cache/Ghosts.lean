import Vexfs.Cache.CacheRun

/-!
# Evicted keys

The file system asks the cache which key it would evict next, and the cache remembers the keys
it has evicted.  The key it names is the one an insertion evicts first, when the cache is full
(`peek_names_victim_iff`): below the ceiling it names none, although a value that does not fit
evicts one.  The keys it remembers are not those with data (`lists_disjoint`), as long as no
key is inserted that it remembers: an insertion does not make it forget.
-/

namespace Vexfs

namespace ArcCache

variable {c c' : ArcCache}

/-! ### The key that goes first -/

/-- The key that a round of eviction takes. -/
def victim (c : ArcCache) : Option UInt64 :=
  if c.evictFromT1 then c.t1.peek else c.t2.peek

/-- The first key that the eviction loop takes is the one a round would take at the start. -/
theorem Rounds.first {size : ℕ} (hrounds : Rounds size c c') (h : c.Invariant) :
  c' = c ∨ ∃ key keys, c.victim = some key ∧ c'.evicted = c.evicted ++ key :: keys
  := by
  induction hrounds with
  | start => exact Or.inl rfl
  | @round d d' hrounds hmust hround ih =>
      right
      obtain rfl | ⟨key, keys, hvictim, hevicted⟩ := ih
      · obtain ⟨d'', key, heq, hvictim, -, hevicts⟩ :=
          h.evictOne (data_ne_nil_of_mustEvict hmust)
        obtain rfl := Except.ok.inj (heq.symm.trans hround)
        exact ⟨key, [], hvictim, hevicts.evicted_eq⟩
      · obtain ⟨-, key', hevicts⟩ := (h.rounds hrounds).round hmust hround
        refine ⟨key, keys ++ [key'], hvictim, ?_⟩
        rw [hevicts.evicted_eq, hevicted, List.append_assoc, List.cons_append]

/-- The first key that an insertion evicts. -/
theorem Invariant.victim_of_insert (h : c.Invariant) {key first : UInt64} {keys : List UInt64}
    {value : List UInt8} (hnone : c.data.lookup key = none)
    (hrun : c.insert key value = .ok c') (hevicted : c'.evicted = c.evicted ++ first :: keys) :
  c.victim = some first
  := by
  obtain ⟨c'', d, heq, -, hrounds, -, -, hevicted', -⟩ := h.insert_of_none hnone value
  obtain rfl := Except.ok.inj (heq.symm.trans hrun)
  rw [hevicted'] at hevicted
  obtain rfl | ⟨key', keys', hvictim, hd⟩ := hrounds.first h
  · have hnil := List.append_right_eq_self.mp hevicted.symm
    cases hnil
  · have hcons := List.append_cancel_left (hd.symm.trans hevicted)
    rw [hvictim, (List.cons.inj hcons).1]

/-- After any calls on a new cache, the candidate that is named before a key without data is
inserted is the first key that the insertion evicts, if there is one, exactly when the cache is
full. -/
theorem peek_names_victim_iff (maxBytes : ℕ) (calls : List CacheCall) :
  ∃ c, (new maxBytes).runAll calls = .ok c ∧ ∀ key value c' first keys,
    c.data.lookup key = none → c.insert key value = .ok c' →
    c'.evicted = c.evicted ++ first :: keys →
    (c.peekEvictionCandidate = some first ↔ c.maxBytes ≤ c.usedBytes)
  := by
  obtain ⟨c, hrun, h⟩ := (invariant_new maxBytes).runAll calls
  refine ⟨c, hrun, fun key value c' first keys hnone hinsert hevicted => ?_⟩
  have hvictim := h.victim_of_insert hnone hinsert hevicted
  by_cases hfull : c.usedBytes < c.maxBytes
  · rw [peekEvictionCandidate, if_pos hfull]
    exact iff_of_false (Option.some_ne_none first).symm (not_le.mpr hfull)
  · rw [peekEvictionCandidate, if_neg hfull, ← victim, hvictim]
    exact iff_of_true rfl (not_lt.mp hfull)

/-- A value that is as large as the cache evicts a smaller one, and no candidate is named. -/
theorem not_peek_names_victim :
  ¬ ∀ maxBytes calls c key value c' first keys, (new maxBytes).runAll calls = .ok c →
      c.data.lookup key = none → c.insert key value = .ok c' →
      c'.evicted = c.evicted ++ first :: keys → c.peekEvictionCandidate = some first
  := by
  intro h
  let c : ArcCache := ⟨⟨[1], {1}⟩, .new, .new, .new, [(1, ⟨[7], 1⟩)], 0, 2, 1, []⟩
  have hrun : (new 2).runAll [.insert 1 [7]] = .ok c := rfl
  obtain ⟨c', hinsert, hevicted⟩ : ∃ c', c.insert 2 [7, 7] = .ok c' ∧ c'.evicted = [1] := by
    have hevicts : ((c.insert 2 [7, 7]).map ArcCache.evicted) = .ok [1] := by decide +kernel
    cases hc : c.insert 2 [7, 7] with
    | error fault =>
        rw [hc] at hevicts
        cases hevicts
    | ok c' =>
        rw [hc] at hevicts
        exact ⟨c', rfl, Except.ok.inj hevicts⟩
  have hpeek := h 2 _ c 2 [7, 7] c' 1 [] hrun rfl hinsert hevicted
  exact absurd hpeek (by decide)

/-! ### Lists -/

/-- No key is in two of two lists and their ghosts. -/
structure Apart (t b u v : Finset UInt64) : Prop where
  t_b : Disjoint t b
  t_u : Disjoint t u
  t_v : Disjoint t v
  b_u : Disjoint b u
  b_v : Disjoint b v
  u_v : Disjoint u v

namespace Apart

variable {t b u v t' b' : Finset UInt64} {key : UInt64}

theorem swap (h : Apart t b u v) :
  Apart u v t b
  := ⟨h.u_v, h.t_u.symm, h.b_u.symm, h.t_v.symm, h.b_v.symm, h.t_b⟩

/-- A key of a list becomes one of its ghosts, and other ghosts may be forgotten. -/
theorem evict (hkey : key ∈ t) (hb : b' ⊆ b ∪ {key}) (h : Apart t b u v) :
  Apart (t.erase key) b' u v
  := by
  have hsub := Finset.erase_subset key t
  have hsingle := Finset.singleton_subset_iff.mpr hkey
  have hout : Disjoint (t.erase key) {key} :=
    Finset.disjoint_singleton_right.mpr (Finset.notMem_erase key t)
  refine ⟨?_, h.t_u.mono_left hsub, h.t_v.mono_left hsub, ?_, ?_, h.u_v⟩
  · exact (Finset.disjoint_union_right.mpr ⟨h.t_b.mono_left hsub, hout⟩).mono_right hb
  · exact (Finset.disjoint_union_left.mpr ⟨h.b_u, h.t_u.mono_left hsingle⟩).mono_left hb
  · exact (Finset.disjoint_union_left.mpr ⟨h.b_v, h.t_v.mono_left hsingle⟩).mono_left hb

/-- A key of a list moves to the other. -/
theorem move (hkey : key ∈ t) (h : Apart t b u v) :
  Apart (t.erase key) b (u ∪ {key}) v
  := by
  have hsub := Finset.erase_subset key t
  have hsingle := Finset.singleton_subset_iff.mpr hkey
  have hout : Disjoint (t.erase key) {key} :=
    Finset.disjoint_singleton_right.mpr (Finset.notMem_erase key t)
  refine ⟨h.t_b.mono_left hsub, ?_, h.t_v.mono_left hsub, ?_, h.b_v, ?_⟩
  · exact Finset.disjoint_union_right.mpr ⟨h.t_u.mono_left hsub, hout⟩
  · exact Finset.disjoint_union_right.mpr ⟨h.b_u, h.t_b.symm.mono_right hsingle⟩
  · exact Finset.disjoint_union_left.mpr ⟨h.u_v, h.t_v.mono_left hsingle⟩

/-- A key that is in none of them is added to a list. -/
theorem add (hkey : key ∉ t ∪ b ∪ (u ∪ v)) (h : Apart t b u v) :
  Apart (t ∪ {key}) b u v
  := by
  simp only [Finset.mem_union, not_or] at hkey
  obtain ⟨⟨-, hb⟩, hu, hv⟩ := hkey
  refine ⟨?_, ?_, ?_, h.b_u, h.b_v, h.u_v⟩
  · exact Finset.disjoint_union_left.mpr ⟨h.t_b, Finset.disjoint_singleton_left.mpr hb⟩
  · exact Finset.disjoint_union_left.mpr ⟨h.t_u, Finset.disjoint_singleton_left.mpr hu⟩
  · exact Finset.disjoint_union_left.mpr ⟨h.t_v, Finset.disjoint_singleton_left.mpr hv⟩

theorem mono {u' : Finset UInt64} (ht : t' ⊆ t) (hu : u' ⊆ u) (h : Apart t b u v) :
  Apart t' b u' v
  := ⟨h.t_b.mono_left ht, h.t_u.mono ht hu, h.t_v.mono_left ht, h.b_u.mono_right hu, h.b_v,
    h.u_v.mono_left hu⟩

end Apart

/-- No key is in two of the four lists. -/
def ListsDisjoint (c : ArcCache) : Prop :=
  Apart c.t1.set c.b1.set c.t2.set c.b2.set

/-- The keys in the four lists. -/
def known (c : ArcCache) : Finset UInt64 :=
  c.t1.set ∪ c.b1.set ∪ (c.t2.set ∪ c.b2.set)

theorem dropData_lists {key : UInt64} (h : c.dropData key = .ok c') :
  c'.t1 = c.t1 ∧ c'.t2 = c.t2 ∧ c'.b1 = c.b1 ∧ c'.b2 = c.b2
  := by
  unfold dropData at h
  split at h
  · cases h
    exact ⟨rfl, rfl, rfl, rfl⟩
  split at h
  · cases h
    exact ⟨rfl, rfl, rfl, rfl⟩
  · cases h

/-- A round takes a key out of `t1` or `t2` and adds it to the keys evicted from there, of
which the oldest may be forgotten. -/
theorem lists_evictOne (h : c.Invariant) (hround : c.evictOne = .ok c') :
  c' = c
    ∨ (∃ key ∈ c.t1.set, c'.t1.set = c.t1.set.erase key ∧ c'.t2.set = c.t2.set
      ∧ c'.b1.set ⊆ c.b1.set ∪ {key} ∧ c'.b2.set = c.b2.set)
    ∨ ∃ key ∈ c.t2.set, c'.t1.set = c.t1.set ∧ c'.t2.set = c.t2.set.erase key
      ∧ c'.b1.set = c.b1.set ∧ c'.b2.set ⊆ c.b2.set ∪ {key}
  := by
  have hghosts : ∀ {b : OrderedSet UInt64} {key : UInt64}, b.Covered →
      ((b.pushBack key).truncateTo maxGhosts).set ⊆ b.set ∪ {key} := by
    intro b key hb
    obtain ⟨-, hsub, -⟩ := (hb.pushBack key).truncateTo maxGhosts
    intro k hk
    obtain rfl | hk := OrderedSet.mem_pushBack.mp (hsub hk)
    · exact Finset.mem_union_right _ (Finset.mem_singleton_self k)
    · exact Finset.mem_union_left _ hk
  unfold evictOne at hround
  split at hround
  · next hguard =>
    have hne : c.t1.set ≠ ∅ := by
      intro hempty
      simp [OrderedSet.isEmpty, hempty] at hguard
    obtain ⟨key, hkey, t, hpop, hset, -⟩ := h.t1_covered.popFront hne
    rw [hpop] at hround
    cases hdrop : dropData { c with t1 := t } key with
    | error fault =>
        simp [hdrop, bind, Except.bind] at hround
    | ok d =>
        obtain ⟨h1, h2, h3, h4⟩ := dropData_lists hdrop
        simp only [hdrop] at hround
        cases hround
        right
        left
        refine ⟨key, hkey, ?_, ?_, ?_, ?_⟩
        · rw [← hset]
          exact congrArg OrderedSet.set h1
        · exact congrArg OrderedSet.set h2
        · rw [h3]
          exact hghosts h.b1_covered
        · exact congrArg OrderedSet.set h4
  split at hround
  · next hguard =>
    have hne : c.t2.set ≠ ∅ := by
      intro hempty
      simp [OrderedSet.isEmpty, hempty] at hguard
    obtain ⟨key, hkey, t, hpop, hset, -⟩ := h.t2_covered.popFront hne
    rw [hpop] at hround
    cases hdrop : dropData { c with t2 := t } key with
    | error fault =>
        simp [hdrop, bind, Except.bind] at hround
    | ok d =>
        obtain ⟨h1, h2, h3, h4⟩ := dropData_lists hdrop
        simp only [hdrop] at hround
        cases hround
        right
        right
        refine ⟨key, hkey, ?_, ?_, ?_, ?_⟩
        · exact congrArg OrderedSet.set h1
        · rw [← hset]
          exact congrArg OrderedSet.set h2
        · exact congrArg OrderedSet.set h3
        · rw [h4]
          exact hghosts h.b2_covered
  · cases hround
    exact Or.inl rfl

/-- Evicting a key keeps the lists apart, and brings in no keys. -/
theorem ListsDisjoint.evictOne (h : c.Invariant) (hlists : c.ListsDisjoint)
    (hround : c.evictOne = .ok c') :
  c'.ListsDisjoint ∧ c'.known ⊆ c.known
  := by
  have hmoved : ∀ {t b b' : Finset UInt64} {key : UInt64}, key ∈ t → b' ⊆ b ∪ {key} →
      t.erase key ∪ b' ⊆ t ∪ b := by
    intro t b b' key hkey hb
    apply Finset.union_subset ((Finset.erase_subset key t).trans Finset.subset_union_left)
    apply hb.trans (Finset.union_subset Finset.subset_union_right _)
    exact Finset.singleton_subset_iff.mpr (Finset.mem_union_left _ hkey)
  unfold ListsDisjoint known at *
  obtain rfl | ⟨key, hkey, ht1, ht2, hb1, hb2⟩ | ⟨key, hkey, ht1, ht2, hb1, hb2⟩ :=
    lists_evictOne h hround
  · exact ⟨hlists, Finset.Subset.refl _⟩
  · rw [ht1, ht2, hb2]
    exact ⟨hlists.evict hkey hb1, Finset.union_subset_union_left (hmoved hkey hb1)⟩
  · rw [ht1, ht2, hb1]
    exact ⟨(hlists.swap.evict hkey hb2).swap,
      Finset.union_subset_union_right (hmoved hkey hb2)⟩

theorem ListsDisjoint.rounds {size : ℕ} (h : c.Invariant) (hlists : c.ListsDisjoint)
    (hrounds : Rounds size c c') :
  c'.ListsDisjoint ∧ c'.known ⊆ c.known
  := by
  induction hrounds with
  | start => exact ⟨hlists, Finset.Subset.refl _⟩
  | round hrounds _ hround ih =>
      obtain ⟨hlists', hsub⟩ := ih.1.evictOne (h.rounds hrounds) hround
      exact ⟨hlists', hsub.trans ih.2⟩

theorem set_pushBack (s : OrderedSet UInt64) (key : UInt64) :
  (s.pushBack key).set = s.set ∪ {key}
  := by
  ext k
  rw [OrderedSet.mem_pushBack, Finset.mem_union, Finset.mem_singleton, or_comm]

/-- Promoting a key moves it between the lists of keys with data. -/
theorem ListsDisjoint.promote (hlists : c.ListsDisjoint) (key : UInt64) :
  (c.promote key).ListsDisjoint
  := by
  by_cases hkey : key ∈ c.t1.set
  · rw [promote_of_mem hkey, ListsDisjoint, set_pushBack]
    exact Apart.move hkey hlists
  · rw [promote_of_notMem hkey]
    exact hlists

/-- A key is not inserted while it is remembered as an evicted one. -/
def CacheCall.AvoidsGhosts (c : ArcCache) : CacheCall → Prop
  | .insert key _ => key ∉ c.b1.set ∧ key ∉ c.b2.set
  | _ => True

/-- Inserting a key that is not remembered keeps the lists apart. -/
theorem ListsDisjoint.insert (h : c.Invariant) (hlists : c.ListsDisjoint) {key : UInt64}
    {value : List UInt8} (havoids : CacheCall.AvoidsGhosts c (.insert key value))
    (hrun : c.insert key value = .ok c') :
  c'.ListsDisjoint
  := by
  cases hkey : c.data.lookup key with
  | some entry =>
      simp only [ArcCache.insert, hkey, Except.ok.injEq] at hrun
      rw [← hrun]
      have hupdated : ListsDisjoint { c with
          data := SortedMap.insert key ⟨value, value.length⟩ c.data
          usedBytes := c.usedBytes - entry.size + value.length } := hlists
      exact hupdated.promote key
  | none =>
      obtain ⟨d, heq, hrounds, -⟩ := h.evictWhile (Nat.le_refl _) value.length
      obtain ⟨hd, hsub⟩ := hlists.rounds h hrounds
      have hresident : ¬ (key ∈ c.t1.set ∨ key ∈ c.t2.set) := by
        rw [h.resident key, hkey]
        simp
      have hkey' : key ∉ d.known := by
        intro hmem
        have hmem' := hsub hmem
        simp only [known, Finset.mem_union] at hmem'
        have := havoids.1
        have := havoids.2
        tauto
      simp only [ArcCache.insert, hkey, heq, bind, Except.bind] at hrun
      split at hrun
      · cases hrun
        rw [ListsDisjoint, set_pushBack]
        exact Apart.add hkey' hd
      · cases hrun
        exact hd

/-- A call that inserts no remembered key keeps the lists apart. -/
theorem ListsDisjoint.run (h : c.Invariant) (hlists : c.ListsDisjoint) {call : CacheCall}
    (havoids : call.AvoidsGhosts c) (hrun : c.run call = .ok c') :
  c'.ListsDisjoint
  := by
  cases call with
  | insert key value => exact hlists.insert h havoids hrun
  | get key =>
      cases hrun
      rw [ArcCache.get]
      split
      · exact hlists.promote key
      split
      · exact hlists
      split <;> exact hlists
  | remove key =>
      cases hrun
      rw [ArcCache.remove]
      split
      · exact Apart.mono (Finset.erase_subset key _) (Finset.erase_subset key _) hlists
      · exact hlists
  | drainEvicted =>
      cases hrun
      exact hlists

/-- After any calls on a new cache that insert no key while it is remembered as an evicted one,
every key is in at most one of the four lists. -/
theorem lists_disjoint (maxBytes : ℕ) (calls : List CacheCall)
    (havoids : ∀ before call c, before ++ [call] <+: calls →
      (new maxBytes).runAll before = .ok c → call.AvoidsGhosts c) :
  ∃ c, (new maxBytes).runAll calls = .ok c ∧ c.ListsDisjoint
  := by
  induction calls using List.reverseRecOn with
  | nil =>
      have hempty : Disjoint (∅ : Finset UInt64) ∅ := Finset.disjoint_empty_left _
      exact ⟨new maxBytes, rfl, hempty, hempty, hempty, hempty, hempty, hempty⟩
  | append_singleton calls call ih =>
      obtain ⟨c, hrun, hlists⟩ := ih fun before call c hpre =>
        havoids before call c (hpre.trans (List.prefix_append _ _))
      have h := invariant_of_runAll hrun
      obtain ⟨c', hcall, -⟩ := h.run call
      refine ⟨c', ?_, hlists.run h (havoids calls call c (List.prefix_refl _) hrun) hcall⟩
      rw [runAll_append, hrun]
      show c.runAll [call] = _
      rw [runAll, hcall]
      rfl

/-- The first insertion is of a key that is not remembered. -/
theorem lists_disjoint_one_key :
  ∃ c, (new 8).runAll [.insert 1 [7], .get 1, .remove 1] = .ok c ∧ c.ListsDisjoint
  := by
  apply lists_disjoint
  intro before call c hpre hrun
  cases before with
  | nil =>
      obtain ⟨rfl, -⟩ := List.cons_prefix_cons.mp hpre
      cases hrun
      exact ⟨Finset.notMem_empty 1, Finset.notMem_empty 1⟩
  | cons first before =>
      obtain ⟨-, hrest⟩ := List.cons_prefix_cons.mp hpre
      have hcall : call ∈ [CacheCall.get 1, CacheCall.remove 1] :=
        hrest.subset (List.mem_append_right _ List.mem_cons_self)
      obtain rfl | hcall := List.mem_cons.mp hcall
      · trivial
      · obtain rfl := List.mem_singleton.mp hcall
        trivial

/-- A key that is inserted again after it was evicted has data and is remembered. -/
theorem not_lists_disjoint :
  ¬ ∀ maxBytes calls c, (new maxBytes).runAll calls = .ok c → c.ListsDisjoint
  := by
  intro h
  let calls : List CacheCall := [.insert 1 [7], .insert 2 [7], .insert 1 [7]]
  have hboth : ((new 1).runAll calls).map
      (fun c => decide (1 ∈ c.t1.set ∧ 1 ∈ c.b1.set)) = .ok true := by
    decide +kernel
  cases hrun : (new 1).runAll calls with
  | error fault =>
      rw [hrun] at hboth
      cases hboth
  | ok c =>
      rw [hrun] at hboth
      obtain ⟨h1, h2⟩ := of_decide_eq_true (Except.ok.inj hboth)
      exact Finset.disjoint_left.mp (h 1 calls c hrun).t_b h1 h2

end ArcCache

end Vexfs
