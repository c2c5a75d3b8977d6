import Vexfs.Cache.ArcCache

/-!
# Runs of the cache

What callers of the cache rely on: a key keeps the value it was inserted with last until it is
removed or evicted, and an eviction is reported by the next drain (`cache_faithful`).  The
memory ceiling holds as long as no value is larger than the cache and no value in the cache is
replaced by one that does not fit (`ceiling_iff`).
-/

namespace Vexfs

namespace ArcCache

variable {c c' : ArcCache}

/-! ### Runs -/

theorem runAll_nil (c : ArcCache) :
  c.runAll [] = .ok c
  := rfl

/-- Running on. -/
theorem runAll_append (c : ArcCache) (calls calls' : List CacheCall) :
  c.runAll (calls ++ calls') = c.runAll calls >>= fun d => d.runAll calls'
  := by
  induction calls generalizing c with
  | nil => rfl
  | cons call calls ih =>
      rw [List.cons_append, runAll, runAll]
      cases c.run call with
      | error e => rfl
      | ok d => exact ih d

theorem runAll_concat_ok {calls : List CacheCall} {call : CacheCall}
    (h : c.runAll (calls ++ [call]) = .ok c') :
  ∃ d, c.runAll calls = .ok d ∧ d.run call = .ok c'
  := by
  rw [runAll_append] at h
  cases hrun : c.runAll calls with
  | error e =>
      rw [hrun] at h
      cases h
  | ok d =>
      rw [hrun] at h
      refine ⟨d, rfl, ?_⟩
      cases hcall : d.run call with
      | error e =>
          have hd : d.runAll [call] = .error e := by rw [runAll, hcall]; rfl
          cases hd.symm.trans h
      | ok d' =>
          have hd : d.runAll [call] = .ok d' := by rw [runAll, hcall]; rfl
          exact hd.symm.trans h

theorem invariant_of_runAll {maxBytes : ℕ} {calls : List CacheCall}
    (h : (new maxBytes).runAll calls = .ok c) :
  c.Invariant
  := by
  obtain ⟨d, heq, hinv⟩ := (invariant_new maxBytes).runAll calls
  obtain rfl := Except.ok.inj (h.symm.trans heq)
  exact hinv

/-! ### Values -/

/-- The value of a key. -/
def value (c : ArcCache) (key : UInt64) : Option (List UInt8) :=
  (c.data.lookup key).map Entry.data

/-- Getting a key gives its value. -/
theorem fst_get (c : ArcCache) (key : UInt64) :
  (c.get key).1 = c.value key
  := by
  rw [get, value]
  split
  · next heq => rw [heq, Option.map_some]
  · next heq =>
    rw [heq, Option.map_none]
    split
    · rfl
    · split <;> rfl

/-- Getting a key moves keys between the lists. -/
theorem get_frame (c : ArcCache) (key : UInt64) :
  (c.get key).2.data = c.data ∧ (c.get key).2.evicted = c.evicted
    ∧ (c.get key).2.usedBytes = c.usedBytes ∧ (c.get key).2.maxBytes = c.maxBytes
  := by
  rw [get]
  split
  · rw [promote]
    split <;> exact ⟨rfl, rfl, rfl, rfl⟩
  · split
    · exact ⟨rfl, rfl, rfl, rfl⟩
    · split <;> exact ⟨rfl, rfl, rfl, rfl⟩

/-- Whether a call sets the value of a key: an insertion or a removal of it. -/
def CacheCall.Sets (key : UInt64) : CacheCall → Prop
  | .insert key' _ => key' = key
  | .remove key' => key' = key
  | _ => False

/-- The value a call gives a key, when it sets it. -/
def CacheCall.given : CacheCall → Option (List UInt8)
  | .insert _ value => some value
  | _ => none

/-- What a call does to the values: it sets one, and takes those of the keys it evicts, which
it adds to the evicted ones. -/
theorem Invariant.run_value (h : c.Invariant) {call : CacheCall} (hrun : c.run call = .ok c') :
  ∃ keys, (call ≠ .drainEvicted → c'.evicted = c.evicted ++ keys)
    ∧ (call = .drainEvicted → keys = [])
    ∧ ∀ key, (call.Sets key → c'.value key = call.given)
      ∧ (¬ call.Sets key → c'.value key = if key ∈ keys then none else c.value key)
  := by
  cases call with
  | insert key value =>
      cases hkey : c.data.lookup key with
      | some entry =>
          obtain ⟨d, heq, -, -, hevicted, hdata⟩ := h.insert_of_some hkey value
          obtain rfl := Except.ok.inj (heq.symm.trans hrun)
          use []
          refine ⟨fun _ => by rw [hevicted, List.append_nil], fun _ => rfl, fun key' => ?_⟩
          rw [ArcCache.value, hdata, SortedMap.lookup_insert]
          constructor
          · intro (heq : key = key')
            rw [if_pos heq.symm]
            rfl
          · intro (hne : ¬ key = key')
            rw [if_neg (Ne.symm hne), if_neg List.not_mem_nil]
            rfl
      | none =>
          obtain ⟨d, mid, heq, -, hrounds, -, -, hevicted, hdata⟩ := h.insert_of_none hkey value
          obtain rfl := Except.ok.inj (heq.symm.trans hrun)
          obtain ⟨keys, hkeys, -, hlookup⟩ := hrounds.lookup_data h
          use keys
          refine ⟨fun _ => by rw [hevicted, hkeys], nofun, fun key' => ?_⟩
          rw [ArcCache.value, hdata, SortedMap.lookup_insert, hlookup]
          constructor
          · intro (heq : key = key')
            rw [if_pos heq.symm]
            rfl
          · intro (hne : ¬ key = key')
            rw [if_neg (Ne.symm hne)]
            split
            · rfl
            · rfl
  | get key =>
      obtain rfl := Except.ok.inj hrun
      obtain ⟨hdata, hevicted, -⟩ := c.get_frame key
      use []
      refine ⟨fun _ => by rw [hevicted, List.append_nil], fun _ => rfl, fun key' => ?_⟩
      rw [value, hdata, if_neg List.not_mem_nil]
      exact ⟨fun hset => hset.elim, fun _ => rfl⟩
  | remove key =>
      obtain rfl := Except.ok.inj hrun
      use []
      have hevicted : (c.remove key).2.evicted = c.evicted := by
        rw [ArcCache.remove]
        split <;> rfl
      refine ⟨fun _ => by rw [hevicted, List.append_nil], fun _ => rfl, fun key' => ?_⟩
      have hvalue : (c.remove key).2.value key' = if key' = key then none else c.value key' := by
        rw [ArcCache.remove, value]
        split
        · rw [SortedMap.lookup_erase]
          split
          · rfl
          · rfl
        · next hnone =>
          split
          · next heq => rw [heq, hnone, Option.map_none]
          · rfl
      rw [hvalue]
      constructor
      · intro (heq : key = key')
        rw [if_pos heq.symm]
        rfl
      · intro (hne : ¬ key = key')
        rw [if_neg (Ne.symm hne), if_neg List.not_mem_nil]
  | drainEvicted =>
      obtain rfl := Except.ok.inj hrun
      use []
      refine ⟨fun hne => absurd rfl hne, fun _ => rfl, fun key' => ?_⟩
      rw [if_neg List.not_mem_nil]
      exact ⟨fun hset => hset.elim, fun _ => rfl⟩

/-- Until the next drain the evicted keys only grow. -/
theorem Invariant.evicted_prefix (h : c.Invariant) {calls : List CacheCall}
    (hcalls : .drainEvicted ∉ calls) (hrun : c.runAll calls = .ok c') :
  c.evicted <+: c'.evicted
  := by
  induction calls using List.reverseRecOn generalizing c' with
  | nil =>
      obtain rfl := Except.ok.inj hrun
      exact List.prefix_refl _
  | append_singleton calls call ih =>
      obtain ⟨d, hd, hcall⟩ := runAll_concat_ok hrun
      have hprefix := ih (fun hmem => hcalls (List.mem_append_left _ hmem)) hd
      obtain ⟨d', heq, hinv⟩ := h.runAll calls
      obtain rfl := Except.ok.inj (hd.symm.trans heq)
      obtain ⟨keys, hevicted, -⟩ := hinv.run_value hcall
      rw [hevicted fun heq => hcalls (by simp [heq])]
      exact hprefix.trans (List.prefix_append _ _)

/-! ### The values callers see -/

/-- In a run from `c₀`, `key` was evicted at one of the calls `calls`, and the next drain
returns it. -/
def Evicted (c₀ : ArcCache) (calls : List CacheCall) (key : UInt64) : Prop :=
  ∃ before call after c c', calls = before ++ call :: after ∧ c₀.runAll before = .ok c
    ∧ c.run call = .ok c' ∧ (∃ keys, c'.evicted = c.evicted ++ keys ∧ key ∈ keys)
    ∧ ∀ next d, .drainEvicted ∉ next → c'.runAll next = .ok d → key ∈ d.drainEvicted.1

theorem Evicted.append {c₀ : ArcCache} {calls : List CacheCall} {key : UInt64}
    (h : c₀.Evicted calls key) (call : CacheCall) :
  c₀.Evicted (calls ++ [call]) key
  := by
  obtain ⟨before, evicting, after, d, d', rfl, hrest⟩ := h
  exact ⟨before, evicting, after ++ [call], d, d', by simp, hrest⟩

/-- A key that is not set again keeps its value or is evicted. -/
theorem Invariant.kept_or_evicted (h : c.Invariant) {key : UInt64} {v : List UInt8}
    (hvalue : c.value key = some v) {calls : List CacheCall}
    (hcalls : ∀ call ∈ calls, ¬ call.Sets key) (hrun : c.runAll calls = .ok c') :
  c'.value key = some v ∨ c.Evicted calls key
  := by
  induction calls using List.reverseRecOn generalizing c' with
  | nil =>
      obtain rfl := Except.ok.inj hrun
      exact Or.inl hvalue
  | append_singleton calls call ih =>
      obtain ⟨d, hd, hcall⟩ := runAll_concat_ok hrun
      have hnot : ¬ call.Sets key := hcalls call (by simp)
      obtain hkept | hevicted := ih (fun call' hmem => hcalls call' (by simp [hmem])) hd
      · obtain ⟨d', heq, hinv⟩ := h.runAll calls
        obtain rfl := Except.ok.inj (hd.symm.trans heq)
        obtain ⟨keys, hgrow, hdrain, hvalues⟩ := hinv.run_value hcall
        rw [(hvalues key).2 hnot]
        split
        · next hmem =>
          right
          have hne : call ≠ .drainEvicted := by
            intro heq
            rw [hdrain heq] at hmem
            cases hmem
          refine ⟨calls, call, [], d, c', rfl, hd, hcall, ⟨keys, hgrow hne, hmem⟩, ?_⟩
          intro next d' hnext hrun'
          obtain ⟨d'', heq'', hinv'⟩ := hinv.run call
          obtain rfl := Except.ok.inj (hcall.symm.trans heq'')
          apply (hinv'.evicted_prefix hnext hrun').subset
          rw [hgrow hne]
          exact List.mem_append_right _ hmem
        · exact Or.inl hkept
      · exact Or.inr (hevicted.append call)

/-- A value that is there was inserted, and the key was not set since. -/
theorem exists_insert_of_value {maxBytes : ℕ} {calls : List CacheCall}
    (hrun : (new maxBytes).runAll calls = .ok c) {key : UInt64} {v : List UInt8}
    (hvalue : c.value key = some v) :
  ∃ before after, calls = before ++ .insert key v :: after
    ∧ ∀ call ∈ after, ¬ call.Sets key
  := by
  induction calls using List.reverseRecOn generalizing c with
  | nil =>
      obtain rfl := Except.ok.inj hrun
      cases hvalue
  | append_singleton calls call ih =>
      obtain ⟨d, hd, hcall⟩ := runAll_concat_ok hrun
      obtain ⟨keys, -, -, hvalues⟩ := (invariant_of_runAll hd).run_value hcall
      by_cases hset : call.Sets key
      · rw [(hvalues key).1 hset] at hvalue
        cases call with
        | insert key' value =>
            obtain rfl : key' = key := hset
            obtain rfl := Option.some.inj hvalue
            exact ⟨calls, [], rfl, by simp⟩
        | get key' => exact hset.elim
        | remove key' => cases hvalue
        | drainEvicted => exact hset.elim
      · rw [(hvalues key).2 hset] at hvalue
        split at hvalue
        · cases hvalue
        · obtain ⟨before, after, rfl, hafter⟩ := ih hd hvalue
          refine ⟨before, after ++ [call], by simp, ?_⟩
          intro call' hmem
          obtain hmem | hmem := List.mem_append.mp hmem
          · exact hafter call' hmem
          · rw [List.mem_singleton.mp hmem]
            exact hset

/-- After any calls on a new cache, getting a key gives a value only if that is the value it
was inserted with last, with no removal since; and a key that was inserted and not set since
still has its value, or it was evicted since, and the next drain returns it. -/
theorem cache_faithful (maxBytes : ℕ) (calls : List CacheCall) :
  ∃ c, (new maxBytes).runAll calls = .ok c ∧ ∀ key v,
    ((c.get key).1 = some v → ∃ before after, calls = before ++ .insert key v :: after
      ∧ ∀ call ∈ after, ¬ call.Sets key)
    ∧ ∀ before after, calls = before ++ .insert key v :: after →
      (∀ call ∈ after, ¬ call.Sets key) →
      (c.get key).1 = some v
        ∨ ∃ c₀, (new maxBytes).runAll (before ++ [.insert key v]) = .ok c₀
          ∧ c₀.Evicted after key
  := by
  obtain ⟨c, hrun, -⟩ := (invariant_new maxBytes).runAll calls
  use c, hrun
  intro key v
  rw [fst_get]
  refine ⟨exists_insert_of_value hrun, ?_⟩
  rintro before after rfl hafter
  rw [List.append_cons, runAll_append] at hrun
  obtain ⟨c₀, hc₀, hinv⟩ := (invariant_new maxBytes).runAll (before ++ [.insert key v])
  rw [hc₀] at hrun
  have hvalue : c₀.value key = some v := by
    obtain ⟨d, hd, hcall⟩ := runAll_concat_ok hc₀
    obtain ⟨keys, -, -, hvalues⟩ := (invariant_of_runAll hd).run_value hcall
    exact (hvalues key).1 rfl
  obtain hkept | hevicted := hinv.kept_or_evicted hvalue hafter hrun
  · exact Or.inl hkept
  · exact Or.inr ⟨c₀, hc₀, hevicted⟩

/-! ### The memory ceiling -/

/-- Whether the value of an insertion fits: a new value into an empty cache, and a value that
replaces another into the room that is left without that one. -/
def CacheCall.Fits (c : ArcCache) : CacheCall → Prop
  | .insert key value =>
      match c.data.lookup key with
      | none => value.length ≤ c.maxBytes
      | some entry => c.usedBytes - entry.size + value.length ≤ c.maxBytes
  | _ => True

/-- An insertion of a value that is not in the cache stays below the ceiling when the value
is not larger than the cache. -/
theorem Invariant.usedBytes_insert_of_none (h : c.Invariant) {key : UInt64}
    (hnone : c.data.lookup key = none) {value : List UInt8}
    (hrun : c.insert key value = .ok c') :
  c'.usedBytes ≤ c.maxBytes ↔ value.length ≤ c.maxBytes
  := by
  obtain ⟨d, mid, heq, hinv, hrounds, hdone, hmax, -, hdata⟩ := h.insert_of_none hnone value
  obtain rfl := Except.ok.inj (heq.symm.trans hrun)
  obtain ⟨keys, -, -, hlookup⟩ := hrounds.lookup_data h
  have hmid := h.rounds hrounds
  have hnone' : mid.data.lookup key = none := by
    rw [hlookup, hnone, ite_self]
  have hused : d.usedBytes = mid.usedBytes + value.length := by
    rw [hinv.usedBytes_eq, hdata, hmid.data_increasing.sum_insert,
      SortedMap.sum_erase_of_none _ hnone', hmid.usedBytes_eq]
  have hmax' : mid.maxBytes = c.maxBytes := hrounds.maxBytes_eq h
  have hcases : mid.usedBytes = 0 ∨ mid.usedBytes + value.length ≤ c.maxBytes := by
    by_cases hnil : mid.data = []
    · left
      rw [hmid.usedBytes_eq, hnil]
      rfl
    · right
      simpa [mustEvict, hnil, hmax'] using hdone
  omega

/-- A call keeps the ceiling exactly when its value fits. -/
theorem Invariant.usedBytes_run (h : c.Invariant) (hle : c.usedBytes ≤ c.maxBytes)
    {call : CacheCall} (hrun : c.run call = .ok c') :
  c'.usedBytes ≤ c.maxBytes ↔ call.Fits c
  := by
  cases call with
  | insert key value =>
      cases hkey : c.data.lookup key with
      | none =>
          rw [CacheCall.Fits, hkey]
          exact h.usedBytes_insert_of_none hkey hrun
      | some entry =>
          obtain ⟨d, heq, hinv, -, -, hdata⟩ := h.insert_of_some hkey value
          obtain rfl := Except.ok.inj (heq.symm.trans hrun)
          obtain ⟨-, hused⟩ := h.erase hkey
          have hused' : d.usedBytes = c.usedBytes - entry.size + value.length := by
            rw [hinv.usedBytes_eq, hdata, h.data_increasing.sum_insert, hused]
          rw [CacheCall.Fits, hkey, hused']
  | get key =>
      obtain rfl := Except.ok.inj hrun
      obtain ⟨-, -, hused, -⟩ := c.get_frame key
      rw [hused]
      exact iff_of_true hle trivial
  | remove key =>
      obtain rfl := Except.ok.inj hrun
      have hused : (c.remove key).2.usedBytes ≤ c.usedBytes := by
        rw [ArcCache.remove]
        split
        · exact Nat.sub_le _ _
        · exact Nat.le_refl _
      exact iff_of_true (hused.trans hle) trivial
  | drainEvicted =>
      obtain rfl := Except.ok.inj hrun
      exact iff_of_true hle trivial

/-- Calls do not change the ceiling. -/
theorem Invariant.maxBytes_run (h : c.Invariant) {call : CacheCall}
    (hrun : c.run call = .ok c') :
  c'.maxBytes = c.maxBytes
  := by
  cases call with
  | insert key value =>
      cases hkey : c.data.lookup key with
      | none =>
          obtain ⟨d, mid, heq, -, -, -, hmax, -⟩ := h.insert_of_none hkey value
          obtain rfl := Except.ok.inj (heq.symm.trans hrun)
          exact hmax
      | some entry =>
          obtain ⟨d, heq, -, hmax, -⟩ := h.insert_of_some hkey value
          obtain rfl := Except.ok.inj (heq.symm.trans hrun)
          exact hmax
  | get key =>
      obtain rfl := Except.ok.inj hrun
      exact (c.get_frame key).2.2.2
  | remove key =>
      obtain rfl := Except.ok.inj hrun
      rw [ArcCache.remove]
      split <;> rfl
  | drainEvicted =>
      obtain rfl := Except.ok.inj hrun
      rfl

theorem maxBytes_of_runAll {maxBytes : ℕ} {calls : List CacheCall}
    (hrun : (new maxBytes).runAll calls = .ok c) :
  c.maxBytes = maxBytes
  := by
  induction calls using List.reverseRecOn generalizing c with
  | nil =>
      obtain rfl := Except.ok.inj hrun
      rfl
  | append_singleton calls call ih =>
      obtain ⟨d, hd, hcall⟩ := runAll_concat_ok hrun
      exact ((invariant_of_runAll hd).maxBytes_run hcall).trans (ih hd)

/-- The bytes in use stay below the ceiling after every one of some calls on a new cache
exactly when the value of every insertion fits. -/
theorem ceiling_iff (maxBytes : ℕ) (calls : List CacheCall) :
  (∀ before c, before <+: calls → (new maxBytes).runAll before = .ok c →
      c.usedBytes ≤ maxBytes)
    ↔ ∀ before call c, before ++ [call] <+: calls → (new maxBytes).runAll before = .ok c →
      call.Fits c
  := by
  constructor
  · intro hceiling before call c hprefix hrun
    have hinv := invariant_of_runAll hrun
    have hmax := maxBytes_of_runAll hrun
    have hle := hceiling before c ((List.prefix_append _ _).trans hprefix) hrun
    obtain ⟨c', hcall, -⟩ := hinv.run call
    have hrun' : (new maxBytes).runAll (before ++ [call]) = .ok c' := by
      rw [runAll_append, hrun]
      show c.runAll [call] = _
      rw [runAll, hcall]
      rfl
    have hle' := hceiling (before ++ [call]) c' hprefix hrun'
    rw [← hmax] at hle hle'
    exact (hinv.usedBytes_run hle hcall).mp hle'
  · intro hfits before c hprefix hrun
    induction before using List.reverseRecOn generalizing c with
    | nil =>
        obtain rfl := Except.ok.inj hrun
        exact Nat.zero_le _
    | append_singleton before call ih =>
        obtain ⟨d, hd, hcall⟩ := runAll_concat_ok hrun
        have hmax := maxBytes_of_runAll hd
        have hle := ih d ((List.prefix_append _ _).trans hprefix) hd
        rw [← hmax] at hle ⊢
        apply ((invariant_of_runAll hd).usedBytes_run hle hcall).mpr
        exact hfits before call d hprefix hd

/-- A value that is replaced by a larger one breaks the ceiling. -/
theorem not_ceiling :
  ¬ ∀ maxBytes calls c, (new maxBytes).runAll calls = .ok c → c.usedBytes ≤ maxBytes
  := by
  intro h
  exact absurd (h 2 [.insert 1 [7], .insert 1 [7, 7, 7]] _ rfl) (by decide)

end ArcCache

end Vexfs
