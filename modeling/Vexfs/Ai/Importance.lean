import Vexfs.Ai.Persist

/-!
# Importance

The engine counts for each file how often and how long it was open.  It tracks
`maxTrackedFiles` files: before it takes in one more, it drops a file with the lowest score.
The numbers of a file that is tracked are those of its accesses since it was taken in last, and
so they are exact as long as there are no more files than can be tracked (`tracked_exact`).
-/

namespace Vexfs

/-- The score that the numbers of a file give at a time, as the number that a `f32` stands for.
It is never a NaN. -/
class ImportanceScore where
  score : Importance → UInt64 → ℚ

/-- A score by the number of accesses alone. -/
@[reducible]
def ImportanceScore.byCount : ImportanceScore where
  score f _ := f.accessCount.toNat

structure ImportanceEngine where
  stats : ImportanceTable

/-- A call of `record_access`, with the order in which the map is gone through, and the times
that the clock gives for each score and for the access. -/
structure ImportanceCall where
  order : Arrangement UInt64
  scoredAt : UInt64 → UInt64
  ino : UInt64
  name : String
  openDurationSecs : UInt64
  now : UInt64

def maxTrackedFiles : ℕ := 10000

namespace ImportanceEngine

def new : ImportanceEngine := ⟨.empty⟩

variable [ImportanceScore]

def score (e : ImportanceEngine) (ino now : UInt64) : ℚ :=
  match e.stats.get ino with
  | none => 0
  | some f => ImportanceScore.score f now

/-- The first file with the lowest score. -/
def lowest (e : ImportanceEngine) (c : ImportanceCall) : Option UInt64 :=
  (c.order.arrange e.stats.keys).argmin fun ino => e.score ino (c.scoredAt ino)

/-- The files that stay when an access is recorded. -/
def makeRoom (e : ImportanceEngine) (c : ImportanceCall) : ImportanceTable :=
  if e.stats.get c.ino = none ∧ maxTrackedFiles ≤ e.stats.len then
    match e.lowest c with
    | some ino => e.stats.erase ino
    | none => e.stats
  else e.stats

/-- Record an access.  A count or a time that overflows panics. -/
def recordAccess (e : ImportanceEngine) (c : ImportanceCall) : Option ImportanceEngine :=
  let stats := e.makeRoom c
  let entry := (stats.get c.ino).getD ⟨c.name, 0, 0, 0⟩
  if entry.accessCount + 1 = 0 then none
  else if 2 ^ 64 ≤ entry.totalSecs.toNat + c.openDurationSecs.toNat then none
  else some ⟨stats.insert c.ino { entry with
    accessCount := entry.accessCount + 1
    lastAccess := c.now
    totalSecs := entry.totalSecs + c.openDurationSecs }⟩

/-- The engine after some calls. -/
def run (e : ImportanceEngine) (calls : List ImportanceCall) : Option ImportanceEngine :=
  calls.foldlM recordAccess e

end ImportanceEngine

/-! ### The numbers of a file -/

/-- The numbers of a file are those of some accesses, and its name is that of the first one. -/
structure Importance.Tracks (f : Importance) (calls : List ImportanceCall) : Prop where
  name : calls.head?.map ImportanceCall.name = some f.name
  count : f.accessCount.toNat = calls.length
  last : calls.getLast?.map ImportanceCall.now = some f.lastAccess
  secs : f.totalSecs.toNat = (calls.map fun c => c.openDurationSecs.toNat).sum

/-- The calls for a file. -/
def callsFor (ino : UInt64) (calls : List ImportanceCall) : List ImportanceCall :=
  calls.filter fun c => c.ino = ino

theorem callsFor_concat (ino : UInt64) (calls : List ImportanceCall) (c : ImportanceCall) :
  callsFor ino (calls ++ [c]) = callsFor ino calls ++ if c.ino = ino then [c] else []
  := by
  rw [callsFor, List.filter_append, List.filter_singleton]
  by_cases h : c.ino = ino <;> simp [h, callsFor]

namespace ImportanceEngine

variable [ImportanceScore] {e e' : ImportanceEngine} {c : ImportanceCall}
  {calls : List ImportanceCall}

/-- What an access makes of the numbers of its file: those of a new one, or one access more. -/
theorem tracks_recordAccess (h : e.recordAccess c = some e') :
  ∃ f', e'.stats = (e.makeRoom c).insert c.ino f'
    ∧ ((e.makeRoom c).get c.ino = none → f'.Tracks [c])
    ∧ ∀ f calls, (e.makeRoom c).get c.ino = some f → f.Tracks calls → f'.Tracks (calls ++ [c])
  := by
  unfold recordAccess at h
  dsimp only at h
  split at h
  · cases h
  next hcount =>
  split at h
  · cases h
  next hsecs =>
  obtain rfl := Option.some.inj h
  refine ⟨_, rfl, ?_, ?_⟩
  · intro hnone
    rw [hnone]
    constructor
    · rfl
    · rfl
    · rfl
    · exact congrArg UInt64.toNat (UInt64.zero_add _)
  · intro f calls hf htracks
    rw [hf, Option.getD_some] at hcount hsecs ⊢
    have hne : calls ≠ [] := by
      rintro rfl
      cases htracks.name
    constructor
    · rw [List.head?_append_of_ne_nil _ hne, htracks.name]
    · rw [List.length_append, ← htracks.count]
      exact toNat_succ_of_ne hcount
    · rw [List.getLast?_concat]
      rfl
    · rw [List.map_append, List.sum_append, ← htracks.secs]
      dsimp only
      rw [UInt64.toNat_add, Nat.mod_eq_of_lt (Nat.lt_of_not_le hsecs)]
      rfl

/-- The files that stay have the numbers they had. -/
theorem get_of_get_makeRoom {ino : UInt64} {f : Importance}
    (h : (e.makeRoom c).get ino = some f) :
  e.stats.get ino = some f
  := by
  unfold makeRoom at h
  split at h
  · split at h
    · exact (FiniteMap.get_of_get_erase h).2
    · exact h
  · exact h

/-- A file that is dropped had the lowest score. -/
theorem score_le_of_dropped {ino ino' : UInt64} (h : (e.stats.get ino).isSome)
    (hdropped : (e.makeRoom c).get ino = none) (h' : (e.stats.get ino').isSome) :
  e.score ino (c.scoredAt ino) ≤ e.score ino' (c.scoredAt ino')
  := by
  have hne : (e.makeRoom c).get ino ≠ e.stats.get ino := by
    rw [hdropped]
    rintro heq
    rw [← heq] at h
    cases h
  unfold makeRoom at hne
  split at hne
  · split at hne
    · next k hk =>
      obtain rfl : ino = k := by
        by_contra hother
        rw [FiniteMap.get_erase, if_neg hother] at hne
        exact hne rfl
      exact List.le_of_mem_argmin (c.order.mem_arrange.mpr (FiniteMap.mem_keys.mpr h')) hk
    · exact absurd rfl hne
  · exact absurd rfl hne

/-- There is room for the file of an access. -/
theorem len_makeRoom (hlen : e.stats.len ≤ maxTrackedFiles) :
  (e.makeRoom c).len ≤ maxTrackedFiles
    ∧ ((e.makeRoom c).get c.ino = none → (e.makeRoom c).len < maxTrackedFiles)
  := by
  unfold makeRoom
  split
  · next hfull =>
    have hkeys : e.stats.keys ≠ [] := by
      intro hnil
      have hzero := (e.stats.length_keys).symm.trans (congrArg List.length hnil)
      rw [hzero] at hfull
      exact absurd hfull.2 (by decide)
    split
    · next k hk =>
      have hmem : k ∈ e.stats.keys := c.order.mem_arrange.mp (List.argmin_mem hk)
      rw [FiniteMap.len_erase, if_pos (FiniteMap.mem_keys.mp hmem)]
      have hpos : 0 < maxTrackedFiles := by decide
      omega
    · next hnone =>
      have hnil := List.argmin_eq_none.mp hnone
      have hperm := c.order.perm e.stats.keys
      rw [hnil] at hperm
      exact absurd hperm.nil_eq.symm hkeys
  · next hnot =>
    refine ⟨hlen, fun hnone => ?_⟩
    by_contra hle
    exact hnot ⟨hnone, Nat.not_lt.mp hle⟩

/-- No more files are tracked than can be. -/
theorem len_recordAccess (h : e.recordAccess c = some e')
    (hlen : e.stats.len ≤ maxTrackedFiles) :
  e'.stats.len ≤ maxTrackedFiles
  := by
  obtain ⟨f', hstats, -, -⟩ := tracks_recordAccess h
  obtain ⟨hle, hlt⟩ := len_makeRoom (c := c) hlen
  rw [hstats, FiniteMap.len_insert]
  cases hget : (e.makeRoom c).get c.ino with
  | none => exact hlt hget
  | some f => exact hle

/-! ### Runs -/

/-- What is tracked after some calls. -/
structure Follows (e : ImportanceEngine) (calls : List ImportanceCall) : Prop where
  len_le : e.stats.len ≤ maxTrackedFiles
  recent : ∀ ino f, e.stats.get ino = some f →
    ∃ kept, kept <:+ calls ∧ f.Tracks (callsFor ino kept)
  all : (calls.map ImportanceCall.ino).toFinset.card ≤ maxTrackedFiles →
    ∀ ino, (e.stats.get ino = none → callsFor ino calls = [])
      ∧ ∀ f, e.stats.get ino = some f → f.Tracks (callsFor ino calls)

omit [ImportanceScore] in
theorem Follows.new :
  new.Follows []
  := ⟨Nat.zero_le _, fun _ _ h => (nomatch h), fun _ _ => ⟨fun _ => rfl, fun _ h => (nomatch h)⟩⟩

omit [ImportanceScore] in
theorem mem_of_callsFor_ne_nil {ino : UInt64} (h : callsFor ino calls ≠ []) :
  ino ∈ calls.map ImportanceCall.ino
  := by
  obtain ⟨c, hc⟩ := List.exists_mem_of_ne_nil _ h
  obtain ⟨hmem, hino⟩ := List.mem_filter.mp hc
  exact of_decide_eq_true hino ▸ List.mem_map_of_mem hmem

omit [ImportanceScore] in
/-- The files that are tracked were accessed. -/
theorem Follows.len_le_card (h : e.Follows calls) :
  e.stats.len ≤ (calls.map ImportanceCall.ino).toFinset.card
  := by
  rw [← FiniteMap.length_keys, ← List.toFinset_card_of_nodup e.stats.nodup_keys]
  apply Finset.card_le_card
  intro ino hino
  rw [List.mem_toFinset] at hino ⊢
  obtain ⟨f, hf⟩ := Option.isSome_iff_exists.mp (FiniteMap.mem_keys.mp hino)
  obtain ⟨kept, hkept, htracks⟩ := h.recent ino f hf
  have hne : callsFor ino kept ≠ [] := by
    intro hnil
    have hname := htracks.name
    rw [hnil] at hname
    cases hname
  exact List.map_subset _ hkept.subset (mem_of_callsFor_ne_nil hne)

/-- As long as there are not too many files, none is dropped. -/
theorem Follows.makeRoom_eq (h : e.Follows calls)
    (hcard : ((calls ++ [c]).map ImportanceCall.ino).toFinset.card ≤ maxTrackedFiles) :
  e.makeRoom c = e.stats
  := by
  apply if_neg
  rintro ⟨hnone, hfull⟩
  have hbefore : (calls.map ImportanceCall.ino).toFinset.card ≤ maxTrackedFiles := by
    apply le_trans (Finset.card_le_card _) hcard
    rw [List.map_append, List.toFinset_append]
    exact Finset.subset_union_left
  have hnew : c.ino ∉ (calls.map ImportanceCall.ino).toFinset := by
    intro hmem
    obtain ⟨c', hc', hino⟩ := List.mem_map.mp (List.mem_toFinset.mp hmem)
    have hnil := (h.all hbefore c.ino).1 hnone
    have hin : c' ∈ callsFor c.ino calls := List.mem_filter.mpr ⟨hc', decide_eq_true hino⟩
    rw [hnil] at hin
    cases hin
  rw [List.map_append, List.map_singleton, List.toFinset_append, Finset.union_comm] at hcard
  have hinsert : ([c.ino].toFinset ∪ (calls.map ImportanceCall.ino).toFinset)
      = insert c.ino (calls.map ImportanceCall.ino).toFinset := rfl
  rw [hinsert, Finset.card_insert_of_notMem hnew] at hcard
  have := h.len_le_card
  omega

omit [ImportanceScore] in
/-- The numbers of the file of an access, from those that stay. -/
theorem tracks_concat {stats : ImportanceTable} {f' : Importance}
    (hfirst : stats.get c.ino = none → f'.Tracks [c])
    (hnext : ∀ f calls, stats.get c.ino = some f → f.Tracks calls → f'.Tracks (calls ++ [c]))
    (hnone : stats.get c.ino = none → callsFor c.ino calls = [])
    (hsome : ∀ f, stats.get c.ino = some f → f.Tracks (callsFor c.ino calls)) :
  f'.Tracks (callsFor c.ino (calls ++ [c]))
  := by
  rw [callsFor_concat, if_pos rfl]
  cases hold : stats.get c.ino with
  | none =>
      rw [hnone hold]
      exact hfirst hold
  | some f => exact hnext f _ hold (hsome f hold)

theorem Follows.recordAccess (h : e.Follows calls) (hrecord : e.recordAccess c = some e') :
  e'.Follows (calls ++ [c])
  := by
  obtain ⟨f', hstats, hfirst, hnext⟩ := tracks_recordAccess hrecord
  have hsuffix : ∀ {kept}, kept <:+ calls → kept ++ [c] <:+ calls ++ [c] := by
    rintro kept ⟨before, rfl⟩
    use before
    rw [List.append_assoc]
  constructor
  · exact len_recordAccess hrecord h.len_le
  · intro ino f hf
    rw [hstats, FiniteMap.get_insert] at hf
    split at hf
    · next hino =>
      obtain rfl := Option.some.inj hf
      rw [hino]
      cases hold : (e.makeRoom c).get c.ino with
      | none =>
          use [] ++ [c], hsuffix List.nil_suffix
          exact tracks_concat hfirst hnext (fun _ => rfl) fun f hf => by rw [hold] at hf; cases hf
      | some f =>
          obtain ⟨kept, hkept, htracks⟩ := h.recent _ _ (get_of_get_makeRoom hold)
          use kept ++ [c], hsuffix hkept
          apply tracks_concat hfirst hnext
          · intro hnone
            rw [hold] at hnone
            cases hnone
          · intro f' hf'
            obtain rfl := Option.some.inj (hold.symm.trans hf')
            exact htracks
    · next hne =>
      obtain ⟨kept, hkept, htracks⟩ := h.recent _ _ (get_of_get_makeRoom hf)
      use kept ++ [c], hsuffix hkept
      rw [callsFor_concat, if_neg (Ne.symm hne), List.append_nil]
      exact htracks
  · intro hcard ino
    have hbefore : (calls.map ImportanceCall.ino).toFinset.card ≤ maxTrackedFiles := by
      apply le_trans (Finset.card_le_card _) hcard
      rw [List.map_append, List.toFinset_append]
      exact Finset.subset_union_left
    rw [h.makeRoom_eq hcard] at hstats hfirst hnext
    rw [hstats, FiniteMap.get_insert]
    split
    · next hino =>
      refine ⟨nofun, fun f hf => ?_⟩
      obtain rfl := Option.some.inj hf
      rw [hino]
      exact tracks_concat hfirst hnext (h.all hbefore c.ino).1 (h.all hbefore c.ino).2
    · next hne =>
      rw [callsFor_concat, if_neg (Ne.symm hne), List.append_nil]
      exact h.all hbefore ino

theorem Follows.run (h : e.Follows calls) {more : List ImportanceCall}
    (hrun : e.run more = some e') :
  e'.Follows (calls ++ more)
  := by
  induction more generalizing e calls with
  | nil =>
      obtain rfl := Option.some.inj hrun
      rw [List.append_nil]
      exact h
  | cons c more ih =>
      obtain ⟨e₁, hrecord, hrest⟩ := Option.bind_eq_some_iff.mp hrun
      have hmore := ih (h.recordAccess hrecord) hrest
      rw [List.append_assoc] at hmore
      exact hmore

/-- After any accesses at most `maxTrackedFiles` files are tracked.  The numbers of each of them
are those of its accesses from some access on, and those of all its accesses, with every file
tracked, if no more than `maxTrackedFiles` files were accessed. -/
theorem tracked_exact (h : new.run calls = some e) :
  e.stats.len ≤ maxTrackedFiles
    ∧ (∀ ino f, e.stats.get ino = some f →
      ∃ kept, kept <:+ calls ∧ f.Tracks (callsFor ino kept))
    ∧ ((calls.map ImportanceCall.ino).toFinset.card ≤ maxTrackedFiles →
      ∀ c ∈ calls, ∃ f, e.stats.get c.ino = some f ∧ f.Tracks (callsFor c.ino calls))
  := by
  have hfollows : e.Follows calls := Follows.new.run h
  refine ⟨hfollows.len_le, hfollows.recent, fun hcard c hc => ?_⟩
  obtain ⟨hnone, hsome⟩ := hfollows.all hcard c.ino
  cases hget : e.stats.get c.ino with
  | none =>
      have hmem : c ∈ callsFor c.ino calls := List.mem_filter.mpr ⟨hc, decide_eq_true rfl⟩
      rw [hnone hget] at hmem
      cases hmem
  | some f => exact ⟨f, rfl, hsome f hget⟩

omit [ImportanceScore] in
/-- One file was open twice. -/
theorem tracked_exact_two_accesses :
  let _ := ImportanceScore.byCount
  let calls : List ImportanceCall :=
    [⟨.id, fun _ => 0, 2, "a", 5, 9⟩, ⟨.id, fun _ => 0, 2, "a", 7, 10⟩]
  ∃ e f, new.run calls = some e ∧ e.stats.get 2 = some f ∧ f.Tracks (callsFor 2 calls)
    ∧ f.totalSecs = 12
  := by
  intro _ calls
  have hrun : ∃ e, new.run calls = some e := ⟨_, rfl⟩
  obtain ⟨e, hrun⟩ := hrun
  obtain ⟨f, hf, htracks⟩ := (tracked_exact hrun).2.2 (by decide) _ List.mem_cons_self
  exact ⟨e, f, hrun, hf, htracks, UInt64.toNat_inj.mp htracks.secs⟩

end ImportanceEngine

end Vexfs
