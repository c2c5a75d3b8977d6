import Mathlib.Data.List.DropRight
import Vexfs.Fs.SnapshotManager

/-!
# Runs of a snapshot manager

Snapshots are taken of many files in turn, the snapshots of a file are dropped, and all files
are collected.  The ids come from one counter, so what a run took is a list of snapshots with
the ids from one on (`ids_taken`), and what is retained is some of it.  Without collections,
what a file retains is the end of what was taken of it.
-/

namespace Vexfs

namespace SnapshotManager

/-! ### Lists of snapshots -/

theorem mem_all {m : SnapshotManager} {s : Snapshot} :
  s ∈ m.all ↔ ∃ ino, s ∈ m.list ino
  := by
  rw [all, List.mem_flatMap]
  constructor
  · rintro ⟨⟨ino, l⟩, he, hs⟩
    use ino
    rw [list, FiniteMap.mem_entries.mp he]
    exact hs
  · rintro ⟨ino, hs⟩
    cases hget : m.snapshots.get ino with
    | none =>
        rw [list, hget] at hs
        cases hs
    | some l =>
        rw [list, hget] at hs
        exact ⟨(ino, l), FiniteMap.mem_entries.mpr hget, hs⟩

theorem list_new (maxPerFile : ℕ) (ino : UInt64) :
  (new maxPerFile).list ino = []
  := rfl

/-- What a file has after a snapshot was taken. -/
theorem list_snapshot {m : SnapshotManager} {data : List UInt8} (hcap : 0 < m.maxPerFile)
    (hne : data ≠ []) (ino : UInt64) (name : String) (dataOffset timestamp : UInt64)
    (ino' : UInt64) :
  (m.snapshot ino name data dataOffset timestamp).list ino'
    = if ino' = ino then
        m.remaining ino ++ [Snapshot.new m.nextId ino name data dataOffset timestamp]
      else m.list ino'
  := by
  rw [snapshot_eq hcap hne, list, FiniteMap.get_insert]
  split
  · rfl
  · rfl

theorem list_removeFile (m : SnapshotManager) (ino ino' : UInt64) :
  (m.removeFile ino).list ino' = if ino' = ino then [] else m.list ino'
  := by
  rw [list, removeFile, FiniteMap.get_erase]
  split
  · rfl
  · rfl

theorem remaining_sublist (m : SnapshotManager) (ino : UInt64) :
  (m.remaining ino).Sublist (m.list ino)
  := by
  unfold remaining
  split
  · exact List.tail_sublist _
  · exact List.Sublist.refl _

theorem length_remaining_lt {m : SnapshotManager} {ino : UInt64} (hcap : 0 < m.maxPerFile)
    (h : (m.list ino).length ≤ m.maxPerFile) :
  (m.remaining ino).length < m.maxPerFile
  := by
  unfold remaining
  split
  · rw [List.length_tail]
    omega
  · next hlt => exact Nat.lt_of_not_le hlt

theorem length_kept_le (keep : ℕ) (list : List Snapshot) :
  (kept keep list).length ≤ list.length
  := by
  have h := (perm_dropped_kept keep list).length_eq
  rw [List.length_append] at h
  omega

theorem mem_of_mem_kept {keep : ℕ} {list : List Snapshot} {s : Snapshot}
    (h : s ∈ kept keep list) :
  s ∈ list
  := (perm_dropped_kept keep list).mem_iff.mpr (List.mem_append_right _ h)

/-- The snapshot with an id is looked for in the list of the file. -/
theorem get_eq (m : SnapshotManager) (ino : UInt64) (version : UInt32) :
  m.get ino version = (m.list ino).find? (·.id = version)
  := by
  rw [get, list]
  cases m.snapshots.get ino with
  | none => rfl
  | some l => rfl

end SnapshotManager

/-! ### Calls -/

/-- A call of a snapshot manager that changes it. -/
inductive SnapshotCall where
  | snapshot (ino : UInt64) (name : String) (data : List UInt8)
      (dataOffset timestamp : UInt64)
  | removeFile (ino : UInt64)
  | gcKeepPerFile (order : Arrangement UInt64) (keep : ℕ)

namespace SnapshotCall

def isGc : SnapshotCall → Bool
  | .gcKeepPerFile _ _ => true
  | _ => false

end SnapshotCall

namespace SnapshotManager

def call (m : SnapshotManager) : SnapshotCall → SnapshotManager
  | .snapshot ino name data dataOffset timestamp =>
      m.snapshot ino name data dataOffset timestamp
  | .removeFile ino => m.removeFile ino
  | .gcKeepPerFile order keep => (m.gcKeepPerFile order keep).2

def calls (m : SnapshotManager) (cs : List SnapshotCall) : SnapshotManager :=
  cs.foldl call m

/-- The calls of a run, each with the id that is next when it is made. -/
def history (m : SnapshotManager) : List SnapshotCall → List (UInt32 × SnapshotCall)
  | [] => []
  | c :: cs => (m.nextId, c) :: history (m.call c) cs

/-- The snapshot that a call takes.  A file without contents is not taken. -/
def taken : UInt32 × SnapshotCall → Option Snapshot
  | (id, .snapshot ino name data dataOffset timestamp) =>
      if data = [] then none else some (Snapshot.new id ino name data dataOffset timestamp)
  | (_, .removeFile _) => none
  | (_, .gcKeepPerFile _ _) => none

/-- Whether a call drops the snapshots of a file. -/
def removes (ino : UInt64) : UInt32 × SnapshotCall → Bool
  | (_, .removeFile ino') => ino' = ino
  | (_, .snapshot _ _ _ _ _) => false
  | (_, .gcKeepPerFile _ _) => false

/-- What a run from a new manager has taken. -/
def takenBy (maxPerFile : ℕ) (cs : List SnapshotCall) : List Snapshot :=
  ((new maxPerFile).history cs).filterMap taken

/-- What a run has taken of a file since the snapshots of the file were last dropped. -/
def takenSince (maxPerFile : ℕ) (cs : List SnapshotCall) (ino : UInt64) : List Snapshot :=
  ((((new maxPerFile).history cs).rtakeWhile fun c => !removes ino c).filterMap taken).filter
    (·.ino = ino)

/-! ### Ids -/

@[simp]
theorem calls_concat (m : SnapshotManager) (cs : List SnapshotCall) (c : SnapshotCall) :
  m.calls (cs ++ [c]) = (m.calls cs).call c
  := by
  rw [calls, calls, List.foldl_append]
  rfl

theorem history_concat (m : SnapshotManager) (cs : List SnapshotCall) (c : SnapshotCall) :
  m.history (cs ++ [c]) = m.history cs ++ [((m.calls cs).nextId, c)]
  := by
  induction cs generalizing m with
  | nil => rfl
  | cons c' cs ih =>
      rw [List.cons_append, history, ih, history]
      rfl

theorem takenBy_concat (maxPerFile : ℕ) (cs : List SnapshotCall) (c : SnapshotCall) :
  takenBy maxPerFile (cs ++ [c])
    = takenBy maxPerFile cs ++ (taken (((new maxPerFile).calls cs).nextId, c)).toList
  := by
  rw [takenBy, history_concat, List.filterMap_append, ← takenBy]
  cases h : taken (((new maxPerFile).calls cs).nextId, c) with
  | none => rw [List.filterMap_cons_none h]; rfl
  | some s => rw [List.filterMap_cons_some h]; rfl

theorem length_takenBy_le (maxPerFile : ℕ) (cs : List SnapshotCall) :
  (takenBy maxPerFile cs).length ≤ cs.length
  := by
  induction cs using List.reverseRecOn with
  | nil => exact Nat.le_refl _
  | append_singleton cs c ih =>
      rw [takenBy_concat, List.length_append, List.length_append]
      apply Nat.add_le_add ih
      cases taken (((new maxPerFile).calls cs).nextId, c) with
      | none => exact Nat.zero_le _
      | some s => exact Nat.le_refl _

theorem toNat_id {k : ℕ} (h : k < 2 ^ 32) :
  (UInt32.ofNat k).toNat = k
  := UInt32.toNat_ofNat_of_lt' h

/-- What a manager retains is some of what was taken, and the ids go on from there. -/
structure Retains (maxPerFile : ℕ) (past : List Snapshot) (m : SnapshotManager) : Prop where
  cap : m.maxPerFile = maxPerFile
  ids : past.map Snapshot.id = (List.range' 1 past.length).map UInt32.ofNat
  nextId : m.nextId = UInt32.ofNat (past.length + 1)
  mem : ∀ ino, ∀ s ∈ m.list ino, s ∈ past ∧ s.ino = ino
  nodup : (m.all.map Snapshot.id).Nodup
  few : ∀ ino, (m.list ino).length ≤ maxPerFile

namespace Retains

variable {maxPerFile : ℕ} {past : List Snapshot} {m : SnapshotManager}

theorem mem_id_iff (h : Retains maxPerFile past m) {id : UInt32} :
  id ∈ past.map Snapshot.id ↔ ∃ k, 1 ≤ k ∧ k ≤ past.length ∧ UInt32.ofNat k = id
  := by
  rw [h.ids, List.mem_map]
  simp only [List.mem_range'_1, and_assoc, Nat.lt_one_add_iff]

/-- The next id is new as long as the counter does not come round. -/
theorem nextId_notMem (h : Retains maxPerFile past m) (hlt : past.length + 1 < 2 ^ 32) :
  m.nextId ∉ past.map Snapshot.id
  := by
  rw [h.mem_id_iff, h.nextId]
  rintro ⟨k, -, hle, hk⟩
  have hnat := congrArg UInt32.toNat hk
  rw [toNat_id (by omega), toNat_id hlt] at hnat
  omega

/-- Two snapshots that were taken have different ids. -/
theorem nodup_ids (h : Retains maxPerFile past m) (hlt : past.length < 2 ^ 32) :
  (past.map Snapshot.id).Nodup
  := by
  rw [h.ids]
  apply List.Nodup.map_on _ List.nodup_range'
  intro j hj k hk hjk
  have hnat := congrArg UInt32.toNat hjk
  rw [List.mem_range'_1] at hj hk
  rwa [toNat_id (by omega), toNat_id (by omega)] at hnat

theorem new (maxPerFile : ℕ) :
  Retains maxPerFile [] (SnapshotManager.new maxPerFile)
  := by
  constructor
  · rfl
  · rfl
  · rfl
  · intro ino s hs
    cases hs
  · exact List.nodup_nil
  · intro ino
    exact Nat.zero_le _

theorem snapshot (h : Retains maxPerFile past m) (hcap : 1 ≤ maxPerFile)
    (hlt : past.length + 1 < 2 ^ 32) {data : List UInt8} (hne : data ≠ []) (ino : UInt64)
    (name : String) (dataOffset timestamp : UInt64) :
  Retains maxPerFile (past ++ [Snapshot.new m.nextId ino name data dataOffset timestamp])
    (m.snapshot ino name data dataOffset timestamp)
  := by
  have hpos : 0 < m.maxPerFile := h.cap.symm ▸ hcap
  have hsub := m.remaining_sublist ino
  constructor
  · rw [maxPerFile_snapshot, h.cap]
  · rw [List.map_append, h.ids, List.length_append, List.length_singleton, List.range'_1_concat,
      List.map_append, Nat.add_comm 1, List.map_singleton, List.map_singleton, ← h.nextId]
    rfl
  · rw [snapshot_eq hpos hne, List.length_append, List.length_singleton]
    dsimp only
    rw [h.nextId]
    apply UInt32.toNat_inj.mp
    simp
  · intro ino' s hs
    rw [list_snapshot hpos hne] at hs
    split at hs
    · next heq =>
      subst heq
      obtain hs | hs := List.mem_append.mp hs
      · obtain ⟨hmem, hino⟩ := h.mem ino' s (hsub.subset hs)
        exact ⟨List.mem_append_left _ hmem, hino⟩
      · obtain rfl := List.mem_singleton.mp hs
        exact ⟨List.mem_append_right _ hs, rfl⟩
    · obtain ⟨hmem, hino⟩ := h.mem ino' s hs
      exact ⟨List.mem_append_left _ hmem, hino⟩
  · have hperm := all_perm_of_insert (m := m)
      (congrArg SnapshotManager.snapshots (snapshot_eq hpos hne ino name dataOffset timestamp))
    rw [(hperm.map Snapshot.id).nodup_iff]
    have hkept : (m.remaining ino ++ m.others ino).Sublist (m.list ino ++ m.others ino) :=
      hsub.append_right _
    have hnodup := ((m.all_perm ino).map Snapshot.id).nodup_iff.mp h.nodup
    rw [List.append_assoc, List.singleton_append, (List.perm_middle.map Snapshot.id).nodup_iff,
      List.map_cons, List.nodup_cons]
    use ?_, (hkept.map _).nodup hnodup
    intro hmem
    apply h.nextId_notMem hlt
    obtain ⟨s, hs, hid⟩ := List.mem_map.mp hmem
    obtain ⟨ino', hs'⟩ := mem_all.mp ((m.all_perm ino).mem_iff.mpr (hkept.subset hs))
    exact List.mem_map.mpr ⟨s, (h.mem ino' s hs').1, hid⟩
  · intro ino'
    rw [list_snapshot hpos hne]
    split
    · rw [List.length_append]
      have hlt := length_remaining_lt hpos ((h.few ino).trans_eq h.cap.symm)
      rw [h.cap] at hlt
      exact hlt
    · exact h.few ino'

/-- Retaining less keeps the invariant. -/
theorem less (h : Retains maxPerFile past m) {m' : SnapshotManager}
    (hcap : m'.maxPerFile = m.maxPerFile) (hnext : m'.nextId = m.nextId)
    (hmem : ∀ ino, ∀ s ∈ m'.list ino, s ∈ m.list ino)
    (hlength : ∀ ino, (m'.list ino).length ≤ (m.list ino).length)
    (hall : ∃ dropped, m.all.Perm (dropped ++ m'.all)) :
  Retains maxPerFile past m'
  := by
  obtain ⟨dropped, hperm⟩ := hall
  constructor
  · rw [hcap, h.cap]
  · exact h.ids
  · rw [hnext, h.nextId]
  · intro ino s hs
    exact h.mem ino s (hmem ino s hs)
  · have hnodup := (hperm.map Snapshot.id).nodup_iff.mp h.nodup
    rw [List.map_append] at hnodup
    exact hnodup.of_append_right
  · intro ino
    exact (hlength ino).trans (h.few ino)

theorem removeFile (h : Retains maxPerFile past m) (ino : UInt64) :
  Retains maxPerFile past (m.removeFile ino)
  := by
  refine h.less rfl rfl ?_ ?_ ?_
  · intro ino' s hs
    rw [list_removeFile] at hs
    split at hs
    · cases hs
    · exact hs
  · intro ino'
    rw [list_removeFile]
    split
    · exact Nat.zero_le _
    · exact Nat.le_refl _
  · exact ⟨m.list ino, m.all_perm ino⟩

theorem gcKeepPerFile (h : Retains maxPerFile past m) (order : Arrangement UInt64)
    (keep : ℕ) :
  Retains maxPerFile past (m.gcKeepPerFile order keep).2
  := by
  refine h.less rfl rfl ?_ ?_ ?_
  · intro ino s hs
    rw [list_gc] at hs
    exact mem_of_mem_kept hs
  · intro ino
    rw [list_gc]
    exact length_kept_le keep _
  · exact ⟨m.droppedAll order keep, m.all_perm_gc order keep⟩

/-- One call keeps the invariant. -/
theorem call (h : Retains maxPerFile past m) (hcap : 1 ≤ maxPerFile)
    (hlt : past.length + 1 < 2 ^ 32) (c : SnapshotCall) :
  Retains maxPerFile (past ++ (taken (m.nextId, c)).toList) (m.call c)
  := by
  cases c with
  | snapshot ino name data dataOffset timestamp =>
      rw [SnapshotManager.call, taken]
      by_cases hne : data = []
      · subst hne
        rw [snapshot_nil, if_pos rfl, Option.toList_none, List.append_nil]
        exact h
      · rw [if_neg hne]
        exact h.snapshot hcap hlt hne ino name dataOffset timestamp
  | removeFile ino =>
      rw [taken, Option.toList_none, List.append_nil]
      exact h.removeFile ino
  | gcKeepPerFile order keep =>
      rw [taken, Option.toList_none, List.append_nil]
      exact h.gcKeepPerFile order keep
      
end Retains

/-- A run whose ids do not come round retains some of what it took. -/
theorem retains_calls {maxPerFile : ℕ} (hcap : 1 ≤ maxPerFile) {cs : List SnapshotCall}
    (hlt : cs.length < 2 ^ 32) :
  Retains maxPerFile (takenBy maxPerFile cs) ((new maxPerFile).calls cs)
  := by
  induction cs using List.reverseRecOn with
  | nil => exact Retains.new maxPerFile
  | append_singleton cs c ih =>
      rw [List.length_append, List.length_singleton] at hlt
      have hle := length_takenBy_le maxPerFile cs
      rw [takenBy_concat, calls_concat]
      apply (ih (by omega)).call hcap (by omega)

/-! ### The end of what was taken -/

/-- What stays of the end of a list, and one more snapshot. -/
theorem remaining_append {m : SnapshotManager} {ino : UInt64} {l : List Snapshot}
    {maxPerFile : ℕ} (hcap : 1 ≤ maxPerFile) (hmax : m.maxPerFile = maxPerFile)
    (h : m.list ino = l.rtake maxPerFile) (s : Snapshot) :
  m.remaining ino ++ [s] = (l ++ [s]).rtake maxPerFile
  := by
  obtain ⟨n, rfl⟩ := Nat.exists_eq_add_of_le' hcap
  rw [remaining, h, hmax, List.rtake_concat_succ, List.rtake, List.rtake, List.length_drop]
  split
  · rw [List.tail_drop]
    congr 2
    omega
  · congr 2
    omega

theorem takenSince_snapshot {maxPerFile : ℕ} (cs : List SnapshotCall) (ino' : UInt64)
    (name : String) (data : List UInt8) (dataOffset timestamp : UInt64) (ino : UInt64) :
  takenSince maxPerFile (cs ++ [.snapshot ino' name data dataOffset timestamp]) ino
    = takenSince maxPerFile cs ino ++
      if data ≠ [] ∧ ino' = ino then
        [Snapshot.new ((new maxPerFile).calls cs).nextId ino name data dataOffset timestamp]
      else []
  := by
  rw [takenSince, history_concat, List.rtakeWhile_concat_pos _ _ _ rfl, List.filterMap_append,
    List.filter_append, ← takenSince]
  congr 1
  by_cases hne : data = []
  · have htaken : taken (((new maxPerFile).calls cs).nextId,
        .snapshot ino' name data dataOffset timestamp) = none := if_pos hne
    rw [if_neg fun h => h.1 hne, List.filterMap_cons_none htaken]
    rfl
  · have htaken : taken (((new maxPerFile).calls cs).nextId,
        .snapshot ino' name data dataOffset timestamp)
        = some (Snapshot.new ((new maxPerFile).calls cs).nextId ino' name data dataOffset
          timestamp) := if_neg hne
    rw [List.filterMap_cons_some htaken]
    by_cases hino : ino' = ino
    · subst hino
      rw [if_pos ⟨hne, rfl⟩]
      exact List.filter_cons_of_pos (decide_eq_true rfl)
    · rw [if_neg fun h => hino h.2]
      exact List.filter_cons_of_neg (mt of_decide_eq_true hino)

theorem takenSince_removeFile {maxPerFile : ℕ} (cs : List SnapshotCall) (ino' ino : UInt64) :
  takenSince maxPerFile (cs ++ [.removeFile ino']) ino
    = if ino' = ino then [] else takenSince maxPerFile cs ino
  := by
  rw [takenSince, history_concat]
  split
  · next hino =>
    rw [List.rtakeWhile_concat_neg]
    · rfl
    · simpa [removes] using hino
  · next hino =>
    rw [List.rtakeWhile_concat_pos, List.filterMap_append, List.filter_append, ← takenSince]
    · exact List.append_nil _
    · simpa [removes] using hino

/-- Without collections, a file retains the end of what was taken of it since its snapshots
were last dropped. -/
theorem list_calls {maxPerFile : ℕ} (hcap : 1 ≤ maxPerFile) {cs : List SnapshotCall}
    (hlt : cs.length < 2 ^ 32) (hgc : ∀ c ∈ cs, c.isGc = false) (ino : UInt64) :
  ((new maxPerFile).calls cs).list ino = (takenSince maxPerFile cs ino).rtake maxPerFile
  := by
  induction cs using List.reverseRecOn with
  | nil => exact (List.rtake_nil _).symm
  | append_singleton cs c ih =>
      rw [List.length_append, List.length_singleton] at hlt
      have hcs : cs.length < 2 ^ 32 := by omega
      have hmax := (retains_calls hcap hcs).cap
      have hlist := ih hcs fun c hc => hgc c (List.mem_append_left _ hc)
      rw [calls_concat]
      cases c with
      | snapshot ino' name data dataOffset timestamp =>
          rw [takenSince_snapshot, SnapshotManager.call]
          by_cases hne : data = []
          · rw [if_neg fun h => h.1 hne, List.append_nil, hne, snapshot_nil, hlist]
          · rw [list_snapshot (hmax.symm ▸ hcap) hne]
            by_cases hino : ino = ino'
            · subst hino
              rw [if_pos rfl, if_pos ⟨hne, rfl⟩, remaining_append hcap hmax hlist]
            · rw [if_neg hino, if_neg fun h => hino h.2.symm, List.append_nil, hlist]
      | removeFile ino' =>
          rw [takenSince_removeFile, SnapshotManager.call, list_removeFile]
          by_cases hino : ino = ino'
          · rw [if_pos hino, if_pos hino.symm, List.rtake_nil]
          · rw [if_neg hino, if_neg (Ne.symm hino), hlist]
      | gcKeepPerFile order keep =>
          cases hgc (.gcKeepPerFile order keep) (List.mem_append_right _ List.mem_cons_self)

/-! ### What can be restored -/

/-- Restoring a snapshot that is retained gives its contents. -/
theorem Retains.restore {maxPerFile : ℕ} {past : List Snapshot} {m : SnapshotManager}
    (h : Retains maxPerFile past m) (hlt : past.length < 2 ^ 32) {s : Snapshot} (hs : s ∈ past)
    (hkept : ∃ k ∈ m.list s.ino, k.id = s.id) :
  m.restore s.ino s.id = some s.data
  := by
  obtain ⟨k, hk, hid⟩ := hkept
  have hfound : ((m.list s.ino).find? (·.id = s.id)).isSome := by
    rw [List.find?_isSome]
    exact ⟨k, hk, decide_eq_true hid⟩
  obtain ⟨k', hk'⟩ := Option.isSome_iff_exists.mp hfound
  have hid' : k'.id = s.id := by simpa using List.find?_some hk'
  have heq : k' = s :=
    List.inj_on_of_nodup_map (h.nodup_ids hlt)
      (h.mem _ k' (List.mem_of_find?_eq_some hk')).1 hs hid'
  rw [SnapshotManager.restore, get_eq, hk', heq]
  rfl

/-- The bookkeeping of a run: `m` retains some of the snapshots that the run took. -/
structure Bookkeeping (maxPerFile : ℕ) (cs : List SnapshotCall) (m : SnapshotManager) :
    Prop where
  /-- The ids of the snapshots of all files are different. -/
  distinct : (m.all.map Snapshot.id).Nodup
  few : ∀ ino, (m.list ino).length ≤ maxPerFile
  /-- What is retained was taken, under the id it has. -/
  taken : ∀ ino, ∀ s ∈ m.list ino, s ∈ takenBy maxPerFile cs ∧ s.ino = ino
  /-- The bytes that a call took under an id are what is restored while the id is retained. -/
  restored : ∀ s ∈ takenBy maxPerFile cs, (∃ k ∈ m.list s.ino, k.id = s.id) →
    m.restore s.ino s.id = some s.data
  last : (∀ c ∈ cs, c.isGc = false) → ∀ ino,
    m.list ino = (takenSince maxPerFile cs ino).rtake maxPerFile

/-- Every run with fewer calls than there are ids keeps its books. -/
theorem calls_bookkeeping {maxPerFile : ℕ} (hcap : 1 ≤ maxPerFile) {cs : List SnapshotCall}
    (hlt : cs.length < 2 ^ 32) :
  Bookkeeping maxPerFile cs ((new maxPerFile).calls cs)
  := by
  have h := retains_calls hcap hlt
  constructor
  · exact h.nodup
  · exact h.few
  · exact h.mem
  · intro s hs
    exact h.restore ((length_takenBy_le maxPerFile cs).trans_lt hlt) hs
  · exact list_calls hcap hlt

/-- Two files in turn, of which one is dropped and taken again, with room for one snapshot. -/
theorem calls_bookkeeping_two_files :
  Bookkeeping 1
    [.snapshot 2 "a" [1] 0 0, .snapshot 3 "b" [2] 0 0, .removeFile 2, .snapshot 2 "a" [] 0 0,
      .snapshot 2 "a" [3] 0 0, .snapshot 2 "a" [4] 0 0, .gcKeepPerFile .id 1]
    ((new 1).calls
      [.snapshot 2 "a" [1] 0 0, .snapshot 3 "b" [2] 0 0, .removeFile 2, .snapshot 2 "a" [] 0 0,
        .snapshot 2 "a" [3] 0 0, .snapshot 2 "a" [4] 0 0, .gcKeepPerFile .id 1])
  := calls_bookkeeping (Nat.le_refl 1) (by decide)

end SnapshotManager

end Vexfs
