import Mathlib.Data.List.ModifyLast
import Vexfs.Collections.FiniteMap
import Vexfs.Collections.Keys

/-!
# Snapshots in memory

The snapshots of a file are a list, oldest first, of at most `maxPerFile`.  A snapshot
remembers the slot of the snapshot table it was written to.
-/

namespace Vexfs

structure Snapshot where
  id : UInt32
  ino : UInt64
  name : String
  size : UInt64
  dataOffset : UInt64
  timestamp : UInt64
  data : List UInt8
  /-- The slot of the snapshot table it is in. -/
  diskSlot : ℕ
deriving DecidableEq, Repr

/-- The slot of a snapshot that is not written to disk: the largest number. -/
def unwrittenSlot : ℕ := 2 ^ 64 - 1

namespace Snapshot

def new (id : UInt32) (ino : UInt64) (name : String) (data : List UInt8)
    (dataOffset timestamp : UInt64) : Snapshot where
  id
  ino
  name
  size := UInt64.ofNat data.length
  dataOffset
  timestamp
  data
  diskSlot := unwrittenSlot

end Snapshot

structure SnapshotManager where
  snapshots : FiniteMap UInt64 (List Snapshot)
  nextId : UInt32
  maxPerFile : ℕ

namespace SnapshotManager

def new (maxPerFile : ℕ) : SnapshotManager where
  snapshots := .empty
  nextId := 1
  maxPerFile

/-- The snapshots of a file. -/
def list (m : SnapshotManager) (ino : UInt64) : List Snapshot :=
  (m.snapshots.get ino).getD []

/-- Take a snapshot of a file, unless it is empty.  The oldest one is dropped when there are
too many. -/
def snapshot (m : SnapshotManager) (ino : UInt64) (name : String) (data : List UInt8)
    (dataOffset timestamp : UInt64) : SnapshotManager :=
  if data = [] then m
  else
    let snap := Snapshot.new m.nextId ino name data dataOffset timestamp
    let list := m.list ino ++ [snap]
    let list := if m.maxPerFile < list.length then list.tail else list
    { m with snapshots := m.snapshots.insert ino list, nextId := m.nextId + 1 }

/-- The snapshot of a file with an id. -/
def get (m : SnapshotManager) (ino : UInt64) (version : UInt32) : Option Snapshot :=
  (m.snapshots.get ino).bind fun snaps => snaps.find? (·.id = version)

/-- The contents of the snapshot of a file with an id. -/
def restore (m : SnapshotManager) (ino : UInt64) (version : UInt32) : Option (List UInt8) :=
  (m.get ino version).map Snapshot.data

/-- Drop the snapshots of a file. -/
def removeFile (m : SnapshotManager) (ino : UInt64) : SnapshotManager :=
  { m with snapshots := m.snapshots.erase ino }

/-- The id of the last snapshot of a file. -/
def lastId (m : SnapshotManager) (ino : UInt64) : UInt32 :=
  ((m.list ino).getLast?.map Snapshot.id).getD 1

/-- Record the slot the last snapshot of a file was written to. -/
def setLastSlot (m : SnapshotManager) (ino : UInt64) (slot : ℕ) : SnapshotManager :=
  { m with snapshots := m.snapshots.modify ino fun list =>
      list.modifyLast fun snap => { snap with diskSlot := slot } }

def totalSnapshots (m : SnapshotManager) : ℕ :=
  (m.snapshots.entries.map fun e => e.2.length).sum

/-- The snapshots of a list from the oldest on. -/
def oldestFirst (list : List Snapshot) : List Snapshot :=
  list.mergeSort fun a b => a.timestamp ≤ b.timestamp

/-- The snapshots that are dropped when `keep` are kept. -/
def dropped (keep : ℕ) (list : List Snapshot) : List Snapshot :=
  if list.length ≤ keep then [] else (oldestFirst list).take (list.length - keep)

/-- The snapshots that are left when `keep` are kept. -/
def kept (keep : ℕ) (list : List Snapshot) : List Snapshot :=
  if list.length ≤ keep then list else (oldestFirst list).drop (list.length - keep)

/-- What is to be freed for a snapshot that is dropped: its slot and its extent, if it was
written to disk. -/
def freedOf (snap : Snapshot) : Option (ℕ × UInt64 × UInt64) :=
  if snap.diskSlot ≠ unwrittenSlot then some (snap.diskSlot, snap.dataOffset, snap.size)
  else none

/-- Keep the `keep` newest snapshots of each file, and return what is to be freed. -/
def gcKeepPerFile (m : SnapshotManager) (order : Arrangement UInt64) (keep : ℕ) :
    List (ℕ × UInt64 × UInt64) × SnapshotManager :=
  let freed := (order.arrange m.snapshots.keys).flatMap fun ino =>
    (dropped keep (m.list ino)).filterMap freedOf
  (freed, { m with snapshots := m.snapshots.map (kept keep) })

/-! ### All snapshots -/

/-- The snapshots of all files. -/
def all (m : SnapshotManager) : List Snapshot := m.snapshots.entries.flatMap Prod.snd

/-- The snapshots of the files other than one. -/
def others (m : SnapshotManager) (ino : UInt64) : List Snapshot :=
  (m.snapshots.erase ino).entries.flatMap Prod.snd

/-- The snapshots, those of one file first. -/
theorem all_perm (m : SnapshotManager) (ino : UInt64) :
  m.all.Perm (m.list ino ++ m.others ino)
  := by
  rw [all, list, others]
  cases hget : m.snapshots.get ino with
  | none => exact (FiniteMap.entries_erase_of_none hget).flatMap_right _
  | some l => exact (FiniteMap.entries_perm hget).flatMap_right _

/-- The other files keep their snapshots. -/
theorem others_perm {m m' : SnapshotManager} {ino : UInt64}
    (h : ∀ ino' ≠ ino, m'.snapshots.get ino' = m.snapshots.get ino') :
  (m'.others ino).Perm (m.others ino)
  := by
  apply List.Perm.flatMap_right
  apply (List.perm_ext_iff_of_nodup (FiniteMap.nodup_entries _) (FiniteMap.nodup_entries _)).mpr
  rintro ⟨ino', l⟩
  rw [FiniteMap.mem_entries, FiniteMap.mem_entries, FiniteMap.get_erase, FiniteMap.get_erase]
  split
  · exact Iff.rfl
  · next hne => rw [h ino' hne]

/-! #### Taking a snapshot -/

/-- The snapshots of a file that stay when one more is taken. -/
def remaining (m : SnapshotManager) (ino : UInt64) : List Snapshot :=
  if m.maxPerFile ≤ (m.list ino).length then (m.list ino).tail else m.list ino

theorem snapshot_nil (m : SnapshotManager) (ino : UInt64) (name : String)
    (dataOffset timestamp : UInt64) :
  m.snapshot ino name [] dataOffset timestamp = m
  := if_pos rfl

/-- Taking a snapshot of some contents adds it behind those that stay. -/
theorem snapshot_eq {m : SnapshotManager} {data : List UInt8} (hcap : 0 < m.maxPerFile)
    (hne : data ≠ []) (ino : UInt64) (name : String) (dataOffset timestamp : UInt64) :
  m.snapshot ino name data dataOffset timestamp = { m with
    snapshots := m.snapshots.insert ino (m.remaining ino
      ++ [Snapshot.new m.nextId ino name data dataOffset timestamp])
    nextId := m.nextId + 1 }
  := by
  rw [snapshot, if_neg hne, remaining]
  dsimp only
  let snap := Snapshot.new m.nextId ino name data dataOffset timestamp
  have hlt : m.maxPerFile < (m.list ino ++ [snap]).length
      ↔ m.maxPerFile ≤ (m.list ino).length := by
    rw [List.length_append]
    exact Nat.lt_succ_iff
  by_cases hfull : m.maxPerFile ≤ (m.list ino).length
  · have hsome : m.list ino ≠ [] := List.ne_nil_of_length_pos (hcap.trans_le hfull)
    rw [if_pos hfull, if_pos (hlt.mpr hfull), List.tail_append_of_ne_nil hsome]
  · rw [if_neg hfull, if_neg fun h => hfull (hlt.mp h)]

theorem maxPerFile_snapshot (m : SnapshotManager) (ino : UInt64) (name : String)
    (data : List UInt8) (dataOffset timestamp : UInt64) :
  (m.snapshot ino name data dataOffset timestamp).maxPerFile = m.maxPerFile
  := by
  unfold snapshot
  split <;> rfl

/-- The last snapshot of a file gets a slot. -/
theorem setLastSlot_eq {m : SnapshotManager} {ino : UInt64} {l : List Snapshot}
    {snap : Snapshot} (h : m.snapshots.get ino = some (l ++ [snap])) (slot : ℕ) :
  m.setLastSlot ino slot = { m with
    snapshots := m.snapshots.insert ino (l ++ [{ snap with diskSlot := slot }]) }
  := by
  rw [setLastSlot, FiniteMap.modify, h]
  dsimp only
  rw [List.modifyLast_concat]

/-- The snapshots after those of one file were replaced. -/
theorem all_perm_of_insert {m m' : SnapshotManager} {ino : UInt64} {l : List Snapshot}
    (h : m'.snapshots = m.snapshots.insert ino l) :
  m'.all.Perm (l ++ m.others ino)
  := by
  have hlist : m'.list ino = l := by rw [list, h, FiniteMap.get_insert_self, Option.getD_some]
  have hall := m'.all_perm ino
  rw [hlist] at hall
  apply hall.trans
  apply List.Perm.append_left
  apply others_perm
  intro ino' hne
  rw [h, FiniteMap.get_insert_of_ne _ hne]

/-! #### Collecting snapshots -/

/-- A list is made of the snapshots that are dropped and those that are kept. -/
theorem perm_dropped_kept (keep : ℕ) (list : List Snapshot) :
  list.Perm (dropped keep list ++ kept keep list)
  := by
  unfold dropped kept
  split
  · exact .refl _
  · rw [List.take_append_drop]
    exact (List.mergeSort_perm _ _).symm

/-- What a collection drops, in the order of the files. -/
def droppedAll (m : SnapshotManager) (order : Arrangement UInt64) (keep : ℕ) :
    List Snapshot :=
  (order.arrange m.snapshots.keys).flatMap fun ino => dropped keep (m.list ino)

theorem fst_gcKeepPerFile (m : SnapshotManager) (order : Arrangement UInt64) (keep : ℕ) :
  (m.gcKeepPerFile order keep).1 = (m.droppedAll order keep).filterMap freedOf
  := by
  rw [gcKeepPerFile, droppedAll, List.filterMap_flatMap]

/-- The snapshots are those a collection drops and those it keeps. -/
theorem all_perm_gc (m : SnapshotManager) (order : Arrangement UInt64) (keep : ℕ) :
  m.all.Perm (m.droppedAll order keep ++ (m.gcKeepPerFile order keep).2.all)
  := by
  have hdropped : (m.droppedAll order keep).Perm
      (m.snapshots.entries.flatMap fun e => dropped keep e.2) := by
    rw [droppedAll]
    apply ((order.perm _).flatMap_right _).trans
    rw [FiniteMap.keys, List.flatMap_map]
    apply List.Perm.of_eq
    apply List.flatMap_congr
    intro e he
    rw [list, FiniteMap.mem_entries.mp he, Option.getD_some]
  have hkept : (m.gcKeepPerFile order keep).2.all
      = m.snapshots.entries.flatMap fun e => kept keep e.2 := by
    rw [all, gcKeepPerFile, FiniteMap.map, List.flatMap_map]
  rw [hkept]
  apply List.Perm.trans _ (hdropped.symm.append_right _)
  apply List.Perm.trans _ (List.flatMap_append_perm _ _ _).symm
  rw [all]
  exact List.Perm.flatMap_left _ fun e _ => perm_dropped_kept keep e.2

/-- The snapshots of a file that a collection leaves. -/
theorem list_gc (m : SnapshotManager) (order : Arrangement UInt64) (keep : ℕ) (ino : UInt64) :
  (m.gcKeepPerFile order keep).2.list ino = kept keep (m.list ino)
  := by
  rw [list, gcKeepPerFile, FiniteMap.get_map, list]
  cases m.snapshots.get ino with
  | none => exact (if_pos (Nat.zero_le keep)).symm
  | some l => rfl

/-- Of a list with too many snapshots, as many are kept as there should be. -/
theorem length_kept {keep : ℕ} {list : List Snapshot} (h : keep < list.length) :
  (kept keep list).length = keep
  := by
  rw [kept, if_neg (Nat.not_le.mpr h), List.length_drop, oldestFirst, List.length_mergeSort]
  exact Nat.sub_sub_self h.le

/-- The snapshots of a list come in the order of their times. -/
theorem pairwise_oldestFirst (list : List Snapshot) :
  (oldestFirst list).Pairwise fun r k => r.timestamp ≤ k.timestamp
  := SortedMap.pairwise_mergeSort _ fun _ _ => decide_eq_true_iff

/-- What is dropped of a list is not newer than what is kept. -/
theorem dropped_le_kept {keep : ℕ} {list : List Snapshot} {r k : Snapshot}
    (hr : r ∈ dropped keep list) (hk : k ∈ kept keep list) :
  r.timestamp ≤ k.timestamp
  := by
  unfold dropped at hr
  unfold kept at hk
  split at hr
  · cases hr
  · next hmany =>
    rw [if_neg hmany] at hk
    have hsorted := pairwise_oldestFirst list
    rw [← List.take_append_drop (list.length - keep) (oldestFirst list)] at hsorted
    exact (List.pairwise_append.mp hsorted).2.2 r hr k hk

/-- A collection that keeps `keep` snapshots of each file turns `m` into `m'`, removes the
snapshots `removed` of each file and returns `freed`. -/
structure KeepsNewest (keep : ℕ) (m m' : SnapshotManager) (removed : UInt64 → List Snapshot)
    (freed : List (ℕ × UInt64 × UInt64)) : Prop where
  files : m'.snapshots.keys = m.snapshots.keys
  few : ∀ ino, (m.list ino).length ≤ keep → m'.list ino = m.list ino
  many : ∀ ino, keep < (m.list ino).length → (m'.list ino).length = keep
  /-- A snapshot of a file is removed or stays, as it is, with the file. -/
  perm : ∀ ino, (m.list ino).Perm (removed ino ++ m'.list ino)
  newest : ∀ ino, ∀ r ∈ removed ino, ∀ k ∈ m'.list ino, r.timestamp ≤ k.timestamp
  /-- What is returned is the slot and the extent of each snapshot that was removed and had a
  slot. -/
  freed : freed.Perm (m.snapshots.keys.flatMap fun ino => (removed ino).filterMap freedOf)

/-- A collection keeps the newest snapshots of each file, in whatever order it goes through the
files. -/
theorem gc_keeps_newest (m : SnapshotManager) (order : Arrangement UInt64) (keep : ℕ) :
  KeepsNewest keep m (m.gcKeepPerFile order keep).2 (fun ino => dropped keep (m.list ino))
    (m.gcKeepPerFile order keep).1
  := by
  constructor
  · rw [gcKeepPerFile, FiniteMap.keys, FiniteMap.map, List.map_map]
    rfl
  · intro ino hfew
    rw [list_gc, kept, if_pos hfew]
  · intro ino hmany
    rw [list_gc, length_kept hmany]
  · intro ino
    rw [list_gc]
    exact perm_dropped_kept keep (m.list ino)
  · intro ino r hr k hk
    rw [list_gc] at hk
    exact dropped_le_kept hr hk
  · exact (order.perm m.snapshots.keys).flatMap_right _

end SnapshotManager

end Vexfs
