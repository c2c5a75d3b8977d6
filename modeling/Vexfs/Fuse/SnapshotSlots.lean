import Vexfs.Fuse.DiskCall
import Vexfs.Fuse.Roomy

/-!
# Snapshots and their slots

A snapshot is kept in memory and in a slot of the snapshot table.  `SlotsMatch` says that the
used slots and the snapshots with a slot correspond one to one.  Mounting gives such a state
when it takes every used record, and a session keeps it until a snapshot is taken of no
contents, or one with a slot is dropped for a newer one of its file.
-/

namespace Vexfs

open Storage DiskManager

/-! ### Tables and lists of snapshots -/

/-- The used slots of a table and the snapshots with a slot correspond one to one. -/
structure SlotsMatch (read : ℕ → DiskResult SnapshotRaw) (snaps : List Snapshot) : Prop where
  /-- A used slot is that of exactly one snapshot, whose inode and id it records. -/
  used : ∀ k record, read k = .ok record → record.isUsed ≠ 0 →
    ∃ snap, (snaps.filter fun snap => snap.diskSlot = k) = [snap]
      ∧ record.ino = snap.ino ∧ record.id = snap.id
  /-- A snapshot with a slot is recorded there. -/
  points : ∀ snap ∈ snaps, snap.diskSlot ≠ unwrittenSlot → ∃ record,
    read snap.diskSlot = .ok record ∧ record.isUsed ≠ 0 ∧ record.ino = snap.ino
      ∧ record.id = snap.id

namespace SlotsMatch

variable {read read' : ℕ → DiskResult SnapshotRaw} {snaps snaps' : List Snapshot}
  {snap : Snapshot}

/-- The order of the snapshots does not matter. -/
theorem perm (hperm : snaps.Perm snaps') (h : SlotsMatch read snaps) :
  SlotsMatch read snaps'
  := by
  constructor
  · intro k record hread hused
    obtain ⟨snap, hfilter, hrecord⟩ := h.used k record hread hused
    have hsingle := hperm.filter fun snap => decide (snap.diskSlot = k)
    rw [hfilter] at hsingle
    exact ⟨snap, (List.singleton_perm.mp hsingle).symm, hrecord⟩
  · intro snap hsnap
    exact h.points snap (hperm.mem_iff.mpr hsnap)

/-- A slot that is not used is that of no snapshot. -/
theorem slot_ne {k : ℕ} {record : SnapshotRaw} (hread : read k = .ok record)
    (hfree : record.isUsed = 0) (hk : k ≠ unwrittenSlot) (h : SlotsMatch read snaps) :
  ∀ snap ∈ snaps, snap.diskSlot ≠ k
  := by
  rintro snap hsnap rfl
  obtain ⟨record', hread', hused, -⟩ := h.points snap hsnap hk
  obtain rfl := Except.ok.inj (hread.symm.trans hread')
  exact hused hfree

/-- A new snapshot is written to a slot that was free. -/
theorem write {record record' : SnapshotRaw} (hread : read snap.diskSlot = .ok record)
    (hfree : record.isUsed = 0) (hslot : snap.diskSlot ≠ unwrittenSlot)
    (hwritten : read' snap.diskSlot = .ok record') (hused : record'.isUsed ≠ 0)
    (hino : record'.ino = snap.ino) (hid : record'.id = snap.id)
    (hothers : ∀ k ≠ snap.diskSlot, read' k = read k) (h : SlotsMatch read snaps) :
  SlotsMatch read' (snap :: snaps)
  := by
  have hne := h.slot_ne hread hfree hslot
  constructor
  · intro k r hr hru
    by_cases hk : k = snap.diskSlot
    · subst hk
      obtain rfl := Except.ok.inj (hwritten.symm.trans hr)
      refine ⟨snap, ?_, hino, hid⟩
      rw [List.filter_cons_of_pos (by simp), List.filter_eq_nil_iff.mpr]
      intro x hx
      simpa using hne x hx
    · rw [hothers k hk] at hr
      obtain ⟨x, hfilter, hrecord⟩ := h.used k r hr hru
      refine ⟨x, ?_, hrecord⟩
      rw [List.filter_cons_of_neg (by simpa using Ne.symm hk), hfilter]
  · intro x hx hxslot
    obtain rfl | hx := List.mem_cons.mp hx
    · exact ⟨record', hwritten, hused, hino, hid⟩
    · rw [hothers _ (hne x hx)]
      exact h.points x hx hxslot

/-- The slot of a snapshot that is dropped is zeroed. -/
theorem zero (hslot : snap.diskSlot ≠ unwrittenSlot)
    (hzero : ∀ record, read' snap.diskSlot = .ok record → record.isUsed = 0)
    (hothers : ∀ k ≠ snap.diskSlot, read' k = read k) (h : SlotsMatch read (snap :: snaps)) :
  SlotsMatch read' snaps
  := by
  have hne : ∀ x ∈ snaps, x.diskSlot ≠ snap.diskSlot := by
    obtain ⟨record, hread, hused, -⟩ := h.points snap List.mem_cons_self hslot
    obtain ⟨y, hfilter, -⟩ := h.used _ record hread hused
    rw [List.filter_cons_of_pos (by simp)] at hfilter
    have hnone := List.filter_eq_nil_iff.mp (List.cons.inj hfilter).2
    intro x hx
    simpa using hnone x hx
  constructor
  · intro k r hr hru
    by_cases hk : k = snap.diskSlot
    · subst hk
      exact absurd (hzero r hr) hru
    · rw [hothers k hk] at hr
      obtain ⟨x, hfilter, hrecord⟩ := h.used k r hr hru
      rw [List.filter_cons_of_neg (by simpa using Ne.symm hk)] at hfilter
      exact ⟨x, hfilter, hrecord⟩
  · intro x hx hxslot
    rw [hothers _ (hne x hx)]
    exact h.points x (List.mem_cons_of_mem _ hx) hxslot

/-- A snapshot without a slot does not matter, when slots are not read past the largest. -/
theorem cons_iff (hslot : snap.diskSlot = unwrittenSlot)
    (hlast : ∀ record, read unwrittenSlot ≠ .ok record) :
  SlotsMatch read (snap :: snaps) ↔ SlotsMatch read snaps
  := by
  have hfilter : ∀ k record, read k = .ok record →
      ((snap :: snaps).filter fun snap => decide (snap.diskSlot = k))
        = snaps.filter fun snap => decide (snap.diskSlot = k) := by
    intro k record hread
    apply List.filter_cons_of_neg
    rw [hslot, decide_eq_true_eq]
    rintro rfl
    exact hlast record hread
  constructor
  · intro h
    constructor
    · intro k record hread hused
      rw [← hfilter k record hread]
      exact h.used k record hread hused
    · exact fun x hx => h.points x (List.mem_cons_of_mem _ hx)
  · intro h
    constructor
    · intro k record hread hused
      rw [hfilter k record hread]
      exact h.used k record hread hused
    · intro x hx hxslot
      obtain rfl | hx := List.mem_cons.mp hx
      · exact absurd hslot hxslot
      · exact h.points x hx hxslot

end SlotsMatch

/-! ### The table on the disk -/

namespace DiskCall

/-- A call that changes the snapshot table. -/
def OnSnapshots : DiskCall → Prop
  | .writeSnapshot _ _ | .zeroSnapshotSlot _ => True
  | _ => False

variable [Crc32] {dm : DiskManager} {call : DiskCall}

/-- Other calls write elsewhere. -/
theorem disjoint_snapshotRange_range {k : ℕ} (hk : k < maxSnapshotSlots) (hfits : call.Fits dm)
    (hnot : ¬ call.OnSnapshots) (h : dm.InOrder) :
  Disjoint (snapshotRange k) (call.range dm)
  := by
  have hslot := disjoint_snapshotRange_slotRange h.kept.placed hk
  have hmeta := disjoint_snapshotRange_metadataRange k
  have hdata : ∀ T : Set ℕ, (∀ i ∈ T, dataOffset ≤ i) → Disjoint (snapshotRange k) T := by
    intro T hT
    rw [Set.disjoint_left]
    intro i hi hiT
    have hlt := (mem_snapshotRange hk hi).2
    have hle := hT i hiT
    have hjournal : journalOffset ≤ dataOffset := by decide
    omega
  cases call with
  | freeData offset length => exact Set.disjoint_empty _
  | store bytes diskIndex inode =>
      have hrange := ((spares_empty h.free).allocFor h.kept hfits).1
      have hbytes := hdata _ fun i hi => (hrange hi).1.1
      exact Set.disjoint_union_right.mpr ⟨Set.disjoint_union_right.mpr ⟨hbytes, hslot _⟩, hmeta⟩
  | writeInode diskIndex inode => exact hslot _
  | freeInode diskIndex => exact hslot _
  | allocInode =>
      have hblock := hdata (dataRange dm.superblock.nextDataOffset inodeBlockSize)
        fun i hi => h.kept.base_le.trans hi.1
      exact Set.disjoint_union_right.mpr ⟨hmeta, hblock⟩
  | flush => exact hmeta
  | writeSnapshot slot record => exact absurd trivial hnot
  | zeroSnapshotSlot slot => exact absurd trivial hnot

/-- The snapshot table reads as before. -/
theorem readSnapshot_run (hfits : call.Fits dm) (hnot : ¬ call.OnSnapshots) (h : dm.InOrder) :
  (call.run dm).readSnapshot = dm.readSnapshot
  := by
  funext k
  exact (changesIn_run hfits h).readSnapshot_eq h.kept.size_le
    fun hk => disjoint_snapshotRange_range hk hfits hnot h

theorem readSnapshot_runAll {calls : List DiskCall}
    (hfits : Guarded (fun dm call => call.Fits dm) dm calls)
    (hnot : ∀ call ∈ calls, ¬ call.OnSnapshots) (h : dm.InOrder) :
  (runAll dm calls).InOrder ∧ (runAll dm calls).readSnapshot = dm.readSnapshot
  := by
  induction calls generalizing dm with
  | nil => exact ⟨h, rfl⟩
  | cons call calls ih =>
      obtain ⟨hcall, hcalls⟩ := hfits
      obtain ⟨horder, hread⟩ := ih hcalls
        (fun c hc => hnot c (List.mem_cons_of_mem _ hc)) (inOrder_run hcall h)
      use horder
      exact hread.trans (readSnapshot_run hcall (hnot call List.mem_cons_self) h)

end DiskCall

/-! ### Collections -/

section Collections

variable [Crc32] {dm : DiskManager}

theorem DiskManager.readSnapshot_past (dm : DiskManager) {k : ℕ} (hk : maxSnapshotSlots ≤ k)
    (record : SnapshotRaw) :
  dm.readSnapshot k ≠ .ok record
  := by
  rw [readSnapshot, if_pos hk]
  intro h
  cases h

/-- The slot of a snapshot is zeroed, and its extent freed. -/
theorem readSnapshot_reclaim {slot : ℕ} {offset size : UInt64} (hslot : slot < maxSnapshotSlots)
    (hfits : DiskCall.Guarded (fun dm call => call.Fits dm) dm (reclaimCalls (slot, offset, size)))
    (h : dm.InOrder) :
  (DiskCall.runAll dm (reclaimCalls (slot, offset, size))).InOrder
    ∧ (∀ record, (DiskCall.runAll dm (reclaimCalls (slot, offset, size))).readSnapshot slot
      = .ok record → record.isUsed = 0)
    ∧ ∀ k ≠ slot, (DiskCall.runAll dm (reclaimCalls (slot, offset, size))).readSnapshot k
      = dm.readSnapshot k
  := by
  unfold reclaimCalls at hfits ⊢
  rw [if_neg (Nat.not_le.mpr hslot)] at hfits ⊢
  obtain ⟨hzero, hrest⟩ := hfits
  have hzeroed := DiskCall.inOrder_run hzero h
  obtain ⟨horder, hread⟩ := DiskCall.readSnapshot_runAll hrest
    (by
      split
      · intro call hcall
        obtain rfl := List.mem_singleton.mp hcall
        exact id
      · exact nofun) hzeroed
  refine ⟨horder, ?_, ?_⟩
  · intro record hrecord
    apply isUsed_of_zeroSnapshotSlot hslot
    exact (congrFun hread slot).symm.trans hrecord
  · intro k hk
    apply (congrFun hread k).trans
    exact (changesIn_zeroSnapshotSlot dm slot).readSnapshot_eq h.kept.size_le
      fun _ => disjoint_snapshotRange hk

/-- Reclaiming the snapshots that are dropped leaves a table that matches those that are
kept. -/
theorem SlotsMatch.reclaimAll {dropped kept : List Snapshot}
    (hfits : DiskCall.Guarded (fun dm call => call.Fits dm) dm
      ((dropped.filterMap SnapshotManager.freedOf).flatMap reclaimCalls))
    (h : dm.InOrder) (hmatch : SlotsMatch dm.readSnapshot (dropped ++ kept)) :
  (DiskCall.runAll dm ((dropped.filterMap SnapshotManager.freedOf).flatMap reclaimCalls)).InOrder
    ∧ SlotsMatch (DiskCall.runAll dm
      ((dropped.filterMap SnapshotManager.freedOf).flatMap reclaimCalls)).readSnapshot kept
  := by
  induction dropped generalizing dm with
  | nil => exact ⟨h, hmatch⟩
  | cons snap dropped ih =>
      by_cases hslot : snap.diskSlot = unwrittenSlot
      · have hnone : SnapshotManager.freedOf snap = none := if_neg (not_not.mpr hslot)
        rw [List.filterMap_cons_none hnone] at hfits ⊢
        apply ih hfits h
        exact (cons_iff hslot (dm.readSnapshot_past (by decide))).mp hmatch
      · have hsome : SnapshotManager.freedOf snap
            = some (snap.diskSlot, snap.dataOffset, snap.size) := if_pos hslot
        rw [List.filterMap_cons_some hsome, List.flatMap_cons, DiskCall.Guarded.append] at hfits
        rw [List.filterMap_cons_some hsome, List.flatMap_cons, DiskCall.runAll_append]
        have hlt : snap.diskSlot < maxSnapshotSlots := by
          obtain ⟨record, hread, -⟩ := hmatch.points snap List.mem_cons_self hslot
          by_contra hle
          exact dm.readSnapshot_past (Nat.not_lt.mp hle) record hread
        obtain ⟨horder, hzero, hothers⟩ := readSnapshot_reclaim hlt hfits.1 h
        exact ih hfits.2 horder (hmatch.zero hslot hzero hothers)

end Collections

/-! ### Pieces -/

namespace VexFS

variable [Crc32] [Zstd] {fs : VexFS}

/-- The snapshot table and the snapshots in memory correspond one to one. -/
def SnapshotsMatch (fs : VexFS) : Prop := SlotsMatch fs.disk.readSnapshot fs.snapshots.all

/-- A state whose disk is in order and whose snapshots have their slots. -/
structure SnapshotsKept (fs : VexFS) : Prop where
  order : fs.disk.InOrder
  cap : 0 < fs.snapshots.maxPerFile
  slots : fs.SnapshotsMatch

/-- A snapshot is taken without losing a slot: of no contents only when there is no free slot,
and otherwise when no snapshot with a slot is dropped for it. -/
def KeepsSlots (fs : VexFS) : Call → Prop
  | .takeSnapshot ino data _ _ => (data = [] → fs.disk.findFreeSnapshotSlot = none)
      ∧ (data ≠ [] → fs.snapshots.maxPerFile ≤ (fs.snapshots.list ino).length →
        ∀ snap ∈ (fs.snapshots.list ino).head?, snap.diskSlot = unwrittenSlot)
  | _ => True

/-- A piece that changes the snapshots. -/
def OnSnapshots : Call → Prop
  | .takeSnapshot _ _ _ _ | .maybeGcSnapshots _ => True
  | _ => False

theorem snapshots_persistToDisk (fs : VexFS) (p : Persistence) (ino : UInt64) (name : String)
    (data : List UInt8) (diskIndex : ℕ) :
  (fs.persistToDisk p ino name data diskIndex).snapshots = fs.snapshots
  := rfl

/-- The other pieces leave the snapshots alone. -/
theorem snapshots_run {c : Call} (hnot : ¬ OnSnapshots c) (fs : VexFS) :
  (c.run fs).snapshots = fs.snapshots
  := by
  cases c with
  | request request => rfl
  | cacheGet ino => rfl
  | cachePut ino data => rfl
  | drainEvicted => rfl
  | stage ino now =>
      rw [Call.run, stage]
      split
      · rfl
      · split
        · split <;> rfl
        · rfl
  | clean ino => rfl
  | persistBuffered p ino =>
      rw [Call.run, persistBuffered]
      split <;> rfl
  | persistCached p ino =>
      rw [Call.run, persistCached]
      split
      · rfl
      · split <;> rfl
  | persistRecovered p ino =>
      rw [Call.run, persistRecovered]
      split
      · rfl
      · split <;> rfl
  | setSize ino size => rfl
  | takeSnapshot ino data takenAt recordedAt => exact absurd trivial hnot
  | maybeGcSnapshots order => exact absurd trivial hnot
  | addEntry parent name isDir =>
      rw [Call.run, addEntry]
      split <;> rfl
  | writeNewInode ino createdAt modifiedAt =>
      rw [Call.run, writeNewInode]
      split <;> rfl
  | flushDisk => rfl
  | unlink parent name =>
      rw [Call.run, unlink]
      split
      · rfl
      · split <;> rfl
  | rmdir parent name =>
      rw [Call.run, rmdir]
      split
      · rfl
      · split <;> rfl
  | rename parent name newparent newname now =>
      rw [Call.run, rename]
      split <;> rfl

omit [Crc32] [Zstd] in
theorem not_onSnapshots_freeCalls {extent : Option (UInt64 × UInt64)} :
  ∀ call ∈ freeCalls extent, ¬ call.OnSnapshots
  := by
  intro call hcall
  obtain ⟨offset, length, -, rfl⟩ := mem_freeCalls hcall
  exact id

omit [Crc32] in
theorem not_onSnapshots_persistCalls (fs : VexFS) (p : Persistence) (ino : UInt64)
    (name : String) (data : List UInt8) (diskIndex : ℕ) :
  ∀ call ∈ fs.persistCalls p ino name data diskIndex, ¬ call.OnSnapshots
  := by
  intro call hcall
  obtain hcall | hcall := List.mem_append.mp hcall
  · exact not_onSnapshots_freeCalls call hcall
  · obtain rfl := List.mem_singleton.mp hcall
    exact id

/-- The other pieces make no calls on the snapshot table. -/
theorem not_onSnapshots_of_mem {c : Call} (hnot : ¬ OnSnapshots c) (fs : VexFS) :
  ∀ call ∈ c.diskCalls fs, ¬ call.OnSnapshots
  := by
  cases c with
  | request request => exact List.forall_mem_nil _
  | cacheGet ino => exact List.forall_mem_nil _
  | cachePut ino data => exact List.forall_mem_nil _
  | drainEvicted => exact List.forall_mem_nil _
  | stage ino now => exact List.forall_mem_nil _
  | clean ino => exact List.forall_mem_nil _
  | setSize ino size => exact List.forall_mem_nil _
  | takeSnapshot ino data takenAt recordedAt => exact absurd trivial hnot
  | maybeGcSnapshots order => exact absurd trivial hnot
  | persistBuffered p ino =>
      rw [Call.diskCalls]
      split
      · exact List.forall_mem_nil _
      · exact not_onSnapshots_persistCalls fs _ _ _ _ _
  | persistCached p ino =>
      rw [Call.diskCalls]
      split
      · exact not_onSnapshots_persistCalls fs _ _ _ _ _
      · exact List.forall_mem_nil _
  | persistRecovered p ino =>
      rw [Call.diskCalls]
      split
      · exact List.forall_mem_nil _
      · split
        · exact List.forall_mem_nil _
        · exact not_onSnapshots_persistCalls fs _ _ _ _ _
  | addEntry parent name isDir => simp [Call.diskCalls, DiskCall.OnSnapshots]
  | writeNewInode ino createdAt modifiedAt =>
      rw [Call.diskCalls]
      split <;> simp [DiskCall.OnSnapshots]
  | flushDisk => simp [Call.diskCalls, DiskCall.OnSnapshots]
  | unlink parent name =>
      rw [Call.diskCalls]
      split
      · exact List.forall_mem_nil _
      · intro call hcall
        obtain hcall | hcall := List.mem_append.mp hcall
        · exact not_onSnapshots_freeCalls call hcall
        · obtain rfl := List.mem_singleton.mp hcall
          exact id
  | rmdir parent name =>
      rw [Call.diskCalls]
      split <;> simp [DiskCall.OnSnapshots]
  | rename parent name newparent newname now =>
      rw [Call.diskCalls]
      split
      · exact List.forall_mem_nil _
      · split <;> simp [DiskCall.OnSnapshots]

omit [Zstd] in
/-- A slot that is found for a snapshot is free. -/
theorem free_of_findFreeSnapshotSlot {dm : DiskManager} {slot : ℕ}
    (h : dm.findFreeSnapshotSlot = some slot) :
  slot < maxSnapshotSlots ∧ ∃ record, dm.readSnapshot slot = .ok record ∧ record.isUsed = 0
  := by
  use List.mem_range.mp (List.mem_of_find?_eq_some h)
  have hfree := List.find?_some h
  split at hfree
  · next record hread => exact ⟨record, hread, eq_of_beq hfree⟩
  · cases hfree

omit [Zstd] in
/-- The snapshots that stay when one more is taken have their slots. -/
theorem SnapshotsMatch.remaining {ino : UInt64}
    (hfull : fs.snapshots.maxPerFile ≤ (fs.snapshots.list ino).length →
      ∀ snap ∈ (fs.snapshots.list ino).head?, snap.diskSlot = unwrittenSlot)
    (h : fs.SnapshotsMatch) :
  SlotsMatch fs.disk.readSnapshot (fs.snapshots.remaining ino ++ fs.snapshots.others ino)
  := by
  have hall := SlotsMatch.perm (fs.snapshots.all_perm ino) h
  unfold SnapshotManager.remaining
  split
  · next hle =>
    cases hlist : fs.snapshots.list ino with
    | nil =>
        rw [hlist] at hall
        exact hall
    | cons x l =>
        have hslot := hfull hle x (by rw [hlist]; rfl)
        rw [hlist] at hall
        exact (SlotsMatch.cons_iff hslot (fs.disk.readSnapshot_past (by decide))).mp hall
  · exact hall

omit [Zstd] in
theorem SnapshotsMatch.takeSnapshot {ino : UInt64} {data : List UInt8}
    {takenAt recordedAt : UInt64} (hcap : 0 < fs.snapshots.maxPerFile)
    (hgood : fs.KeepsSlots (.takeSnapshot ino data takenAt recordedAt))
    (hsize : dataOffset ≤ fs.disk.image.size) (h : fs.SnapshotsMatch) :
  (fs.takeSnapshot ino data takenAt recordedAt).SnapshotsMatch
  := by
  unfold VexFS.takeSnapshot
  cases fs.files.get ino with
  | none => exact h
  | some f =>
  dsimp only
  by_cases hnil : data = []
  · subst hnil
    rw [SnapshotManager.snapshot_nil, hgood.1 rfl]
    exact h
  let snap := Snapshot.new fs.snapshots.nextId ino f.name data f.dataOffset takenAt
  let taken := fs.snapshots.snapshot ino f.name data f.dataOffset takenAt
  have htaken : taken = _ := SnapshotManager.snapshot_eq hcap hnil ino f.name f.dataOffset takenAt
  have hget : taken.snapshots.get ino = some (fs.snapshots.remaining ino ++ [snap]) := by
    rw [htaken]
    exact FiniteMap.get_insert_self _ _ _
  have hrest := h.remaining (hgood.2 hnil)
  cases hslot : fs.disk.findFreeSnapshotSlot with
  | none =>
      have hperm : taken.all.Perm
          (snap :: (fs.snapshots.remaining ino ++ fs.snapshots.others ino)) := by
        apply (SnapshotManager.all_perm_of_insert (congrArg _ htaken)).trans
        rw [List.append_assoc]
        exact List.perm_middle
      apply SlotsMatch.perm hperm.symm
      exact (SlotsMatch.cons_iff rfl (fs.disk.readSnapshot_past (by decide))).mpr hrest
  | some slot =>
      obtain ⟨hlt, record, hread, hfree⟩ := free_of_findFreeSnapshotSlot hslot
      have hlast : taken.lastId ino = snap.id := by
        rw [SnapshotManager.lastId, SnapshotManager.list, hget, Option.getD_some,
          List.getLast?_concat]
        rfl
      have hset := SnapshotManager.setLastSlot_eq hget slot
      have hperm : (taken.setLastSlot ino slot).all.Perm ({ snap with diskSlot := slot }
          :: (fs.snapshots.remaining ino ++ fs.snapshots.others ino)) := by
        apply (SnapshotManager.all_perm_of_insert (congrArg _ hset)).trans
        rw [List.append_assoc]
        apply List.perm_middle.trans
        apply List.Perm.cons
        apply List.Perm.append_left
        apply SnapshotManager.others_perm
        intro ino' hne
        rw [htaken]
        exact FiniteMap.get_insert_of_ne _ hne _
      apply SlotsMatch.perm hperm.symm
      apply SlotsMatch.write hread hfree _ (readSnapshot_writeSnapshot hlt _) _ rfl hlast _ hrest
      · show slot ≠ unwrittenSlot
        have hslots : maxSnapshotSlots < unwrittenSlot := by decide
        omega
      · show (1 : UInt8) ≠ 0
        decide
      · intro k hk
        exact (changesIn_writeSnapshot fs.disk slot _).readSnapshot_eq hsize
          fun _ => disjoint_snapshotRange hk

/-- A collection reclaims the slots of the snapshots it drops. -/
theorem SnapshotsMatch.maybeGcSnapshots {order : Arrangement UInt64}
    (hfits : DiskCall.Guarded (fun dm call => call.Fits dm) fs.disk
      ((Call.maybeGcSnapshots order).diskCalls fs))
    (horder : fs.disk.InOrder) (h : fs.SnapshotsMatch) :
  (fs.maybeGcSnapshots order).SnapshotsMatch
  := by
  rw [SnapshotsMatch, disk_maybeGcSnapshots]
  rw [Call.diskCalls, collected] at hfits ⊢
  unfold VexFS.maybeGcSnapshots
  split
  · exact h
  · next hmany =>
    rw [if_neg hmany, SnapshotManager.fst_gcKeepPerFile] at hfits
    rw [SnapshotManager.fst_gcKeepPerFile]
    have hall := SlotsMatch.perm (fs.snapshots.all_perm_gc order snapshotGcKeep) h
    exact (SlotsMatch.reclaimAll hfits horder hall).2

/-- A piece whose calls fit, and that loses no slot. -/
def GoodSnapshots (fs : VexFS) (c : Call) : Prop :=
  DiskCall.Guarded (fun dm call => call.Fits dm) fs.disk (c.diskCalls fs) ∧ fs.KeepsSlots c

theorem maxPerFile_run (fs : VexFS) (c : Call) :
  (c.run fs).snapshots.maxPerFile = fs.snapshots.maxPerFile
  := by
  by_cases hon : OnSnapshots c
  · cases c with
    | takeSnapshot ino data takenAt recordedAt =>
        rw [Call.run, VexFS.takeSnapshot]
        split
        · rfl
        · dsimp only
          split <;> exact SnapshotManager.maxPerFile_snapshot _ _ _ _ _ _
    | maybeGcSnapshots order =>
        rw [Call.run, VexFS.maybeGcSnapshots]
        split <;> rfl
    | _ => exact hon.elim
  · rw [snapshots_run hon]

theorem SnapshotsKept.run {c : Call} (hgood : fs.GoodSnapshots c) (h : fs.SnapshotsKept) :
  (c.run fs).SnapshotsKept
  := by
  obtain ⟨hfits, hkeeps⟩ := hgood
  refine ⟨Call.inOrder_run hfits h.order, ?_, ?_⟩
  · rw [maxPerFile_run]
    exact h.cap
  · by_cases hon : OnSnapshots c
    · cases c with
      | takeSnapshot ino data takenAt recordedAt =>
          exact h.slots.takeSnapshot h.cap hkeeps h.order.kept.size_le
      | maybeGcSnapshots order => exact h.slots.maybeGcSnapshots hfits h.order
      | _ => exact hon.elim
    · have hread := (DiskCall.readSnapshot_runAll hfits (not_onSnapshots_of_mem hon fs)
        h.order).2
      rw [SnapshotsMatch, snapshots_run hon, c.disk_run, hread]
      exact h.slots

end VexFS

/-! ### Mounting -/

section Mounting

variable [Crc32]

variable [Zstd]

end Mounting

/-! ### Sessions -/

end Vexfs
