import Vexfs.Fs.Effects
import Vexfs.Fs.Fsck
import Vexfs.Fuse.VexFS

/-!
# Collecting snapshots

The command that collects snapshots works on a closed image.  It groups the slots of the
snapshot table by file, and of each file with too many snapshots it marks all but the newest
ones as unused, and frees their extents.  Nothing else on the disk changes (`snapGc_collects`).
-/

namespace Vexfs

open Bytes Storage

namespace DiskManager

/-! ### The command -/

section Command

variable [Crc32]

/-- The slots with a snapshot by the numbers of the files, after some slots and up to one that
cannot be read. -/
def snapshotsByFile (dm : DiskManager) (byFile : FiniteMap UInt64 (List ℕ)) :
    List ℕ → FiniteMap UInt64 (List ℕ)
  | [] => byFile
  | i :: is =>
      match dm.readSnapshot i with
      | .error _ => byFile
      | .ok s =>
          if s.isValid snapshotMagic then dm.snapshotsByFile (byFile.push s.ino i) is
          else dm.snapshotsByFile byFile is

/-- Some slots, from the newest snapshot on. -/
def newestFirst (dm : DiskManager) (slots : List ℕ) : DiskResult (List ℕ) := do
  let records ← slots.mapM fun slot => do return (slot, ← dm.readSnapshot slot)
  return (records.mergeSort fun a b => b.2.timestamp ≤ a.2.timestamp).map Prod.fst

/-- Mark the record in a slot as unused, and free its extent. -/
def dropSnapshot (dm : DiskManager) (slot : ℕ) : DiskManager :=
  match dm.readSnapshot slot with
  | .error _ => dm
  | .ok s => ((dm.freeData s.dataOffset s.size).writeSnapshot slot { s with isUsed := 0 }).2

/-- Keep the newest snapshots of a file. -/
def gcFile (dm : DiskManager) (keep : ℕ) (slots : List ℕ) : DiskResult DiskManager :=
  if slots.length ≤ keep then .ok dm
  else do
    let slots ← dm.newestFirst slots
    return (slots.drop keep).foldl dropSnapshot dm

/-- Keep the newest snapshots of each file, where the files are gone through in some order. -/
def snapGc (dm : DiskManager) (order : Arrangement UInt64) (keep : ℕ) : DiskResult DiskManager := do
  let byFile := dm.snapshotsByFile .empty (List.range maxSnapshotSlots)
  let dm ← (byFile.iter order).foldlM (fun dm e => dm.gcFile keep e.2) dm
  return dm.flush

end Command

end DiskManager

/-- The command that collects the snapshots of an image. -/
def cmdSnapGc [Crc32] (image : Image) (order : Arrangement UInt64) (keep : ℕ) :
    DiskResult DiskManager := do
  let dm ← DiskManager.open image
  dm.snapGc order keep

/-! ### Dropping snapshots -/

namespace DiskManager

variable [Crc32] {dm dm' : DiskManager}

/-- The record in a slot of the snapshot table. -/
def recordOf (dm : DiskManager) (k : ℕ) : SnapshotRaw :=
  match dm.readSnapshot k with
  | .error _ => .empty
  | .ok s => s

theorem readSnapshot_recordOf (hsize : dataOffset ≤ dm.image.size) {k : ℕ}
    (hk : k < maxSnapshotSlots) :
  dm.readSnapshot k = .ok (dm.recordOf k)
  := by
  obtain ⟨s, hs⟩ := exists_readSnapshot hsize hk
  rw [recordOf, hs]

/-- The slots with a snapshot of a file. -/
def slotsOf (dm : DiskManager) (ino : UInt64) : List ℕ :=
  (List.range maxSnapshotSlots).filter fun k =>
    (dm.recordOf k).isValid snapshotMagic ∧ (dm.recordOf k).ino = ino

/-- The records of some slots were marked as unused, and their extents were freed, one after the
other.  Nothing else was changed. -/
structure Dropped (dm dm' : DiskManager) (slots : List ℕ) : Prop where
  changes : ChangesIn (⋃ k ∈ slots, snapshotRange k) dm dm'
  table : dm'.inodeTable = dm.inodeTable
  records : ∀ k s, dm.readSnapshot k = .ok s →
    dm'.readSnapshot k = .ok (if k ∈ slots then { s with isUsed := 0 } else s)
  freeList : dm'.freeList = slots.foldl
    (fun fl k => fl.free (dm.recordOf k).dataOffset (dm.recordOf k).size) dm.freeList

theorem Dropped.nil (dm : DiskManager) :
  Dropped dm dm []
  := ⟨.refl dm, rfl, fun _ _ h => h, rfl⟩

/-- A slot that was not dropped reads as before. -/
theorem Dropped.read {slots : List ℕ} {k : ℕ} (hsize : dataOffset ≤ dm.image.size)
    (hk : k < maxSnapshotSlots) (hnot : k ∉ slots) (h : Dropped dm dm' slots) :
  dm'.readSnapshot k = .ok (dm.recordOf k)
  := by
  rw [h.records k _ (readSnapshot_recordOf hsize hk), if_neg hnot]

/-- One more slot is dropped. -/
theorem Dropped.dropSnapshot {slots : List ℕ} {slot : ℕ} (hsize : dataOffset ≤ dm.image.size)
    (hslot : slot < maxSnapshotSlots) (hnew : slot ∉ slots) (h : Dropped dm dm' slots) :
  Dropped dm (dm'.dropSnapshot slot) (slots ++ [slot])
  := by
  have hread := h.read hsize hslot hnew
  let s := dm.recordOf slot
  let freed := dm'.freeData s.dataOffset s.size
  have hdrop : dm'.dropSnapshot slot = (freed.writeSnapshot slot { s with isUsed := 0 }).2 := by
    rw [DiskManager.dropSnapshot, hread]
  have hwrite : ChangesIn (snapshotRange slot) dm' (dm'.dropSnapshot slot) := by
    have hfreed : ChangesIn ∅ dm' freed := .of_image rfl
    have hboth := hfreed.trans (changesIn_writeSnapshot freed slot { s with isUsed := 0 })
    rw [Set.empty_union] at hboth
    rw [hdrop]
    exact hboth
  have hsize' : dataOffset ≤ dm'.image.size := hsize.trans h.changes.size_le
  refine ⟨?_, ?_, ?_, ?_⟩
  · apply (h.changes.trans hwrite).mono
    rintro i (hi | hi)
    · obtain ⟨k, hk, hi⟩ := Set.mem_iUnion₂.mp hi
      exact Set.mem_iUnion₂.mpr ⟨k, List.mem_append_left _ hk, hi⟩
    · exact Set.mem_iUnion₂.mpr ⟨slot, List.mem_append_right _ List.mem_cons_self, hi⟩
  · rw [hdrop]
    unfold writeSnapshot
    split <;> exact h.table
  · intro k r hk
    by_cases hkey : k = slot
    · subst hkey
      rw [if_pos (List.mem_append_right _ List.mem_cons_self), hdrop]
      obtain rfl := Except.ok.inj (hk.symm.trans (readSnapshot_recordOf hsize hslot))
      exact readSnapshot_writeSnapshot hslot _
    · have hsame := hwrite.readSnapshot_eq hsize' fun _ => disjoint_snapshotRange hkey
      rw [hsame, h.records k r hk]
      simp [hkey]
  · rw [List.foldl_concat, ← h.freeList, hdrop]
    unfold writeSnapshot
    split <;> rfl

theorem Dropped.foldl {slots more : List ℕ} (hsize : dataOffset ≤ dm.image.size)
    (hslots : ∀ slot ∈ more, slot < maxSnapshotSlots) (hnodup : (slots ++ more).Nodup)
    (h : Dropped dm dm' slots) :
  Dropped dm (more.foldl DiskManager.dropSnapshot dm') (slots ++ more)
  := by
  induction more generalizing slots dm' with
  | nil =>
      rw [List.append_nil]
      exact h
  | cons slot more ih =>
      obtain ⟨hslot, hmore⟩ := List.forall_mem_cons.mp hslots
      have hnew : slot ∉ slots := fun hmem =>
        (List.nodup_append.mp hnodup).2.2 slot hmem slot List.mem_cons_self rfl
      rw [List.append_cons] at hnodup ⊢
      exact ih hmore hnodup (h.dropSnapshot hsize hslot hnew)

/-! ### The snapshots of one file -/

/-- The slots that can be read are sorted by their times. -/
theorem newestFirst_eq {slots : List ℕ} {records : ℕ → SnapshotRaw}
    (hread : ∀ k ∈ slots, dm.readSnapshot k = .ok (records k)) :
  ∃ sorted, dm.newestFirst slots = .ok sorted ∧ sorted.Perm slots
    ∧ sorted.Pairwise fun a b => (records b).timestamp ≤ (records a).timestamp
  := by
  have hmap : (slots.mapM fun slot => do return (slot, ← dm.readSnapshot slot))
      = (.ok (slots.map fun k => (k, records k)) : DiskResult (List (ℕ × SnapshotRaw))) := by
    induction slots with
    | nil => rfl
    | cons k ks ih =>
        obtain ⟨hk, hks⟩ := List.forall_mem_cons.mp hread
        rw [List.mapM_cons, ih hks, hk]
        rfl
  let le : ℕ × SnapshotRaw → ℕ × SnapshotRaw → Bool := fun a b => b.2.timestamp ≤ a.2.timestamp
  let sorted := (slots.map fun k => (k, records k)).mergeSort le
  have hsorted : sorted.Pairwise fun a b => le a b := by
    apply List.pairwise_mergeSort
    · intro a b c hab hbc
      exact decide_eq_true ((of_decide_eq_true hbc).trans (of_decide_eq_true hab))
    · intro a b
      simpa [le] using le_total b.2.timestamp a.2.timestamp
  have hrecord : ∀ p ∈ sorted, p.2 = records p.1 := by
    intro p hp
    obtain ⟨k, -, rfl⟩ := List.mem_map.mp (List.mem_mergeSort.mp hp)
    rfl
  refine ⟨sorted.map Prod.fst, ?_, ?_, ?_⟩
  · rw [newestFirst, hmap]
    rfl
  · have hperm := (List.mergeSort_perm (slots.map fun k => (k, records k)) le).map Prod.fst
    have hid : (Prod.fst ∘ fun k => (k, records k)) = id := rfl
    rw [List.map_map, hid, List.map_id] at hperm
    exact hperm
  · rw [List.pairwise_map]
    apply List.Pairwise.imp_of_mem _ hsorted
    intro a b ha hb hle
    rw [← hrecord a ha, ← hrecord b hb]
    exact of_decide_eq_true hle

/-- Some slots are split into those that are kept, of which there are at most `keep`, and older
ones that are not. -/
structure KeepsNewest (records : ℕ → SnapshotRaw) (keep : ℕ) (slots kept dropped : List ℕ) :
    Prop where
  perm : slots.Perm (kept ++ dropped)
  length : kept.length = min keep slots.length
  newest : ∀ a ∈ kept, ∀ b ∈ dropped, (records b).timestamp ≤ (records a).timestamp

/-- Collecting the snapshots of a file keeps the newest ones. -/
theorem Dropped.gcFile {gone slots : List ℕ} (hsize : dataOffset ≤ dm.image.size) (keep : ℕ)
    (hslots : ∀ k ∈ slots, k < maxSnapshotSlots) (hnodup : (gone ++ slots).Nodup)
    (h : Dropped dm dm' gone) :
  ∃ dm'' kept dropped, dm'.gcFile keep slots = .ok dm''
    ∧ KeepsNewest dm.recordOf keep slots kept dropped ∧ Dropped dm dm'' (gone ++ dropped)
  := by
  unfold DiskManager.gcFile
  split
  · next hfew =>
    refine ⟨dm', slots, [], rfl, ⟨?_, ?_, ?_⟩, ?_⟩
    · rw [List.append_nil]
    · exact (Nat.min_eq_right hfew).symm
    · exact fun _ _ b hb => (nomatch hb)
    · rw [List.append_nil]
      exact h
  · next hmany =>
    have hread : ∀ k ∈ slots, dm'.readSnapshot k = .ok (dm.recordOf k) := by
      intro k hk
      apply h.read hsize (hslots k hk)
      exact fun hmem => (List.nodup_append.mp hnodup).2.2 k hmem k hk rfl
    obtain ⟨sorted, heq, hperm, hsorted⟩ := newestFirst_eq hread
    rw [heq]
    have hsplit : sorted.take keep ++ sorted.drop keep = sorted := List.take_append_drop _ _
    refine ⟨_, sorted.take keep, sorted.drop keep, rfl, ⟨?_, ?_, ?_⟩, ?_⟩
    · rw [hsplit]
      exact hperm.symm
    · rw [List.length_take, hperm.length_eq]
    · intro a ha b hb
      rw [← hsplit, List.pairwise_append] at hsorted
      exact hsorted.2.2 a ha b hb
    · apply h.foldl hsize
      · exact fun k hk => hslots k (hperm.subset (List.mem_of_mem_drop hk))
      · exact ((List.Perm.append_left gone hperm).nodup_iff.mpr hnodup).sublist
          (List.Sublist.append_left (List.drop_sublist _ _) gone)

/-! ### All files -/

/-- The slots are grouped by the files of their snapshots. -/
theorem get_snapshotsByFile (hsize : dataOffset ≤ dm.image.size) {is : List ℕ}
    (his : ∀ i ∈ is, i < maxSnapshotSlots) (byFile : FiniteMap UInt64 (List ℕ)) (ino : UInt64) :
  ((dm.snapshotsByFile byFile is).get ino).getD [] = (byFile.get ino).getD [] ++ is.filter fun k =>
    (dm.recordOf k).isValid snapshotMagic ∧ (dm.recordOf k).ino = ino
  := by
  induction is generalizing byFile with
  | nil => rw [snapshotsByFile, List.filter_nil, List.append_nil]
  | cons i is ih =>
      obtain ⟨hi, his⟩ := List.forall_mem_cons.mp his
      rw [snapshotsByFile, readSnapshot_recordOf hsize hi]
      dsimp only
      split
      · next hvalid =>
        rw [ih his, FiniteMap.push, FiniteMap.get_insert]
        by_cases hino : (dm.recordOf i).ino = ino
        · rw [if_pos hino.symm, List.filter_cons, if_pos (decide_eq_true ⟨hvalid, hino⟩), hino,
            Option.getD_some, List.append_assoc]
          rfl
        · rw [if_neg (Ne.symm hino), List.filter_cons,
            if_neg fun h => hino (of_decide_eq_true h).2]
      · next hinvalid =>
        rw [ih his, List.filter_cons, if_neg fun h => hinvalid (of_decide_eq_true h).1]

theorem nodup_slotsOf (dm : DiskManager) (ino : UInt64) :
  (dm.slotsOf ino).Nodup
  := List.nodup_range.filter _

theorem mem_slotsOf {k : ℕ} {ino : UInt64} :
  k ∈ dm.slotsOf ino ↔ k < maxSnapshotSlots ∧ (dm.recordOf k).isValid snapshotMagic
    ∧ (dm.recordOf k).ino = ino
  := by rw [slotsOf, List.mem_filter, List.mem_range, decide_eq_true_iff]

/-- Collecting the snapshots of some files, one after the other. -/
theorem Dropped.gcFiles {gone : List ℕ} (hsize : dataOffset ≤ dm.image.size) (keep : ℕ)
    {files : List (UInt64 × List ℕ)} (hslots : ∀ e ∈ files, e.2 = dm.slotsOf e.1)
    (hnodup : (files.map Prod.fst).Nodup) (hgone : gone.Nodup)
    (hapart : ∀ k ∈ gone, (dm.recordOf k).ino ∉ files.map Prod.fst) (h : Dropped dm dm' gone) :
  ∃ dm'' dropped, files.foldlM (fun dm e => dm.gcFile keep e.2) dm' = .ok dm''
    ∧ Dropped dm dm'' (gone ++ dropped) ∧ (gone ++ dropped).Nodup
    ∧ (∀ k ∈ dropped, ∃ e ∈ files, k ∈ e.2)
    ∧ ∀ e ∈ files, ∃ kept, KeepsNewest dm.recordOf keep e.2 kept (dropped.filter (· ∈ e.2))
  := by
  induction files generalizing gone dm' with
  | nil =>
      refine ⟨dm', [], rfl, ?_, ?_, fun _ hk => (nomatch hk), List.forall_mem_nil _⟩
      · rw [List.append_nil]
        exact h
      · rw [List.append_nil]
        exact hgone
  | cons e files ih =>
      obtain ⟨he, hfiles⟩ := List.forall_mem_cons.mp hslots
      rw [List.map_cons, List.nodup_cons] at hnodup
      have hino : ∀ k ∈ e.2, (dm.recordOf k).ino = e.1 := by
        intro k hk
        rw [he] at hk
        exact (mem_slotsOf.mp hk).2.2
      have hboth : (gone ++ e.2).Nodup := by
        refine List.nodup_append.mpr ⟨hgone, he ▸ nodup_slotsOf dm e.1, ?_⟩
        rintro k hk _ hk' rfl
        exact hapart k hk (hino k hk' ▸ List.mem_cons_self)
      obtain ⟨dm₁, kept, dropped, heq, hkeeps, hdropped⟩ := h.gcFile hsize keep
        (fun k hk => (mem_slotsOf.mp (he ▸ hk)).1) hboth
      have hsub : ∀ k ∈ dropped, k ∈ e.2 :=
        fun k hk => hkeeps.perm.symm.subset (List.mem_append_right _ hk)
      have hnodup' : (gone ++ dropped).Nodup :=
        ((List.Perm.append_left gone hkeeps.perm).nodup_iff.mp hboth).sublist
          (List.Sublist.append_left (List.sublist_append_right _ _) gone)
      have hapart' : ∀ k ∈ gone ++ dropped, (dm.recordOf k).ino ∉ files.map Prod.fst := by
        intro k hk
        obtain hk | hk := List.mem_append.mp hk
        · exact fun hmem => hapart k hk (List.mem_cons_of_mem _ hmem)
        · exact hino k (hsub k hk) ▸ hnodup.1
      obtain ⟨dm₂, more, heq₂, hmore, hnodup₂, hin, hkeeps₂⟩ :=
        ih hfiles hnodup.2 hnodup' hapart' hdropped
      have hother : ∀ e' ∈ files, ∀ k ∈ e'.2, k ∉ e.2 := by
        intro e' he' k hk' hk
        rw [hfiles e' he'] at hk'
        have hsame := (mem_slotsOf.mp hk').2.2
        rw [hino k hk] at hsame
        exact hnodup.1 (hsame ▸ List.mem_map_of_mem he')
      refine ⟨dm₂, dropped ++ more, ?_, ?_, ?_, ?_, List.forall_mem_cons.mpr ⟨⟨kept, ?_⟩, ?_⟩⟩
      · rw [List.foldlM_cons, heq]
        exact heq₂
      · rw [← List.append_assoc]
        exact hmore
      · rw [← List.append_assoc]
        exact hnodup₂
      · intro k hk
        obtain hk | hk := List.mem_append.mp hk
        · exact ⟨e, List.mem_cons_self, hsub k hk⟩
        · obtain ⟨e', he', hk⟩ := hin k hk
          exact ⟨e', List.mem_cons_of_mem _ he', hk⟩
      · have hall : dropped.filter (· ∈ e.2) = dropped :=
          List.filter_eq_self.mpr fun k hk => decide_eq_true (hsub k hk)
        have hnone : more.filter (· ∈ e.2) = [] := by
          apply List.filter_eq_nil_iff.mpr
          intro k hk hmem
          obtain ⟨e', he', hk⟩ := hin k hk
          exact hother e' he' k hk (of_decide_eq_true hmem)
        rw [List.filter_append, hall, hnone, List.append_nil]
        exact hkeeps
      · intro e' he'
        obtain ⟨kept', hkeeps'⟩ := hkeeps₂ e' he'
        have hnone : dropped.filter (· ∈ e'.2) = [] := by
          apply List.filter_eq_nil_iff.mpr
          intro k hk hmem
          exact hother e' he' k (of_decide_eq_true hmem) (hsub k hk)
        use kept'
        rw [List.filter_append, hnone, List.nil_append]
        exact hkeeps'

/-- What collecting snapshots does: of each file the newest ones are kept, and the others are
marked as unused and their extents are freed; the inodes and all data stay. -/
structure Collects (dm dm' : DiskManager) (keep : ℕ) (dropped : List ℕ) : Prop where
  newest : ∀ ino, ∃ kept,
    KeepsNewest dm.recordOf keep (dm.slotsOf ino) kept (dropped.filter (· ∈ dm.slotsOf ino))
  used : ∀ k ∈ dropped, ∃ ino, k ∈ dm.slotsOf ino
  records : ∀ k s, dm.readSnapshot k = .ok s →
    dm'.readSnapshot k = .ok (if k ∈ dropped then { s with isUsed := 0 } else s)
  freeList : dm'.freeList = dropped.foldl
    (fun fl k => fl.free (dm.recordOf k).dataOffset (dm.recordOf k).size) dm.freeList
  inodes : ∀ i inode, dm.readInode i = .ok inode → dm'.readInode i = .ok inode
  data : ∀ (offset : UInt64) n b, dataOffset ≤ offset.toNat → dm.readFileData offset n = .ok b →
    dm'.readFileData offset n = .ok b

/-- Collecting the snapshots of a disk whose tables are apart keeps the newest ones of each
file, in whatever order the files are gone through, and changes nothing else. -/
theorem snapGc_collects (dm : DiskManager) (order : Arrangement UInt64) (keep : ℕ)
    (hsize : dataOffset ≤ dm.image.size) (hplaced : dm.inodeTable.Placed) :
  ∃ dm' dropped, dm.snapGc order keep = .ok dm' ∧ dropped.Nodup ∧ Collects dm dm' keep dropped
  := by
  let byFile := dm.snapshotsByFile .empty (List.range maxSnapshotSlots)
  have hget : ∀ ino, (byFile.get ino).getD [] = dm.slotsOf ino := fun ino =>
    get_snapshotsByFile hsize (fun i hi => List.mem_range.mp hi) .empty ino
  have hslots : ∀ e ∈ byFile.iter order, e.2 = dm.slotsOf e.1 := by
    intro e he
    rw [← hget, FiniteMap.mem_iter.mp he]
    rfl
  obtain ⟨dm₁, dropped, heq, hdropped, hnodup, hin, hkeeps⟩ :=
    (Dropped.nil dm).gcFiles hsize keep hslots (byFile.nodup_keys_iter order) List.nodup_nil
      (List.forall_mem_nil _)
  rw [List.nil_append] at hdropped hnodup
  have hsize₁ : inodeTableOffset ≤ dm₁.image.size :=
    (show inodeTableOffset ≤ dataOffset by decide).trans (hsize.trans hdropped.changes.size_le)
  have hchanges := hdropped.changes.trans (changesIn_flush dm₁)
  have htables : ∀ k ∈ dropped, k < maxSnapshotSlots := by
    intro k hk
    obtain ⟨e, he, hk⟩ := hin k hk
    exact (mem_slotsOf.mp (hslots e he ▸ hk)).1
  refine ⟨dm₁.flush, dropped, ?_, hnodup, ?_, ?_, ?_, ?_, ?_, ?_⟩
  · rw [snapGc, heq]
    rfl
  · intro ino
    cases hino : byFile.get ino with
    | none =>
        have hnil : dm.slotsOf ino = [] := by rw [← hget, hino, Option.getD_none]
        rw [hnil]
        refine ⟨[], ?_⟩
        have hnone : dropped.filter (· ∈ ([] : List ℕ)) = [] := by simp
        rw [hnone]
        exact ⟨.refl _, (Nat.min_zero keep).symm, List.forall_mem_nil _⟩
    | some slots =>
        have hfile : (ino, slots) ∈ byFile.iter order := FiniteMap.mem_iter.mpr hino
        have hsame : slots = dm.slotsOf ino := hslots _ hfile
        have hfound := hkeeps _ hfile
        rw [hsame] at hfound
        exact hfound
  · intro k hk
    obtain ⟨e, he, hk⟩ := hin k hk
    exact ⟨e.1, hslots e he ▸ hk⟩
  · intro k s hk
    rw [readSnapshot_flush hsize₁]
    exact hdropped.records k s hk
  · rw [freeList_flush]
    exact hdropped.freeList
  · intro i inode hread
    apply hchanges.readInode _ hplaced hread
    · rw [Set.disjoint_union_right, Set.disjoint_iUnion₂_right]
      refine ⟨fun k hk => ?_, disjoint_slotRange_metadataRange hplaced i⟩
      exact (disjoint_snapshotRange_slotRange hplaced (htables k hk) i).symm
    · show dm₁.inodeTable.inodeOffset i = _
      rw [hdropped.table]
  · intro offset n b hoffset hread
    apply hchanges.readFileData hoffset hread
    have hbound : journalOffset ≤ dataOffset ∧ inodeTableOffset ≤ dataOffset := by decide
    rw [Set.disjoint_union_right, Set.disjoint_iUnion₂_right]
    refine ⟨fun k hk => ?_, ?_⟩
    · rw [Set.disjoint_left]
      rintro i ⟨hlo, -⟩ hi
      have hhi := (mem_snapshotRange (htables k hk) hi).2
      omega
    · rw [Set.disjoint_left]
      rintro i ⟨hlo, -⟩ hi
      have hhi : i < inodeTableOffset := hi
      omega

omit [Crc32] in
/-- Of the two snapshots of a file that a disk has, the older one is collected. -/
theorem snapGc_collects_two :
  let _ := Crc32.ieee
  let snap (timestamp : UInt64) : SnapshotRaw :=
    { SnapshotRaw.empty with magic := snapshotMagic, isUsed := 1, ino := 2, timestamp }
  let one := ((format Image.empty 0 0).writeSnapshot 0 (snap 1)).2
  let two := (one.writeSnapshot 1 (snap 2)).2
  ∃ dm dropped, two.snapGc .id 1 = .ok dm ∧ dropped.Nodup ∧ Collects two dm 1 dropped
  := by
  intro _ snap one two
  apply snapGc_collects
  · have hsize := (steady_format Image.empty 0 0).tidy.size_le
    have hone := (changesIn_writeSnapshot (format Image.empty 0 0) 0 (snap 1)).size_le
    have htwo := (changesIn_writeSnapshot one 1 (snap 2)).size_le
    exact (hsize.trans hone).trans htwo
  · apply InodeTable.placed_new

end DiskManager

end Vexfs
