import Vexfs.Fuse.SlotOwners
import Vexfs.Fuse.StoredSize

/-!
# The extents of files

When a file is persisted, space is taken for its bytes.  That extent is the file's until it is
persisted again or removed (`Stored`).  What is freed is an extent that is put together from
fields of the file, not the one that was taken.  As long as it meets no extent of another file
and lies below the pointer of the superblock, the extents of files are apart from each other
and from the free space (`not_cross_linked`).
-/

namespace Vexfs

open Storage DiskManager

variable [Crc32] [Zstd]

/-- The positions that were taken for the bytes of a file. -/
def PersistCall.extent (fs : VexFS) (pc : PersistCall) : Set ℕ :=
  dataRange (pc.placed fs).1 pc.bytes.length

/-- A file that is there was persisted, and some positions were taken for it the last time. -/
def Stored (log : List (VexFS × Call)) (now : VexFS) (ino : UInt64) (extent : Set ℕ) : Prop :=
  (now.files.get ino).isSome
    ∧ ∃ fs pc, LastPersist log fs pc ∧ pc.ino = ino ∧ extent = pc.extent fs

omit [Crc32] in
/-- The file whose extent a piece gives up, if there is one. -/
def Call.dropped (fs : VexFS) : Call → Option UInt64
  | .unlink parent name | .rmdir parent name => (fs.target parent name).map fun t => t.1.ino
  | c => (c.persistCall fs).map PersistCall.ino

/-- A piece frees only positions below the pointer of the superblock, and none of them are
those of a file whose extent it does not give up. -/
structure ReturnsExtents (log : List (VexFS × Call)) (fs : VexFS) (c : Call) : Prop where
  within : DiskCall.Guarded (fun dm call => call.Fits dm ∧ call.Returns [] dm) fs.disk
    (c.diskCalls fs)
  apart : ∀ offset length, DiskCall.freeData offset length ∈ c.diskCalls fs →
    ∀ ino r, Stored log fs ino r → c.dropped fs ≠ some ino →
      Disjoint r (dataRange offset length.toNat)

/-! ### The last time, with one more piece -/

variable {log : List (VexFS × Call)} {fs now : VexFS} {c : Call} {pc : PersistCall}
  {ino : UInt64} {r : Set ℕ} {stored : List (UInt64 × Set ℕ)}

omit [Crc32] in
theorem lastPersist_concat {fs' : VexFS} :
  LastPersist (log ++ [(fs, c)]) fs' pc ↔ (fs' = fs ∧ c.persistCall fs = some pc)
    ∨ LastPersist log fs' pc ∧ ∀ pc', c.persistCall fs = some pc' → pc'.ino ≠ pc.ino
  := by
  constructor
  · rintro ⟨before, c', after, hlog, hcall, hnot⟩
    obtain rfl | ⟨after, e, rfl⟩ := List.eq_nil_or_concat after
    · obtain ⟨-, heq⟩ := List.append_inj' hlog rfl
      obtain ⟨rfl, rfl⟩ := Prod.mk.inj (List.singleton_inj.mp heq)
      exact Or.inl ⟨rfl, hcall⟩
    · rw [List.concat_eq_append] at hlog hnot
      rw [← List.cons_append, ← List.append_assoc] at hlog
      obtain ⟨hbefore, heq⟩ := List.append_inj' hlog rfl
      obtain rfl := List.singleton_inj.mp heq
      right
      constructor
      · refine ⟨before, c', after, hbefore, hcall, fun e he => hnot e ?_⟩
        exact List.mem_append_left _ he
      · exact hnot (fs, c) (List.mem_append_right _ List.mem_cons_self)
  · rintro (⟨rfl, hcall⟩ | ⟨⟨before, c', after, rfl, hcall, hnot⟩, hlast⟩)
    · exact ⟨log, c, [], rfl, hcall, List.forall_mem_nil _⟩
    · refine ⟨before, c', after ++ [(fs, c)], by simp, hcall, ?_⟩
      exact List.forall_mem_append.mpr ⟨hnot, List.forall_mem_singleton.mpr hlast⟩

/-! ### Pieces -/

omit [Crc32] in
/-- A call that takes space for data. -/
def DiskCall.Takes : DiskCall → Prop
  | .store _ _ _ => True
  | _ => False

/-- Only pieces that persist a file take space for data. -/
theorem Call.not_takes_of_mem (h : c.persistCall fs = none) :
  ∀ call ∈ c.diskCalls fs, ¬ call.Takes
  := by
  intro call hcall
  cases makes_of_mem hcall with
  | store hpersist => cases h.symm.trans hpersist
  | _ => exact id

namespace DiskCall

omit [Zstd] in
/-- What is in use stays apart from the free space through calls that take no space. -/
theorem laysOut_runAll {dm : DiskManager} {calls : List DiskCall} {owned : List (Set ℕ)}
    (hguarded : Guarded (fun dm call => call.Fits dm ∧ call.Returns owned dm) dm calls)
    (hnot : ∀ call ∈ calls, ¬ call.Takes)
    (hbase : dataOffset ≤ dm.superblock.nextDataOffset.toNat) (h : dm.LaysOut owned) :
  dataOffset ≤ (runAll dm calls).superblock.nextDataOffset.toNat
    ∧ (runAll dm calls).LaysOut owned
  := by
  refine (hguarded.and_mem hnot).holds (I := fun dm =>
    dataOffset ≤ dm.superblock.nextDataOffset.toNat ∧ dm.LaysOut owned) ?_ ⟨hbase, h⟩
  rintro dm call ⟨⟨hfits, hreturns⟩, hnot⟩ ⟨hbase, h⟩
  obtain ⟨hlays, hle⟩ := laysOut_run hfits hbase hreturns h
  use hbase.trans hle
  cases call with
  | store bytes diskIndex inode => exact absurd trivial hnot
  | _ => exact hlays

end DiskCall

/-- The extents of the files, and what is known of them. -/
structure Extents (log : List (VexFS × Call)) (fs : VexFS) (stored : List (UInt64 × Set ℕ)) :
    Prop where
  slotted : fs.Slotted
  numbers : ∀ e ∈ log, ∀ pc, e.2.persistCall e.1 = some pc → pc.ino < fs.nextInode
  base : dataOffset ≤ fs.disk.superblock.nextDataOffset.toNat
  mem_iff : ∀ e, e ∈ stored ↔ Stored log fs e.1 e.2
  laysOut : fs.disk.LaysOut (stored.map Prod.snd)

namespace Extents

/-- The extents of the files that a piece leaves alone. -/
theorem kept (hgood : ReturnsExtents log fs c) (h : Extents log fs stored) :
  let owned := (stored.filter fun e => c.dropped fs ≠ some e.1).map Prod.snd
  DiskCall.Guarded (fun dm call => call.Fits dm ∧ call.Returns owned dm) fs.disk
      (c.diskCalls fs)
    ∧ fs.disk.LaysOut owned
  := by
  intro owned
  constructor
  · have hout : ∀ call ∈ c.diskCalls fs, ∀ offset length, call = .freeData offset length →
        ∀ s ∈ owned, Disjoint s (dataRange offset length.toNat) := by
      rintro _ hcall offset length rfl s hs
      obtain ⟨e, he, rfl⟩ := List.mem_map.mp hs
      obtain ⟨he, hkeeps⟩ := List.mem_filter.mp he
      apply hgood.apart offset length hcall e.1 e.2 ((h.mem_iff e).mp he)
      exact of_decide_eq_true hkeeps
    apply (hgood.within.and_mem hout).mono
    rintro dm call ⟨⟨hfits, hreturns⟩, hout⟩
    use hfits
    cases call with
    | freeData offset length => exact ⟨hreturns.1, hout offset length rfl⟩
    | _ => trivial
  · exact h.laysOut.sublist (List.filter_sublist.map _)

/-- After a piece they lie apart from the extent that it takes. -/
theorem laysOut_run (hgood : ReturnsExtents log fs c) (h : Extents log fs stored) :
  dataOffset ≤ (c.run fs).disk.superblock.nextDataOffset.toNat
    ∧ (c.run fs).disk.LaysOut (((c.persistCall fs).map (PersistCall.extent fs)).toList
      ++ (stored.filter fun e => c.dropped fs ≠ some e.1).map Prod.snd)
  := by
  obtain ⟨hguarded, hlays⟩ := h.kept hgood
  rw [c.disk_run fs]
  cases hcall : c.persistCall fs with
  | none => exact DiskCall.laysOut_runAll hguarded (Call.not_takes_of_mem hcall) h.base hlays
  | some pc =>
      rw [PersistCall.diskCalls_eq hcall] at hguarded ⊢
      obtain ⟨hfree, ⟨hfits, hreturns⟩, -⟩ := DiskCall.Guarded.append.mp hguarded
      have hnot : ∀ call ∈ freeCalls (fs.oldExtent pc.ino), ¬ call.Takes := by
        intro call hmem
        obtain ⟨offset, length, -, rfl⟩ := mem_freeCalls hmem
        exact id
      obtain ⟨hbase, hfreed⟩ := DiskCall.laysOut_runAll hfree hnot h.base hlays
      obtain ⟨hstored, hle⟩ := DiskCall.laysOut_run hfits hbase hreturns hfreed
      rw [VexFS.persistCalls, DiskCall.runAll_append]
      rw [DiskCall.runAll_freeCalls] at hbase hle hstored ⊢
      exact ⟨hbase.trans hle, hstored⟩

omit [Crc32] in
/-- A piece that persists a file gives up the extent that it had. -/
theorem dropped_of_persistCall (hcall : c.persistCall fs = some pc) :
  c.dropped fs = some pc.ino
  := by
  have hmap : (c.persistCall fs).map PersistCall.ino = some pc.ino := by
    rw [hcall]
    rfl
  cases c with
  | unlink parent name => cases hcall
  | rmdir parent name => cases hcall
  | _ => exact hmap

/-- A file that is there after a piece has not been removed by it, so that its extent is given
up only when it is persisted. -/
theorem persistCall_of_dropped (hdropped : c.dropped fs = some ino)
    (hstays : ((c.run fs).files.get ino).isSome) :
  ∃ pc, c.persistCall fs = some pc ∧ pc.ino = ino
  := by
  have hgone : ∀ parent name, (fs.target parent name).map (fun t => t.1.ino) = some ino →
      (((fs.target parent name).map fun t => fs.files.erase t.1.ino).getD fs.files).get ino
        = none := by
    intro parent name htarget
    obtain ⟨t, ht, rfl⟩ := Option.map_eq_some_iff.mp htarget
    rw [ht]
    exact (FiniteMap.get_erase _ _ _).trans (if_pos rfl)
  cases c with
  | unlink parent name =>
      rw [Call.run, VexFS.files_unlink, hgone parent name hdropped] at hstays
      cases hstays
  | rmdir parent name =>
      rw [Call.run, VexFS.files_rmdir, hgone parent name hdropped] at hstays
      cases hstays
  | _ => exact Option.map_eq_some_iff.mp hdropped

/-- The extents stay apart when a piece returns what it gives up. -/
theorem run (hnumbered : c.Numbered fs) (hgood : ReturnsExtents log fs c)
    (h : Extents log fs stored) :
  ∃ stored', Extents (log ++ [(fs, c)]) (c.run fs) stored'
  := by
  obtain ⟨hbase, hlays⟩ := h.laysOut_run hgood
  let owned := stored.filter fun e => c.dropped fs ≠ some e.1
  let taken := ((c.persistCall fs).map fun pc => (pc.ino, pc.extent fs)).toList
  let live : UInt64 × Set ℕ → Bool := fun e => ((c.run fs).files.get e.1).isSome
  have hnext := Call.nextInode_le_run hnumbered
  use (taken ++ owned).filter live
  constructor
  · exact h.slotted.run hnumbered
  · rw [List.forall_mem_append, List.forall_mem_singleton]
    constructor
    · exact fun e he pc hcall => (h.numbers e he pc hcall).trans_le hnext
    · exact fun pc hcall => (PersistCall.ino_lt h.slotted hcall).trans_le hnext
  · exact hbase
  · -- what is stored now was stored by the piece, or before it and kept
    rintro ⟨ino, r⟩
    rw [List.mem_filter, List.mem_append]
    constructor
    · rintro ⟨hmem, hlive⟩
      use hlive
      obtain htaken | howned := hmem
      · obtain ⟨pc, hpc, heq⟩ := Option.map_eq_some_iff.mp (Option.mem_toList.mp htaken)
        obtain ⟨rfl, rfl⟩ := Prod.mk.inj heq
        exact ⟨fs, pc, lastPersist_concat.mpr (Or.inl ⟨rfl, hpc⟩), rfl, rfl⟩
      · obtain ⟨hstored, hkept⟩ := List.mem_filter.mp howned
        obtain ⟨-, fs', pc, hlast, rfl, hr⟩ := (h.mem_iff _).mp hstored
        refine ⟨fs', pc, lastPersist_concat.mpr (Or.inr ⟨hlast, ?_⟩), rfl, hr⟩
        intro pc' hpc' heq
        apply of_decide_eq_true hkept
        rw [dropped_of_persistCall hpc', heq]
    · rintro ⟨hlive, fs', pc, hlast, rfl, rfl⟩
      use ?_, hlive
      obtain ⟨rfl, hpc⟩ | ⟨hlast, hnot⟩ := lastPersist_concat.mp hlast
      · left
        apply Option.mem_toList.mpr
        rw [hpc]
        rfl
      · right
        apply List.mem_filter.mpr
        constructor
        · apply (h.mem_iff _).mpr
          use ?_, fs', pc, hlast
          obtain ⟨f', hf'⟩ := Option.isSome_iff_exists.mp hlive
          obtain ⟨f, hf, -⟩ | ⟨_, _, _, _, -, hino, -⟩ := Call.get_files_run hf'
          · exact Option.isSome_of_eq_some hf
          · obtain ⟨before, c', after, rfl, hcall, -⟩ := hlast
            have hlt := h.numbers _ (List.mem_append_right _ List.mem_cons_self) pc hcall
            exact absurd hlt (hino ▸ lt_irrefl _)
        · apply decide_eq_true
          intro hdropped
          obtain ⟨pc', hpc', heq⟩ := persistCall_of_dropped hdropped hlive
          exact hnot pc' hpc' heq
  · apply hlays.sublist
    have hmap : ((c.persistCall fs).map (PersistCall.extent fs)).toList ++ owned.map Prod.snd
        = (taken ++ owned).map Prod.snd := by
      rw [List.map_append]
      show _ = ((c.persistCall fs).map fun pc => (pc.ino, pc.extent fs)).toList.map Prod.snd ++ _
      cases c.persistCall fs <;> rfl
    show (((taken ++ owned).filter live).map Prod.snd).Sublist
      (((c.persistCall fs).map (PersistCall.extent fs)).toList ++ owned.map Prod.snd)
    rw [hmap]
    exact List.filter_sublist.map _

omit [Crc32] in
/-- Nothing is stored in a new file system. -/
theorem new {dm : DiskManager} (hbase : dataOffset ≤ dm.superblock.nextDataOffset.toNat)
    (h : dm.LaysOut []) :
  Extents [] (VexFS.new dm) []
  := by
  have hnone : ∀ ino, (VexFS.new dm).files.get ino = none := fun _ => rfl
  have hbuffer : ∀ ino, (VexFS.new dm).writeBuffer.get ino = none := fun _ => rfl
  constructor
  · constructor
    · intro ino hsome
      rw [hnone] at hsome
      cases hsome
    · intro ino w hw
      cases (hbuffer ino).symm.trans hw
    · intro ino w f hw
      cases (hbuffer ino).symm.trans hw
  · exact List.forall_mem_nil _
  · exact hbase
  · rintro ⟨ino, r⟩
    constructor
    · intro hmem
      cases hmem
    · rintro ⟨hsome, -⟩
      rw [hnone] at hsome
      cases hsome
  · exact h

end Extents

/-- Every piece of a log returns the extents that it gives up, and no others. -/
def ReturnsAll (log : List (VexFS × Call)) : Prop :=
  ∀ before fs c after, log = before ++ (fs, c) :: after → ReturnsExtents before fs c

/-- The extents stay apart along a log. -/
theorem Leads.extents {start : VexFS} (hstart : ∃ stored, Extents [] start stored)
    (hnumbered : ∀ e ∈ log, e.2.Numbered e.1) (hgood : ReturnsAll log)
    (hleads : Leads start log now) :
  ∃ stored, Extents log now stored
  := by
  induction log using List.reverseRecOn generalizing now with
  | nil =>
      obtain rfl := hleads
      exact hstart
  | append_singleton log e ih =>
      obtain ⟨hbefore, hafter⟩ := hleads.before
      obtain rfl : now = e.2.run e.1 := hafter
      rw [List.forall_mem_append, List.forall_mem_singleton] at hnumbered
      obtain ⟨stored, hstored⟩ := ih hnumbered.1
        (fun before fs c after hlog => hgood before fs c (after ++ [e]) (by simp [hlog])) hbefore
      exact hstored.run hnumbered.2 (hgood log e.1 e.2 [] rfl)

end Vexfs
