import Vexfs.Collections.SortedMap
import Vexfs.Fs.Allocation
import Vexfs.Storage.Gaps

/-!
# Rebuilding the free list

The free list is rebuilt by a sweep over the extents in use, sorted by their offset: each gap
before an extent is freed.  Until the list is full it covers the positions that are not used up
to the cursor, and then it stays as it is.  An extent of length 0 within a gap splits it, and
the second part is lost when the list is full (`rebuild_complement_iff`).
-/

namespace Vexfs

open Storage

namespace FreeList

open FreeExtent

/-! ### What a list covers -/

/-- The extents of a list cover a set, with gaps between them. -/
structure Covers (fl : FreeList) (S : Set ℕ) : Prop where
  proper : ∀ e ∈ fl.extents, e.Proper
  gaps : fl.extents.Pairwise fun a b => a.stop < b.start
  covered_eq : covered fl.extents = S

theorem covers_new :
  new.Covers ∅
  := by
  refine ⟨fun e he => (by cases he), List.Pairwise.nil, ?_⟩
  apply Set.eq_empty_of_forall_notMem
  rintro i ⟨e, he, -⟩
  cases he

/-- Freeing a gap, which is dropped when the list is full. -/
theorem Covers.free {fl : FreeList} {S : Set ℕ} {cursor stop : UInt64} (hpos : 0 < cursor)
    (hlt : cursor < stop) (h : fl.Covers S) :
  (fl.free cursor (stop - cursor)).Covers
    (if maxPersistedExtents ≤ fl.extents.length then S
      else S ∪ Set.Ico cursor.toNat stop.toNat)
  := by
  have hlen : (stop - cursor).toNat = stop.toNat - cursor.toNat :=
    UInt64.toNat_sub_of_le _ _ (UInt64.le_of_lt hlt)
  rw [UInt64.lt_iff_toNat_lt] at hlt hpos
  have hne : ¬ (cursor = 0 ∨ stop - cursor = 0) := by
    rintro (hzero | hzero)
    · rw [hzero] at hpos
      cases hpos
    · rw [hzero] at hlen
      have hzero : (0 : UInt64).toNat = 0 := rfl
      omega
  let e : FreeExtent := ⟨cursor, stop - cursor⟩
  have hstop : e.stop = stop.toNat := by
    show cursor.toNat + (stop - cursor).toNat = stop.toNat
    omega
  have hproper : ∀ x ∈ fl.extents ++ [e], x.Proper := by
    intro x hx
    obtain hx | hx := List.mem_append.mp hx
    · exact h.proper x hx
    · obtain rfl := List.mem_singleton.mp hx
      refine ⟨by show 0 < (stop - cursor).toNat; omega, ?_⟩
      rw [hstop]
      exact stop.toNat_lt
  obtain ⟨hcovered, hall, hgaps⟩ := mergeAdjacent_spec hproper
  rw [FreeList.free, if_neg hne]
  split
  · exact h
  · refine ⟨hall, hgaps, hcovered.trans ?_⟩
    ext i
    have hbytes : i ∈ e.bytes ↔ i ∈ Set.Ico cursor.toNat stop.toNat := by
      rw [bytes, hstop]
      rfl
    rw [Set.mem_union, ← h.covered_eq, ← hbytes]
    simp only [covered, List.mem_append, List.mem_singleton, Set.mem_ofPred_eq]
    constructor
    · rintro ⟨x, hx | rfl, hi⟩
      · exact Or.inl ⟨x, hx, hi⟩
      · exact Or.inr hi
    · rintro (⟨x, hx, hi⟩ | hi)
      · exact ⟨x, Or.inl hx, hi⟩
      · exact ⟨e, Or.inr rfl, hi⟩

/-- A list that covers what is not used up to a position has an extent for each gap. -/
theorem Covers.length_eq {fl : FreeList} {base b : ℕ} {S : Set ℕ}
    (h : fl.Covers (unused base S b)) :
  fl.extents.length = gapsBelow base S b
  := by
  have hmem : ∀ {i}, i ∈ unused base S b ↔ ∃ e ∈ fl.extents, i ∈ e.bytes := by
    intro i
    rw [← h.covered_eq]
    exact Iff.rfl
  have hstarts : {a | GapStart base S a ∧ a < b} = {a | a ∈ fl.extents.map start} := by
    ext a
    rw [Set.mem_ofPred_eq, Set.mem_ofPred_eq, List.mem_map]
    constructor
    · rintro ⟨⟨hle, hnot, hfirst⟩, hlt⟩
      obtain ⟨e, he, hin⟩ := hmem.mp ⟨hle, hlt, hnot⟩
      refine ⟨e, he, ?_⟩
      by_contra hne
      have hlo : e.start ≤ a := hin.1
      have hprev : a - 1 ∈ e.bytes := ⟨by omega, by have := hin.2; omega⟩
      obtain ⟨hle', -, hnot'⟩ := hmem.mpr ⟨e, he, hprev⟩
      obtain hfirst | hfirst := hfirst
      · omega
      · exact hnot' hfirst
    · rintro ⟨e, he, rfl⟩
      obtain ⟨hle, hlt, hnot⟩ := hmem.mpr ⟨e, he, (h.proper e he).start_mem⟩
      refine ⟨⟨hle, hnot, ?_⟩, hlt⟩
      by_contra hnone
      obtain ⟨hne, hprev⟩ := not_or.mp hnone
      obtain ⟨e', he', hin⟩ := hmem.mp ⟨by omega, by omega, hprev⟩
      have hne' : e ≠ e' := by
        rintro rfl
        have hlo : e.start ≤ e.start - 1 := hin.1
        omega
      have hsymm : Std.Symm fun a b : FreeExtent => a.stop < b.start ∨ b.stop < a.start :=
        ⟨fun _ _ => Or.symm⟩
      have hgaps : fl.extents.Pairwise fun a b => a.stop < b.start ∨ b.stop < a.start :=
        h.gaps.imp Or.inl
      have hgap := hgaps.forall he he' hne'
      have hpos : e.start < e.stop := (h.proper e he).start_mem.2
      have hlo : e'.start ≤ e.start - 1 := hin.1
      have hhi : e.start - 1 < e'.stop := hin.2
      omega
  have hnodup : (fl.extents.map start).Nodup := by
    apply List.pairwise_map.mpr
    apply h.gaps.imp_of_mem
    intro e e' he he' hlt heq
    have hpos := (h.proper e he).pos
    rw [stop, ← start] at hlt
    omega
  rw [gapsBelow, hstarts, ← List.coe_toFinset, Set.ncard_coe_finset,
    List.toFinset_card_of_nodup hnodup, List.length_map]

/-! ### The sweep -/

/-- The extents as offsets and lengths that do not wrap around. -/
def natExtents (used : List (UInt64 × UInt64)) : List (ℕ × ℕ) :=
  used.map fun r => (r.1.toNat, r.2.toNat)

theorem mem_claimed_natExtents {used : List (UInt64 × UInt64)} {x : ℕ} :
  x ∈ claimed (natExtents used) ↔ ∃ r ∈ used, r.1.toNat ≤ x ∧ x < r.1.toNat + r.2.toNat
  := by
  simp [claimed, natExtents]

/-- Whether an extent of length 0 lies at a position. -/
def EmptyAt (used : List (UInt64 × UInt64)) (x : ℕ) : Prop :=
  ∃ r ∈ used, r.2 = 0 ∧ r.1.toNat = x

/-- Whether an extent of length 0 splits a gap. -/
def Splits (used : List (UInt64 × UInt64)) (base x : ℕ) : Prop :=
  EmptyAt used x ∧ base < x ∧ x - 1 ∉ claimed (natExtents used) ∧ x ∉ claimed (natExtents used)

/-- The number of gaps that start below a position. -/
noncomputable def startsBelow (used : List (UInt64 × UInt64)) (base x : ℕ) : ℕ :=
  gapsBelow base (claimed (natExtents used)) x

/-- A list that is being rebuilt covers what is not used up to a position, which is the cursor
unless the list is full. -/
structure Rebuilding (used : List (UInt64 × UInt64)) (base : ℕ) (fl : FreeList)
    (cursor reached : ℕ) : Prop where
  covers : fl.Covers (unused base (claimed (natExtents used)) reached)
  base_le : base ≤ reached
  le_cursor : reached ≤ cursor
  full : reached = cursor ∨ 200 ≤ startsBelow used base reached
  edge : reached = base ∨ reached - 1 ∈ claimed (natExtents used) ∨ EmptyAt used reached
  split : ∀ x, Splits used base x → 200 ≤ startsBelow used base x → reached ≤ x

/-- Before the sweep nothing is covered. -/
theorem rebuilding_new (used : List (UInt64 × UInt64)) (base : ℕ) :
  Rebuilding used base new base base
  := by
  have hempty : unused base (claimed (natExtents used)) base = ∅ := by
    apply Set.eq_empty_of_forall_notMem
    rintro x ⟨hle, hlt, -⟩
    omega
  refine ⟨hempty ▸ covers_new, Nat.le_refl _, Nat.le_refl _, Or.inl rfl, Or.inl rfl, ?_⟩
  exact fun x hx _ => Nat.le_of_lt hx.2.1

/-- A cursor that has not met all extents: the others are still to come. -/
def Ahead (used rest : List (UInt64 × UInt64)) (cursor : ℕ) : Prop :=
  ∀ r ∈ used, r.1.toNat + r.2.toNat ≤ cursor ∨ r ∈ rest

/-- What the next extent does to the sweep. -/
theorem Rebuilding.step {used rest : List (UInt64 × UInt64)} {base reached : ℕ} {fl : FreeList}
    {cursor offset length : UInt64} (hr : (offset, length) ∈ used)
    (hahead : Ahead used ((offset, length) :: rest) cursor.toNat)
    (hsorted : ∀ r ∈ rest, offset.toNat ≤ r.1.toNat) (hbase : 0 < base)
    (hfits : offset.toNat + length.toNat < 2 ^ 64)
    (h : Rebuilding used base fl cursor.toNat reached) :
  ∃ reached', Rebuilding used base (rebuildStep (fl, cursor) (offset, length)).1
    (rebuildStep (fl, cursor) (offset, length)).2.toNat reached'
  := by
  have hnext : (max (offset + length) cursor).toNat
      = max (offset.toNat + length.toNat) cursor.toNat := by
    rw [UInt64.toNat_max, UInt64.toNat_add, Nat.mod_eq_of_lt hfits]
  have hused : ∀ x, offset.toNat ≤ x → x < offset.toNat + length.toNat →
      x ∈ claimed (natExtents used) :=
    fun x hlo hhi => mem_claimed_natExtents.mpr ⟨_, hr, hlo, hhi⟩
  have hcomes : ∀ r ∈ used, r.1.toNat + r.2.toNat ≤ cursor.toNat ∨ offset.toNat ≤ r.1.toNat := by
    intro r' hr'
    obtain hle | hmem := hahead r' hr'
    · exact Or.inl hle
    · obtain rfl | hmem := List.mem_cons.mp hmem
      · exact Or.inr (Nat.le_refl _)
      · exact Or.inr (hsorted r' hmem)
  have hpos : 0 < cursor := by
    rw [UInt64.lt_iff_toNat_lt]
    exact Nat.lt_of_lt_of_le hbase (Nat.le_trans h.base_le h.le_cursor)
  rw [rebuildStep]
  dsimp only
  rw [hnext]
  -- the list after the gap before the extent was freed, if there is one
  have hcovers : (if cursor < offset then fl.free cursor (offset - cursor) else fl).Covers
      (if 200 ≤ startsBelow used base reached then
        unused base (claimed (natExtents used)) reached
      else unused base (claimed (natExtents used)) reached
        ∪ Set.Ico cursor.toNat offset.toNat) := by
    split
    · next hgap =>
      have hfree := h.covers.free hpos hgap
      rw [h.covers.length_eq] at hfree
      exact hfree
    · next hnone =>
      rw [UInt64.lt_iff_toNat_lt] at hnone
      rw [Set.Ico_eq_empty hnone, Set.union_empty, ite_self]
      exact h.covers
  generalize (if cursor < offset then fl.free cursor (offset - cursor) else fl) = fl' at hcovers ⊢
  split at hcovers
  · next hfull =>
    exact ⟨reached, hcovers, h.base_le, Nat.le_trans h.le_cursor (Nat.le_max_right _ _),
      Or.inr hfull, h.edge, h.split⟩
  · next hroom =>
    obtain rfl := h.full.resolve_right hroom
    refine ⟨_, ?_, Nat.le_trans h.base_le (Nat.le_max_right _ _), Nat.le_refl _, Or.inl rfl, ?_, ?_⟩
    · rw [← unused_union_gap (b := offset.toNat) h.base_le (Nat.le_max_right _ _) (by omega)]
      · exact hcovers
      · intro y hlo hhi hin
        obtain ⟨r, hr, hlo', hhi'⟩ := mem_claimed_natExtents.mp hin
        have := hcomes r hr
        omega
      · exact fun y hlo hoff hhi => hused y hoff (by omega)
    · obtain hzero | hlength := Nat.eq_zero_or_pos length.toNat
      · obtain hle | hlt := Nat.le_total offset.toNat cursor.toNat
        · rw [Nat.max_eq_right (by omega)]
          exact h.edge
        · right; right
          exact ⟨_, hr, UInt64.toNat_inj.mp hzero, by rw [Nat.max_eq_left (by omega), hzero]; rfl⟩
      · obtain hle | hlt := Nat.le_total (offset.toNat + length.toNat) cursor.toNat
        · rw [Nat.max_eq_right hle]
          exact h.edge
        · rw [Nat.max_eq_left hlt]
          exact Or.inr (Or.inl (hused _ (by omega) (by omega)))
    · intro x hx hstarts
      have hle := h.split x hx hstarts
      have hne : x ≠ cursor.toNat := by
        rintro rfl
        exact hroom hstarts
      obtain ⟨⟨r, hr', hzero, rfl⟩, -, -, hnot⟩ := hx
      have hzero' : r.2.toNat = 0 := congrArg UInt64.toNat hzero
      have hoffset := hcomes r hr'
      have hend : offset.toNat + length.toNat ≤ r.1.toNat := by
        by_contra hlt
        exact hnot (hused _ (by omega) (by omega))
      omega

theorem toNat_rebuildStep (fl : FreeList) (cursor : UInt64) {offset length : UInt64}
    (hfits : offset.toNat + length.toNat < 2 ^ 64) :
  (rebuildStep (fl, cursor) (offset, length)).2.toNat
    = max (offset.toNat + length.toNat) cursor.toNat
  := by
  show (max (offset + length) cursor).toNat = _
  rw [UInt64.toNat_max, UInt64.toNat_add, Nat.mod_eq_of_lt hfits]

/-- The sweep over all extents that are still to come. -/
theorem Rebuilding.run {used rest : List (UInt64 × UInt64)} {base reached limit : ℕ}
    {fl : FreeList} {cursor : UInt64} (hrest : ∀ r ∈ rest, r ∈ used)
    (hahead : Ahead used rest cursor.toNat)
    (hsorted : rest.Pairwise fun a b => a.1.toNat ≤ b.1.toNat) (hbase : 0 < base)
    (hlimit : limit < 2 ^ 64) (hends : ∀ r ∈ used, r.1.toNat + r.2.toNat ≤ limit)
    (hcursor : cursor.toNat ≤ max limit base) (h : Rebuilding used base fl cursor.toNat reached) :
  ∃ reached', Rebuilding used base (rest.foldl rebuildStep (fl, cursor)).1
      (rest.foldl rebuildStep (fl, cursor)).2.toNat reached'
    ∧ Ahead used [] (rest.foldl rebuildStep (fl, cursor)).2.toNat
    ∧ (rest.foldl rebuildStep (fl, cursor)).2.toNat ≤ max limit base
  := by
  induction rest generalizing fl cursor reached with
  | nil => exact ⟨reached, h, hahead, hcursor⟩
  | cons r rest ih =>
      obtain ⟨offset, length⟩ := r
      have hr := hrest _ List.mem_cons_self
      have hend := hends _ hr
      dsimp only at hend
      obtain ⟨hhead, htail⟩ := List.pairwise_cons.mp hsorted
      have hnext := toNat_rebuildStep fl cursor
        (show offset.toNat + length.toNat < 2 ^ 64 by omega)
      obtain ⟨reached', hstep⟩ := h.step hr hahead hhead hbase (by omega)
      rw [List.foldl_cons]
      apply ih (fun r' hr' => hrest r' (List.mem_cons_of_mem _ hr')) _ htail _ hstep
      · intro r' hr'
        rw [hnext]
        obtain hle | hmem := hahead r' hr'
        · exact Or.inl (Nat.le_trans hle (Nat.le_max_right _ _))
        · obtain rfl | hmem := List.mem_cons.mp hmem
          · exact Or.inl (Nat.le_max_left _ _)
          · exact Or.inr hmem
      · omega

/-- The extent of length 0 that ends the sweep has no position. -/
theorem claimed_end (diskSize : UInt64) (used : List (UInt64 × UInt64)) :
  claimed (natExtents ((diskSize, 0) :: used)) = claimed (natExtents used)
  := by
  ext x
  rw [mem_claimed_natExtents, mem_claimed_natExtents]
  have hnone : ¬ (diskSize.toNat ≤ x ∧ x < diskSize.toNat + (0 : UInt64).toNat) := by
    have hzero : (0 : UInt64).toNat = 0 := rfl
    omega
  simp only [List.mem_cons, exists_eq_or_imp, hnone, false_or]

/-- The rebuilt list is as after a sweep that ends at the size of the disk. -/
theorem rebuild_spec {used : List (UInt64 × UInt64)} {diskSize dataStart : UInt64}
    (hpos : 0 < dataStart) (hused : ∀ r ∈ used, r.1.toNat + r.2.toNat ≤ diskSize.toNat)
    (hne : used ≠ [] ∨ dataStart < diskSize) :
  ∃ reached, Rebuilding ((diskSize, 0) :: used) dataStart.toNat
    (rebuildFromInodes used diskSize dataStart) (max diskSize.toNat dataStart.toNat) reached
  := by
  rw [UInt64.lt_iff_toNat_lt] at hpos
  rw [rebuildFromInodes]
  split
  · next hnil =>
    subst hnil
    have hdisk := hne.resolve_left fun h => h rfl
    have hle := UInt64.le_of_lt hdisk
    have hlen : (diskSize - dataStart).toNat = diskSize.toNat - dataStart.toNat :=
      UInt64.toNat_sub_of_le _ _ hle
    rw [UInt64.lt_iff_toNat_lt] at hdisk
    have hclaimed : ∀ x, x ∉ claimed (natExtents [(diskSize, (0 : UInt64))]) := by
      intro x
      rw [claimed_end]
      rintro ⟨r, hr, -⟩
      cases hr
    have hstop : (FreeExtent.mk dataStart (diskSize - dataStart)).stop = diskSize.toNat := by
      show dataStart.toNat + (diskSize - dataStart).toNat = diskSize.toNat
      omega
    rw [if_pos hle]
    refine ⟨diskSize.toNat, ⟨?_, List.pairwise_singleton _ _, ?_⟩, Nat.le_of_lt hdisk,
      Nat.le_max_left _ _, Or.inl (Nat.max_eq_left (Nat.le_of_lt hdisk)).symm, ?_, ?_⟩
    · intro e he
      obtain rfl := List.mem_singleton.mp he
      refine ⟨by show 0 < (diskSize - dataStart).toNat; omega, ?_⟩
      rw [hstop]
      exact diskSize.toNat_lt
    · ext x
      simp only [covered, List.mem_singleton, exists_eq_left, Set.mem_ofPred_eq, bytes, hstop,
        Set.mem_Ico, unused, hclaimed, not_false_eq_true, and_true]
      exact Iff.rfl
    · exact Or.inr (Or.inr ⟨_, List.mem_cons_self, rfl, rfl⟩)
    · rintro x ⟨⟨r, hr, -, rfl⟩, -⟩ -
      obtain rfl := List.mem_singleton.mp hr
      exact Nat.le_refl _
  · have hperm := used.mergeSort_perm (fun a b => decide (a.1 ≤ b.1))
    have hsorted : (used.mergeSort fun a b => decide (a.1 ≤ b.1)).Pairwise
        fun a b => a.1.toNat ≤ b.1.toNat := by
      apply SortedMap.pairwise_mergeSort fun r : UInt64 × UInt64 => r.1.toNat
      intro a b
      rw [decide_eq_true_eq, UInt64.le_iff_toNat_le]
    generalize used.mergeSort (fun a b => decide (a.1 ≤ b.1)) = sorted at hperm hsorted
    have hends : ∀ r ∈ (diskSize, (0 : UInt64)) :: used,
        r.1.toNat + r.2.toNat ≤ diskSize.toNat :=
      List.forall_mem_cons.mpr ⟨Nat.le_refl _, hused⟩
    have hall : ∀ r, r ∈ sorted ++ [(diskSize, (0 : UInt64))] ↔ r ∈ (diskSize, 0) :: used := by
      intro r
      rw [List.mem_append, List.mem_singleton, List.mem_cons, hperm.mem_iff, or_comm]
    have hsorted' : (sorted ++ [(diskSize, (0 : UInt64))]).Pairwise
        fun a b => a.1.toNat ≤ b.1.toNat := by
      apply List.pairwise_append.mpr ⟨hsorted, List.pairwise_singleton _ _, ?_⟩
      intro a ha b hb
      obtain rfl := List.mem_singleton.mp hb
      have hend := hused a (hperm.mem_iff.mp ha)
      dsimp only
      omega
    obtain ⟨reached, hrun, hahead, hle⟩ := (rebuilding_new ((diskSize, 0) :: used)
      dataStart.toNat).run (fun r hr => (hall r).mp hr) (fun r hr => Or.inr ((hall r).mpr hr))
      hsorted' hpos diskSize.toNat_lt hends (Nat.le_max_right _ _)
    have hcursor : ((sorted ++ [(diskSize, 0)]).foldl rebuildStep (new, dataStart)).2.toNat
        = max diskSize.toNat dataStart.toNat := by
      have hlimit := (hahead _ List.mem_cons_self).resolve_right List.not_mem_nil
      have hbase := hrun.base_le
      have hreached := hrun.le_cursor
      dsimp only at hlimit
      omega
    rw [hcursor, List.foldl_append] at hrun
    exact ⟨reached, hrun⟩

/-! ### What is covered -/

theorem length_mergeRuns_le (last : FreeExtent) (es : List FreeExtent) :
  (mergeRuns last es).length ≤ es.length + 1
  := by
  induction es generalizing last with
  | nil => exact Nat.le_refl _
  | cons e es ih =>
      rw [mergeRuns]
      dsimp only
      split
      · exact Nat.le_succ_of_le (ih _)
      · exact Nat.succ_le_succ (ih e)

theorem length_mergeAdjacent_le (es : List FreeExtent) :
  (mergeAdjacent es).length ≤ es.length
  := by
  rw [mergeAdjacent]
  split
  · exact Nat.le_refl _
  · have hlength : (es.mergeSort fun a b => a.offset ≤ b.offset).length = es.length :=
      List.length_mergeSort _
    cases hsorted : es.mergeSort (fun a b => a.offset ≤ b.offset) with
    | nil => exact Nat.zero_le _
    | cons e sorted =>
        rw [hsorted] at hlength
        exact hlength ▸ length_mergeRuns_le e sorted

/-- A list has no more than 200 extents. -/
theorem length_free_le {fl : FreeList} {offset length : UInt64} (h : fl.extents.length ≤ 200) :
  (fl.free offset length).extents.length ≤ 200
  := by
  rw [free]
  split
  · exact h
  · split
    · exact h
    · next hroom =>
      have hroom : fl.extents.length < 200 := Nat.not_le.mp hroom
      apply Nat.le_trans (length_mergeAdjacent_le _)
      rw [List.length_append, List.length_singleton]
      exact hroom

theorem length_foldl_le (used : List (UInt64 × UInt64)) {state : FreeList × UInt64}
    (h : state.1.extents.length ≤ 200) :
  (used.foldl rebuildStep state).1.extents.length ≤ 200
  := by
  induction used generalizing state with
  | nil => exact h
  | cons r used ih =>
      apply ih
      rw [rebuildStep]
      dsimp only
      split
      · exact length_free_le h
      · exact h

theorem length_rebuild_le (used : List (UInt64 × UInt64)) (diskSize dataStart : UInt64) :
  (rebuildFromInodes used diskSize dataStart).extents.length ≤ 200
  := by
  rw [rebuildFromInodes]
  split
  · exact (by decide : 1 ≤ 200)
  · have hfold := length_foldl_le (used.mergeSort fun a b => a.1 ≤ b.1)
      (show (new, dataStart).1.extents.length ≤ 200 from Nat.zero_le 200)
    dsimp only
    split
    · exact length_free_le hfold
    · exact hfold

/-- The positions the rebuilt list covers: those from the start of the data region to the
end of the disk that no extent has, up to the 200th gap. -/
theorem mem_covered_rebuild {used : List (UInt64 × UInt64)} {diskSize dataStart : UInt64}
    {x : ℕ} (hpos : 0 < dataStart)
    (hused : ∀ r ∈ used, 0 < r.2.toNat ∧ r.1.toNat + r.2.toNat ≤ diskSize.toNat) :
  x ∈ covered (rebuildFromInodes used diskSize dataStart).extents
    ↔ dataStart.toNat ≤ x ∧ x < diskSize.toNat ∧ x ∉ claimed (natExtents used)
      ∧ gapCount dataStart.toNat (claimed (natExtents used)) x ≤ 200
  := by
  by_cases hne : used ≠ [] ∨ dataStart < diskSize
  · obtain ⟨reached, h⟩ := rebuild_spec hpos (fun r hr => (hused r hr).2) hne
    have hcount := length_rebuild_le used diskSize dataStart
    have hlimit := h.le_cursor
    have hfull := h.full
    have hedge := h.edge
    rw [h.covers.length_eq] at hcount
    rw [h.covers.covered_eq]
    simp only [startsBelow, claimed_end] at hcount hfull hedge ⊢
    rw [gapCount_eq_gapsBelow]
    constructor
    · rintro ⟨hlo, hhi, hnot⟩
      exact ⟨hlo, by omega, hnot, Nat.le_trans (gapsBelow_mono hhi) hcount⟩
    · rintro ⟨hlo, hhi, hnot, hgaps⟩
      refine ⟨hlo, ?_, hnot⟩
      by_contra hge
      have hge := Nat.not_lt.mp hge
      have hreached := hfull.resolve_left (by omega)
      have heq := Nat.le_antisymm (gapsBelow_mono (Nat.le_succ_of_le hge))
        (Nat.le_trans hgaps hreached)
      obtain ⟨hbase, hprev, -⟩ :=
        notMem_of_gapsBelow_eq heq h.base_le hge (Nat.lt_succ_self x) hnot
      obtain ⟨r, hr, hzero, hoffset⟩ := (hedge.resolve_left (by omega)).resolve_left hprev
      obtain rfl | hr := List.mem_cons.mp hr
      · dsimp only at hoffset
        omega
      · have hlength := (hused r hr).1
        rw [hzero] at hlength
        exact absurd hlength (by decide)
  · obtain ⟨hnil, hdisk⟩ := not_or.mp hne
    rw [not_not.mp hnil, rebuildFromInodes, if_pos rfl]
    rw [UInt64.lt_iff_toNat_lt] at hdisk
    simp only [covered, List.mem_singleton, exists_eq_left, Set.mem_ofPred_eq, bytes,
      Set.mem_Ico, start, stop]
    constructor
    · rintro ⟨hlo, hhi⟩
      split at hhi
      · next hle =>
        rw [UInt64.toNat_sub_of_le _ _ hle] at hhi
        rw [UInt64.le_iff_toNat_le] at hle
        omega
      · have hzero : (0 : UInt64).toNat = 0 := rfl
        omega
    · rintro ⟨hlo, hhi, -⟩
      omega

/-- The extents of a rebuilt list do not meet, and have a byte when the disk reaches into
the data region. -/
theorem rebuild_apart {used : List (UInt64 × UInt64)} {diskSize dataStart : UInt64}
    (hpos : 0 < dataStart) (hdisk : dataStart < diskSize)
    (hused : ∀ r ∈ used, 0 < r.2.toNat ∧ r.1.toNat + r.2.toNat ≤ diskSize.toNat) :
  ((rebuildFromInodes used diskSize dataStart).extents.map bytes).Pairwise Disjoint
    ∧ ∀ e ∈ (rebuildFromInodes used diskSize dataStart).extents, 0 < e.length.toNat
  := by
  obtain ⟨reached, h⟩ := rebuild_spec hpos (fun r hr => (hused r hr).2) (Or.inr hdisk)
  exact ⟨apart_of_gaps h.covers.gaps, fun e he => (h.covers.proper e he).pos⟩

/-! ### The complement -/

/-- The extents of a list are what the used extents leave: they do not meet, they lie between the
bounds and have no byte in use, and when there are at most 200 gaps they have all other bytes. -/
structure Complements (used : List (UInt64 × UInt64)) (dataStart diskSize : ℕ) (fl : FreeList) :
    Prop where
  apart : (fl.extents.map bytes).Pairwise Disjoint
  within : ∀ e ∈ fl.extents, e.bytes ⊆ Set.Ico dataStart diskSize
  notUsed : ∀ e ∈ fl.extents, Disjoint e.bytes (claimed (natExtents used))
  complete : startsBelow used dataStart diskSize ≤ 200 →
    ∀ x, dataStart ≤ x → x < diskSize → x ∉ claimed (natExtents used) →
      ∃ e ∈ fl.extents, x ∈ e.bytes

/-- Whether there are 200 gaps, the last of which is split by an extent of length 0. -/
def SplitsLast (used : List (UInt64 × UInt64)) (dataStart diskSize : ℕ) : Prop :=
  startsBelow used dataStart diskSize = 200
    ∧ ∃ x < diskSize, Splits used dataStart x ∧ startsBelow used dataStart x = 200

/-- The rebuilt list is the complement of the extents in use, unless there are 200 gaps and an
extent of length 0 splits the last one. -/
theorem rebuild_complement_iff {used : List (UInt64 × UInt64)} {diskSize dataStart : UInt64}
    (hpos : 0 < dataStart) (hdisk : dataStart < diskSize)
    (hused : ∀ r ∈ used,
      dataStart.toNat ≤ r.1.toNat ∧ r.1.toNat + r.2.toNat ≤ diskSize.toNat) :
  Complements used dataStart.toNat diskSize.toNat (rebuildFromInodes used diskSize dataStart)
    ↔ ¬ SplitsLast used dataStart.toNat diskSize.toNat
  := by
  obtain ⟨reached, h⟩ := rebuild_spec hpos (fun r hr => (hused r hr).2) (Or.inr hdisk)
  have hlimit := h.le_cursor
  have hcovered := h.covers.covered_eq
  have hedge := h.edge
  have hfull := h.full
  have hsplit := h.split
  rw [UInt64.lt_iff_toNat_lt] at hdisk
  rw [Nat.max_eq_left (Nat.le_of_lt hdisk)] at hlimit hfull
  rw [claimed_end] at hcovered hedge
  simp only [startsBelow, Splits, claimed_end] at hfull hsplit
  have hmem : ∀ {x}, (∃ e ∈ (rebuildFromInodes used diskSize dataStart).extents, x ∈ e.bytes)
      ↔ x ∈ unused dataStart.toNat (claimed (natExtents used)) reached := by
    intro x
    rw [← hcovered]
    exact Iff.rfl
  constructor
  · rintro hcomplement ⟨hcount, x, hx, ⟨⟨r, hr, hzero, rfl⟩, hbase, hprev, hnot⟩, hstarts⟩
    have hle := hsplit _ ⟨⟨r, List.mem_cons_of_mem _ hr, hzero, rfl⟩, hbase, hprev, hnot⟩
      (Nat.le_of_eq hstarts.symm)
    obtain ⟨-, hlt, -⟩ := hmem.mp (hcomplement.complete (Nat.le_of_eq hcount) _
      (Nat.le_of_lt hbase) hx hnot)
    omega
  · intro hnosplit
    refine ⟨apart_of_gaps h.covers.gaps, ?_, ?_, ?_⟩
    · intro e he x hx
      obtain ⟨hlo, hhi, -⟩ := hmem.mp ⟨e, he, hx⟩
      exact ⟨hlo, by omega⟩
    · intro e he
      rw [Set.disjoint_left]
      intro x hx
      exact (hmem.mp ⟨e, he, hx⟩).2.2
    · intro hcount x hlo hhi hnot
      rw [hmem]
      refine ⟨hlo, ?_, hnot⟩
      by_contra hge
      have hge := Nat.not_lt.mp hge
      -- the list is full, so that all gaps have started before the position that was reached
      have hreached := hfull.resolve_left (by omega)
      have hmono : gapsBelow dataStart.toNat (claimed (natExtents used)) reached
          ≤ gapsBelow dataStart.toNat (claimed (natExtents used)) diskSize.toNat :=
        gapsBelow_mono hlimit
      have heq : gapsBelow dataStart.toNat (claimed (natExtents used)) reached
          = gapsBelow dataStart.toNat (claimed (natExtents used)) diskSize.toNat := by
        have hcount' : gapsBelow dataStart.toNat (claimed (natExtents used)) diskSize.toNat
            ≤ 200 := hcount
        omega
      obtain ⟨hbase, hprev, hout⟩ := notMem_of_gapsBelow_eq heq h.base_le hge hhi hnot
      have hempty : EmptyAt used reached := by
        obtain ⟨r, hr, hzero, hoffset⟩ :=
          (hedge.resolve_left (by omega)).resolve_left hprev
        obtain rfl | hr := List.mem_cons.mp hr
        · dsimp only at hoffset
          omega
        · exact ⟨r, hr, hzero, hoffset⟩
      have hcount' : startsBelow used dataStart.toNat diskSize.toNat = 200 :=
        Nat.le_antisymm hcount (Nat.le_trans hreached hmono)
      exact hnosplit ⟨hcount', reached, by omega, ⟨hempty, hbase, hprev, hout⟩, heq.trans hcount'⟩

/-- The complement of two extents. -/
theorem rebuild_complement_two :
  Complements [(131072, 8192), (65536, 4096)] 65536 1048576
    (rebuildFromInodes [(131072, 8192), (65536, 4096)] 1048576 65536)
  := by
  have hused : ∀ r ∈ [((131072 : UInt64), (8192 : UInt64)), (65536, 4096)],
      (65536 : UInt64).toNat ≤ r.1.toNat
        ∧ r.1.toNat + r.2.toNat ≤ (1048576 : UInt64).toNat := by
    intro r hr
    simp only [List.mem_cons, List.not_mem_nil, or_false] at hr
    obtain rfl | rfl := hr <;> exact ⟨by decide, by decide⟩
  apply (rebuild_complement_iff (by decide) (by decide) hused).mpr
  rintro ⟨-, x, -, ⟨⟨r, hr, hzero, -⟩, -⟩, -⟩
  simp only [List.mem_cons, List.not_mem_nil, or_false] at hr
  obtain rfl | rfl := hr <;> exact absurd hzero (by decide)

/-- Extents of one byte with 200 gaps, and one of length 0 in the last gap. -/
def manyExtents : List (UInt64 × UInt64) :=
  (404, 0) :: (List.range 199).map fun i => (UInt64.ofNat (2 * i + 2), 1)

theorem mem_manyExtents {r : UInt64 × UInt64} (hr : r ∈ manyExtents) :
  r.1.toNat = 404 ∧ r.2.toNat = 0 ∨ ∃ i < 199, r.1.toNat = 2 * i + 2 ∧ r.2.toNat = 1
  := by
  obtain rfl | hr := List.mem_cons.mp hr
  · exact Or.inl ⟨rfl, rfl⟩
  · obtain ⟨i, hi, rfl⟩ := List.mem_map.mp hr
    rw [List.mem_range] at hi
    refine Or.inr ⟨i, hi, ?_, rfl⟩
    rw [UInt64.toNat_ofNat']
    exact Nat.mod_eq_of_lt (by omega)

theorem mem_claimed_manyExtents {x : ℕ} :
  x ∈ claimed (natExtents manyExtents) ↔ ∃ i < 199, x = 2 * i + 2
  := by
  rw [mem_claimed_natExtents]
  constructor
  · rintro ⟨r, hr, hlo, hhi⟩
    obtain ⟨hoffset, hlength⟩ | ⟨i, hi, hoffset, hlength⟩ := mem_manyExtents hr
    · omega
    · exact ⟨i, hi, by omega⟩
  · rintro ⟨i, hi, rfl⟩
    have hmem : (UInt64.ofNat (2 * i + 2), (1 : UInt64)) ∈ manyExtents :=
      List.mem_cons_of_mem _ (List.mem_map.mpr ⟨i, List.mem_range.mpr hi, rfl⟩)
    refine ⟨_, hmem, ?_⟩
    have hoffset : (UInt64.ofNat (2 * i + 2)).toNat = 2 * i + 2 := by
      rw [UInt64.toNat_ofNat']
      exact Nat.mod_eq_of_lt (by omega)
    have hone : (1 : UInt64).toNat = 1 := rfl
    dsimp only
    omega

/-- All 200 gaps have started before position 400. -/
theorem startsBelow_manyExtents {limit : ℕ} (hlimit : 400 ≤ limit) :
  startsBelow manyExtents 1 limit = 200
  := by
  have hstarts : {a | GapStart 1 (claimed (natExtents manyExtents)) a ∧ a < limit}
      = ((Finset.range 200).image fun i => 2 * i + 1 : Finset ℕ) := by
    ext a
    simp only [GapStart, mem_claimed_manyExtents, Set.mem_ofPred_eq, Finset.coe_image,
      Finset.coe_range, Set.mem_image, Set.mem_Iio]
    constructor
    · rintro ⟨⟨hle, -, rfl | ⟨i, hi, heq⟩⟩, -⟩
      · exact ⟨0, by omega, rfl⟩
      · exact ⟨i + 1, by omega, by omega⟩
    · rintro ⟨i, hi, rfl⟩
      refine ⟨⟨by omega, ?_, ?_⟩, by omega⟩
      · rintro ⟨j, -, heq⟩
        omega
      · obtain rfl | hpos := Nat.eq_zero_or_pos i
        · exact Or.inl rfl
        · exact Or.inr ⟨i - 1, by omega, by omega⟩
  rw [startsBelow, gapsBelow, hstarts, Set.ncard_coe_finset, Finset.card_image_of_injective]
  · exact Finset.card_range 200
  · intro i j heq
    dsimp only at heq
    omega

/-- When an extent of length 0 splits the 200th gap, its second part is lost. -/
theorem not_rebuild_complement :
  ¬ ∀ (used : List (UInt64 × UInt64)) (diskSize dataStart : UInt64), 0 < dataStart →
      dataStart < diskSize →
      (∀ r ∈ used, dataStart.toNat ≤ r.1.toNat ∧ r.1.toNat + r.2.toNat ≤ diskSize.toNat) →
      Complements used dataStart.toNat diskSize.toNat (rebuildFromInodes used diskSize dataStart)
  := by
  intro h
  have hone : (1 : UInt64).toNat = 1 := rfl
  have hdisk : (410 : UInt64).toNat = 410 := rfl
  have hused : ∀ r ∈ manyExtents,
      (1 : UInt64).toNat ≤ r.1.toNat ∧ r.1.toNat + r.2.toNat ≤ (410 : UInt64).toNat := by
    intro r hr
    obtain ⟨hoffset, hlength⟩ | ⟨i, hi, hoffset, hlength⟩ := mem_manyExtents hr <;> omega
  apply (rebuild_complement_iff (by decide) (by decide) hused).mp
    (h manyExtents 410 1 (by decide) (by decide) hused)
  have hnot : ∀ x, 399 ≤ x → x ∉ claimed (natExtents manyExtents) := by
    intro x hx hin
    obtain ⟨i, hi, heq⟩ := mem_claimed_manyExtents.mp hin
    omega
  refine ⟨startsBelow_manyExtents (by decide), 404, by decide, ?_,
    startsBelow_manyExtents (by decide)⟩
  exact ⟨⟨_, List.mem_cons_self, rfl, rfl⟩, by decide, hnot _ (by decide), hnot _ (by decide)⟩

end FreeList

end Vexfs
