import Vexfs.Fs.Allocation

/-!
# The conservation of free space

Space is handed out by `FreeList.alloc` and returned by `FreeList.free`.  What is free and what
is handed out make up the space there was in the beginning, but for the bytes that are lost:
the remainder of an extent when it has fewer than 512 bytes, and an extent that is returned
when the list is full (`space_accounted`).
-/

namespace Vexfs

open Storage

/-! ### The size of a list -/

namespace FreeList

open FreeExtent

/-- The number of bytes of some extents. -/
def size (extents : List FreeExtent) : ℕ := (extents.map fun e => e.length.toNat).sum

theorem size_cons (e : FreeExtent) (es : List FreeExtent) :
  size (e :: es) = e.length.toNat + size es
  := List.sum_cons

theorem size_perm {es es' : List FreeExtent} (h : es.Perm es') :
  size es = size es'
  := (h.map _).sum_eq

theorem ncard_bytes (e : FreeExtent) :
  e.bytes.ncard = e.length.toNat
  := by
  rw [bytes, Set.ncard_Ico_nat, start, stop, Nat.add_sub_cancel_left]

theorem finite_covered (es : List FreeExtent) :
  (covered es).Finite
  := by
  induction es with
  | nil => exact Set.finite_empty.subset fun i ⟨e, he, _⟩ => (by cases he)
  | cons e es ih =>
      rw [covered_cons]
      exact (Set.finite_Ico _ _).union ih

/-- Extents that do not meet have as many bytes as they cover. -/
theorem size_eq_ncard {es : List FreeExtent} (h : (es.map bytes).Pairwise Disjoint) :
  size es = (covered es).ncard
  := by
  induction es with
  | nil =>
      have hempty : covered [] = ∅ := by
        apply Set.eq_empty_of_forall_notMem
        rintro i ⟨e, he, -⟩
        cases he
      rw [hempty, Set.ncard_empty]
      rfl
  | cons e es ih =>
      rw [List.map_cons, List.pairwise_cons] at h
      have hdisjoint : Disjoint e.bytes (covered es) := by
        rw [Set.disjoint_left]
        rintro i hi ⟨e', he', hi'⟩
        exact Set.disjoint_left.mp (h.1 e'.bytes (List.mem_map_of_mem he')) hi hi'
      rw [size_cons, covered_cons, Set.ncard_union_eq hdisjoint (Set.finite_Ico _ _)
        (finite_covered es), ncard_bytes, ih h.2]

/-- The sum of the lengths does not wrap around when it is small. -/
theorem toNat_totalFreeBytes {fl : FreeList} (h : size fl.extents < 2 ^ 64) :
  fl.totalFreeBytes.toNat = size fl.extents
  := by
  rw [totalFreeBytes]
  generalize fl.extents = es at h
  induction es with
  | nil => rfl
  | cons e es ih =>
      rw [size_cons] at h ⊢
      rw [List.map_cons, List.sum_cons, UInt64.toNat_add, ih (by omega), Nat.mod_eq_of_lt h]

/-- What the remainder of an extent loses. -/
def lostOf (remainder : ℕ) : ℕ := if 512 ≤ remainder then 0 else remainder

/-- The bytes that are lost when an extent of at least `minSize` bytes is claimed. -/
def lostByAlloc (fl : FreeList) (minSize : ℕ) : ℕ :=
  ((bestFit fl.extents minSize).bind fun idx =>
    fl.extents[idx]?.map fun e => lostOf (e.length.toNat - minSize)).getD 0

/-- The bytes that are lost when an extent is freed. -/
def lostByFree (fl : FreeList) (length : ℕ) : ℕ :=
  if maxPersistedExtents ≤ fl.extents.length then length else 0

theorem size_append_singleton (es : List FreeExtent) (e : FreeExtent) :
  size (es ++ [e]) = e.length.toNat + size es
  := (size_perm (List.perm_append_singleton e es)).trans (size_cons e es)

/-- Claiming an extent takes its bytes and those that are lost. -/
theorem size_alloc {fl fl' : FreeList} {n : ℕ} {offset : UInt64} (hn : n < 2 ^ 64)
    (h : fl.alloc n = some (offset, fl')) :
  size fl'.extents + n + fl.lostByAlloc n = size fl.extents
  := by
  obtain ⟨idx, e, hfit, hget, hperm, -, hle, hrem, hfl⟩ := alloc_eq_some hn h
  have hlost : fl.lostByAlloc n = lostOf (e.length.toNat - n) := by
    rw [lostByAlloc, hfit, Option.bind_some, hget]
    rfl
  have hsize : size fl.extents = e.length.toNat + size (fl.extents.eraseIdx idx) :=
    (size_perm hperm.symm).trans (size_cons e _)
  rw [hlost, lostOf, hsize, hfl]
  split
  · rw [size_append_singleton, hrem]
    omega
  · omega

theorem lostByAlloc_of_none {fl : FreeList} {n : ℕ} (h : fl.alloc n = none) :
  fl.lostByAlloc n = 0
  := by
  unfold alloc at h
  rw [lostByAlloc]
  cases hfit : bestFit fl.extents n with
  | none => rfl
  | some idx =>
      simp only [hfit] at h
      rw [Option.bind_some]
      cases hget : fl.extents[idx]? with
      | none => rfl
      | some e =>
          simp only [hget] at h
          split at h <;> cases h

/-- Freeing an extent returns its bytes, but for those that are lost. -/
theorem Spaced.size_free {base limit : ℕ} {owned : List (Set ℕ)} {fl : FreeList}
    {offset length : UInt64} (hlimit : limit < 2 ^ 64) (hoffset : offset ≠ 0)
    (h : Spaced base limit (dataRange offset length.toNat :: owned) fl) :
  size (fl.free offset length).extents + fl.lostByFree length.toNat
    = size fl.extents + length.toNat
  := by
  rw [FreeList.free, lostByFree]
  by_cases hlength : length = 0
  · rw [if_pos (Or.inr hlength), hlength]
    split <;> rfl
  · rw [if_neg (not_or.mpr ⟨hoffset, hlength⟩)]
    split
    · rfl
    · obtain ⟨hcovered, -, hgaps⟩ := mergeAdjacent_spec
        (h.proper_append hlimit hlength (h.layout.owned_within _ List.mem_cons_self))
      let e : FreeExtent := ⟨offset, length⟩
      have hgiven : ((fl.extents ++ [e]).map bytes).Pairwise Disjoint := by
        have hperm := (List.perm_append_singleton e fl.extents).map bytes
        exact hperm.symm.pairwise h.layout.give.free_apart fun hab => hab.symm
      rw [size_eq_ncard (apart_of_gaps hgaps), hcovered, ← size_eq_ncard hgiven,
        size_append_singleton,
        Nat.add_zero, Nat.add_comm]

/-- The extents of a region have fewer bytes than the region. -/
theorem Spaced.size_le {base limit : ℕ} {owned : List (Set ℕ)} {fl : FreeList}
    (h : Spaced base limit owned fl) :
  size fl.extents ≤ limit - base
  := by
  rw [size_eq_ncard h.layout.free_apart, ← Set.ncard_Ico_nat]
  apply Set.ncard_le_ncard _ (Set.finite_Ico _ _)
  rintro i ⟨e, he, hi⟩
  exact h.layout.free_within _ (List.mem_map_of_mem he) hi

/-- The list after some extents were freed, from the empty list on. -/
def freed (initial : List (UInt64 × UInt64)) : FreeList :=
  initial.foldl (fun fl e => fl.free e.1 e.2) new

end FreeList

/-! ### Runs -/

/-- A free list with the extents that were handed out and not returned since. -/
structure Space where
  freeList : FreeList
  live : List (UInt64 × ℕ)
deriving DecidableEq, Repr

/-- An operation on the space. -/
inductive SpaceOp where
  | alloc (minSize : ℕ)
  | free (offset : UInt64) (length : ℕ)
deriving DecidableEq, Repr

namespace SpaceOp

/-- Extents are freed as they were allocated; a size is a machine word. -/
def Allowed (s : Space) : SpaceOp → Prop
  | alloc minSize => minSize < 2 ^ 64
  | free offset length => (offset, length) ∈ s.live

instance (s : Space) (op : SpaceOp) : Decidable (op.Allowed s) := by
  cases op <;> unfold Allowed <;> infer_instance

def run (s : Space) : SpaceOp → Space
  | alloc minSize =>
      match s.freeList.alloc minSize with
      | none => s
      | some (offset, freeList) => ⟨freeList, (offset, minSize) :: s.live⟩
  | free offset length =>
      ⟨s.freeList.free offset (UInt64.ofNat length), s.live.erase (offset, length)⟩

/-- The bytes that the operation loses. -/
def lost (s : Space) : SpaceOp → ℕ
  | alloc minSize => s.freeList.lostByAlloc minSize
  | free _ length => s.freeList.lostByFree length

end SpaceOp

namespace Space

/-- The bytes that are handed out. -/
def liveBytes (s : Space) : ℕ := (s.live.map Prod.snd).sum

/-- The ranges of the live extents. -/
def ranges (s : Space) : List (Set ℕ) := s.live.map fun p => dataRange p.1 p.2

/-- What a run from one state to another loses. -/
inductive Run (s : Space) : ℕ → Space → Prop where
  | refl : Run s 0 s
  | step {lost : ℕ} {s' : Space} (op : SpaceOp) (hrun : Run s lost s') (hop : op.Allowed s') :
      Run s (lost + op.lost s') (op.run s')

/-- No live or free extents meet. -/
structure Sound (s : Space) : Prop where
  spaced : s.freeList.Spaced 1 (2 ^ 64 - 1) s.ranges
  proper : ∀ p ∈ s.live, p.1 ≠ 0 ∧ p.2 < 2 ^ 64

/-- An operation keeps this, and changes what is free and what is live by what it loses. -/
theorem Sound.step {s : Space} {op : SpaceOp} (hop : op.Allowed s) (h : s.Sound) :
  (op.run s).Sound
    ∧ FreeList.size (op.run s).freeList.extents + (op.run s).liveBytes + op.lost s
      = FreeList.size s.freeList.extents + s.liveBytes
  := by
  cases op with
  | alloc n =>
      rw [SpaceOp.run]
      cases halloc : s.freeList.alloc n with
      | none =>
          have hlost : (SpaceOp.alloc n).lost s = 0 := FreeList.lostByAlloc_of_none halloc
          exact ⟨h, by rw [hlost]; rfl⟩
      | some r =>
          obtain ⟨offset, freeList⟩ := r
          have hsize := FreeList.size_alloc hop halloc
          obtain ⟨idx, e, -, hget, -, hoffset, -⟩ := FreeList.alloc_eq_some hop halloc
          have he := List.mem_of_getElem? hget
          have hstart := h.spaced.layout.free_within _ (List.mem_map_of_mem he)
            (h.spaced.proper (by decide) e he).start_mem
          refine ⟨⟨FreeList.Spaced.alloc (by decide) hop halloc h.spaced, ?_⟩, ?_⟩
          · intro p hp
            obtain rfl | hp := List.mem_cons.mp hp
            · refine ⟨?_, hop⟩
              rintro rfl
              have hpos : 1 ≤ e.offset.toNat := hstart.1
              rw [← hoffset] at hpos
              exact absurd hpos (by decide)
            · exact h.proper p hp
          · show FreeList.size freeList.extents + (n + s.liveBytes) + s.freeList.lostByAlloc n = _
            omega
  | free offset n =>
      obtain ⟨hoffset, hn⟩ : offset ≠ 0 ∧ n < 2 ^ 64 := h.proper _ hop
      have hofNat : (UInt64.ofNat n).toNat = n := UInt64.toNat_ofNat_of_lt' hn
      have hperm := List.perm_cons_erase hop
      have hspaced : s.freeList.Spaced 1 (2 ^ 64 - 1)
          (dataRange offset (UInt64.ofNat n).toNat
            :: (s.live.erase (offset, n)).map fun p => dataRange p.1 p.2) := by
        rw [hofNat]
        exact ⟨h.spaced.layout.perm (hperm.map _), h.spaced.pos⟩
      have hsize := hspaced.size_free (by decide) hoffset
      have hlive : s.liveBytes = n + ((s.live.erase (offset, n)).map Prod.snd).sum :=
        (hperm.map Prod.snd).sum_eq.trans List.sum_cons
      rw [hofNat] at hsize
      refine ⟨⟨hspaced.free (by decide), fun p hp => h.proper p (List.mem_of_mem_erase hp)⟩, ?_⟩
      rw [hlive]
      show FreeList.size (s.freeList.free offset (UInt64.ofNat n)).extents
        + ((s.live.erase (offset, n)).map Prod.snd).sum + s.freeList.lostByFree n = _
      omega

theorem Sound.run {s s' : Space} {lost : ℕ} (hrun : s.Run lost s') (h : s.Sound) :
  s'.Sound
    ∧ FreeList.size s'.freeList.extents + s'.liveBytes + lost
      = FreeList.size s.freeList.extents + s.liveBytes
  := by
  induction hrun with
  | refl => exact ⟨h, rfl⟩
  | step op hrun hop ih =>
      obtain ⟨hsound, hsize⟩ := ih
      obtain ⟨hsound', hsize'⟩ := hsound.step hop
      exact ⟨hsound', by omega⟩

/-- The ranges of the extents that are freed; one at the start of the disk is not. -/
def givenRanges (es : List (UInt64 × UInt64)) : List (Set ℕ) :=
  (es.filter (·.1 ≠ 0)).map fun e => dataRange e.1 e.2.toNat

theorem givenRanges_cons (e : UInt64 × UInt64) (es : List (UInt64 × UInt64)) :
  givenRanges (e :: es)
    = if e.1 = 0 then givenRanges es else dataRange e.1 e.2.toNat :: givenRanges es
  := by
  rw [givenRanges, givenRanges, List.filter_cons]
  by_cases hzero : e.1 = 0
  · rw [if_pos hzero, if_neg (by simpa using hzero)]
  · rw [if_neg hzero, if_pos (by simpa using hzero), List.map_cons]

/-- Freeing extents that are in use, one after the other. -/
theorem spaced_foldl_free {es : List (UInt64 × UInt64)} {fl : FreeList}
    (h : fl.Spaced 1 (2 ^ 64 - 1) (givenRanges es)) :
  (es.foldl (fun fl e => fl.free e.1 e.2) fl).Spaced 1 (2 ^ 64 - 1) []
  := by
  induction es generalizing fl with
  | nil => exact h
  | cons e es ih =>
      rw [givenRanges_cons] at h
      apply ih
      split at h
      · next hzero =>
        have hfree : fl.free e.1 e.2 = fl := if_pos (Or.inl hzero)
        show (fl.free e.1 e.2).Spaced _ _ _
        rw [hfree]
        exact h
      · exact h.free (by decide)

/-- The extents that are freed in the beginning do not meet. -/
theorem spaced_freed {initial : List (UInt64 × UInt64)}
    (hapart : (initial.map fun e => dataRange e.1 e.2.toNat).Pairwise Disjoint)
    (hends : ∀ e ∈ initial, e.1.toNat + e.2.toNat < 2 ^ 64) :
  (FreeList.freed initial).Spaced 1 (2 ^ 64 - 1) []
  := by
  apply spaced_foldl_free
  refine ⟨⟨?_, List.Pairwise.nil, fun _ _ _ ht => (by cases ht), ?_, fun _ ht => (by cases ht)⟩,
    fun _ he => (by cases he)⟩
  · exact hapart.sublist (List.filter_sublist.map _)
  · intro t ht
    obtain ⟨e, he, rfl⟩ := List.mem_map.mp ht
    obtain ⟨hmem, hne⟩ := List.mem_filter.mp he
    have hpos : e.1.toNat ≠ 0 := fun hzero => of_decide_eq_true hne (UInt64.toNat_inj.mp hzero)
    have hend := hends e hmem
    apply Set.Ico_subset_Ico <;> omega

/-- In every run after some disjoint extents were freed, what is free and what is handed out make
up what was free in the beginning, but for what was lost: the remainders of fewer than 512
bytes, and the extents that were returned when the list was full. -/
theorem space_accounted {initial : List (UInt64 × UInt64)}
    (hapart : (initial.map fun e => dataRange e.1 e.2.toNat).Pairwise Disjoint)
    (hends : ∀ e ∈ initial, e.1.toNat + e.2.toNat < 2 ^ 64) {lost : ℕ} {s : Space}
    (hrun : Run ⟨FreeList.freed initial, []⟩ lost s) :
  s.freeList.totalFreeBytes.toNat + s.liveBytes + lost
    = (FreeList.freed initial).totalFreeBytes.toNat
  := by
  have hstart := spaced_freed hapart hends
  obtain ⟨hsound, hsize⟩ := Sound.run hrun ⟨hstart, fun p hp => (by cases hp)⟩
  have hle := hsound.spaced.size_le
  have hle' := hstart.size_le
  rw [FreeList.toNat_totalFreeBytes (by omega), FreeList.toNat_totalFreeBytes (by omega)]
  exact hsize

/-- A part of an extent is handed out and returned. -/
theorem space_accounted_alloc_free :
  let ops := [SpaceOp.alloc 512, SpaceOp.free 4096 512]
  let s := ops.foldl SpaceOp.run ⟨FreeList.freed [(4096, 8192)], []⟩
  s.freeList.totalFreeBytes.toNat + s.liveBytes + 0
    = (FreeList.freed [(4096, 8192)]).totalFreeBytes.toNat
  := by
  intro ops s
  have hends : ∀ e ∈ [((4096 : UInt64), (8192 : UInt64))], e.1.toNat + e.2.toNat < 2 ^ 64 :=
    List.forall_mem_singleton.mpr (by decide)
  apply space_accounted (List.pairwise_singleton _ _) hends
  exact .step (SpaceOp.free 4096 512) (.step (SpaceOp.alloc 512) .refl (by decide)) (by decide)

/-- A remainder of 400 bytes is lost. -/
theorem not_space_conserved :
  ¬ ∀ (initial : List (UInt64 × UInt64)) (lost : ℕ) (s : Space),
      (initial.map fun e => dataRange e.1 e.2.toNat).Pairwise Disjoint →
      (∀ e ∈ initial, e.1.toNat + e.2.toNat < 2 ^ 64) →
      Run ⟨FreeList.freed initial, []⟩ lost s →
      s.freeList.totalFreeBytes.toNat + s.liveBytes
        = (FreeList.freed initial).totalFreeBytes.toNat
  := by
  intro h
  have heq := h [(4096, 1000)] _ _ (List.pairwise_singleton _ _)
    (List.forall_mem_singleton.mpr (by decide)) (.step (SpaceOp.alloc 600) .refl (by decide))
  revert heq
  decide

end Space

end Vexfs
