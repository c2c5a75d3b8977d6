import Vexfs.Collections.SortedMap
import Vexfs.Fs.DiskManager
import Vexfs.Storage.Layout

/-!
# The allocation of disk space

The free list and the bump pointer of the superblock keep a layout of the data region: the
extents in use, the inode blocks appended to the image and the extents of the free list do
not meet, and all of them lie between the start of the region and the pointer.  What
`alloc_data`, `free_data` and the growth of the inode table do to the layout is stated with
the rules of `Storage.Layout`; a run of such operations keeps it.
-/

namespace Vexfs

open Storage

/-- The positions of `n` bytes at an offset. -/
def dataRange (offset : UInt64) (n : Nat) : Set Nat :=
  Set.Ico offset.toNat (offset.toNat + n)

/-! ### The free list -/

namespace FreeExtent

/-- Whether an extent has a byte, and ends before the positions wrap around. -/
structure Proper (e : FreeExtent) : Prop where
  pos : 0 < e.length.toNat
  stop_lt : e.stop < 2 ^ 64

theorem bytes_eq_dataRange (e : FreeExtent) :
  e.bytes = dataRange e.offset e.length.toNat
  := rfl

theorem Proper.start_mem {e : FreeExtent} (he : e.Proper) :
  e.start ∈ e.bytes
  := by
  have hpos := he.pos
  constructor
  · exact Nat.le_refl _
  · simp only [start, stop]
    omega

theorem toNat_stop {e : FreeExtent} (he : e.Proper) :
  (e.offset + e.length).toNat = e.stop
  := by
  have hlt : e.offset.toNat + e.length.toNat < 2 ^ 64 := he.stop_lt
  rw [UInt64.toNat_add, Nat.mod_eq_of_lt hlt, stop]

/-- An extent with a byte that lies below a limit is proper. -/
theorem proper_of_subset {e : FreeExtent} {base limit : Nat} (hlimit : limit < 2 ^ 64)
    (hpos : 0 < e.length.toNat) (hsub : e.bytes ⊆ Set.Ico base limit) :
  e.Proper
  := by
  have hlast : e.stop - 1 ∈ e.bytes := by
    simp only [bytes, start, stop, Set.mem_Ico]
    omega
  have hlt := (hsub hlast).2
  use hpos
  omega

/-- The extent that `last` becomes when it is merged with `e`. -/
def merged (last e : FreeExtent) : FreeExtent :=
  { last with length := max (e.offset + e.length) (last.offset + last.length) - last.offset }

/-- Merging extends an extent to the end of the other one. -/
theorem stop_merged {last e : FreeExtent} (hlast : last.Proper) (he : e.Proper) :
  (merged last e).stop = max e.stop last.stop
  := by
  have hmax : (max (e.offset + e.length) (last.offset + last.length)).toNat
      = max e.stop last.stop := by
    rw [UInt64.toNat_max, toNat_stop he, toNat_stop hlast]
  have hle : last.offset.toNat ≤ last.stop := Nat.le_add_right _ _
  have hsub : (merged last e).length.toNat = max e.stop last.stop - last.offset.toNat := by
    rw [merged, UInt64.toNat_sub_of_le, hmax]
    rw [UInt64.le_iff_toNat_le, hmax]
    omega
  have hoff : (merged last e).offset = last.offset := rfl
  rw [stop, hsub, hoff]
  omega

theorem proper_merged {last e : FreeExtent} (hlast : last.Proper) (he : e.Proper) :
  (merged last e).Proper
  := by
  have hstop := stop_merged hlast he
  have hpos := hlast.pos
  have hlt := hlast.stop_lt
  have hlt' := he.stop_lt
  constructor
  · simp only [stop] at hstop
    have hoff : (merged last e).offset = last.offset := rfl
    rw [hoff] at hstop
    omega
  · omega

/-- Merging an extent with one that starts within it or at its end joins their bytes. -/
theorem bytes_merged {last e : FreeExtent} (hlast : last.Proper) (he : e.Proper)
    (hle : last.start ≤ e.start) (htouch : e.start ≤ last.stop) :
  (merged last e).bytes = last.bytes ∪ e.bytes
  := by
  have hstop := stop_merged hlast he
  have hstart : (merged last e).start = last.start := rfl
  have hpos := he.pos
  have hse : e.stop = e.start + e.length.toNat := rfl
  ext i
  simp only [bytes, hstart, hstop, Set.mem_union, Set.mem_Ico]
  omega

end FreeExtent

namespace FreeList

open FreeExtent

/-- The positions covered by the extents of a list. -/
def covered (extents : List FreeExtent) : Set Nat := {i | ∃ e ∈ extents, i ∈ e.bytes}

theorem covered_cons (e : FreeExtent) (es : List FreeExtent) :
  covered (e :: es) = e.bytes ∪ covered es
  := by
  ext i
  simp [covered]

theorem mergeRuns_of_touch {last e : FreeExtent} {es : List FreeExtent} (hlast : last.Proper)
    (h : e.start ≤ last.stop) :
  mergeRuns last (e :: es) = mergeRuns (merged last e) es
  := by
  rw [mergeRuns, if_pos]
  · rfl
  · rw [UInt64.le_iff_toNat_le, toNat_stop hlast]
    exact h

theorem mergeRuns_of_gap {last e : FreeExtent} {es : List FreeExtent} (hlast : last.Proper)
    (h : last.stop < e.start) :
  mergeRuns last (e :: es) = last :: mergeRuns e es
  := by
  rw [mergeRuns, if_neg]
  rw [UInt64.le_iff_toNat_le, toNat_stop hlast]
  exact Nat.not_le.mpr h

/-- Merging the runs of a sorted list covers the same positions, by proper extents with gaps
between them, from the start of the first extent on. -/
theorem mergeRuns_spec {last : FreeExtent} {es : List FreeExtent} (hlast : last.Proper)
    (hes : ∀ e ∈ es, e.Proper) (hle : ∀ e ∈ es, last.start ≤ e.start)
    (hsorted : es.Pairwise fun a b => a.start ≤ b.start) :
  covered (mergeRuns last es) = covered (last :: es)
    ∧ (∀ e ∈ mergeRuns last es, e.Proper ∧ last.start ≤ e.start)
    ∧ (mergeRuns last es).Pairwise fun a b => a.stop < b.start
  := by
  induction es generalizing last with
  | nil =>
      simp [mergeRuns, hlast]
  | cons e es ih =>
      obtain ⟨hhead, htail⟩ := List.pairwise_cons.mp hsorted
      have he := hes e List.mem_cons_self
      have hes' : ∀ x ∈ es, x.Proper := fun x hx => hes x (List.mem_cons_of_mem e hx)
      have hlee := hle e List.mem_cons_self
      obtain htouch | hgap := Nat.lt_or_ge last.stop e.start |>.symm
      · rw [mergeRuns_of_touch hlast htouch]
        obtain ⟨hcov, hall, hpair⟩ := ih (proper_merged hlast he) hes'
          (fun x hx => hle x (List.mem_cons_of_mem e hx)) htail
        use ?_, hall, hpair
        rw [hcov, covered_cons, bytes_merged hlast he hlee htouch, covered_cons, covered_cons,
          Set.union_assoc]
      · rw [mergeRuns_of_gap hlast hgap]
        obtain ⟨hcov, hall, hpair⟩ := ih he hes' hhead htail
        use ?_, ?_, ?_
        · rw [covered_cons, hcov, covered_cons last]
        · intro x hx
          obtain rfl | hx := List.mem_cons.mp hx
          · use hlast
          · use (hall x hx).1, Nat.le_trans hlee (hall x hx).2
        · apply List.pairwise_cons.mpr
          use fun x hx => Nat.lt_of_lt_of_le hgap (hall x hx).2, hpair

/-- Extents with gaps between them do not meet. -/
theorem disjoint_of_gap {a b : FreeExtent} (h : a.stop < b.start) :
  Disjoint a.bytes b.bytes
  := by
  rw [Set.disjoint_left]
  intro i ha hb
  exact absurd (Nat.lt_trans ha.2 h) (Nat.not_lt.mpr hb.1)

theorem apart_of_gaps {extents : List FreeExtent}
    (h : extents.Pairwise fun a b => a.stop < b.start) :
  (extents.map bytes).Pairwise Disjoint
  := List.pairwise_map.mpr (h.imp disjoint_of_gap)

/-- Merging adjacent extents covers the same positions, by proper extents with gaps between
them. -/
theorem mergeAdjacent_spec {extents : List FreeExtent} (h : ∀ e ∈ extents, e.Proper) :
  covered (mergeAdjacent extents) = covered extents
    ∧ (∀ e ∈ mergeAdjacent extents, e.Proper)
    ∧ (mergeAdjacent extents).Pairwise fun a b => a.stop < b.start
  := by
  unfold mergeAdjacent
  split
  · rename_i hlen
    use rfl, h
    match extents, hlen with
    | [], _ => simp
    | [e], _ => simp
  · have hperm := extents.mergeSort_perm (fun a b => a.offset ≤ b.offset)
    have hsorted : (extents.mergeSort fun a b => a.offset ≤ b.offset).Pairwise
        fun a b => a.start ≤ b.start := by
      apply SortedMap.pairwise_mergeSort FreeExtent.start
      intro a b
      rw [decide_eq_true_eq, UInt64.le_iff_toNat_le]
      rfl
    have hcov : covered (extents.mergeSort fun a b => a.offset ≤ b.offset) = covered extents := by
      ext i
      simp only [covered, Set.mem_ofPred_eq, hperm.mem_iff]
    have hmem : ∀ e ∈ extents.mergeSort fun a b => a.offset ≤ b.offset, e.Proper := by
      intro e he
      apply h e (hperm.mem_iff.mp he)
    rw [← hcov]
    generalize extents.mergeSort (fun a b => a.offset ≤ b.offset) = sorted at hsorted hmem
    cases sorted with
    | nil => simp [covered]
    | cons e es =>
        obtain ⟨hhead, htail⟩ := List.pairwise_cons.mp hsorted
        obtain ⟨hcov, hall, hpair⟩ := mergeRuns_spec (hmem e List.mem_cons_self)
          (fun x hx => hmem x (List.mem_cons_of_mem e hx)) hhead htail
        use hcov, fun x hx => (hall x hx).1, hpair

/-- Merging adjacent extents that do not reach the end of the addresses gives extents in the
order of their offsets, with at least one byte between them, that have the same bytes. -/
theorem mergeAdjacent_covers {extents : List FreeExtent}
    (h : ∀ e ∈ extents, 0 < e.length.toNat ∧ e.offset.toNat + e.length.toNat < 2 ^ 64) :
  (mergeAdjacent extents).Pairwise (fun a b => a.offset < b.offset)
    ∧ (mergeAdjacent extents).Pairwise (fun a b => a.stop < b.start)
    ∧ ∀ i, (∃ e ∈ mergeAdjacent extents, i ∈ e.bytes) ↔ ∃ e ∈ extents, i ∈ e.bytes
  := by
  obtain ⟨hcov, -, hgap⟩ := mergeAdjacent_spec fun e he => ⟨(h e he).1, (h e he).2⟩
  use ?_, hgap
  · exact Set.ext_iff.mp hcov
  · apply hgap.imp
    intro a b hab
    apply UInt64.lt_iff_toNat_lt.mpr
    exact (Nat.le_add_right _ _).trans_lt hab

/-- Extents that nest, touch and repeat, in no order. -/
theorem mergeAdjacent_covers_three :
  (mergeAdjacent [⟨4608, 512⟩, ⟨4096, 512⟩, ⟨4096, 64⟩]).Pairwise
      (fun a b => a.offset < b.offset)
    ∧ (mergeAdjacent [⟨4608, 512⟩, ⟨4096, 512⟩, ⟨4096, 64⟩]).Pairwise
      (fun a b => a.stop < b.start)
    ∧ ∀ i, (∃ e ∈ mergeAdjacent [⟨4608, 512⟩, ⟨4096, 512⟩, ⟨4096, 64⟩], i ∈ e.bytes)
      ↔ ∃ e ∈ ([⟨4608, 512⟩, ⟨4096, 512⟩, ⟨4096, 64⟩] : List FreeExtent), i ∈ e.bytes
  := mergeAdjacent_covers (by decide)

/-- The extents of a free list and the sets in use lay out the region from `base` up to
`limit`. -/
structure Spaced (base limit : Nat) (owned : List (Set Nat)) (fl : FreeList) : Prop where
  layout : Layout base limit owned (fl.extents.map bytes)
  pos : ∀ e ∈ fl.extents, 0 < e.length.toNat

namespace Spaced

variable {base limit : Nat} {owned : List (Set Nat)} {fl : FreeList}

theorem proper (hlimit : limit < 2 ^ 64) (h : Spaced base limit owned fl) :
  ∀ e ∈ fl.extents, e.Proper
  := by
  intro e he
  apply proper_of_subset hlimit (h.pos e he)
  apply h.layout.free_within
  apply List.mem_map_of_mem he

/-- The extents of the list and one of the region are proper. -/
theorem proper_append {offset length : UInt64} (hlimit : limit < 2 ^ 64) (hlength : length ≠ 0)
    (hwithin : dataRange offset length.toNat ⊆ Set.Ico base limit)
    (h : Spaced base limit owned fl) :
  ∀ e ∈ fl.extents ++ [⟨offset, length⟩], e.Proper
  := by
  intro e he
  obtain he | he := List.mem_append.mp he
  · exact h.proper hlimit e he
  · obtain rfl := List.mem_singleton.mp he
    rw [ne_eq, ← UInt64.toNat_inj] at hlength
    exact proper_of_subset hlimit (Nat.pos_of_ne_zero hlength) hwithin

/-- Freeing an extent that meets no set in use keeps the layout, also when it was free before
or is dropped. -/
theorem release {offset length : UInt64} (hlimit : limit < 2 ^ 64)
    (hwithin : dataRange offset length.toNat ⊆ Set.Ico base limit)
    (hout : ∀ s ∈ owned, Disjoint s (dataRange offset length.toNat))
    (h : Spaced base limit owned fl) :
  Spaced base limit owned (fl.free offset length)
  := by
  unfold FreeList.free
  split
  · exact h
  next hne =>
  split
  · exact h
  have hproper := h.proper_append hlimit (not_or.mp hne).2 hwithin
  obtain ⟨hcov, hall, hpair⟩ := mergeAdjacent_spec hproper
  -- a position of a merged extent was free before, or lies in the extent that is freed
  have hmem : ∀ t ∈ (mergeAdjacent (fl.extents ++ [⟨offset, length⟩])).map bytes, ∀ i ∈ t,
      (∃ u ∈ fl.extents.map bytes, i ∈ u) ∨ i ∈ dataRange offset length.toNat := by
    intro t ht i hi
    obtain ⟨e, he, rfl⟩ := List.mem_map.mp ht
    have hcovered : i ∈ covered (fl.extents ++ [⟨offset, length⟩]) := by
      rw [← hcov]
      exact ⟨e, he, hi⟩
    obtain ⟨x, hx, hix⟩ := hcovered
    obtain hx | hx := List.mem_append.mp hx
    · exact Or.inl ⟨x.bytes, List.mem_map_of_mem hx, hix⟩
    · obtain rfl := List.mem_singleton.mp hx
      exact Or.inr hix
  use ?_, fun e he => (hall e he).pos
  apply h.layout.refree (apart_of_gaps hpair)
  · intro t ht i hi
    obtain ⟨u, hu, hiu⟩ | hi := hmem t ht i hi
    · exact h.layout.free_within u hu hiu
    · exact hwithin hi
  · intro s hs t ht
    rw [Set.disjoint_right]
    intro i hi
    obtain ⟨u, hu, hiu⟩ | hi := hmem t ht i hi
    · exact Set.disjoint_right.mp (h.layout.apart s hs u hu) hiu
    · exact Set.disjoint_right.mp (hout s hs) hi

/-- Freeing a set in use keeps the layout, also when the extent is dropped. -/
theorem free {offset length : UInt64} (hlimit : limit < 2 ^ 64)
    (h : Spaced base limit (dataRange offset length.toNat :: owned) fl) :
  Spaced base limit owned (fl.free offset length)
  := by
  have hdrop : Spaced base limit owned fl := by
    use h.layout.sublist (List.sublist_cons_self _ _), h.pos
  apply hdrop.release hlimit (h.layout.owned_within _ List.mem_cons_self)
  exact fun s hs => ((List.pairwise_cons.mp h.layout.owned_apart).1 s hs).symm

end Spaced

/-- The extent that is claimed, and what is left of the list. -/
theorem alloc_eq_some {fl fl' : FreeList} {n : Nat} {offset : UInt64} (hn : n < 2 ^ 64)
    (h : fl.alloc n = some (offset, fl')) :
  ∃ idx e, bestFit fl.extents n = some idx ∧ fl.extents[idx]? = some e
    ∧ (e :: fl.extents.eraseIdx idx).Perm fl.extents ∧ offset = e.offset ∧ n ≤ e.length.toNat
    ∧ (e.length - UInt64.ofNat n).toNat = e.length.toNat - n
    ∧ fl'.extents = if 512 ≤ e.length.toNat - n then
        fl.extents.eraseIdx idx ++ [⟨e.offset + UInt64.ofNat n, e.length - UInt64.ofNat n⟩]
      else fl.extents.eraseIdx idx
  := by
  have hofNat : (UInt64.ofNat n).toNat = n := UInt64.toNat_ofNat_of_lt' hn
  unfold alloc at h
  cases hfit : bestFit fl.extents n with
  | none =>
      rw [hfit] at h
      cases h
  | some idx =>
      simp only [hfit] at h
      obtain ⟨p, hp, hidx⟩ := Option.map_eq_some_iff.mp hfit
      obtain ⟨hmem, hlen⟩ := List.mem_filter.mp (List.argmin_mem hp)
      have hget := List.mem_zipIdx_iff_getElem?.mp hmem
      rw [hidx] at hget
      obtain ⟨hlt, hgetElem⟩ := List.getElem?_eq_some_iff.mp hget
      have hperm : (p.1 :: fl.extents.eraseIdx idx).Perm fl.extents := by
        rw [← hgetElem]
        apply List.getElem_cons_eraseIdx_perm
      have hle : UInt64.ofNat n ≤ p.1.length := of_decide_eq_true hlen
      have hsub := UInt64.toNat_sub_of_le _ _ hle
      rw [UInt64.le_iff_toNat_le, hofNat] at hle
      rw [hofNat] at hsub
      simp only [hget] at h
      have hrem : (512 : UInt64) ≤ p.1.length - UInt64.ofNat n ↔ 512 ≤ p.1.length.toNat - n := by
        rw [UInt64.le_iff_toNat_le, hsub]
        exact Iff.rfl
      refine ⟨idx, p.1, rfl, hget, hperm, ?_⟩
      split at h
      · rename_i hlarge
        obtain ⟨rfl, rfl⟩ := Prod.mk.inj (Option.some.inj h)
        exact ⟨rfl, hle, hsub, (if_pos (hrem.mp hlarge)).symm⟩
      · rename_i hsmall
        obtain ⟨rfl, rfl⟩ := Prod.mk.inj (Option.some.inj h)
        exact ⟨rfl, hle, hsub, (if_neg fun hlarge => hsmall (hrem.mpr hlarge)).symm⟩

/-- What a claimed extent comes from: an extent of the list that is long enough, whose
remainder is kept when it has 512 bytes or more. -/
theorem alloc_cases {fl fl' : FreeList} {n : Nat} {offset : UInt64} (hn : n < 2 ^ 64)
    (h : fl.alloc n = some (offset, fl')) :
  ∃ e rest, (e :: rest).Perm fl.extents ∧ offset = e.offset ∧ n ≤ e.length.toNat
    ∧ (512 ≤ e.length.toNat - n
        ∧ fl'.extents = rest ++ [⟨e.offset + UInt64.ofNat n, e.length - UInt64.ofNat n⟩]
      ∨ fl'.extents = rest)
  := by
  obtain ⟨idx, e, -, -, hperm, hoffset, hle, -, hfl⟩ := alloc_eq_some hn h
  refine ⟨e, fl.extents.eraseIdx idx, hperm, hoffset, hle, ?_⟩
  split at hfl
  · next hlarge => exact Or.inl ⟨hlarge, hfl⟩
  · exact Or.inr hfl

/-- Claiming an extent takes it into use and keeps the layout. -/
theorem Spaced.alloc {base limit n : Nat} {owned : List (Set Nat)} {fl fl' : FreeList}
    {offset : UInt64} (hlimit : limit < 2 ^ 64) (hn : n < 2 ^ 64)
    (halloc : fl.alloc n = some (offset, fl')) (h : Spaced base limit owned fl) :
  Spaced base limit (dataRange offset n :: owned) fl'
  := by
  obtain ⟨e, rest, hperm, rfl, hle, hrest⟩ := alloc_cases hn halloc
  have he : e ∈ fl.extents := hperm.mem_iff.mp List.mem_cons_self
  have hproper := h.proper hlimit e he
  have hlayout : Layout base limit owned (e.bytes :: rest.map bytes) :=
    h.layout.perm_free (hperm.map bytes).symm
  have hpos : ∀ x ∈ rest, 0 < x.length.toNat :=
    fun x hx => h.pos x (hperm.mem_iff.mp (List.mem_cons_of_mem e hx))
  have htaken : dataRange e.offset n ⊆ e.bytes :=
    Set.Ico_subset_Ico_right (Nat.add_le_add_left hle _)
  obtain ⟨hrem, hfl⟩ | hfl := hrest
  · have hofNat : (UInt64.ofNat n).toNat = n := UInt64.toNat_ofNat_of_lt' hn
    have hstop : e.offset.toNat + e.length.toNat < 2 ^ 64 := hproper.stop_lt
    have hstart : (e.offset + UInt64.ofNat n).toNat = e.offset.toNat + n := by
      rw [UInt64.toNat_add, hofNat, Nat.mod_eq_of_lt (by omega)]
    have hlen : (e.length - UInt64.ofNat n).toNat = e.length.toNat - n := by
      rw [UInt64.toNat_sub_of_le _ _ (by rw [UInt64.le_iff_toNat_le, hofNat]; exact hle), hofNat]
    have hbytes : (FreeExtent.mk (e.offset + UInt64.ofNat n) (e.length - UInt64.ofNat n)).bytes
        = Set.Ico (e.offset.toNat + n) e.stop := by
      rw [FreeExtent.bytes, start, stop, hstart, hlen, stop]
      congr 1
      omega
    constructor
    · rw [hfl, List.map_append, List.map_singleton, hbytes]
      apply Layout.perm_free (List.perm_append_singleton _ _).symm
      apply hlayout.take htaken
      · apply Set.Ico_subset_Ico_left (Nat.le_add_right _ _)
      · apply Set.Ico_disjoint_Ico_same
    · intro x hx
      rw [hfl] at hx
      obtain hx | hx := List.mem_append.mp hx
      · apply hpos x hx
      · obtain rfl := List.mem_singleton.mp hx
        rw [hlen]
        omega
  · constructor
    · rw [hfl]
      apply Layout.drop (s := ∅)
      apply hlayout.take htaken (Set.empty_subset _) (Set.disjoint_empty _)
    · rw [hfl]
      apply hpos

end FreeList

/-! ### The blocks of the inode table -/

namespace InodeTable

/-- The ranges of the blocks appended to the table. -/
def extensionBlocks (table : InodeTable) : List (Set Nat) :=
  ((table.blockOffsets.toList.drop 1).filter (· ≠ 0)).map fun o => dataRange o inodeBlockSize

/-- Filling an empty place of a directory adds one entry. -/
theorem filter_set_perm {l : List UInt64} {i : Nat} {v : UInt64} (hi : l[i]? = some 0)
    (hv : v ≠ 0) :
  ((l.set i v).filter (· ≠ 0)).Perm (v :: l.filter (· ≠ 0))
  := by
  obtain ⟨hlt, hget⟩ := List.getElem?_eq_some_iff.mp hi
  have hl : l = l.take i ++ 0 :: l.drop (i + 1) := by
    rw [← hget, List.getElem_cons_drop, List.take_append_drop]
  have hset : l.set i v = l.take i ++ v :: l.drop (i + 1) := List.set_eq_take_append_cons_drop.trans
    (if_pos hlt)
  have hfilter : l.filter (· ≠ 0)
      = (l.take i).filter (· ≠ 0) ++ (l.drop (i + 1)).filter (· ≠ 0) := by
    nth_rewrite 1 [hl]
    rw [List.filter_append, List.filter_cons_of_neg (by simp)]
  rw [hset, hfilter, List.filter_append, List.filter_cons_of_pos (by simpa using hv)]
  apply List.perm_middle

/-- Appending a block adds it to the blocks of the table, at the end of the image. -/
theorem allocBlock_cases {table table' : InodeTable} {file file' : File} {r : Option Nat}
    (h : table.allocBlock file = (r, table', file')) :
  r = none ∧ table' = table ∧ file' = file
    ∨ ∃ i, r = some (i + 1) ∧ (table.blockOffsets.toList.drop 1)[i]? = some 0
      ∧ table' = ⟨table.blockOffsets.setIfInBounds (i + 1) table.nextDiskEnd,
          blockEnd table.nextDiskEnd⟩
      ∧ file' = table'.saveDirectory
          (file.write table.nextDiskEnd.toNat (Bytes.zeros inodeBlockSize))
  := by
  unfold allocBlock at h
  split at h
  · obtain ⟨rfl, rfl, rfl⟩ := by simpa using h
    left
    simp
  · rename_i i hfind
    obtain ⟨rfl, rfl, rfl⟩ := by simpa using h
    right
    use i, rfl
    obtain ⟨hlt, hzero, -⟩ := List.findIdx?_eq_some_iff_getElem.mp hfind
    use List.getElem?_eq_some_iff.mpr ⟨hlt, by simpa using hzero⟩

/-- When no slot is free, the search appends a block. -/
theorem allocInode_appended [Crc32] {table table' : InodeTable} {file file' : File}
    {slot : Nat} (hfree : table.firstFree file table.capacity 0 = .ok none)
    (halloc : table.allocBlock file = (some slot, table', file')) :
  table.allocInode file = (.ok (some (table.capacity, true)), table', file')
  := by
  unfold InodeTable.allocInode
  simp only [hfree, halloc]

theorem extensionBlocks_set {table : InodeTable} {i : Nat} {v : UInt64} (next : UInt64)
    (hi : (table.blockOffsets.toList.drop 1)[i]? = some 0) (hv : v ≠ 0) :
  (extensionBlocks ⟨table.blockOffsets.setIfInBounds (i + 1) v, next⟩).Perm
    (dataRange v inodeBlockSize :: table.extensionBlocks)
  := by
  have hset : (table.blockOffsets.setIfInBounds (i + 1) v).toList.drop 1
      = (table.blockOffsets.toList.drop 1).set i v := by
    rw [Vector.toList_setIfInBounds, List.drop_set]
    simp
  unfold extensionBlocks
  rw [hset]
  apply (filter_set_perm hi hv).map

end InodeTable

/-! ### The disk manager -/

namespace DiskManager

/-- The sets in use and the free list of a manager lay out the data region, up to the
pointer of the superblock. -/
def Spaced (dm : DiskManager) (live : List (Set Nat)) : Prop :=
  dm.freeList.Spaced dataOffset dm.superblock.nextDataOffset.toNat
    (live ++ dm.inodeTable.extensionBlocks)

theorem toNat_padding512 (v : UInt64) :
  (512 - v % 512).toNat = 512 - v.toNat % 512
  := by
  have hmod : (v % 512).toNat = v.toNat % 512 := UInt64.toNat_mod v 512
  rw [UInt64.toNat_sub_of_le, hmod]
  · rfl
  · rw [UInt64.le_iff_toNat_le, hmod]
    exact Nat.le_of_lt (Nat.mod_lt _ (by decide))

theorem toNat_align512 {v : UInt64} (h : v.toNat + 512 < 2 ^ 64) :
  v.toNat ≤ (align512 v).toNat
  := by
  unfold align512
  split
  · rw [UInt64.toNat_add, toNat_padding512, Nat.mod_eq_of_lt (by omega)]
    exact Nat.le_add_right _ _
  · exact Nat.le_refl _

theorem allocData_of_some {dm : DiskManager} {n : Nat} {offset : UInt64} {fl : FreeList}
    (halloc : dm.freeList.alloc n = some (offset, fl)) :
  dm.allocData n = (offset, { dm with freeList := fl })
  := by
  rw [allocData, halloc]

/-- Without a free extent that is long enough the pointer of the superblock is moved. -/
theorem allocData_of_none {dm : DiskManager} {n : Nat} (halloc : dm.freeList.alloc n = none) :
  (dm.allocData n).1 = dm.superblock.nextDataOffset
    ∧ (dm.allocData n).2.freeList = dm.freeList
    ∧ (dm.allocData n).2.superblock = { dm.superblock with
        nextDataOffset := align512 (dm.superblock.nextDataOffset + UInt64.ofNat n) }
    ∧ (dm.allocData n).2.inodeTable.blockOffsets = dm.inodeTable.blockOffsets
  := by
  rw [allocData, halloc]
  exact ⟨rfl, rfl, rfl, rfl⟩

theorem toNat_bump {v : UInt64} {n : Nat} (hfar : v.toNat + n < 2 ^ 64) :
  (v + UInt64.ofNat n).toNat = v.toNat + n
  := by
  have hn : n < 2 ^ 64 := (Nat.le_add_left n v.toNat).trans_lt hfar
  rw [UInt64.toNat_add, UInt64.toNat_ofNat_of_lt' hn, Nat.mod_eq_of_lt hfar]

/-- Some sets in use and the free list of a manager lay out the data region, up to the pointer
of the superblock. -/
def LaysOut (dm : DiskManager) (owned : List (Set Nat)) : Prop :=
  dm.freeList.Spaced dataOffset dm.superblock.nextDataOffset.toNat owned

/-- Data at the end of the region keeps the layout. -/
theorem LaysOut.bump {dm : DiskManager} {owned : List (Set Nat)} {n : Nat}
    (hbase : dataOffset ≤ dm.superblock.nextDataOffset.toNat)
    (hfar : dm.superblock.nextDataOffset.toNat + n + 512 < 2 ^ 64)
    (halloc : dm.freeList.alloc n = none) (h : dm.LaysOut owned) :
  (dm.allocData n).2.LaysOut (dataRange (dm.allocData n).1 n :: owned)
    ∧ dm.superblock.nextDataOffset.toNat
      ≤ (dm.allocData n).2.superblock.nextDataOffset.toNat
  := by
  obtain ⟨hoffset, hfree, hsuper, -⟩ := allocData_of_none halloc
  have hsum := toNat_bump (v := dm.superblock.nextDataOffset) (n := n) (by omega)
  have halign := toNat_align512 (v := dm.superblock.nextDataOffset + UInt64.ofNat n)
    (by rw [hsum]; exact hfar)
  rw [hsum] at halign
  have hle : dm.superblock.nextDataOffset.toNat
      ≤ (align512 (dm.superblock.nextDataOffset + UInt64.ofNat n)).toNat := by
    omega
  rw [LaysOut, hoffset, hfree, hsuper]
  use ?_, hle
  constructor
  · apply h.layout.grow hbase hle
    apply Set.Ico_subset_Ico_right halign
  · apply h.pos

/-- Allocating data keeps the layout, with the new extent in use. -/
theorem LaysOut.allocData {dm : DiskManager} {owned : List (Set Nat)} {n : Nat}
    (hbase : dataOffset ≤ dm.superblock.nextDataOffset.toNat)
    (hfar : dm.superblock.nextDataOffset.toNat + n + 512 < 2 ^ 64) (h : dm.LaysOut owned) :
  (dm.allocData n).2.LaysOut (dataRange (dm.allocData n).1 n :: owned)
    ∧ dm.superblock.nextDataOffset.toNat
      ≤ (dm.allocData n).2.superblock.nextDataOffset.toNat
  := by
  cases halloc : dm.freeList.alloc n with
  | none => exact h.bump hbase hfar halloc
  | some r =>
      have hn : n < 2 ^ 64 := by omega
      rw [allocData_of_some halloc]
      use FreeList.Spaced.alloc (UInt64.toNat_lt _) hn halloc h

theorem blockOffsets_allocData (dm : DiskManager) (n : Nat) :
  (dm.allocData n).2.inodeTable.blockOffsets = dm.inodeTable.blockOffsets
  := by
  cases halloc : dm.freeList.alloc n with
  | none => exact (allocData_of_none halloc).2.2.2
  | some r => rw [allocData_of_some halloc]

theorem Spaced.allocData {dm : DiskManager} {live : List (Set Nat)} {n : Nat}
    (hbase : dataOffset ≤ dm.superblock.nextDataOffset.toNat)
    (hfar : dm.superblock.nextDataOffset.toNat + n + 512 < 2 ^ 64) (h : dm.Spaced live) :
  (dm.allocData n).2.Spaced (dataRange (dm.allocData n).1 n :: live)
    ∧ dm.superblock.nextDataOffset.toNat
      ≤ (dm.allocData n).2.superblock.nextDataOffset.toNat
  := by
  rw [Spaced, InodeTable.extensionBlocks, blockOffsets_allocData]
  exact LaysOut.allocData hbase hfar h

/-- Returning an extent in use keeps the layout. -/
theorem Spaced.freeData {dm : DiskManager} {live : List (Set Nat)} {offset length : UInt64}
    (h : dm.Spaced (dataRange offset length.toNat :: live)) :
  (dm.freeData offset length).Spaced live
  := FreeList.Spaced.free (UInt64.toNat_lt _) h

variable [Crc32]

/-- The manager with another table and another end of the data region. -/
def withTable (dm : DiskManager) (next : UInt64) (inodeTable : InodeTable) : DiskManager :=
  { dm with superblock := { dm.superblock with nextDataOffset := next }, inodeTable }

/-- The manager with a block appended by the write `w`: the block, then the directory and
the superblock are written. -/
def appendBlock (dm : DiskManager) (next : UInt64) (inodeTable : InodeTable) (w : FileWrite) :
    DiskManager :=
  (((dm.withTable next inodeTable).write w).write
    (dm.withTable next inodeTable).directoryWrite).write
    (dm.withTable next inodeTable).superblockWrite

/-- The manager with a block of inodes appended at the end of the data region, as entry
`i + 1` of the directory. -/
def growTable (dm : DiskManager) (i : Nat) : DiskManager :=
  dm.appendBlock (InodeTable.blockEnd dm.superblock.nextDataOffset)
    ⟨dm.inodeTable.blockOffsets.setIfInBounds (i + 1) dm.superblock.nextDataOffset,
      InodeTable.blockEnd dm.superblock.nextDataOffset⟩
    ⟨dm.superblock.nextDataOffset.toNat, Bytes.zeros inodeBlockSize⟩

/-- When the table appended a block, the search saves the superblock as well. -/
theorem allocInode_appended {dm : DiskManager} {index : Nat} {table : InodeTable}
    {file : File} {offset : Nat} {data : List UInt8}
    (h : InodeTable.allocInode
        { dm.inodeTable with nextDiskEnd := dm.superblock.nextDataOffset } dm.file
      = (.ok (some (index, true)), table, file))
    (hfile : file = table.saveDirectory (dm.file.write offset data)) :
  dm.allocInode = (some index, dm.appendBlock table.nextDiskEnd table ⟨offset, data⟩)
  := by
  subst hfile
  unfold allocInode
  simp only [h, if_true]
  rfl

/-- The layout after a block was appended. -/
theorem spaced_appendBlock {dm : DiskManager} {live : List (Set Nat)} {next : UInt64}
    {table : InodeTable} (w : FileWrite)
    (h : dm.freeList.Spaced dataOffset next.toNat (live ++ table.extensionBlocks)) :
  (dm.appendBlock next table w).Spaced live
  := h

/-- The search for a free slot does not look at the pointer of the table. -/
theorem firstFree_nextDiskEnd (table : InodeTable) (next : UInt64) (file : File)
    (n index : Nat) :
  InodeTable.firstFree { table with nextDiskEnd := next } file n index
    = table.firstFree file n index
  := by
  induction n generalizing index with
  | zero => rfl
  | succ n ih =>
      unfold InodeTable.firstFree
      rw [ih]
      rfl

/-- What the search for a free inode does to the manager: it moves the pointer of the table,
or, when no slot is free, appends a block. -/
theorem allocInode_cases (dm : DiskManager) :
  dm.allocInode.2 = { dm with inodeTable :=
      { dm.inodeTable with nextDiskEnd := dm.superblock.nextDataOffset } }
    ∨ ∃ i, (dm.inodeTable.blockOffsets.toList.drop 1)[i]? = some 0
      ∧ dm.inodeTable.firstFree dm.file dm.inodeTable.capacity 0 = .ok none
      ∧ dm.allocInode.2 = dm.growTable i
  := by
  cases hfree : InodeTable.firstFree
      { dm.inodeTable with nextDiskEnd := dm.superblock.nextDataOffset } dm.file
      (InodeTable.capacity { dm.inodeTable with nextDiskEnd := dm.superblock.nextDataOffset })
      0 with
  | error e =>
      left
      simp [allocInode, InodeTable.allocInode, hfree]
  | ok r =>
      cases r with
      | some index =>
          left
          simp [allocInode, InodeTable.allocInode, hfree]
      | none =>
          cases halloc : InodeTable.allocBlock
              { dm.inodeTable with nextDiskEnd := dm.superblock.nextDataOffset } dm.file with
          | mk r rest =>
              obtain ⟨table', file'⟩ := rest
              obtain ⟨rfl, rfl, rfl⟩ | ⟨i, rfl, hi, rfl, rfl⟩ :=
                InodeTable.allocBlock_cases halloc
              · left
                simp [allocInode, InodeTable.allocInode, hfree, halloc]
              · right
                use i, hi
                have hnone := hfree
                rw [firstFree_nextDiskEnd] at hnone
                use hnone
                have hgrow := InodeTable.allocInode_appended hfree halloc
                rw [allocInode_appended hgrow rfl]
                rfl

/-- The search for a free inode keeps the layout. -/
theorem Spaced.allocInode {dm : DiskManager} {live : List (Set Nat)}
    (hbase : dataOffset ≤ dm.superblock.nextDataOffset.toNat)
    (hfar : dm.superblock.nextDataOffset.toNat + inodeBlockSize < 2 ^ 64)
    (h : dm.Spaced live) :
  (dm.allocInode).2.Spaced live
    ∧ dm.superblock.nextDataOffset.toNat ≤ (dm.allocInode).2.superblock.nextDataOffset.toNat
  := by
  obtain halloc | ⟨i, hi, -, halloc⟩ := allocInode_cases dm
  · rw [halloc]
    exact ⟨h, Nat.le_refl _⟩
  · have hne : dm.superblock.nextDataOffset ≠ 0 := by
      intro h0
      rw [h0] at hbase
      cases hbase
    have hsum := InodeTable.toNat_blockEnd hfar
    have hperm := InodeTable.extensionBlocks_set
      (InodeTable.blockEnd dm.superblock.nextDataOffset) hi hne
    rw [halloc]
    have hle : dm.superblock.nextDataOffset.toNat
        ≤ (InodeTable.blockEnd dm.superblock.nextDataOffset).toNat := by
      rw [hsum]
      exact Nat.le_add_right _ _
    use ?_, hle
    apply spaced_appendBlock
    rw [hsum]
    constructor
    · apply Layout.perm (List.perm_middle.symm.trans (hperm.symm.append_left live))
      apply h.layout.grow hbase (Nat.le_add_right _ _) (Set.Subset.refl _)
    · apply h.pos

omit [Crc32] in
/-- The layout does not depend on the journal or the file. -/
theorem spaced_frame {dm dm' : DiskManager} {live : List (Set Nat)}
    (hframe : ∃ journal file, dm' = { dm with journal, file }) :
  dm'.Spaced live ↔ dm.Spaced live
  := by
  obtain ⟨journal, file, rfl⟩ := hframe
  exact Iff.rfl

/-- Formatting leaves the data region empty. -/
theorem spaced_format (image : Image) (sizeBytes now : UInt64) :
  (format image sizeBytes now).Spaced []
  := by
  have hext : InodeTable.extensionBlocks
      (InodeTable.new (UInt64.ofNat inodeTableOffset) (UInt64.ofNat dataOffset)) = [] := by
    rfl
  constructor
  · have hnil := Layout.nil dataOffset (format image sizeBytes now).superblock.nextDataOffset.toNat
    simpa [format, hext, FreeList.new] using hnil
  · intro e he
    cases he

end DiskManager

/-! ### Runs of the allocator -/

/-- A manager together with the data extents handed out and not freed since. -/
structure AllocState where
  dm : DiskManager
  live : List (UInt64 × Nat)

/-- One operation of a run of the allocator.  Data is freed as it was allocated, and an
inode slot is filled when it is handed out.  Positions stay far enough from `2 ^ 64`. -/
inductive AllocStep [Crc32] : AllocState → AllocState → Prop where
  | allocData (dm live) (n : Nat)
      (hfar : dm.superblock.nextDataOffset.toNat + n + 512 < 2 ^ 64) :
      AllocStep ⟨dm, live⟩ ⟨(dm.allocData n).2, ((dm.allocData n).1, n) :: live⟩
  | freeData (dm live offset n) (hlive : (offset, n) ∈ live) :
      AllocStep ⟨dm, live⟩ ⟨dm.freeData offset (UInt64.ofNat n), live.erase (offset, n)⟩
  | allocInode (dm live index) (inode : InodeRaw) (hused : inode.isUsed ≠ 0)
      (hfar : dm.superblock.nextDataOffset.toNat + inodeBlockSize < 2 ^ 64)
      (halloc : dm.allocInode.1 = some index) :
      AllocStep ⟨dm, live⟩ ⟨(dm.allocInode.2.writeInode index inode).2, live⟩
  | allocInodeFull (dm live)
      (hfar : dm.superblock.nextDataOffset.toNat + inodeBlockSize < 2 ^ 64)
      (halloc : dm.allocInode.1 = none) :
      AllocStep ⟨dm, live⟩ ⟨dm.allocInode.2, live⟩
  | freeInode (dm live index inode) (hread : dm.readInode index = .ok inode)
      (hused : inode.isUsed ≠ 0) :
      AllocStep ⟨dm, live⟩ ⟨(dm.freeInode index).2, live⟩

namespace AllocState

/-- The ranges of the live data extents. -/
def ranges (s : AllocState) : List (Set Nat) := s.live.map fun p => dataRange p.1 p.2

/-- The sets in use and the free list lay out the data region. -/
structure Sound (s : AllocState) : Prop where
  base_le : dataOffset ≤ s.dm.superblock.nextDataOffset.toNat
  spaced : s.dm.Spaced s.ranges

theorem sound_format [Crc32] (image : Image) (sizeBytes now : UInt64) :
  Sound ⟨DiskManager.format image sizeBytes now, []⟩
  := by
  constructor
  · exact Nat.le_refl _
  · apply DiskManager.spaced_format

/-- A live extent ends below the limit of the region, so its length is the one freed. -/
theorem Sound.toNat_ofNat {s : AllocState} (h : s.Sound) {offset : UInt64} {n : Nat}
    (hlive : (offset, n) ∈ s.live) :
  (UInt64.ofNat n).toNat = n
  := by
  apply UInt64.toNat_ofNat_of_lt'
  cases n with
  | zero => decide
  | succ n =>
      have hmem : dataRange offset (n + 1) ∈ s.ranges ++ s.dm.inodeTable.extensionBlocks :=
        List.mem_append_left _ (List.mem_map_of_mem (f := fun p => dataRange p.1 p.2) hlive)
      have hlast : offset.toNat + n ∈ dataRange offset (n + 1) :=
        ⟨Nat.le_add_right _ _, Nat.lt_add_one _⟩
      have hlt := (h.spaced.layout.owned_within _ hmem hlast).2
      have hnext := s.dm.superblock.nextDataOffset.toNat_lt
      have hsize : UInt64.size = 2 ^ 64 := rfl
      omega

/-- Every operation keeps the layout. -/
theorem Sound.step [Crc32] {s s' : AllocState} (hstep : AllocStep s s') (h : s.Sound) :
  s'.Sound
  := by
  have hbase := h.base_le
  have hspaced := h.spaced
  cases hstep with
  | allocData dm live n hfar =>
      obtain ⟨hnew, hle⟩ := hspaced.allocData hbase hfar
      exact ⟨Nat.le_trans hbase hle, hnew⟩
  | freeData dm live offset n hlive =>
      refine ⟨hbase, DiskManager.Spaced.freeData ?_⟩
      rw [h.toNat_ofNat hlive]
      have hperm := (List.perm_cons_erase hlive).map fun p => dataRange p.1 p.2
      constructor
      · apply hspaced.layout.perm (hperm.append_right _)
      · apply hspaced.pos
  | allocInode dm live index inode hused hfar halloc =>
      obtain ⟨hnew, hle⟩ := hspaced.allocInode hbase hfar
      have hframe := dm.allocInode.2.writeInode_frame index inode
      constructor
      · obtain ⟨_, _, hwrite⟩ := hframe
        rw [hwrite]
        apply Nat.le_trans hbase hle
      · apply (DiskManager.spaced_frame hframe).mpr hnew
  | allocInodeFull dm live hfar halloc =>
      obtain ⟨hnew, hle⟩ := hspaced.allocInode hbase hfar
      exact ⟨Nat.le_trans hbase hle, hnew⟩
  | freeInode dm live index inode hread hused =>
      exact ⟨hbase, (DiskManager.spaced_frame ⟨dm.journal, _, rfl⟩).mpr hspaced⟩

/-- The layout holds after every run from a state in which it holds. -/
theorem Sound.of_run [Crc32] {s s' : AllocState} (hrun : Relation.ReflTransGen AllocStep s s')
    (h : s.Sound) :
  s'.Sound
  := by
  induction hrun with
  | refl => exact h
  | tail _ hstep ih => apply ih.step hstep

/-- In every run of the allocator from a formatted image, the live data extents and the
appended inode blocks do not meet each other or the extents of the free list, which do not
meet one another, and all of them lie between the start of the data region and the pointer
of the superblock. -/
theorem run_separated [Crc32] (image : Image) (sizeBytes now : UInt64) (s : AllocState)
    (h : Relation.ReflTransGen AllocStep ⟨DiskManager.format image sizeBytes now, []⟩ s) :
  Layout dataOffset s.dm.superblock.nextDataOffset.toNat
    (s.live.map (fun p => dataRange p.1 p.2) ++ s.dm.inodeTable.extensionBlocks)
    (s.dm.freeList.extents.map FreeExtent.bytes)
  := ((sound_format image sizeBytes now).of_run h).spaced.layout

/-- The layout after an extent of 1000 bytes was allocated and freed. -/
theorem run_separated_alloc_free :
  let dm := @DiskManager.format Crc32.ieee Image.empty 0 0
  let dm' := (dm.allocData 1000).2.freeData (dm.allocData 1000).1 1000
  Layout dataOffset dm'.superblock.nextDataOffset.toNat
    ([] ++ dm'.inodeTable.extensionBlocks) (dm'.freeList.extents.map FreeExtent.bytes)
  := by
  let := Crc32.ieee
  intro dm dm'
  apply run_separated Image.empty 0 0 ⟨dm', []⟩
  apply Relation.ReflTransGen.tail
  · apply Relation.ReflTransGen.single (AllocStep.allocData dm [] 1000 (by decide))
  · have hstep := AllocStep.freeData (dm.allocData 1000).2 [((dm.allocData 1000).1, 1000)]
      (dm.allocData 1000).1 1000 List.mem_cons_self
    rw [List.erase_cons_head] at hstep
    apply hstep

end AllocState

end Vexfs
