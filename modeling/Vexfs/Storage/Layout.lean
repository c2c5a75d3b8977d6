import Mathlib

/-!
# The layout of a region

A region between two bounds is divided among sets of positions: those in use and those that
are free.  `Layout base limit owned free` says that no two of these sets meet, and that all
of them lie in the region.  An allocator hands out part of a free set (`Layout.take`) or
extends the region (`Layout.grow`), takes a set in use back (`Layout.give`), and may
reorganise the free sets as long as it covers no more than before (`Layout.cover`).
-/

namespace Storage

variable {α : Type} [Preorder α]

/-- The region from `base` up to `limit` with sets in use and free sets, no two of which
meet. -/
structure Layout (base limit : α) (owned free : List (Set α)) : Prop where
  owned_apart : owned.Pairwise Disjoint
  free_apart : free.Pairwise Disjoint
  apart : ∀ s ∈ owned, ∀ t ∈ free, Disjoint s t
  owned_within : ∀ s ∈ owned, s ⊆ Set.Ico base limit
  free_within : ∀ t ∈ free, t ⊆ Set.Ico base limit

namespace Layout

variable {base limit limit' : α} {owned owned' free free' : List (Set α)} {s t r : Set α}

/-- The region with nothing in it. -/
theorem nil (base limit : α) :
  Layout base limit [] []
  := by
  constructor <;> simp

/-- The order of the sets in use does not matter. -/
theorem perm (hp : owned.Perm owned') (h : Layout base limit owned free) :
  Layout base limit owned' free
  := by
  constructor
  · apply (hp.pairwise_iff (fun hd => Disjoint.symm hd)).mp h.owned_apart
  · apply h.free_apart
  · intro s hs
    apply h.apart s (hp.mem_iff.mpr hs)
  · intro s hs
    apply h.owned_within s (hp.mem_iff.mpr hs)
  · apply h.free_within

/-- The order of the free sets does not matter. -/
theorem perm_free (hp : free.Perm free') (h : Layout base limit owned free) :
  Layout base limit owned free'
  := by
  constructor
  · apply h.owned_apart
  · apply (hp.pairwise_iff (fun hd => Disjoint.symm hd)).mp h.free_apart
  · intro s hs t ht
    apply h.apart s hs t (hp.mem_iff.mpr ht)
  · apply h.owned_within
  · intro t ht
    apply h.free_within t (hp.mem_iff.mpr ht)

/-- Some of the sets in use may be forgotten. -/
theorem sublist (hs : owned'.Sublist owned) (h : Layout base limit owned free) :
  Layout base limit owned' free
  := by
  constructor
  · apply h.owned_apart.sublist hs
  · apply h.free_apart
  · intro s hmem
    apply h.apart s (hs.subset hmem)
  · intro s hmem
    apply h.owned_within s (hs.subset hmem)
  · apply h.free_within

/-- The region may be extended. -/
theorem mono (hle : limit ≤ limit') (h : Layout base limit owned free) :
  Layout base limit' owned free
  := by
  constructor
  · apply h.owned_apart
  · apply h.free_apart
  · apply h.apart
  · intro s hs
    apply (h.owned_within s hs).trans (Set.Ico_subset_Ico_right hle)
  · intro t ht
    apply (h.free_within t ht).trans (Set.Ico_subset_Ico_right hle)

/-- A set beyond the limit can be taken into use, and the region extended to hold it. -/
theorem grow (hbase : base ≤ limit) (hle : limit ≤ limit') (hs : s ⊆ Set.Ico limit limit')
    (h : Layout base limit owned free) :
  Layout base limit' (s :: owned) free
  := by
  have hd : ∀ t ⊆ Set.Ico base limit, Disjoint s t := by
    intro t ht
    rw [Set.disjoint_left]
    intro x hxs hxt
    exact absurd (ht hxt).2 (hs hxs).1.not_gt
  have h' := h.mono hle
  constructor
  · apply List.pairwise_cons.mpr ⟨fun t ht => hd t (h.owned_within t ht), h.owned_apart⟩
  · apply h.free_apart
  · intro u hu t ht
    obtain rfl | hu := List.mem_cons.mp hu
    · apply hd t (h.free_within t ht)
    · apply h.apart u hu t ht
  · intro u hu
    obtain rfl | hu := List.mem_cons.mp hu
    · apply hs.trans (Set.Ico_subset_Ico_left hbase)
    · apply h'.owned_within u hu
  · apply h'.free_within

/-- A set in use can be given back. -/
theorem give (h : Layout base limit (s :: owned) free) :
  Layout base limit owned (s :: free)
  := by
  obtain ⟨hs, howned⟩ := List.pairwise_cons.mp h.owned_apart
  constructor
  · apply howned
  · apply List.pairwise_cons.mpr
    use fun t ht => h.apart s List.mem_cons_self t ht, h.free_apart
  · intro u hu t ht
    obtain rfl | ht := List.mem_cons.mp ht
    · apply (hs u hu).symm
    · apply h.apart u (List.mem_cons_of_mem s hu) t ht
  · intro u hu
    apply h.owned_within u (List.mem_cons_of_mem s hu)
  · intro t ht
    obtain rfl | ht := List.mem_cons.mp ht
    · apply h.owned_within t List.mem_cons_self
    · apply h.free_within t ht

/-- The free sets may be replaced by any that meet neither each other nor a set in use. -/
theorem refree (hapart : free'.Pairwise Disjoint) (hwithin : ∀ t ∈ free', t ⊆ Set.Ico base limit)
    (hout : ∀ s ∈ owned, ∀ t ∈ free', Disjoint s t) (h : Layout base limit owned free) :
  Layout base limit owned free'
  := ⟨h.owned_apart, hapart, hout, h.owned_within, hwithin⟩

/-- The free sets may be replaced by others that cover no more. -/
theorem cover (hapart : free'.Pairwise Disjoint)
    (hsub : ∀ t ∈ free', ∀ x ∈ t, ∃ u ∈ free, x ∈ u) (h : Layout base limit owned free) :
  Layout base limit owned free'
  := by
  apply h.refree hapart
  · intro t ht x hx
    obtain ⟨u, hu, hxu⟩ := hsub t ht x hx
    apply h.free_within u hu hxu
  · intro s hs t ht
    rw [Set.disjoint_right]
    intro x hx
    obtain ⟨u, hu, hxu⟩ := hsub t ht x hx
    apply Set.disjoint_right.mp (h.apart s hs u hu) hxu

/-- A free set may shrink. -/
theorem shrink (hts : t ⊆ s) (h : Layout base limit owned (s :: free)) :
  Layout base limit owned (t :: free)
  := by
  obtain ⟨hs, hfree⟩ := List.pairwise_cons.mp h.free_apart
  apply h.cover
  · apply List.pairwise_cons.mpr ⟨fun u hu => (hs u hu).mono_left hts, hfree⟩
  · intro u hu x hx
    obtain rfl | hu := List.mem_cons.mp hu
    · use s, List.mem_cons_self, hts hx
    · use u, List.mem_cons_of_mem s hu

/-- A free set may be forgotten. -/
theorem drop (h : Layout base limit owned (s :: free)) :
  Layout base limit owned free
  := by
  apply h.cover (List.pairwise_cons.mp h.free_apart).2
  intro t ht x hx
  use t, List.mem_cons_of_mem s ht

/-- Part of a free set can be taken into use, and another part of it left free. -/
theorem take (hts : t ⊆ s) (hrs : r ⊆ s) (htr : Disjoint t r)
    (h : Layout base limit owned (s :: free)) :
  Layout base limit (t :: owned) (r :: free)
  := by
  obtain ⟨hs, hfree⟩ := List.pairwise_cons.mp h.free_apart
  have h' := h.shrink hrs
  constructor
  · apply List.pairwise_cons.mpr
    use fun u hu => ((h.apart u hu s List.mem_cons_self).mono_right hts).symm, h.owned_apart
  · apply h'.free_apart
  · intro u hu v hv
    obtain rfl | hu := List.mem_cons.mp hu
    · obtain rfl | hv := List.mem_cons.mp hv
      · apply htr
      · apply (hs v hv).mono_left hts
    · apply h'.apart u hu v hv
  · intro u hu
    obtain rfl | hu := List.mem_cons.mp hu
    · apply hts.trans (h.free_within s List.mem_cons_self)
    · apply h.owned_within u hu
  · apply h'.free_within

end Layout

end Storage
