import Mathlib

/-!
# Rolling windows

A rolling window keeps the elements of a sequence that are near to the last one: each new
element first drops the kept ones that are not near to it.  So an element is kept as long as
every later one is near to it (`foldl_slide`).  Where what is near to a later element is near
to those in between, only the last element counts (`lasting_concat_of_near`).
-/

namespace Window

variable {α : Type*} (near : α → α → Prop) [DecidableRel near]

/-- Add an element to the window, and drop those that are not near to it. -/
def slide (kept : List α) (x : α) : List α := kept.filter (near x ·) ++ [x]

/-- The elements of a sequence to which all later ones are near. -/
def lasting : List α → List α
  | [] => []
  | x :: xs => if ∀ y ∈ xs, near y x then x :: lasting xs else lasting xs

/-- The last element is kept, and those before it to which it is near. -/
theorem lasting_concat (xs : List α) (y : α) :
  lasting near (xs ++ [y]) = slide near (lasting near xs) y
  := by
  induction xs with
  | nil => simp [lasting, slide]
  | cons x xs ih =>
      rw [List.cons_append, lasting, lasting, ih]
      by_cases hxs : ∀ z ∈ xs, near z x
      · rw [if_pos hxs]
        by_cases hy : near y x
        · rw [if_pos (by simpa [or_imp, forall_and] using ⟨hxs, hy⟩), slide, slide,
            List.filter_cons_of_pos (by simpa using hy), List.cons_append]
        · rw [if_neg (by simp [or_imp, forall_and, hy]), slide, slide,
            List.filter_cons_of_neg (by simpa using hy)]
      · rw [if_neg hxs, if_neg (fun h => hxs fun z hz => h z (List.mem_append_left _ hz))]

/-- The window at the end of a sequence. -/
theorem foldl_slide (xs : List α) :
  xs.foldl (slide near) [] = lasting near xs
  := by
  induction xs using List.reverseRecOn with
  | nil => rfl
  | append_singleton xs y ih => rw [List.foldl_concat, ih, lasting_concat]

/-- The window of the elements near to the last one, where these are near to those between. -/
theorem lasting_concat_of_near {xs : List α} {y : α}
    (h : (xs ++ [y]).Pairwise fun x z => near y x → near z x) :
  lasting near (xs ++ [y]) = slide near xs y
  := by
  rw [lasting_concat, slide, slide]
  congr 1
  rw [List.pairwise_append] at h
  obtain ⟨hxs, -, -⟩ := h
  induction xs with
  | nil => rfl
  | cons x xs ih =>
      obtain ⟨hx, hxs⟩ := List.pairwise_cons.mp hxs
      rw [lasting]
      by_cases hy : near y x
      · rw [if_pos fun z hz => hx z hz hy, List.filter_cons_of_pos (by simpa using hy),
          List.filter_cons_of_pos (by simpa using hy), ih hxs]
      · rw [List.filter_cons_of_neg (by simpa using hy), ← ih hxs]
        split
        · exact List.filter_cons_of_neg (by simpa using hy)
        · rfl

end Window
