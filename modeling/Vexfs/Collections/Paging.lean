import Mathlib.Data.List.Basic
import Mathlib.Data.List.Nodup
import Mathlib.Data.List.Count
import Mathlib.Tactic.NormNum

/-!
# Reading a list by pages

A list is read by pages: each read continues at the position behind the last element that was
read.  The list may be another one at every read.  An element that is in every one of them is
read once, and once more whenever it has moved from before the position of a read to behind it,
and once less whenever it has moved the other way (`count_read_add`).
-/

namespace Paging

variable {α : Type} [DecidableEq α]

/-- A read: the list as it is then, and how many elements there is room for. -/
structure Page (α : Type) where
  view : List α
  room : ℕ

/-- The elements that are read from a position on. -/
def Page.elements (page : Page α) (offset : ℕ) : List α :=
  (page.view.drop offset).take page.room

/-- The position behind the last element that is read. -/
def Page.next (page : Page α) (offset : ℕ) : ℕ :=
  offset + (page.elements offset).length

/-- The elements of all reads. -/
def read : ℕ → List (Page α) → List α
  | _, [] => []
  | offset, page :: pages => page.elements offset ++ read (page.next offset) pages

/-- Whether an element lies before a position. -/
def Before (x : α) (page : Page α) (offset : ℕ) : Prop := page.view.idxOf x < offset

instance decidableBefore (x : α) (page : Page α) (offset : ℕ) :
    Decidable (Before x page offset) :=
  inferInstanceAs (Decidable (_ < _))

/-- How often an element has moved from before the position of a read to behind it. -/
def again (x : α) : ℕ → List (Page α) → ℕ
  | offset, page :: page' :: pages =>
      (if Before x page (page.next offset) ∧ ¬ Before x page' (page.next offset) then 1 else 0)
        + again x (page.next offset) (page' :: pages)
  | _, _ => 0

/-- How often an element has moved from behind the position of a read to before it. -/
def missed (x : α) : ℕ → List (Page α) → ℕ
  | offset, page :: page' :: pages =>
      (if ¬ Before x page (page.next offset) ∧ Before x page' (page.next offset) then 1 else 0)
        + missed x (page.next offset) (page' :: pages)
  | _, _ => 0

/-- The position behind the last element of all reads. -/
def stop (offset : ℕ) (pages : List (Page α)) : ℕ :=
  pages.foldl (fun offset page => page.next offset) offset

/-- Whether the last read goes to the end. -/
def Complete (offset : ℕ) (pages : List (Page α)) : Prop :=
  ∃ page, pages.getLast? = some page ∧ page.view.length ≤ stop offset pages

omit [DecidableEq α] in
/-- What is read when another page is. -/
theorem read_concat (offset : ℕ) (pages : List (Page α)) (page : Page α) :
  read offset (pages ++ [page]) = read offset pages ++ page.elements (stop offset pages)
  := by
  induction pages generalizing offset with
  | nil => exact List.append_nil _
  | cons page' pages ih =>
      rw [List.cons_append, read, ih, read, List.append_assoc]
      rfl

omit [DecidableEq α] in
theorem stop_concat (offset : ℕ) (pages : List (Page α)) (page : Page α) :
  stop offset (pages ++ [page]) = page.next (stop offset pages)
  := by
  rw [stop, List.foldl_append]
  rfl

variable {x : α} {page : Page α} {offset : ℕ}

/-- An element is read when it does not lie before the position of the read, but before the
next one. -/
theorem mem_elements_iff (hnodup : page.view.Nodup) (hx : x ∈ page.view) :
  x ∈ page.elements offset ↔ ¬ Before x page offset ∧ Before x page (page.next offset)
  := by
  have hidx : page.view.idxOf x < page.view.length := List.idxOf_lt_length_of_mem hx
  have hget : page.view[page.view.idxOf x] = x := List.getElem_idxOf hidx
  unfold Before Page.next
  constructor
  · intro hmem
    obtain ⟨i, hi, heq⟩ := List.getElem_of_mem hmem
    have hpos : offset + i < page.view.length := by
      have := hi
      simp only [Page.elements, List.length_take, List.length_drop] at this
      omega
    have hat : page.view[offset + i] = x := by
      rw [← heq]
      simp [Page.elements]
    have hidxOf : page.view.idxOf x = offset + i := by
      rw [← hat]
      exact hnodup.idxOf_getElem _ hpos
    omega
  · rintro ⟨hlo, hhi⟩
    have hlt : page.view.idxOf x - offset < (page.elements offset).length := by omega
    have hat : (page.elements offset)[page.view.idxOf x - offset] = x := by
      have hsum : offset + (page.view.idxOf x - offset) = page.view.idxOf x := by omega
      simp only [Page.elements, List.getElem_take, List.getElem_drop, hsum]
      exact hget
    rw [← hat]
    exact List.getElem_mem hlt

/-- The position of the next read is not before that of this one. -/
theorem Before.next (h : Before x page offset) :
  Before x page (page.next offset)
  := h.trans_le (Nat.le_add_right _ _)

/-- How often an element is read at once: it is read when it was passed. -/
theorem count_elements_add (offset : ℕ) (hnodup : page.view.Nodup) (hx : x ∈ page.view) :
  (page.elements offset).count x + (if Before x page offset then 1 else 0)
    = if Before x page (page.next offset) then 1 else 0
  := by
  have hcount : (page.elements offset).count x = if x ∈ page.elements offset then 1 else 0 :=
    (hnodup.sublist ((List.take_sublist _ _).trans (List.drop_sublist _ _))).count
  rw [hcount, if_congr (mem_elements_iff hnodup hx) rfl rfl]
  by_cases hbefore : Before x page offset
  · simp [hbefore, hbefore.next]
  · simp [hbefore]

/-- An element that is in all lists, the last of which is read to its end: how often it is
read, and how often it is missed. -/
theorem count_read_add {pages : List (Page α)} (hnodup : ∀ page ∈ pages, page.view.Nodup)
    (hx : ∀ page ∈ pages, x ∈ page.view) (hcomplete : Complete offset pages) {first : Page α}
    (hfirst : pages.head? = some first) :
  (read offset pages).count x + missed x offset pages
      + (if Before x first offset then 1 else 0)
    = 1 + again x offset pages
  := by
  induction pages generalizing offset first with
  | nil => cases hfirst
  | cons page pages ih =>
      obtain rfl := Option.some.inj hfirst
      have hread := count_elements_add offset (hnodup page List.mem_cons_self)
        (hx page List.mem_cons_self)
      rw [read, List.count_append]
      cases pages with
      | nil =>
          obtain ⟨last, hlast, hend⟩ := hcomplete
          obtain rfl := Option.some.inj hlast
          have hlast : Before x page (page.next offset) :=
            (List.idxOf_lt_length_of_mem (hx page List.mem_cons_self)).trans_le hend
          rw [if_pos hlast] at hread
          have hzero : missed x offset [page] = 0 ∧ again x offset [page] = 0 := by
            constructor
            · rw [missed]
              exact fun _ _ _ h => by cases h
            · rw [again]
              exact fun _ _ _ h => by cases h
          rw [read, List.count_nil, hzero.1, hzero.2, Nat.add_zero, hread]
      | cons page' pages =>
          obtain ⟨last, hlast, hend⟩ := hcomplete
          rw [List.getLast?_cons_cons] at hlast
          have hrest := ih (fun p hp => hnodup p (List.mem_cons_of_mem page hp))
            (fun p hp => hx p (List.mem_cons_of_mem page hp)) ⟨last, hlast, hend⟩ rfl
          rw [missed, again]
          by_cases hbefore : Before x page (page.next offset) <;>
            by_cases hbefore' : Before x page' (page.next offset) <;>
            simp only [hbefore, hbefore', if_true, if_false, not_true, not_false_eq_true,
              and_true, and_false, and_self] at hread hrest ⊢ <;>
            omega

/-- An element that is in all lists is read exactly once when it has moved back as often as it
has moved ahead. -/
theorem count_read_eq_one_iff {pages : List (Page α)}
    (hnodup : ∀ page ∈ pages, page.view.Nodup) (hx : ∀ page ∈ pages, x ∈ page.view)
    (hcomplete : Complete 0 pages) :
  (read 0 pages).count x = 1 ↔ missed x 0 pages = again x 0 pages
  := by
  cases pages with
  | nil =>
      obtain ⟨last, hlast, -⟩ := hcomplete
      cases hlast
  | cons page pages =>
      have hcount := count_read_add hnodup hx hcomplete rfl
      have hstart : ¬ Before x page 0 := Nat.not_lt_zero _
      rw [if_neg hstart] at hcount
      omega

end Paging
