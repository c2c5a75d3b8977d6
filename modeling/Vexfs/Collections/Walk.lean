import Mathlib.Data.List.DropRight

/-!
# Walks in a tree

A place in a tree is the list of the names on the way to it.  Moves go down by a name, up by one
or nowhere; above the root there is nothing.  Moves that follow one another come to going up
some names and then down (`walk_eq`), wherever they start.
-/

namespace Walk

variable {α : Type*}

inductive Move (α : Type*) where
  | stay
  | up
  | down (name : α)
deriving DecidableEq

/-- The place a move leads to. -/
def move (place : List α) : Move α → List α
  | .stay => place
  | .up => place.dropLast
  | .down name => place ++ [name]

def walk (place : List α) (moves : List (Move α)) : List α :=
  moves.foldl move place

/-- How many names moves go up, and what they go down then. -/
structure Climb (α : Type*) where
  up : ℕ
  down : List α

namespace Climb

/-- One move more: it goes up what was gone down before it climbs. -/
def step (c : Climb α) : Move α → Climb α
  | .stay => c
  | .up => if c.down.isEmpty then ⟨c.up + 1, []⟩ else ⟨c.up, c.down.dropLast⟩
  | .down name => ⟨c.up, c.down ++ [name]⟩

end Climb

/-- What moves come to. -/
def climb (moves : List (Move α)) : Climb α :=
  moves.foldl Climb.step ⟨0, []⟩

/-- The place moves lead to, given what they come to. -/
def Climb.apply (c : Climb α) (place : List α) : List α :=
  place.rdrop c.up ++ c.down

theorem move_apply (c : Climb α) (place : List α) (m : Move α) :
  move (c.apply place) m = (c.step m).apply place
  := by
  cases m with
  | stay => rfl
  | up =>
      rw [move, Climb.step]
      split
      · next hempty =>
        rw [Climb.apply, Climb.apply, List.isEmpty_iff.mp hempty, List.append_nil,
          List.append_nil, ← List.rdrop_add, List.dropLast_eq_take]
        rfl
      · next hdown =>
        rw [Climb.apply, Climb.apply, List.dropLast_append_of_ne_nil]
        exact fun hnil => hdown (List.isEmpty_iff.mpr hnil)
  | down name => exact List.append_assoc _ _ _

/-- Moves lead up from a place as far as they climb, and down from there. -/
theorem walk_eq (place : List α) (moves : List (Move α)) :
  walk place moves = (climb moves).apply place
  := by
  have hgo (c : Climb α) :
      walk (c.apply place) moves = (moves.foldl Climb.step c).apply place := by
    induction moves generalizing c with
    | nil => rfl
    | cons m moves ih =>
        rw [walk, List.foldl_cons, move_apply]
        exact ih (c.step m)
  have hstart : (Climb.mk 0 []).apply place = place := by
    rw [Climb.apply, List.rdrop_zero, List.append_nil]
  have h := hgo ⟨0, []⟩
  rwa [hstart] at h

theorem walk_append (place : List α) (moves moves' : List (Move α)) :
  walk place (moves ++ moves') = walk (walk place moves) moves'
  := List.foldl_append

/-- Moves lead to a place below the start if and only if they go down again what they climb. -/
theorem prefix_walk_iff (place : List α) (moves : List (Move α)) :
  place <+: walk place moves ↔ place.rtake (climb moves).up <+: (climb moves).down
  := by
  rw [walk_eq, Climb.apply]
  have hsplit : place.rdrop (climb moves).up ++ place.rtake (climb moves).up = place :=
    List.take_append_drop _ _
  conv_lhs => lhs; rw [← hsplit]
  exact List.prefix_append_right_inj _

/-- From the root, moves lead to what they go down. -/
theorem walk_root (moves : List (Move α)) :
  walk [] moves = (climb moves).down
  := by
  rw [walk_eq, Climb.apply, List.rdrop_nil, List.nil_append]

end Walk
