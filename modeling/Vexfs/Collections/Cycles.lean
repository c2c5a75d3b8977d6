import Mathlib.Data.List.Chain
import Mathlib.Data.Finset.Card
import Mathlib.Data.List.Nodup
import Mathlib.Logic.Relation

/-!
# Paths without an end

From an element there are paths of every length along a relation that leads to finitely many
elements exactly when an element that lies on a cycle is reachable (`forall_deep_iff`).
-/

namespace Cycles

open Relation

variable {α : Type*} {R : α → α → Prop}

/-- A path of some steps begins with an element. -/
def Deep (R : α → α → Prop) : ℕ → α → Prop
  | 0, _ => True
  | n + 1, x => ∃ y, R x y ∧ Deep R n y

theorem Deep.pred {n : ℕ} {x : α} (h : Deep R (n + 1) x) :
  Deep R n x
  := by
  induction n generalizing x with
  | zero => trivial
  | succ n ih =>
      obtain ⟨y, hxy, hy⟩ := h
      exact ⟨y, hxy, ih hy⟩

/-- Paths of every length begin with what leads to an element with such paths. -/
theorem forall_deep_of_reflTransGen {x y : α} (hxy : ReflTransGen R x y)
    (hy : ∀ n, Deep R n y) :
  ∀ n, Deep R n x
  := by
  induction hxy using ReflTransGen.head_induction_on with
  | refl => exact hy
  | head hstep _ ih => exact fun n => Deep.pred ⟨_, hstep, ih n⟩

theorem forall_deep_of_cycle {x : α} (h : TransGen R x x) (n : ℕ) :
  Deep R n x
  := by
  induction n generalizing x with
  | zero => trivial
  | succ n ih =>
      obtain ⟨y, hxy, hyx⟩ := TransGen.head'_iff.mp h
      exact ⟨y, hxy, ih (TransGen.tail' hyx hxy)⟩

/-- The elements on a path. -/
theorem Deep.exists_chain {n : ℕ} {x : α} (h : Deep R n x) :
  ∃ l : List α, l.length = n ∧ (x :: l).IsChain R
  := by
  induction n generalizing x with
  | zero => exact ⟨[], rfl, List.isChain_singleton x⟩
  | succ n ih =>
      obtain ⟨y, hxy, hy⟩ := h
      obtain ⟨l, hl, hchain⟩ := ih hy
      refine ⟨y :: l, congrArg (· + 1) hl, ?_⟩
      exact List.isChain_cons_cons.mpr ⟨hxy, hchain⟩

/-- A path that is longer than there are elements to lead to goes through a cycle. -/
theorem exists_cycle [DecidableEq α] {S : Finset α} (hS : ∀ x y, R x y → y ∈ S) {x : α}
    (h : Deep R (S.card + 1) x) :
  ∃ y, ReflTransGen R x y ∧ TransGen R y y
  := by
  obtain ⟨l, hl, hchain⟩ := h.exists_chain
  have hpairwise : (x :: l).Pairwise (TransGen R) :=
    List.isChain_iff_pairwise.mp (hchain.imp fun _ _ hab => TransGen.single hab)
  rw [List.pairwise_cons] at hpairwise
  have hsubset : l.toFinset ⊆ S := by
    intro y hy
    obtain ⟨z, -, hzy⟩ := TransGen.tail'_iff.mp (hpairwise.1 y (List.mem_toFinset.mp hy))
    exact hS z y hzy
  have hdup : ¬ l.Nodup := by
    intro hnodup
    have hcard := Finset.card_le_card hsubset
    rw [List.toFinset_card_of_nodup hnodup, hl] at hcard
    exact Nat.not_succ_le_self _ hcard
  rw [List.nodup_iff_sublist, not_forall] at hdup
  obtain ⟨y, hy⟩ := hdup
  have htwice := not_not.mp hy
  refine ⟨y, (hpairwise.1 y (htwice.subset List.mem_cons_self)).to_reflTransGen, ?_⟩
  have hpair := hpairwise.2.sublist htwice
  rw [List.pairwise_pair] at hpair
  exact hpair

theorem forall_deep_iff [DecidableEq α] {S : Finset α} (hS : ∀ x y, R x y → y ∈ S) {x : α} :
  (∀ n, Deep R n x) ↔ ∃ y, ReflTransGen R x y ∧ TransGen R y y
  := by
  constructor
  · exact fun h => exists_cycle hS (h _)
  · rintro ⟨y, hxy, hy⟩
    exact forall_deep_of_reflTransGen hxy (forall_deep_of_cycle hy)

end Cycles
