import Mathlib.Logic.Basic

/-!
# Machines and refinement

A machine takes labelled steps from a start.  What the start has and every step keeps holds in
every run (`Run.holds`).  One machine refines another by a view of its states when the views of
its steps are steps of the other, under the same labels, as long as an invariant holds; then the
views of its runs are runs of the other (`Refinement.run`).
-/

structure Machine (σ ℓ : Type*) where
  Start : σ → Prop
  Step : σ → ℓ → σ → Prop

namespace Machine

variable {σ τ ℓ : Type*} {m : Machine σ ℓ} {m' : Machine τ ℓ}

/-- The runs of a machine, with the labels of their steps and the states they end in. -/
inductive Run (m : Machine σ ℓ) : List ℓ → σ → Prop where
  | start {s : σ} (h : m.Start s) : Run m [] s
  | step {labels : List ℓ} {s s' : σ} {label : ℓ} (h : Run m labels s)
      (hstep : m.Step s label s') : Run m (labels ++ [label]) s'

/-- What the start has and every step keeps. -/
structure Invariant (m : Machine σ ℓ) (I : σ → Prop) : Prop where
  start : ∀ s, m.Start s → I s
  step : ∀ s label s', I s → m.Step s label s' → I s'

theorem Run.holds {I : σ → Prop} {labels : List ℓ} {s : σ} (hI : m.Invariant I)
    (h : m.Run labels s) :
  I s
  := by
  induction h with
  | start h => exact hI.start _ h
  | step _ hstep ih => exact hI.step _ _ _ ih hstep

/-- The steps of one machine, as they are viewed, are steps of another, under an invariant. -/
structure Refinement (m : Machine σ ℓ) (m' : Machine τ ℓ) (I : σ → Prop) (view : σ → τ) :
    Prop extends Invariant m I where
  start_view : ∀ s, m.Start s → m'.Start (view s)
  step_view : ∀ s label s', I s → m.Step s label s' → m'.Step (view s) label (view s')

theorem Refinement.run {I : σ → Prop} {view : σ → τ} {labels : List ℓ} {s : σ}
    (href : m.Refinement m' I view) (h : m.Run labels s) :
  m'.Run labels (view s)
  := by
  induction h with
  | start h => exact .start (href.start_view _ h)
  | step h hstep ih => exact .step ih (href.step_view _ _ _ (h.holds href.toInvariant) hstep)

end Machine
