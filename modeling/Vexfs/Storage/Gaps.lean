import Mathlib

/-!
# The gaps between ranges

A range is an offset and a length; ranges may overlap, and what they leave from a base on are
the gaps.  `gapCount base S x` gaps start up to a position, and `gapsBelow base S limit` below
it.  When no more gaps start behind a position, an unused position behind it lies in a gap that
has started before (`notMem_of_gapsBelow_eq`).
-/

namespace Storage

/-- The positions of the given ranges. -/
def claimed (used : List (ℕ × ℕ)) : Set ℕ :=
  {x | ∃ r ∈ used, r.1 ≤ x ∧ x < r.1 + r.2}

/-- Whether a gap starts at a position: it is not in `S`, and it is the first one or follows
one in `S`. -/
def GapStart (base : ℕ) (S : Set ℕ) (a : ℕ) : Prop :=
  base ≤ a ∧ a ∉ S ∧ (a = base ∨ a - 1 ∈ S)

/-- The number of gaps that start up to a position. -/
noncomputable def gapCount (base : ℕ) (S : Set ℕ) (x : ℕ) : ℕ :=
  {a | GapStart base S a ∧ a ≤ x}.ncard

variable {base b x : ℕ} {S : Set ℕ}

/-- In the first gap one gap has started. -/
theorem gapCount_first (hout : ∀ y, base ≤ y → y ≤ x → y ∉ S) (hx : base ≤ x) :
  gapCount base S x = 1
  := by
  have hstarts : {a | GapStart base S a ∧ a ≤ x} = {base} := by
    ext a
    constructor
    · rintro ⟨⟨hlo, -, hstart⟩, hle⟩
      obtain rfl | hprev := hstart
      · rfl
      · obtain rfl | hlt := Nat.eq_or_lt_of_le hlo
        · rfl
        · exact absurd hprev (hout _ (by omega) (by omega))
    · rintro rfl
      exact ⟨⟨Nat.le_refl _, hout _ (Nat.le_refl _) hx, Or.inl rfl⟩, hx⟩
  rw [gapCount, hstarts, Set.ncard_singleton]

/-! ### The gaps below a limit -/

/-- The positions from `base` up to a limit that are not in `S`. -/
def unused (base : ℕ) (S : Set ℕ) (limit : ℕ) : Set ℕ := {x | base ≤ x ∧ x < limit ∧ x ∉ S}

/-- What is unused up to a position, then a gap, and then positions in `S`. -/
theorem unused_union_gap {c e : ℕ} (hc : base ≤ c) (hce : c ≤ e) (he : b ≤ e)
    (hout : ∀ y, c ≤ y → y < b → y ∉ S) (hin : ∀ y, c ≤ y → b ≤ y → y < e → y ∈ S) :
  unused base S c ∪ Set.Ico c b = unused base S e
  := by
  ext y
  constructor
  · rintro (⟨hlo, hhi, hnot⟩ | ⟨hlo, hhi⟩)
    · exact ⟨hlo, by omega, hnot⟩
    · exact ⟨by omega, by omega, hout y hlo hhi⟩
  · rintro ⟨hlo, hhi, hnot⟩
    by_cases hy : y < c
    · exact Or.inl ⟨hlo, hy, hnot⟩
    · right
      refine ⟨Nat.not_lt.mp hy, ?_⟩
      by_contra hge
      exact hnot (hin y (Nat.not_lt.mp hy) (Nat.not_lt.mp hge) hhi)

/-- The number of gaps that start below a limit. -/
noncomputable def gapsBelow (base : ℕ) (S : Set ℕ) (limit : ℕ) : ℕ :=
  {a | GapStart base S a ∧ a < limit}.ncard

variable {limit limit' : ℕ}

theorem finite_startsBelow (base : ℕ) (S : Set ℕ) (limit : ℕ) :
  {a | GapStart base S a ∧ a < limit}.Finite
  := (Set.finite_Iio limit).subset fun _ ha => ha.2

theorem gapsBelow_mono (hle : limit ≤ limit') :
  gapsBelow base S limit ≤ gapsBelow base S limit'
  := by
  apply Set.ncard_le_ncard _ (finite_startsBelow base S limit')
  exact fun a ha => ⟨ha.1, Nat.lt_of_lt_of_le ha.2 hle⟩

theorem gapCount_eq_gapsBelow :
  gapCount base S x = gapsBelow base S (x + 1)
  := by
  simp only [gapCount, gapsBelow, Nat.lt_succ_iff]

/-- When no gap starts between two positions, an unused position behind the first one lies in a
gap that has started before. -/
theorem notMem_of_gapsBelow_eq (heq : gapsBelow base S b = gapsBelow base S limit)
    (hb : base ≤ b) (hx : b ≤ x) (hlimit : x < limit) (hnot : x ∉ S) :
  base < b ∧ b - 1 ∉ S ∧ b ∉ S
  := by
  have hstarts : {a | GapStart base S a ∧ a < b} = {a | GapStart base S a ∧ a < limit} := by
    apply Set.eq_of_subset_of_ncard_le _ (Nat.le_of_eq heq.symm) (finite_startsBelow base S limit)
    exact fun a ha => ⟨ha.1, by have := ha.2; omega⟩
  have hnone : ∀ a, b ≤ a → a < limit → ¬ GapStart base S a := by
    intro a hle hlt hstart
    have hmem : a ∈ {a | GapStart base S a ∧ a < b} := hstarts ▸ ⟨hstart, hlt⟩
    exact absurd hmem.2 (Nat.not_lt.mpr hle)
  have hout : ∀ d y, y + d = x → b ≤ y → y ∉ S := by
    intro d
    induction d with
    | zero =>
        rintro y rfl _
        exact hnot
    | succ d ih =>
        intro y hy hle hin
        apply hnone (y + 1) (by omega) (by omega)
        exact ⟨by omega, ih (y + 1) (by omega) (by omega), Or.inr hin⟩
  have hbout : b ∉ S := hout (x - b) b (by omega) (Nat.le_refl b)
  have hbnone := hnone b (Nat.le_refl b) (by omega)
  refine ⟨?_, fun hin => hbnone ⟨hb, hbout, Or.inr hin⟩, hbout⟩
  apply Nat.lt_of_le_of_ne hb
  exact fun heq => hbnone ⟨hb, hbout, Or.inl heq.symm⟩

end Storage
