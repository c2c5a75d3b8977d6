import Mathlib

/-!
# Runs of consecutive numbers

The run of a set that ends at a number consists of the numbers up to it that follow each other
without a gap.  A number that is added above a set makes a run of its own, or the run that
ended just below it longer, and leaves the other runs alone.
-/

namespace Runs

/-- The length of the run that ends at a number; 0 when the number is not in the set. -/
def runLength (s : Finset ℕ) : ℕ → ℕ
  | 0 => if 0 ∈ s then 1 else 0
  | n + 1 => if n + 1 ∈ s then runLength s n + 1 else 0

/-- The length of the longest run. -/
def maxRun (s : Finset ℕ) : ℕ := s.sup (runLength s)

variable {s : Finset ℕ} {m n : ℕ}

theorem runLength_of_notMem (h : n ∉ s) :
  runLength s n = 0
  := by
  cases n with
  | zero => exact if_neg h
  | succ n => exact if_neg h

theorem runLength_pos (h : n ∈ s) :
  0 < runLength s n
  := by
  cases n with
  | zero =>
      rw [runLength, if_pos h]
      exact Nat.one_pos
  | succ n =>
      rw [runLength, if_pos h]
      exact Nat.succ_pos _

/-- The run that ends at a number is made of the numbers before it. -/
theorem le_runLength_iff {k : ℕ} :
  k ≤ runLength s n ↔ ∀ i < k, i ≤ n ∧ n - i ∈ s
  := by
  induction n generalizing k with
  | zero =>
      rw [runLength]
      split
      · next hmem =>
        constructor
        · intro hk i hi
          obtain rfl : i = 0 := by omega
          exact ⟨Nat.le_refl _, hmem⟩
        · intro h
          by_contra hk
          exact absurd (h 1 (by omega)).1 (by decide)
      · next hmem =>
        constructor
        · intro hk i hi
          omega
        · intro h
          by_contra hk
          exact hmem (h 0 (by omega)).2
  | succ n ih =>
      rw [runLength]
      split
      · next hmem =>
        constructor
        · intro hk i hi
          cases i with
          | zero => exact ⟨Nat.zero_le _, hmem⟩
          | succ i =>
              obtain ⟨hle, hi'⟩ := ih.mp (Nat.sub_le_of_le_add hk) i (by omega)
              exact ⟨Nat.succ_le_succ hle, by rwa [Nat.succ_sub_succ]⟩
        · intro h
          have hlow : k - 1 ≤ runLength s n := by
            apply ih.mpr
            intro i hi
            obtain ⟨hle, hmem'⟩ := h (i + 1) (by omega)
            rw [Nat.succ_sub_succ] at hmem'
            exact ⟨Nat.le_of_succ_le_succ hle, hmem'⟩
          omega
      · next hmem =>
        constructor
        · intro hk i hi
          omega
        · intro h
          by_contra hk
          exact hmem (h 0 (by omega)).2

/-- A run that ends below a new number is as before. -/
theorem runLength_insert_of_lt (h : n < m) :
  runLength (insert m s) n = runLength s n
  := by
  have hmem (k : ℕ) (hk : k ≤ n) : k ∈ insert m s ↔ k ∈ s := by
    rw [Finset.mem_insert, or_iff_right (by omega)]
  induction n with
  | zero => rw [runLength, runLength, if_congr (hmem 0 (Nat.le_refl 0)) rfl rfl]
  | succ n ih =>
      have hn := ih (Nat.lt_of_succ_lt h) fun k hk => hmem k (Nat.le_succ_of_le hk)
      rw [runLength, runLength, hn, if_congr (hmem (n + 1) (Nat.le_refl _)) rfl rfl]

/-- A new number above a set makes the run below it longer. -/
theorem runLength_insert_succ :
  runLength (insert (n + 1) s) (n + 1) = runLength s n + 1
  := by
  rw [runLength, if_pos (Finset.mem_insert_self _ _), runLength_insert_of_lt (Nat.lt_succ_self n)]

/-- A new number above a set adds its run. -/
theorem maxRun_insert (h : ∀ k ∈ s, k < m) :
  maxRun (insert m s) = max (runLength (insert m s) m) (maxRun s)
  := by
  rw [maxRun, maxRun, Finset.sup_insert]
  congr 1
  apply Finset.sup_congr rfl
  intro k hk
  exact runLength_insert_of_lt (h k hk)

theorem runLength_le_maxRun (h : n ∈ s) :
  runLength s n ≤ maxRun s
  := Finset.le_sup h

theorem maxRun_mono {t : Finset ℕ} (h : s ⊆ t) :
  maxRun s ≤ maxRun t
  := by
  apply Finset.sup_le
  intro k hk
  apply le_trans _ (runLength_le_maxRun (h hk))
  apply le_runLength_iff.mpr
  intro i hi
  obtain ⟨hle, hmem⟩ := le_runLength_iff.mp (Nat.le_refl (runLength s k)) i hi
  exact ⟨hle, h hmem⟩

/-- A run of two numbers or more has two numbers that follow each other. -/
theorem two_le_maxRun_iff :
  2 ≤ maxRun s ↔ ∃ n ∈ s, n + 1 ∈ s
  := by
  constructor
  · intro h
    obtain ⟨n, hn, hlt⟩ := (Finset.lt_sup_iff).mp (show 1 < s.sup (runLength s) from h)
    obtain ⟨hle, hmem⟩ := le_runLength_iff.mp hlt 1 (by decide)
    use n - 1, hmem
    rw [Nat.sub_add_cancel hle]
    exact hn
  · rintro ⟨n, hn, hsucc⟩
    apply le_trans _ (runLength_le_maxRun hsucc)
    rw [runLength, if_pos hsucc]
    exact Nat.succ_le_succ (runLength_pos hn)

end Runs
