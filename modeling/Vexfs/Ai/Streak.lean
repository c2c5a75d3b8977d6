import Vexfs.Ai.Memory
import Vexfs.Collections.Runs

/-!
# Streaks

A streak counts the days in a row on which a file was touched.  The current one is the run that
ends on the last day.  A streak that starts anew does not count as the longest one until it
lasts two days, so the longest streak is right only if some streak did
(`foldl_touch_iff`).
-/

namespace Vexfs

open Runs

namespace Streak

/-- The days of some touches. -/
def daysOf (touches : List UInt64) : Finset ℕ := (touches.map dayNumber).toFinset

/-- The days do not decrease, from a day on. -/
def DaysFrom (day : ℕ) : List UInt64 → Prop
  | [] => True
  | ts :: touches => day ≤ dayNumber ts ∧ DaysFrom (dayNumber ts) touches

/-! ### One touch -/

theorem lastTouchedDay_touch (s : Streak) (ts : UInt64) :
  (s.touch ts).lastTouchedDay = ts / 86400
  := by
  rw [touch]
  dsimp only
  split
  · next h => exact h.symm
  · split
    · rfl
    · rfl

/-- What a streak is after touches on some days, the last of which is the given one, while no
run is too long for its counter.  `first` tells whether the first of them was day 1. -/
structure Follows (s : Streak) (first : Prop) (days : Finset ℕ) : Prop where
  mem : s.lastTouchedDay.toNat ∈ days
  le_last : ∀ d ∈ days, d ≤ s.lastTouchedDay.toNat
  current : s.currentDays.toNat = runLength days s.lastTouchedDay.toNat
  longest_of : 2 ≤ maxRun days ∨ first → s.longestDays.toNat = maxRun days
  longest_zero : ¬ (2 ≤ maxRun days ∨ first) → s.longestDays = 0

/-- The longest streak is right exactly when some streak lasted two days, or the first day was
day 1. -/
theorem Follows.longest_iff {s : Streak} {first : Prop} {days : Finset ℕ}
    (h : s.Follows first days) :
  s.longestDays.toNat = maxRun days ↔ 2 ≤ maxRun days ∨ first
  := by
  constructor
  · intro heq
    by_contra hnot
    have hpos := (runLength_pos h.mem).trans_le (runLength_le_maxRun h.mem)
    rw [← heq, h.longest_zero hnot] at hpos
    exact absurd hpos (by decide)
  · exact h.longest_of

/-- The first touch. -/
theorem Follows.first {ts : UInt64} (hpos : 1 ≤ dayNumber ts) :
  (new.touch ts).Follows (dayNumber ts = 1) {dayNumber ts}
  := by
  have hlast : (new.touch ts).lastTouchedDay.toNat = dayNumber ts :=
    congrArg UInt64.toNat (lastTouchedDay_touch new ts)
  have hrun : runLength {dayNumber ts} (dayNumber ts) = 1 := by
    obtain ⟨n, hn⟩ := Nat.exists_eq_succ_of_ne_zero (Nat.ne_zero_of_lt hpos)
    rw [hn, ← insert_empty_eq, runLength_insert_succ, runLength_of_notMem (Finset.notMem_empty n)]
  have hmax : maxRun {dayNumber ts} = 1 := by
    rw [maxRun, Finset.sup_singleton, hrun]
  have hcases : new.touch ts = if dayNumber ts = 1 then ⟨1, 1, ts / 86400⟩
      else ⟨1, 0, ts / 86400⟩ := by
    have hzero : ts / 86400 ≠ new.lastTouchedDay := by
      intro heq
      rw [dayNumber, heq] at hpos
      exact absurd hpos (by decide)
    have hone : ts / 86400 = new.lastTouchedDay + 1 ↔ dayNumber ts = 1 :=
      ⟨fun heq => congrArg UInt64.toNat heq, fun heq => UInt64.toNat_inj.mp heq⟩
    rw [touch]
    dsimp only
    rw [if_neg hzero, if_congr hone rfl rfl]
    rfl
  constructor
  · rw [hlast]
    exact Finset.mem_singleton_self _
  · intro d hd
    rw [hlast, Finset.mem_singleton.mp hd]
  · rw [hlast, hrun, hcases]
    split
    · rfl
    · rfl
  · rw [hmax]
    rintro (htwo | hfirst)
    · exact absurd htwo (by decide)
    · rw [hcases, if_pos hfirst]
      rfl
  · rw [hmax]
    intro hnot
    rw [hcases, if_neg fun hfirst => hnot (Or.inr hfirst)]

/-- A touch on the day after the last one lengthens the streak. -/
theorem touch_next {s : Streak} {ts : UInt64} (hsucc : dayNumber ts = s.lastTouchedDay.toNat + 1) :
  s.touch ts = ⟨s.currentDays + 1,
    if s.longestDays < s.currentDays + 1 then s.currentDays + 1 else s.longestDays, ts / 86400⟩
  := by
  have hbound : dayNumber ts < 2 ^ 64 := (ts / 86400).toNat_lt
  have hsame : ts / 86400 ≠ s.lastTouchedDay := by
    intro heq
    rw [dayNumber, heq] at hsucc
    omega
  have hnext : ts / 86400 = s.lastTouchedDay + 1 := by
    apply UInt64.toNat_inj.mp
    rw [UInt64.toNat_add]
    change dayNumber ts = (s.lastTouchedDay.toNat + 1) % 2 ^ 64
    omega
  rw [touch]
  dsimp only
  rw [if_neg hsame, if_pos hnext, hnext]

/-- A touch on a later day starts the streak anew. -/
theorem touch_later {s : Streak} {ts : UInt64}
    (hgap : s.lastTouchedDay.toNat + 1 < dayNumber ts) :
  s.touch ts = { s with currentDays := 1, lastTouchedDay := ts / 86400 }
  := by
  have hbound : dayNumber ts < 2 ^ 64 := (ts / 86400).toNat_lt
  have hsame : ts / 86400 ≠ s.lastTouchedDay := by
    intro heq
    rw [dayNumber, heq] at hgap
    omega
  have hnext : ts / 86400 ≠ s.lastTouchedDay + 1 := by
    intro heq
    have hnat := congrArg UInt64.toNat heq
    rw [UInt64.toNat_add] at hnat
    change dayNumber ts = (s.lastTouchedDay.toNat + 1) % 2 ^ 64 at hnat
    omega
  rw [touch]
  dsimp only
  rw [if_neg hsame, if_neg hnext]

section Later

variable {s : Streak} {first : Prop} {days : Finset ℕ} {ts : UInt64}

theorem Follows.lt_new (h : s.Follows first days) (hlt : s.lastTouchedDay.toNat < dayNumber ts) :
  ∀ d ∈ days, d < dayNumber ts
  := fun d hd => (h.le_last d hd).trans_lt hlt

/-- A later day is the last one of the days with it. -/
theorem Follows.le_new (h : s.Follows first days) (hlt : s.lastTouchedDay.toNat < dayNumber ts) :
  (s.touch ts).lastTouchedDay.toNat ∈ insert (dayNumber ts) days
    ∧ ∀ d ∈ insert (dayNumber ts) days, d ≤ (s.touch ts).lastTouchedDay.toNat
  := by
  have hlast : (s.touch ts).lastTouchedDay.toNat = dayNumber ts :=
    congrArg UInt64.toNat (lastTouchedDay_touch s ts)
  rw [hlast]
  constructor
  · exact Finset.mem_insert_self _ _
  · intro d hd
    obtain rfl | hold := Finset.mem_insert.mp hd
    · exact Nat.le_refl _
    · exact (h.lt_new hlt d hold).le

/-- A touch on the day after the last one adds its day. -/
theorem Follows.touch_next (h : s.Follows first days)
    (hsucc : dayNumber ts = s.lastTouchedDay.toNat + 1)
    (hfits : maxRun (insert (dayNumber ts) days) < 2 ^ 32) :
  (s.touch ts).Follows first (insert (dayNumber ts) days)
  := by
  have hlt : s.lastTouchedDay.toNat < dayNumber ts := by omega
  obtain ⟨hmem, hle⟩ := h.le_new hlt
  have hmax := maxRun_insert (h.lt_new hlt)
  have hcurrent := h.current
  have hrun : runLength (insert (dayNumber ts) days) (dayNumber ts)
      = s.currentDays.toNat + 1 := by
    rw [hsucc, runLength_insert_succ, hcurrent]
  have hcount : (s.currentDays + 1).toNat = s.currentDays.toNat + 1 := by
    rw [UInt32.toNat_add]
    apply Nat.mod_eq_of_lt
    rw [hrun] at hmax
    have hone : (1 : UInt32).toNat = 1 := rfl
    omega
  have hone : 1 ≤ s.currentDays.toNat := by
    rw [hcurrent]
    exact runLength_pos h.mem
  have htwo : 2 ≤ maxRun (insert (dayNumber ts) days) := by
    rw [hmax, hrun]
    omega
  rw [Streak.touch_next hsucc] at hmem hle ⊢
  refine ⟨hmem, hle, hcount.trans hrun.symm, fun _ => ?_, fun hnot => absurd (Or.inl htwo) hnot⟩
  have hlongest : (if s.longestDays < s.currentDays + 1 then s.currentDays + 1
      else s.longestDays).toNat = max s.longestDays.toNat (s.currentDays.toNat + 1) := by
    rw [← hcount]
    split
    · next hlt => exact (Nat.max_eq_right (UInt32.lt_iff_toNat_lt.mp hlt).le).symm
    · next hge => exact (Nat.max_eq_left (UInt32.not_lt.mp hge)).symm
  rw [hlongest, hmax, hrun, max_comm]
  by_cases hold : 2 ≤ maxRun days ∨ first
  · rw [h.longest_of hold]
  · rw [h.longest_zero hold]
    have hshort : maxRun days < 2 := Nat.not_le.mp fun hle => hold (Or.inl hle)
    change max (s.currentDays.toNat + 1) 0 = max (s.currentDays.toNat + 1) (maxRun days)
    omega

/-- A touch on a later day adds its day. -/
theorem Follows.touch_later (h : s.Follows first days)
    (hgap : s.lastTouchedDay.toNat + 1 < dayNumber ts) :
  (s.touch ts).Follows first (insert (dayNumber ts) days)
  := by
  have hlt : s.lastTouchedDay.toNat < dayNumber ts := by omega
  obtain ⟨hmem, hle⟩ := h.le_new hlt
  have hrun : runLength (insert (dayNumber ts) days) (dayNumber ts) = 1 := by
    obtain ⟨n, hn⟩ := Nat.exists_eq_succ_of_ne_zero (Nat.ne_zero_of_lt hlt)
    have hout : n ∉ days := fun hmem' => by
      have hle' := h.le_last n hmem'
      omega
    rw [hn, runLength_insert_succ, runLength_of_notMem hout]
  have hmax : maxRun (insert (dayNumber ts) days) = maxRun days := by
    rw [maxRun_insert (h.lt_new hlt), hrun]
    exact Nat.max_eq_right ((runLength_pos h.mem).trans_le (runLength_le_maxRun h.mem))
  rw [Streak.touch_later hgap] at hmem hle ⊢
  refine ⟨hmem, hle, hrun.symm, ?_, ?_⟩
  · rw [hmax]
    exact h.longest_of
  · rw [hmax]
    exact h.longest_zero

end Later

/-- A touch adds its day. -/
theorem Follows.touch {s : Streak} {first : Prop} {days : Finset ℕ} (h : s.Follows first days)
    {ts : UInt64} (hday : s.lastTouchedDay.toNat ≤ dayNumber ts)
    (hfits : maxRun (insert (dayNumber ts) days) < 2 ^ 32) :
  (s.touch ts).Follows first (insert (dayNumber ts) days)
  := by
  obtain hsame | hlt := hday.eq_or_lt
  · have htouch : s.touch ts = s := if_pos (UInt64.toNat_inj.mp hsame.symm)
    rw [htouch, Finset.insert_eq_of_mem (hsame ▸ h.mem)]
    exact h
  obtain hnext | hgap := Nat.eq_or_lt_of_le (Nat.succ_le_of_lt hlt)
  · exact h.touch_next hnext.symm hfits
  · exact h.touch_later hgap

/-! ### Touches -/

/-- Touches add their days. -/
theorem Follows.foldl {s : Streak} {first : Prop} {days : Finset ℕ} (h : s.Follows first days)
    {touches : List UInt64} (hdays : DaysFrom s.lastTouchedDay.toNat touches)
    (hfits : maxRun (days ∪ daysOf touches) < 2 ^ 32) :
  (touches.foldl Streak.touch s).Follows first (days ∪ daysOf touches)
  := by
  induction touches generalizing s days with
  | nil =>
      have hnil : days ∪ daysOf [] = days := Finset.union_empty days
      rw [hnil]
      exact h
  | cons ts touches ih =>
      have hcons : days ∪ daysOf (ts :: touches) = insert (dayNumber ts) days ∪ daysOf touches := by
        rw [daysOf, List.map_cons, List.toFinset_cons, Finset.union_insert, Finset.insert_union]
        rfl
      have hlast : (s.touch ts).lastTouchedDay.toNat = dayNumber ts :=
        congrArg UInt64.toNat (lastTouchedDay_touch s ts)
      rw [hcons] at hfits ⊢
      have hstep := h.touch hdays.1
        ((maxRun_mono Finset.subset_union_left).trans_lt hfits)
      exact ih hstep (by rw [hlast]; exact hdays.2) hfits

/-- The day of the last touch. -/
theorem lastTouchedDay_foldl (s : Streak) {touches : List UInt64} (hne : touches ≠ []) :
  (touches.foldl touch s).lastTouchedDay = touches.getLast hne / 86400
  := by
  have hfold := congrArg (List.foldl touch s) (List.dropLast_append_getLast hne)
  rw [List.foldl_append] at hfold
  rw [← hfold]
  exact lastTouchedDay_touch _ _

/-- After touches on days that do not decrease, the streak is the run of days that ends on the
last day, and its longest one is the longest run, exactly when its counter was large enough and
either two days in a row were touched or the first day was day 1. -/
theorem foldl_touch_iff (ts : UInt64) (touches : List UInt64) (hpos : 1 ≤ dayNumber ts)
    (hdays : DaysFrom (dayNumber ts) touches) :
  (((ts :: touches).foldl touch new).currentDays.toNat
      = runLength (daysOf (ts :: touches))
        (dayNumber ((ts :: touches).getLast (List.cons_ne_nil _ _)))
    ∧ ((ts :: touches).foldl touch new).longestDays.toNat = maxRun (daysOf (ts :: touches)))
  ↔ maxRun (daysOf (ts :: touches)) < 2 ^ 32
    ∧ ((∃ d ∈ daysOf (ts :: touches), d + 1 ∈ daysOf (ts :: touches)) ∨ dayNumber ts = 1)
  := by
  have hlast := lastTouchedDay_foldl new (List.cons_ne_nil ts touches)
  have hlast' : (new.touch ts).lastTouchedDay.toNat = dayNumber ts :=
    congrArg UInt64.toNat (lastTouchedDay_touch new ts)
  have hunion : {dayNumber ts} ∪ daysOf touches = daysOf (ts :: touches) := by
    rw [daysOf, daysOf, List.map_cons, List.toFinset_cons, Finset.insert_eq]
  have hfollows (hfits : maxRun (daysOf (ts :: touches)) < 2 ^ 32) :
      ((ts :: touches).foldl touch new).Follows (dayNumber ts = 1) (daysOf (ts :: touches)) := by
    rw [← hunion] at hfits ⊢
    exact (Follows.first hpos).foldl (by rw [hlast']; exact hdays) hfits
  rw [← two_le_maxRun_iff]
  constructor
  · rintro ⟨-, hlongest⟩
    have hfits : maxRun (daysOf (ts :: touches)) < 2 ^ 32 := by
      rw [← hlongest]
      exact UInt32.toNat_lt _
    exact ⟨hfits, (hfollows hfits).longest_iff.mp hlongest⟩
  · rintro ⟨hfits, hcond⟩
    have h := hfollows hfits
    refine ⟨?_, h.longest_of hcond⟩
    rw [h.current, hlast]
    rfl

/-- Two days in a row. -/
theorem foldl_touch_two_days :
  ([172800, 259200].foldl touch new).currentDays.toNat = 2
    ∧ ([172800, 259200].foldl touch new).longestDays.toNat = 2
  := by
  have h := (foldl_touch_iff 172800 [259200] (by decide) ⟨by decide, trivial⟩).mpr
    ⟨by decide, Or.inl ⟨2, by decide, by decide⟩⟩
  exact ⟨h.1.trans (by decide), h.2.trans (by decide)⟩

/-- A file that was touched on one day has a current streak of one day, and none before. -/
theorem not_foldl_touch :
  ¬ ∀ (ts : UInt64) (touches : List UInt64), 1 ≤ dayNumber ts → DaysFrom (dayNumber ts) touches →
    ((ts :: touches).foldl touch new).currentDays.toNat
        = runLength (daysOf (ts :: touches))
          (dayNumber ((ts :: touches).getLast (List.cons_ne_nil _ _)))
      ∧ ((ts :: touches).foldl touch new).longestDays.toNat = maxRun (daysOf (ts :: touches))
  := by
  intro h
  have hlongest := (h 172800 [] (by decide) trivial).2
  have hmax : maxRun (daysOf [172800]) = 1 := by decide
  rw [hmax] at hlongest
  exact absurd hlongest (by decide)

end Streak

end Vexfs
