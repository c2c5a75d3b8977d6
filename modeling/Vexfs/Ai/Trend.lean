import Vexfs.Ai.Memory

/-!
# The trend window

The tracker keeps 14 counters for each file, the last one for the current day, and moves all of
them along when a record comes on a later day.  While the clock does not go back, the counters
of a file are the numbers of its records on the last 14 days, up to wrapping
(`daily_recordAll`).
-/

namespace Vexfs

namespace TrendTracker

/-- A record of a file at a time. -/
abbrev Record : Type := UInt64 × UInt64

/-- The counters of a file; they are 0 when it is not tracked. -/
def window (t : TrendTracker) (ino : UInt64) : List.Vector UInt32 14 :=
  (t.daily.get ino).getD (.replicate 14 0)

/-! ### Moving the window -/

theorem get_clearLast_rotateLeft (counts : List.Vector UInt32 14) {advance : ℕ}
    (h : advance ≤ 14) (d : Fin 14) :
  (clearLast (rotateLeft counts advance) advance).get d.rev
    = if d.val < advance then 0 else counts.get (Fin.rev ⟨d - advance, by omega⟩)
  := by
  rw [clearLast, List.Vector.get_ofFn]
  have hd := d.isLt
  have hrev : (d.rev).val = 13 - d := by
    rw [Fin.val_rev]
    omega
  rw [hrev]
  by_cases hlt : d.val < advance
  · rw [if_neg (by omega), if_pos hlt]
  · rw [if_pos (by omega), if_neg hlt, rotateLeft, List.Vector.get_ofFn]
    congr 1
    apply Fin.ext
    rw [Fin.val_add, Fin.val_rev, Fin.val_rev]
    dsimp only [Fin.ofNat]
    omega

/-- On a later day the counters move, and those of the days between are 0. -/
theorem get_window_advanceTo (t : TrendTracker) (today ino : UInt64) (d : Fin 14) :
  (window (t.advanceTo today) ino).get d.rev
    = if d.val < today.toNat - t.lastDay.toNat then 0
      else (window t ino).get (Fin.rev ⟨d - (today.toNat - t.lastDay.toNat), by omega⟩)
  := by
  rw [advanceTo]
  split
  · next hlt =>
    have hsub : (today - t.lastDay).toNat = today.toNat - t.lastDay.toNat :=
      UInt64.toNat_sub_of_le _ _ (UInt64.le_of_lt hlt)
    have hd := d.isLt
    rw [window, window, FiniteMap.get_map, hsub]
    cases t.daily.get ino with
    | none =>
        rw [Option.map_none, Option.getD_none, List.Vector.get_replicate,
          List.Vector.get_replicate, ite_self]
    | some counts =>
        rw [Option.map_some, Option.getD_some, Option.getD_some,
          get_clearLast_rotateLeft counts (Nat.min_le_right _ _) d]
        by_cases hout : d.val < today.toNat - t.lastDay.toNat
        · rw [if_pos hout, if_pos (Nat.lt_min.mpr ⟨hout, hd⟩)]
        · have hmin : min (today.toNat - t.lastDay.toNat) 14 = today.toNat - t.lastDay.toNat :=
            Nat.min_eq_left (by omega)
          rw [if_neg hout, if_neg (by rw [hmin]; exact hout)]
          congr 2
          exact Fin.ext (congrArg (d.val - ·) hmin)
  · next hle =>
    have hzero : today.toNat - t.lastDay.toNat = 0 :=
      Nat.sub_eq_zero_of_le (UInt64.le_iff_toNat_le.mp (UInt64.not_lt.mp hle))
    rw [if_neg (by rw [hzero]; exact Nat.not_lt_zero _)]
    congr 2
    exact Fin.ext (congrArg (d.val - ·) hzero.symm)

theorem lastDay_advanceTo {t : TrendTracker} {today : UInt64} (h : t.lastDay ≤ today) :
  (t.advanceTo today).lastDay = today
  := by
  rw [advanceTo]
  split
  · rfl
  · next hle => exact UInt64.le_antisymm h (UInt64.not_lt.mp hle)

/-! ### Records -/

theorem get_countAt {n : ℕ} (counts : List.Vector UInt32 n) (i j : Fin n) :
  (countAt counts i).get j = counts.get j + if j = i then 1 else 0
  := by
  rw [countAt]
  by_cases hij : j = i
  · subst hij
    rw [List.Vector.get_set_same, if_pos rfl]
  · rw [List.Vector.get_set_of_ne (Ne.symm hij), if_neg hij, UInt32.add_zero]

/-- A record counts for its file and its day. -/
theorem get_window_record (t : TrendTracker) (ino now ino' : UInt64) (d : Fin 14) :
  (window (t.record ino now) ino').get d.rev
    = (window (t.advanceTo (now / 86400)) ino').get d.rev
      + if ino' = ino ∧ d = 0 then 1 else 0
  := by
  have hdaily : (t.record ino now).daily = (t.advanceTo (now / 86400)).daily.insert ino
      (countAt ((t.advanceTo (now / 86400)).window ino) 13) := rfl
  rw [window, hdaily, FiniteMap.get_insert]
  by_cases hino : ino' = ino
  · subst hino
    have hlast : d.rev = 13 ↔ d = 0 := by
      rw [← Fin.rev_inj (j := 13), Fin.rev_rev]
      rfl
    rw [if_pos rfl, Option.getD_some, get_countAt]
    congr 1
    simp [hlast]
  · rw [if_neg hino, if_neg (fun h => hino h.1), UInt32.add_zero]
    rfl

/-- The counters are the numbers of the records on the last days. -/
structure Counts (t : TrendTracker) (records : List Record) : Prop where
  days_le : ∀ r ∈ records, dayNumber r.2 ≤ t.lastDay.toNat
  window_eq : ∀ ino (d : Fin 14), (t.window ino).get d.rev
    = UInt32.ofNat (records.countP fun r => r.1 = ino ∧ dayNumber r.2 + d = t.lastDay.toNat)

theorem Counts.new (now : UInt64) :
  Counts (new now) []
  := by
  constructor
  · intro r hr
    cases hr
  · intro ino d
    exact List.Vector.get_replicate _ _

theorem Counts.record {t : TrendTracker} {records : List Record} (h : Counts t records)
    (ino : UInt64) {now : UInt64} (hday : t.lastDay ≤ now / 86400) :
  Counts (t.record ino now) (records ++ [(ino, now)])
  := by
  have hlast : (t.record ino now).lastDay = now / 86400 := lastDay_advanceTo hday
  have hle : t.lastDay.toNat ≤ dayNumber now := UInt64.le_iff_toNat_le.mp hday
  constructor
  · intro r hr
    rw [hlast]
    obtain hold | hnew := List.mem_append.mp hr
    · exact (h.days_le r hold).trans hle
    · obtain rfl := List.mem_singleton.mp hnew
      exact Nat.le_refl _
  · intro ino' d
    rw [hlast, get_window_record, get_window_advanceTo, List.countP_append, UInt32.ofNat_add]
    congr 1
    · -- the records of before are found where the window has moved them
      have hd := d.isLt
      change (if d.val < dayNumber now - t.lastDay.toNat then 0
        else (t.window ino').get (Fin.rev ⟨d - (dayNumber now - t.lastDay.toNat), _⟩))
          = UInt32.ofNat (records.countP fun r => r.1 = ino' ∧ dayNumber r.2 + d = dayNumber now)
      split
      · next hout =>
        have hnone : records.countP (fun r => r.1 = ino' ∧ dayNumber r.2 + d = dayNumber now)
            = 0 := by
          rw [List.countP_eq_zero]
          intro r hr
          have hr' := h.days_le r hr
          rw [decide_eq_true_iff]
          omega
        rw [hnone]
        rfl
      · next hin =>
        rw [h.window_eq]
        congr 2
        funext r
        apply decide_eq_decide.mpr
        dsimp only
        apply and_congr_right'
        omega
    · have hnow : dayNumber now + d = (now / 86400).toNat ↔ d = 0 := by
        rw [dayNumber, Nat.add_eq_left, Fin.val_eq_zero_iff]
      rw [List.countP_singleton]
      by_cases hmade : ino' = ino ∧ d = 0
      · rw [if_pos hmade, if_pos (decide_eq_true ⟨hmade.1.symm, hnow.mpr hmade.2⟩)]
        rfl
      · rw [if_neg hmade, if_neg]
        · rfl
        · rw [decide_eq_true_iff]
          exact fun h => hmade ⟨h.1.symm, hnow.mp h.2⟩

/-- The days of some records do not decrease from a day on. -/
def DaysFrom (day : UInt64) : List Record → Prop
  | [] => True
  | r :: rs => day ≤ r.2 / 86400 ∧ DaysFrom (r.2 / 86400) rs

/-- The tracker after some records. -/
def recordAll (t : TrendTracker) (records : List Record) : TrendTracker :=
  records.foldl (fun t r => t.record r.1 r.2) t

theorem Counts.recordAll {t : TrendTracker} {before records : List Record}
    (h : Counts t before) (hdays : DaysFrom t.lastDay records) :
  Counts (t.recordAll records) (before ++ records)
  := by
  induction records generalizing t before with
  | nil =>
      rw [List.append_nil]
      exact h
  | cons r rs ih =>
      have hlast : (t.record r.1 r.2).lastDay = r.2 / 86400 := lastDay_advanceTo hdays.1
      have hrest := ih (h.record r.1 hdays.1) (hlast ▸ hdays.2)
      rw [List.append_assoc] at hrest
      exact hrest

/-- The last day of a tracker is that of the last record. -/
theorem lastDay_recordAll (t : TrendTracker) {records : List Record} {ino now : UInt64}
    (hdays : DaysFrom t.lastDay (records ++ [(ino, now)])) :
  (t.recordAll (records ++ [(ino, now)])).lastDay = now / 86400
  := by
  induction records generalizing t with
  | nil => exact lastDay_advanceTo hdays.1
  | cons r rs ih =>
      have hlast : (t.record r.1 r.2).lastDay = r.2 / 86400 := lastDay_advanceTo hdays.1
      exact ih _ (hlast ▸ hdays.2)

theorem window_recordAll (now₀ : UInt64) (records : List Record) (ino now : UInt64)
    (hdays : DaysFrom (now₀ / 86400) (records ++ [(ino, now)])) (ino' : UInt64) (d : Fin 14) :
  (window ((new now₀).recordAll (records ++ [(ino, now)])) ino').get d.rev
    = UInt32.ofNat ((records ++ [(ino, now)]).countP fun r =>
        r.1 = ino' ∧ dayNumber r.2 + d = dayNumber now)
  := by
  have hcounts := ((Counts.new now₀).recordAll hdays).window_eq ino' d
  rw [lastDay_recordAll _ hdays] at hcounts
  exact hcounts

/-- While the clock does not go back, the counter of a tracked file for the day `d` days before
the last record is the number of its records on that day, modulo `2 ^ 32`. -/
theorem daily_recordAll (now₀ : UInt64) (records : List Record) (ino now : UInt64)
    (hdays : DaysFrom (now₀ / 86400) (records ++ [(ino, now)])) {ino' : UInt64}
    {counts : List.Vector UInt32 14}
    (hget : ((new now₀).recordAll (records ++ [(ino, now)])).daily.get ino' = some counts)
    (d : Fin 14) :
  counts.get d.rev = UInt32.ofNat ((records ++ [(ino, now)]).countP fun r =>
    r.1 = ino' ∧ dayNumber r.2 + d = dayNumber now)
  := by
  have hwindow := window_recordAll now₀ records ino now hdays ino' d
  rw [window, hget] at hwindow
  exact hwindow

/-- Two records of a file on one day, and one of another file three days later. -/
theorem daily_recordAll_three_days :
  let records : List Record := [(1, 100), (1, 200), (2, 259300)]
  ∃ counts, ((new 100).recordAll records).daily.get 1 = some counts
    ∧ counts.get (Fin.rev 3) = UInt32.ofNat (records.countP fun r =>
      r.1 = 1 ∧ dayNumber r.2 + (3 : Fin 14) = dayNumber 259300)
  := by
  intro records
  have hsome : (((new 100).recordAll records).daily.get 1).isSome := by decide
  obtain ⟨counts, hget⟩ := Option.isSome_iff_exists.mp hsome
  use counts, hget
  exact daily_recordAll 100 [(1, 100), (1, 200)] 2 259300
    ⟨by decide, by decide, by decide, trivial⟩ hget 3

/-- After `2 ^ 32` records of a file on one day its counter is 0. -/
theorem not_daily_recordAll :
  ¬ ∀ (now₀ : UInt64) (records : List Record) (ino now : UInt64),
    DaysFrom (now₀ / 86400) (records ++ [(ino, now)]) →
    ∀ ino' counts,
      ((new now₀).recordAll (records ++ [(ino, now)])).daily.get ino' = some counts →
      ∀ d : Fin 14, (counts.get d.rev).toNat = (records ++ [(ino, now)]).countP fun r =>
        r.1 = ino' ∧ dayNumber r.2 + d = dayNumber now
  := by
  intro h
  have hdays (n : ℕ) : DaysFrom (0 / 86400) (.replicate n ((1 : UInt64), (0 : UInt64))) := by
    induction n with
    | zero => trivial
    | succ n ih => exact ⟨by decide, ih⟩
  have hall (n : ℕ) : DaysFrom (0 / 86400)
      (List.replicate n ((1 : UInt64), (0 : UInt64)) ++ [(1, 0)]) := by
    rw [← List.replicate_succ']
    exact hdays (n + 1)
  have hget (n : ℕ) : ∃ counts, ((new 0).recordAll (.replicate n (1, 0) ++ [(1, 0)])).daily.get 1
      = some counts := by
    rw [recordAll, List.foldl_append]
    exact ⟨_, FiniteMap.get_insert_self _ _ _⟩
  obtain ⟨counts, hcounts⟩ := hget (2 ^ 32 - 1)
  have hcount := h 0 _ 1 0 (hall (2 ^ 32 - 1)) 1 counts hcounts 0
  have hwindow := window_recordAll 0 _ 1 0 (hall (2 ^ 32 - 1)) 1 0
  rw [window, hcounts, Option.getD_some] at hwindow
  rw [hwindow, ← List.replicate_succ', List.countP_replicate, if_pos (by decide)] at hcount
  exact absurd hcount (by decide)

end TrendTracker

end Vexfs
