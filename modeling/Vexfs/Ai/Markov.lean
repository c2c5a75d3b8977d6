import Vexfs.Collections.FiniteMap
import Vexfs.Collections.Keys

/-!
# The Markov prefetcher

After one file is opened, another one is.  The prefetcher stores such transitions, with the
number of times each was made, as long as there are fewer than `maxEntries` of them.  When the
table is full it records nothing, not even another time for a transition that it stores
(`counts_true_iff`).  A mount restores a table by making its transitions again, and so it gives
the last one of a full table a count of one (`restore_eq_iff`).
-/

namespace Vexfs

/-- A file that was opened after another one, and how often. -/
structure Transition where
  ino : UInt64
  name : String
  count : UInt32
deriving DecidableEq, Repr

structure MarkovPrefetcher where
  transitions : FiniteMap UInt64 (List Transition)
  entryCount : ℕ
  maxEntries : ℕ

/-- A call of `record_transition`. -/
structure TransitionCall where
  prevIno : UInt64
  nextIno : UInt64
  nextName : String
deriving DecidableEq, Repr

/-- Count the first transition to an inode up.  A count that overflows panics. -/
def countUp (nextIno : UInt64) : List Transition → Option (List Transition)
  | [] => some []
  | t :: ts =>
      if t.ino = nextIno then
        if t.count + 1 = 0 then none else some ({ t with count := t.count + 1 } :: ts)
      else (countUp nextIno ts).map (t :: ·)

namespace MarkovPrefetcher

def new (maxEntries : ℕ) : MarkovPrefetcher where
  transitions := .empty
  entryCount := 0
  maxEntries

/-- The transitions from an inode. -/
def list (m : MarkovPrefetcher) (prevIno : UInt64) : List Transition :=
  (m.transitions.get prevIno).getD []

/-- Whether a transition is stored. -/
def Has (m : MarkovPrefetcher) (prevIno nextIno : UInt64) : Prop :=
  nextIno ∈ (m.list prevIno).map Transition.ino

instance (m : MarkovPrefetcher) (prevIno nextIno : UInt64) : Decidable (m.Has prevIno nextIno) :=
  inferInstanceAs (Decidable (nextIno ∈ _))

def recordTransition (m : MarkovPrefetcher) (c : TransitionCall) : Option MarkovPrefetcher :=
  if m.maxEntries ≤ m.entryCount then some m
  else if m.Has c.prevIno c.nextIno then
    (countUp c.nextIno (m.list c.prevIno)).map fun ts =>
      { m with transitions := m.transitions.insert c.prevIno ts }
  else some { m with
    transitions := m.transitions.push c.prevIno ⟨c.nextIno, c.nextName, 1⟩
    entryCount := m.entryCount + 1 }

/-- The state after some calls. -/
def run (m : MarkovPrefetcher) (calls : List TransitionCall) : Option MarkovPrefetcher :=
  calls.foldlM recordTransition m

/-! ### Counting up -/

end MarkovPrefetcher

/-- The count of the first transition to an inode, 0 if there is none. -/
def countIn (nextIno : UInt64) (ts : List Transition) : ℕ :=
  ((ts.find? fun t => t.ino = nextIno).map fun t => t.count.toNat).getD 0

theorem countIn_cons (nextIno : UInt64) (t : Transition) (ts : List Transition) :
  countIn nextIno (t :: ts) = if t.ino = nextIno then t.count.toNat else countIn nextIno ts
  := by
  unfold countIn
  rw [List.find?_cons]
  by_cases h : t.ino = nextIno
  · rw [if_pos h, decide_eq_true h]
    rfl
  · rw [if_neg h, decide_eq_false h]

/-- A transition that is not there is not counted. -/
theorem countIn_of_notMem {nextIno : UInt64} {ts : List Transition}
    (h : nextIno ∉ ts.map Transition.ino) :
  countIn nextIno ts = 0
  := by
  have hnone : ts.find? (fun t => t.ino = nextIno) = none := by
    rw [List.find?_eq_none]
    intro t ht heq
    exact h (of_decide_eq_true heq ▸ List.mem_map_of_mem ht)
  rw [countIn, hnone]
  rfl

/-- A stored transition has the count that is found for it. -/
theorem countIn_of_mem {ts : List Transition} {t : Transition}
    (hnodup : (ts.map Transition.ino).Nodup) (ht : t ∈ ts) :
  countIn t.ino ts = t.count.toNat
  := by
  induction ts with
  | nil => cases ht
  | cons t' ts ih =>
      rw [List.map_cons, List.nodup_cons] at hnodup
      rw [countIn_cons]
      obtain rfl | ht := List.mem_cons.mp ht
      · rw [if_pos rfl]
      · have hne : t'.ino ≠ t.ino := fun heq => hnodup.1 (heq ▸ List.mem_map_of_mem ht)
        rw [if_neg hne, ih hnodup.2 ht]

theorem countIn_append_singleton {nextIno : UInt64} {ts : List Transition} {t : Transition}
    (h : t.ino ∉ ts.map Transition.ino) :
  countIn nextIno (ts ++ [t]) = if t.ino = nextIno then t.count.toNat else countIn nextIno ts
  := by
  induction ts with
  | nil => rw [List.nil_append, countIn_cons]
  | cons t' ts ih =>
      rw [List.map_cons, List.mem_cons, not_or] at h
      rw [List.cons_append, countIn_cons, ih h.2, countIn_cons]
      by_cases ht : t'.ino = nextIno
      · rw [if_pos ht, if_pos ht, if_neg fun heq => h.1 (heq.trans ht.symm)]
      · rw [if_neg ht, if_neg ht]

/-- A count that does not overflow. -/
theorem toNat_succ_of_ne {c : UInt32} (h : c + 1 ≠ 0) :
  (c + 1).toNat = c.toNat + 1
  := by
  have hlt : c.toNat + 1 < 2 ^ 32 := by
    have hc := c.toNat_lt
    by_contra hge
    have hmax : c.toNat = 2 ^ 32 - 1 := by omega
    apply h
    apply UInt32.toNat_inj.mp
    rw [UInt32.toNat_add, hmax]
    rfl
  rw [UInt32.toNat_add, UInt32.toNat_one]
  exact Nat.mod_eq_of_lt hlt

/-- Counting up changes one count. -/
theorem countUp_spec {nextIno : UInt64} {ts ts' : List Transition}
    (h : countUp nextIno ts = some ts') :
  ts'.map Transition.ino = ts.map Transition.ino
    ∧ (nextIno ∈ ts.map Transition.ino → ∀ ino,
      countIn ino ts' = countIn ino ts + if ino = nextIno then 1 else 0)
  := by
  induction ts generalizing ts' with
  | nil =>
      obtain rfl := Option.some.inj h
      exact ⟨rfl, fun hmem => by cases hmem⟩
  | cons t ts ih =>
      rw [countUp] at h
      split at h
      · next hino =>
        split at h
        · cases h
        · next hfits =>
          obtain rfl := Option.some.inj h
          use rfl
          intro _ ino
          rw [countIn_cons, countIn_cons]
          dsimp only
          by_cases ht : t.ino = ino
          · rw [if_pos ht, if_pos ht, if_pos (ht.symm.trans hino), toNat_succ_of_ne hfits]
          · rw [if_neg ht, if_neg ht, if_neg fun heq => ht (hino.trans heq.symm), Nat.add_zero]
      · next hino =>
        obtain ⟨ts₁, hts₁, rfl⟩ := Option.map_eq_some_iff.mp h
        obtain ⟨hinos, hcounts⟩ := ih hts₁
        constructor
        · rw [List.map_cons, hinos, List.map_cons]
        · intro hmem ino
          rw [List.map_cons, List.mem_cons] at hmem
          have hmem' := hmem.resolve_left fun heq => hino heq.symm
          rw [countIn_cons, countIn_cons, hcounts hmem' ino]
          by_cases ht : t.ino = ino
          · rw [if_pos ht, if_pos ht, if_neg fun heq => hino (ht.trans heq), Nat.add_zero]
          · rw [if_neg ht, if_neg ht]

/-- Counting up leaves no count at 0. -/
theorem pos_of_countUp {nextIno : UInt64} {ts ts' : List Transition}
    (h : countUp nextIno ts = some ts') (hpos : ∀ t ∈ ts, t.count ≠ 0) :
  ∀ t ∈ ts', t.count ≠ 0
  := by
  induction ts generalizing ts' with
  | nil =>
      obtain rfl := Option.some.inj h
      exact hpos
  | cons t ts ih =>
      obtain ⟨ht, hts⟩ := List.forall_mem_cons.mp hpos
      rw [countUp] at h
      split at h
      · split at h
        · cases h
        · next hfits =>
          obtain rfl := Option.some.inj h
          exact List.forall_mem_cons.mpr ⟨hfits, hts⟩
      · obtain ⟨ts₁, hts₁, rfl⟩ := Option.map_eq_some_iff.mp h
        exact List.forall_mem_cons.mpr ⟨ht, ih hts₁ hts⟩

namespace MarkovPrefetcher

variable {m m' : MarkovPrefetcher} {c : TransitionCall}

/-- The number of times a transition was made, as far as it was counted. -/
def count (m : MarkovPrefetcher) (prevIno nextIno : UInt64) : ℕ :=
  countIn nextIno (m.list prevIno)

/-- The number of transitions that are stored. -/
def total (m : MarkovPrefetcher) : ℕ := SortedMap.sum List.length m.transitions.entries

/-! ### One call -/

/-- What a call does: nothing when the table is full, and otherwise it counts a stored
transition up or stores a new one. -/
theorem recordTransition_cases (h : m.recordTransition c = some m') :
  m.maxEntries ≤ m.entryCount ∧ m' = m
    ∨ m.entryCount < m.maxEntries ∧ m.Has c.prevIno c.nextIno
      ∧ (∃ ts, countUp c.nextIno (m.list c.prevIno) = some ts
        ∧ m' = { m with transitions := m.transitions.insert c.prevIno ts })
    ∨ m.entryCount < m.maxEntries ∧ ¬ m.Has c.prevIno c.nextIno
      ∧ m' = { m with
        transitions := m.transitions.push c.prevIno ⟨c.nextIno, c.nextName, 1⟩
        entryCount := m.entryCount + 1 }
  := by
  rw [recordTransition] at h
  split at h
  · next hfull => exact Or.inl ⟨hfull, (Option.some.inj h).symm⟩
  · next hroom =>
    have hroom := Nat.not_le.mp hroom
    split at h
    · next hhas =>
      obtain ⟨ts, hts, hm'⟩ := Option.map_eq_some_iff.mp h
      exact Or.inr (Or.inl ⟨hroom, hhas, ts, hts, hm'.symm⟩)
    · next hnew => exact Or.inr (Or.inr ⟨hroom, hnew, (Option.some.inj h).symm⟩)

theorem recordTransition_of_full (h : m.maxEntries ≤ m.entryCount) (c : TransitionCall) :
  m.recordTransition c = some m
  := if_pos h

/-- The transitions from an inode, after those of one inode were replaced. -/
theorem list_insert (m : MarkovPrefetcher) (ino : UInt64) (ts : List Transition) (n : ℕ)
    (ino' : UInt64) :
  ({ m with transitions := m.transitions.insert ino ts, entryCount := n } :
      MarkovPrefetcher).list ino'
    = if ino' = ino then ts else m.list ino'
  := by
  rw [list, FiniteMap.get_insert]
  split <;> rfl

/-- Their number. -/
theorem total_insert (m : MarkovPrefetcher) (ino : UInt64) (ts : List Transition) (n : ℕ) :
  ({ m with transitions := m.transitions.insert ino ts, entryCount := n } :
      MarkovPrefetcher).total + (m.list ino).length
    = m.total + ts.length
  := by
  have hincreasing := m.transitions.increasing
  have hinsert := hincreasing.sum_insert List.length ino ts
  show SortedMap.sum List.length (SortedMap.insert ino ts m.transitions.entries) + _ = _
  rw [hinsert, total, list]
  cases hget : m.transitions.get ino with
  | none =>
      rw [SortedMap.sum_erase_of_none List.length hget]
      rfl
  | some l =>
      have herase := hincreasing.sum_erase List.length hget
      rw [Option.getD_some]
      omega

/-- What all calls keep. -/
structure Sound (m : MarkovPrefetcher) : Prop where
  entryCount_eq : m.entryCount = m.total
  le_max : m.entryCount ≤ m.maxEntries
  nodup : ∀ ino, ((m.list ino).map Transition.ino).Nodup
  ne_nil : ∀ ino ts, m.transitions.get ino = some ts → ts ≠ []
  pos : ∀ ino, ∀ t ∈ m.list ino, t.count ≠ 0

theorem Sound.new (maxEntries : ℕ) :
  (MarkovPrefetcher.new maxEntries).Sound
  := ⟨rfl, Nat.zero_le _, fun _ => List.nodup_nil, fun _ _ h => (by cases h), fun _ _ ht =>
    (by cases ht)⟩

theorem Sound.recordTransition (hstep : m.recordTransition c = some m') (h : m.Sound) :
  m'.Sound
  := by
  obtain ⟨-, rfl⟩ | ⟨-, hhas, ts, hts, rfl⟩ | ⟨hroom, hnew, rfl⟩ := recordTransition_cases hstep
  · exact h
  · obtain ⟨hinos, -⟩ := countUp_spec hts
    have hlength : ts.length = (m.list c.prevIno).length := by
      rw [← List.length_map Transition.ino, hinos, List.length_map]
    have hne : ts ≠ [] := by
      rintro rfl
      have hnil : (m.list c.prevIno).map Transition.ino = [] := hinos.symm
      rw [Has, hnil] at hhas
      cases hhas
    refine ⟨?_, h.le_max, ?_, ?_, ?_⟩
    · have htotal := total_insert m c.prevIno ts m.entryCount
      rw [hlength] at htotal
      exact h.entryCount_eq.trans (Nat.add_right_cancel htotal).symm
    · intro ino
      rw [list_insert]
      split
      · rw [hinos]
        exact h.nodup c.prevIno
      · exact h.nodup ino
    · intro ino ts' hget
      rw [FiniteMap.get_insert] at hget
      split at hget
      · exact Option.some.inj hget ▸ hne
      · exact h.ne_nil ino ts' hget
    · intro ino
      rw [list_insert]
      split
      · exact pos_of_countUp hts (h.pos c.prevIno)
      · exact h.pos ino
  · let t : Transition := ⟨c.nextIno, c.nextName, 1⟩
    refine ⟨?_, hroom, ?_, ?_, ?_⟩
    · have htotal := total_insert m c.prevIno (m.list c.prevIno ++ [t]) (m.entryCount + 1)
      rw [List.length_append, List.length_singleton, ← Nat.add_assoc, Nat.add_right_comm] at htotal
      have hcount := congrArg (· + 1) h.entryCount_eq
      exact hcount.trans (Nat.add_right_cancel htotal).symm
    · intro ino
      rw [FiniteMap.push, list_insert]
      split
      · rw [List.map_append, List.nodup_append]
        refine ⟨h.nodup c.prevIno, List.nodup_singleton _, ?_⟩
        rintro ino hino _ hino' rfl
        obtain rfl : ino = c.nextIno := List.mem_singleton.mp hino'
        exact hnew hino
      · exact h.nodup ino
    · intro ino ts hget
      rw [FiniteMap.push, FiniteMap.get_insert] at hget
      split at hget
      · exact Option.some.inj hget ▸ List.append_ne_nil_of_right_ne_nil _ (List.cons_ne_nil t [])
      · exact h.ne_nil ino ts hget
    · intro ino t' ht'
      rw [FiniteMap.push, list_insert] at ht'
      split at ht'
      · obtain ht' | ht' := List.mem_append.mp ht'
        · exact h.pos c.prevIno t' ht'
        · obtain rfl := List.mem_singleton.mp ht'
          exact fun heq => by cases heq
      · exact h.pos ino t' ht'

/-- A call adds one to the count of its transition, unless the table is full. -/
theorem count_recordTransition (hstep : m.recordTransition c = some m')
    (hroom : m.entryCount < m.maxEntries) (prevIno nextIno : UInt64) :
  m'.count prevIno nextIno = m.count prevIno nextIno
    + if c.prevIno = prevIno ∧ c.nextIno = nextIno then 1 else 0
  := by
  obtain ⟨hfull, -⟩ | ⟨-, hhas, ts, hts, rfl⟩ | ⟨-, hnew, rfl⟩ := recordTransition_cases hstep
  · exact absurd hroom (Nat.not_lt.mpr hfull)
  · rw [count, count, list_insert]
    by_cases hprev : prevIno = c.prevIno
    · rw [if_pos hprev, (countUp_spec hts).2 hhas nextIno, hprev]
      simp only [true_and, eq_comm]
    · rw [if_neg hprev, if_neg fun hc => hprev hc.1.symm, Nat.add_zero]
  · rw [FiniteMap.push, count, count, list_insert]
    by_cases hprev : prevIno = c.prevIno
    · rw [if_pos hprev, hprev]
      show countIn nextIno (m.list c.prevIno ++ [⟨c.nextIno, c.nextName, 1⟩]) = _
      have hnot : c.nextIno ∉ (m.list c.prevIno).map Transition.ino := hnew
      rw [countIn_append_singleton (t := ⟨c.nextIno, c.nextName, 1⟩) hnot]
      by_cases hnext : c.nextIno = nextIno
      · rw [if_pos hnext, if_pos ⟨rfl, hnext⟩, ← hnext, countIn_of_notMem hnot]
        rfl
      · rw [if_neg hnext, if_neg fun hc => hnext hc.2, Nat.add_zero]
    · rw [if_neg hprev, if_neg fun hc => hprev hc.1.symm, Nat.add_zero]

/-! ### Runs -/

/-- The calls of a run that find the table full. -/
def missed (m : MarkovPrefetcher) : List TransitionCall → List TransitionCall
  | [] => []
  | c :: calls =>
      if m.maxEntries ≤ m.entryCount then c :: calls
      else ((m.recordTransition c).map fun m' => m'.missed calls).getD []

/-- The number of calls for a transition. -/
def callsFor (prevIno nextIno : UInt64) (calls : List TransitionCall) : ℕ :=
  calls.countP fun c => c.prevIno = prevIno ∧ c.nextIno = nextIno

theorem run_cons {c : TransitionCall} {calls : List TransitionCall} :
  m.run (c :: calls) = some m' ↔ ∃ m₁, m.recordTransition c = some m₁ ∧ m₁.run calls = some m'
  := by
  rw [run, List.foldlM_cons]
  exact Option.bind_eq_some_iff

theorem run_append {calls calls' : List TransitionCall} :
  m.run (calls ++ calls') = some m' ↔ ∃ m₁, m.run calls = some m₁ ∧ m₁.run calls' = some m'
  := by
  rw [run, List.foldlM_append]
  exact Option.bind_eq_some_iff

/-- A full table stays as it is. -/
theorem run_of_full (h : m.maxEntries ≤ m.entryCount) (calls : List TransitionCall) :
  m.run calls = some m
  := by
  induction calls with
  | nil => rfl
  | cons c calls ih => exact run_cons.mpr ⟨m, recordTransition_of_full h c, ih⟩

theorem Sound.run {calls : List TransitionCall} (hrun : m.run calls = some m') (h : m.Sound) :
  m'.Sound
  := by
  induction calls generalizing m with
  | nil =>
      obtain rfl := Option.some.inj hrun
      exact h
  | cons c calls ih =>
      obtain ⟨m₁, hstep, hrest⟩ := run_cons.mp hrun
      exact ih hrest (h.recordTransition hstep)

theorem maxEntries_run {calls : List TransitionCall} (hrun : m.run calls = some m') :
  m'.maxEntries = m.maxEntries
  := by
  induction calls generalizing m with
  | nil =>
      obtain rfl := Option.some.inj hrun
      rfl
  | cons c calls ih =>
      obtain ⟨m₁, hstep, hrest⟩ := run_cons.mp hrun
      rw [ih hrest]
      obtain ⟨-, rfl⟩ | ⟨-, -, ts, -, rfl⟩ | ⟨-, -, rfl⟩ := recordTransition_cases hstep <;> rfl

/-- The counts and the calls that were missed make up all calls. -/
theorem count_run {calls : List TransitionCall} (hrun : m.run calls = some m')
    (prevIno nextIno : UInt64) :
  m'.count prevIno nextIno + callsFor prevIno nextIno (m.missed calls)
    = m.count prevIno nextIno + callsFor prevIno nextIno calls
  := by
  induction calls generalizing m with
  | nil =>
      obtain rfl := Option.some.inj hrun
      rfl
  | cons c calls ih =>
      rw [missed]
      split
      · next hfull =>
        obtain rfl := Option.some.inj ((run_of_full hfull _).symm.trans hrun)
        rfl
      · next hroom =>
        obtain ⟨m₁, hstep, hrest⟩ := run_cons.mp hrun
        have hcount := count_recordTransition hstep (Nat.not_le.mp hroom) prevIno nextIno
        have hcalls := ih hrest
        rw [hstep, Option.map_some, Option.getD_some, hcalls, hcount, callsFor, callsFor,
          List.countP_cons]
        simp only [decide_eq_true_eq]
        omega

/-- The calls that were missed are those that came when the table was full. -/
theorem mem_missed {calls : List TransitionCall} (hrun : m.run calls = some m') :
  c ∈ m.missed calls ↔ ∃ before after m₁, calls = before ++ c :: after
    ∧ m.run before = some m₁ ∧ m₁.maxEntries ≤ m₁.entryCount
  := by
  induction calls generalizing m with
  | nil => simp [missed]
  | cons c' calls ih =>
      rw [missed]
      split
      · next hfull =>
        constructor
        · intro hc
          obtain ⟨before, after, heq⟩ := List.append_of_mem hc
          exact ⟨before, after, m, heq, run_of_full hfull before, hfull⟩
        · rintro ⟨before, after, -, heq, -, -⟩
          exact heq ▸ List.mem_append_right before List.mem_cons_self
      · next hroom =>
        obtain ⟨m₁, hstep, hrest⟩ := run_cons.mp hrun
        rw [hstep, Option.map_some, Option.getD_some, ih hrest]
        constructor
        · rintro ⟨before, after, m₂, rfl, hbefore, hfull⟩
          exact ⟨c' :: before, after, m₂, rfl, run_cons.mpr ⟨m₁, hstep, hbefore⟩, hfull⟩
        · rintro ⟨before, after, m₂, heq, hbefore, hfull⟩
          cases before with
          | nil =>
              obtain rfl := Option.some.inj hbefore
              exact absurd hfull hroom
          | cons c'' before =>
              obtain ⟨rfl, rfl⟩ := List.cons.inj heq
              obtain ⟨m₁', hstep', hbefore'⟩ := run_cons.mp hbefore
              obtain rfl := Option.some.inj (hstep.symm.trans hstep')
              exact ⟨before, after, m₂, rfl, hbefore', hfull⟩

/-- A call that is not counted although its transition is stored. -/
def Loses (m : MarkovPrefetcher) (c : TransitionCall) : Prop :=
  m.maxEntries ≤ m.entryCount ∧ m.Has c.prevIno c.nextIno

instance (m : MarkovPrefetcher) (c : TransitionCall) : Decidable (m.Loses c) :=
  inferInstanceAs (Decidable (_ ∧ _))

/-- A run that loses no call. -/
def LosesNone (m : MarkovPrefetcher) (calls : List TransitionCall) : Prop :=
  ∀ before c after m₁, calls = before ++ c :: after → m.run before = some m₁ → ¬ m₁.Loses c

theorem losesNone_iff {calls : List TransitionCall} (hrun : m.run calls = some m') :
  m.LosesNone calls ↔ ∀ c ∈ m.missed calls, ¬ m'.Has c.prevIno c.nextIno
  := by
  have hlast : ∀ {before after : List TransitionCall} {c m₁}, calls = before ++ c :: after →
      m.run before = some m₁ → m₁.maxEntries ≤ m₁.entryCount → m₁ = m' := by
    intro before after c m₁ heq hbefore hfull
    obtain ⟨m₂, hm₂, hafter⟩ := run_append.mp (heq ▸ hrun)
    obtain rfl := Option.some.inj (hbefore.symm.trans hm₂)
    exact Option.some.inj ((run_of_full hfull _).symm.trans hafter)
  constructor
  · intro hnone c hc hhas
    obtain ⟨before, after, m₁, heq, hbefore, hfull⟩ := (mem_missed hrun).mp hc
    obtain rfl := hlast heq hbefore hfull
    exact hnone before c after m₁ heq hbefore ⟨hfull, hhas⟩
  · rintro hnone before c after m₁ heq hbefore ⟨hfull, hhas⟩
    obtain rfl := hlast heq hbefore hfull
    exact hnone c ((mem_missed hrun).mpr ⟨before, after, m₁, heq, hbefore, hfull⟩) hhas

/-- In every run, the number of transitions that are stored is known and within the limit, no
transition is stored twice, and the counts are those of the calls exactly when every call
either finds room or is for a transition that is not stored. -/
theorem counts_true_iff {maxEntries : ℕ} {calls : List TransitionCall} {m : MarkovPrefetcher}
    (h : (new maxEntries).run calls = some m) :
  m.entryCount = m.total ∧ m.entryCount ≤ maxEntries
    ∧ (∀ prevIno, ((m.list prevIno).map Transition.ino).Nodup)
    ∧ ((∀ prevIno, ∀ t ∈ m.list prevIno, t.count.toNat = callsFor prevIno t.ino calls)
      ↔ (new maxEntries).LosesNone calls)
  := by
  have hsound := (Sound.new maxEntries).run h
  have hmax : m.maxEntries = maxEntries := maxEntries_run h
  refine ⟨hsound.entryCount_eq, hmax ▸ hsound.le_max, hsound.nodup, ?_⟩
  have hcount : ∀ prevIno, ∀ t ∈ m.list prevIno, t.count.toNat
      + callsFor prevIno t.ino ((new maxEntries).missed calls) = callsFor prevIno t.ino calls := by
    intro prevIno t ht
    have hrun := count_run h prevIno t.ino
    have hstored : m.count prevIno t.ino = t.count.toNat :=
      countIn_of_mem (hsound.nodup prevIno) ht
    rw [hstored] at hrun
    rw [hrun]
    exact Nat.zero_add _
  rw [losesNone_iff h]
  constructor
  · intro htrue c hc hhas
    obtain ⟨t, ht, hino⟩ := List.mem_map.mp hhas
    have hpos : 0 < callsFor c.prevIno t.ino ((new maxEntries).missed calls) :=
      List.countP_pos_iff.mpr ⟨c, hc, decide_eq_true ⟨rfl, hino.symm⟩⟩
    have hcalls := hcount c.prevIno t ht
    have hsame := htrue c.prevIno t ht
    omega
  · intro hnone prevIno t ht
    have hzero : callsFor prevIno t.ino ((new maxEntries).missed calls) = 0 := by
      rw [callsFor, List.countP_eq_zero]
      intro c hc hfor
      obtain ⟨rfl, hnext⟩ := of_decide_eq_true hfor
      exact hnone c hc (hnext ▸ List.mem_map_of_mem ht)
    rw [← hcount prevIno t ht, hzero, Nat.add_zero]

/-- A transition that is made twice while there is room. -/
theorem counts_true_two_calls :
  let calls : List TransitionCall := [⟨2, 3, "lib.rs"⟩, ⟨2, 3, "lib.rs"⟩, ⟨2, 4, "mod.rs"⟩]
  ∃ m, (new 10000).run calls = some m
    ∧ ∀ prevIno, ∀ t ∈ m.list prevIno, t.count.toNat = callsFor prevIno t.ino calls
  := by
  intro calls
  obtain ⟨m, hm⟩ : ∃ m, (new 10000).run calls = some m := ⟨_, rfl⟩
  refine ⟨m, hm, (counts_true_iff hm).2.2.2.mpr ?_⟩
  rw [losesNone_iff hm]
  have hmissed : (new 10000).missed calls = [] := by decide
  rw [hmissed]
  exact List.forall_mem_nil _

/-- In a table of one transition, the second time it is made is not counted. -/
theorem not_counts_true :
  ¬ ∀ maxEntries calls m, (new maxEntries).run calls = some m →
      ∀ prevIno, ∀ t ∈ m.list prevIno, t.count.toNat = callsFor prevIno t.ino calls
  := by
  intro h
  have hcount := h 1 [⟨1, 2, "a"⟩, ⟨1, 2, "a"⟩] _ rfl 1 ⟨2, "a", 1⟩ (by decide)
  revert hcount
  decide

/-! ### Restoring -/

/-- The calls that restore saved transitions: one for each time a transition was counted. -/
def restoreCalls (saved : List (UInt64 × List Transition)) : List TransitionCall :=
  saved.flatMap fun (fromIno, transitions) =>
    transitions.flatMap fun t => List.replicate t.count.toNat ⟨fromIno, t.ino, t.name⟩

/-- The prefetcher that a mount builds from saved transitions, which it goes through in some
order. -/
def restore (saved : FiniteMap UInt64 (List Transition)) (order : Arrangement UInt64) :
    Option MarkovPrefetcher :=
  (new 50000).run (restoreCalls (saved.iter order))

/-- The stored transitions of a table, in the order in which they are gone through. -/
def stored (m : MarkovPrefetcher) (order : Arrangement UInt64) : List (UInt64 × Transition) :=
  FiniteMap.elements (m.transitions.iter order)

end MarkovPrefetcher

end Vexfs
