import Vexfs.Collections.FiniteMap
import Vexfs.Collections.Keys
import Vexfs.Collections.Window
import Vexfs.Fs.Tag

/-!
# The entropy guard

The guard looks at each write of 512 bytes or more, and replies with a threat if the file has a
suspicious name, if the bytes look encrypted although those of the first write did not, or if
such writes come in a short time.  What it keeps of the earlier writes to a file is the entropy
of the first one and a rolling window of those with a high entropy, so its reply is a function
of the writes alone (`checkWrite_run`).  It counts a write once for each reason, and so it
reports more threats than it replied with as soon as there are two of them
(`threatCount_eq_iff`).
-/

namespace Vexfs

/-- The entropy of some bytes, as the number that a `f64` stands for.  It is never a NaN, since
only bytes that occur contribute to it. -/
class ShannonEntropy where
  shannonEntropy : List UInt8 → ℚ

export ShannonEntropy (shannonEntropy)

/-- The entropy of bytes that are all the same or all different, in runs of 256. -/
@[reducible]
def ShannonEntropy.extremes : ShannonEntropy where
  shannonEntropy data := if data.dedup.length = 256 then 8 else 0

def suspiciousExtensions : List String :=
  [".locked", ".enc", ".crypt", ".crypted", ".encrypt", ".crypz", ".cerber", ".locky", ".wncry",
    ".wnry", ".wcry", ".petya"]

def isSuspiciousExtension [Unicode] (name : String) : Bool :=
  suspiciousExtensions.any fun extension => extension.toList <:+ (Unicode.toLowercase name).toList

inductive ThreatLevel where
  | critical
  | warning
  | extension
  | pattern
deriving DecidableEq, Repr

structure WriteRecord where
  timestamp : UInt64
  entropy : ℚ
deriving DecidableEq, Repr

structure EntropyGuard where
  history : FiniteMap UInt64 (List WriteRecord)
  baseline : FiniteMap UInt64 ℚ
  threatCount : ℕ
  thresholdWarn : ℚ
  thresholdCrit : ℚ
  patternCount : ℕ
  windowSecs : ℕ

/-- A write that is not older than a window, as seen from a later one.  The clock may have been
set back in between. -/
def WriteRecord.Within (windowSecs : ℕ) (later r : WriteRecord) : Prop :=
  later.timestamp.toNat - r.timestamp.toNat ≤ windowSecs

instance (windowSecs : ℕ) : DecidableRel (WriteRecord.Within windowSecs) :=
  fun later r => inferInstanceAs (Decidable (later.timestamp.toNat - r.timestamp.toNat ≤ _))

namespace EntropyGuard

/-- The thresholds are the values of the literals `7.2` and `7.8`. -/
def new : EntropyGuard where
  history := .empty
  baseline := .empty
  threatCount := 0
  thresholdWarn := 8106479329266893 / 2 ^ 50
  thresholdCrit := 8782019273372467 / 2 ^ 50
  patternCount := 3
  windowSecs := 60

variable [ShannonEntropy] [Unicode]

/-- The threats of one write by its name and its entropy, counted and with the level of the
last one. -/
def judge (g : EntropyGuard) (name : String) (entropy prevBaseline : ℚ) :
    ℕ × Option ThreatLevel :=
  let (threatCount, threatLevel) :=
    if isSuspiciousExtension name then (g.threatCount + 1, some ThreatLevel.extension)
    else (g.threatCount, none)
  if g.thresholdCrit ≤ entropy then
    if prevBaseline < 6 then (threatCount + 1, some .critical)
    else if threatLevel = none then (threatCount + 1, some .warning)
    else (threatCount, threatLevel)
  else if g.thresholdWarn ≤ entropy ∧ threatLevel = none then (threatCount + 1, some .warning)
  else (threatCount, threatLevel)

def checkWrite (g : EntropyGuard) (ino : UInt64) (name : String) (data : List UInt8)
    (now : UInt64) : Option ThreatLevel × EntropyGuard :=
  if data.length < 512 then (none, g)
  else
    let entropy := shannonEntropy data
    let prevBaseline := (g.baseline.get ino).getD entropy
    let baseline := g.baseline.insert ino prevBaseline
    let (threatCount, threatLevel) := g.judge name entropy prevBaseline
    if g.thresholdWarn ≤ entropy then
      let records := Window.slide (WriteRecord.Within g.windowSecs)
        ((g.history.get ino).getD []) ⟨now, entropy⟩
      let history := g.history.insert ino records
      if g.patternCount ≤ records.length then
        (some .pattern, { g with history, baseline, threatCount := threatCount + 1 })
      else (threatLevel, { g with history, baseline, threatCount })
    else (threatLevel, { g with baseline, threatCount })

def remove (g : EntropyGuard) (ino : UInt64) : EntropyGuard :=
  { g with history := g.history.erase ino, baseline := g.baseline.erase ino }

end EntropyGuard

/-! ### Calls -/

/-- A write that the guard checks. -/
structure CheckedWrite where
  name : String
  data : List UInt8
  now : UInt64

/-- A call of the guard. -/
inductive GuardCall where
  | checkWrite (ino : UInt64) (w : CheckedWrite)
  | remove (ino : UInt64)

section Verdict

variable [ShannonEntropy]

def CheckedWrite.entropy (w : CheckedWrite) : ℚ := shannonEntropy w.data

def CheckedWrite.record (w : CheckedWrite) : WriteRecord := ⟨w.now, w.entropy⟩

/-- The writes to a file after one more call. -/
def GuardCall.extend (ino : UInt64) (ws : List CheckedWrite) : GuardCall → List CheckedWrite
  | .checkWrite ino' w => if ino = ino' ∧ 512 ≤ w.data.length then ws ++ [w] else ws
  | .remove ino' => if ino = ino' then [] else ws

/-- The writes to a file that were long enough, since it was last removed. -/
def writesTo (ino : UInt64) (calls : List GuardCall) : List CheckedWrite :=
  calls.foldl (GuardCall.extend ino) []

/-- The writes with a high entropy to which all later ones are near in time. -/
def recentHigh (ws : List CheckedWrite) : List WriteRecord :=
  Window.lasting (WriteRecord.Within EntropyGuard.new.windowSecs)
    ((ws.filter fun w => EntropyGuard.new.thresholdWarn ≤ w.entropy).map CheckedWrite.record)

/-- The first write looked like plain text. -/
def Plaintext (ws : List CheckedWrite) : Prop := ∃ w ∈ ws.head?, w.entropy < 6

instance (ws : List CheckedWrite) : Decidable (Plaintext ws) :=
  inferInstanceAs (Decidable (∃ w ∈ ws.head?, w.entropy < 6))

variable [Unicode]

/-- What the guard has to reply to a write, after other writes to the same file. -/
def verdict (earlier : List CheckedWrite) (w : CheckedWrite) : Option ThreatLevel :=
  if w.data.length < 512 then none
  else if EntropyGuard.new.thresholdWarn ≤ w.entropy ∧ 3 ≤ (recentHigh (earlier ++ [w])).length then
    some .pattern
  else if EntropyGuard.new.thresholdCrit ≤ w.entropy ∧ Plaintext earlier then some .critical
  else if isSuspiciousExtension w.name then some .extension
  else if EntropyGuard.new.thresholdWarn ≤ w.entropy then some .warning
  else none

namespace EntropyGuard

def call (g : EntropyGuard) : GuardCall → Option ThreatLevel × EntropyGuard
  | .checkWrite ino w => g.checkWrite ino w.name w.data w.now
  | .remove ino => (none, g.remove ino)

/-- The guard after some calls. -/
def run (calls : List GuardCall) : EntropyGuard := calls.foldl (fun g c => (g.call c).2) new

/-! ### What the guard keeps -/

/-- What the guard keeps of each file is what the writes to it determine. -/
structure Follows (g : EntropyGuard) (calls : List GuardCall) : Prop where
  warn : g.thresholdWarn = new.thresholdWarn
  crit : g.thresholdCrit = new.thresholdCrit
  pattern : g.patternCount = new.patternCount
  window : g.windowSecs = new.windowSecs
  baseline : ∀ ino, g.baseline.get ino = (writesTo ino calls).head?.map CheckedWrite.entropy
  history : ∀ ino, (g.history.get ino).getD [] = recentHigh (writesTo ino calls)

variable {g : EntropyGuard} {calls : List GuardCall} {ino : UInt64} {w : CheckedWrite}

omit [Unicode] in
theorem Follows.new :
  new.Follows []
  := ⟨rfl, rfl, rfl, rfl, fun _ => rfl, fun _ => rfl⟩

omit [ShannonEntropy] [Unicode] in
theorem writesTo_concat (ino : UInt64) (calls : List GuardCall) (call : GuardCall) :
  writesTo ino (calls ++ [call]) = call.extend ino (writesTo ino calls)
  := List.foldl_concat _ _ _ _

omit [Unicode] in
/-- The records of a file after one more write to it. -/
theorem recentHigh_concat (ws : List CheckedWrite) (w : CheckedWrite) :
  recentHigh (ws ++ [w]) = if EntropyGuard.new.thresholdWarn ≤ w.entropy then
      Window.slide (WriteRecord.Within EntropyGuard.new.windowSecs) (recentHigh ws) w.record
    else recentHigh ws
  := by
  unfold recentHigh
  rw [List.filter_append, List.map_append]
  by_cases hhigh : EntropyGuard.new.thresholdWarn ≤ w.entropy
  · rw [if_pos hhigh, List.filter_cons_of_pos (by simpa using hhigh), List.filter_nil,
      List.map_singleton, Window.lasting_concat]
  · rw [if_neg hhigh, List.filter_cons_of_neg (by simpa using hhigh), List.filter_nil,
      List.map_nil, List.append_nil]

/-- The level that the name and the entropy of a write give it. -/
theorem Follows.snd_judge (h : g.Follows calls) (name : String) (entropy prevBaseline : ℚ) :
  (g.judge name entropy prevBaseline).2
    = if EntropyGuard.new.thresholdCrit ≤ entropy ∧ prevBaseline < 6 then some .critical
      else if isSuspiciousExtension name then some .extension
      else if EntropyGuard.new.thresholdWarn ≤ entropy then some .warning
      else none
  := by
  have hle : EntropyGuard.new.thresholdWarn ≤ EntropyGuard.new.thresholdCrit := by
    norm_num [EntropyGuard.new]
  unfold judge
  rw [h.warn, h.crit]
  by_cases hcrit : EntropyGuard.new.thresholdCrit ≤ entropy
  · by_cases hplain : prevBaseline < 6
    · simp [hcrit, hplain]
    · by_cases hname : isSuspiciousExtension name <;> simp [hcrit, hplain, hname, hle.trans hcrit]
  · by_cases hname : isSuspiciousExtension name <;>
      by_cases hwarn : EntropyGuard.new.thresholdWarn ≤ entropy <;> simp [hcrit, hname, hwarn]

omit [Unicode] in
/-- The kept entropy of a file is below that of plain text exactly when its first write was. -/
theorem Follows.plaintext_iff (h : g.Follows calls) (ino : UInt64) {entropy : ℚ}
    (hcrit : EntropyGuard.new.thresholdCrit ≤ entropy) :
  (g.baseline.get ino).getD entropy < 6 ↔ Plaintext (writesTo ino calls)
  := by
  rw [h.baseline, Plaintext]
  cases (writesTo ino calls).head? with
  | none =>
      have hhigh : (6 : ℚ) ≤ entropy := le_trans (by norm_num [EntropyGuard.new]) hcrit
      simpa using hhigh
  | some w => simp

/-- The guard replies as it has to. -/
theorem Follows.fst_checkWrite (h : g.Follows calls) (ino : UInt64) (w : CheckedWrite) :
  (g.checkWrite ino w.name w.data w.now).1 = verdict (writesTo ino calls) w
  := by
  unfold EntropyGuard.checkWrite verdict
  split
  · rfl
  have hjudge := h.snd_judge w.name w.entropy ((g.baseline.get ino).getD w.entropy)
  have hplain : (EntropyGuard.new.thresholdCrit ≤ w.entropy
      ∧ (g.baseline.get ino).getD w.entropy < 6) ↔
      EntropyGuard.new.thresholdCrit ≤ w.entropy ∧ Plaintext (writesTo ino calls) :=
    and_congr_right fun hcrit => h.plaintext_iff ino hcrit
  rw [if_congr hplain rfl rfl] at hjudge
  rw [recentHigh_concat]
  dsimp only
  rw [h.warn, h.pattern, h.window, h.history]
  change _ = ite (_ ∧ 3 ≤ _) _ _
  by_cases hhigh : EntropyGuard.new.thresholdWarn ≤ w.entropy
  · have hhigh' : EntropyGuard.new.thresholdWarn ≤ shannonEntropy w.data := hhigh
    rw [if_pos hhigh] at hjudge
    rw [if_pos hhigh', if_pos hhigh]
    split
    · next hmany => rw [if_pos ⟨hhigh, hmany⟩]
    · next hfew =>
      rw [if_neg fun hboth => hfew hboth.2]
      exact hjudge
  · have hhigh' : ¬ EntropyGuard.new.thresholdWarn ≤ shannonEntropy w.data := hhigh
    rw [if_neg hhigh', if_neg fun hboth => hhigh hboth.1]
    exact hjudge

/-- What a write that is long enough changes. -/
theorem snd_checkWrite (g : EntropyGuard) (ino : UInt64) {w : CheckedWrite}
    (hlong : 512 ≤ w.data.length) :
  ∃ threatCount, (g.checkWrite ino w.name w.data w.now).2 = { g with
    threatCount
    baseline := g.baseline.insert ino ((g.baseline.get ino).getD w.entropy)
    history := if g.thresholdWarn ≤ w.entropy then
        g.history.insert ino (Window.slide (WriteRecord.Within g.windowSecs)
          ((g.history.get ino).getD []) w.record)
      else g.history }
  := by
  unfold EntropyGuard.checkWrite
  rw [if_neg (Nat.not_lt.mpr hlong)]
  dsimp only
  by_cases hhigh : g.thresholdWarn ≤ w.entropy
  · have hhigh' : g.thresholdWarn ≤ shannonEntropy w.data := hhigh
    rw [if_pos hhigh', if_pos hhigh]
    split <;> exact ⟨_, rfl⟩
  · have hhigh' : ¬ g.thresholdWarn ≤ shannonEntropy w.data := hhigh
    rw [if_neg hhigh', if_neg hhigh]
    exact ⟨_, rfl⟩

theorem Follows.checkWrite (h : g.Follows calls) (ino : UInt64) (w : CheckedWrite) :
  (g.checkWrite ino w.name w.data w.now).2.Follows (calls ++ [.checkWrite ino w])
  := by
  by_cases hlong : 512 ≤ w.data.length
  · obtain ⟨threatCount, heq⟩ := snd_checkWrite g ino hlong
    have hself : writesTo ino (calls ++ [.checkWrite ino w]) = writesTo ino calls ++ [w] := by
      rw [writesTo_concat, GuardCall.extend, if_pos ⟨rfl, hlong⟩]
    have hother : ∀ ino', ino' ≠ ino →
        writesTo ino' (calls ++ [.checkWrite ino w]) = writesTo ino' calls := by
      intro ino' hne
      rw [writesTo_concat, GuardCall.extend, if_neg fun hboth => hne hboth.1]
    rw [heq]
    refine ⟨h.warn, h.crit, h.pattern, h.window, fun ino' => ?_, fun ino' => ?_⟩
    · rw [FiniteMap.get_insert]
      split
      · next hino =>
        rw [hino, hself, h.baseline]
        cases writesTo ino calls <;> rfl
      · next hne => rw [hother ino' hne, h.baseline]
    · dsimp only
      rw [h.warn, h.window]
      by_cases hino : ino' = ino
      · rw [hino, hself, recentHigh_concat, ← h.history]
        split
        · rw [FiniteMap.get_insert_self, Option.getD_some]
        · rfl
      · rw [hother ino' hino, ← h.history]
        split
        · rw [FiniteMap.get_insert_of_ne _ hino]
        · rfl
  · have hsame : (g.checkWrite ino w.name w.data w.now).2 = g := by
      rw [EntropyGuard.checkWrite, if_pos (Nat.lt_of_not_le hlong)]
    have hwrites : ∀ ino', writesTo ino' (calls ++ [.checkWrite ino w]) = writesTo ino' calls := by
      intro ino'
      rw [writesTo_concat, GuardCall.extend, if_neg fun hboth => hlong hboth.2]
    rw [hsame]
    refine ⟨h.warn, h.crit, h.pattern, h.window, fun ino' => ?_, fun ino' => ?_⟩
    · rw [hwrites]
      exact h.baseline ino'
    · rw [hwrites]
      exact h.history ino'

omit [Unicode] in
theorem Follows.remove (h : g.Follows calls) (ino : UInt64) :
  (g.remove ino).Follows (calls ++ [.remove ino])
  := by
  refine ⟨h.warn, h.crit, h.pattern, h.window, fun ino' => ?_, fun ino' => ?_⟩
  · rw [EntropyGuard.remove, writesTo_concat, GuardCall.extend, FiniteMap.get_erase]
    split
    · rfl
    · exact h.baseline ino'
  · rw [EntropyGuard.remove, writesTo_concat, GuardCall.extend]
    dsimp only
    rw [FiniteMap.get_erase]
    split
    · rfl
    · exact h.history ino'

theorem follows_run (calls : List GuardCall) :
  (run calls).Follows calls
  := by
  induction calls using List.reverseRecOn with
  | nil => exact .new
  | append_singleton calls call ih =>
      rw [run, List.foldl_concat]
      cases call with
      | checkWrite ino w => exact ih.checkWrite ino w
      | remove ino => exact ih.remove ino

/-- After any calls, at any times, the reply to a write is the verdict on it and the writes to
the same file since it was last removed. -/
theorem checkWrite_run (calls : List GuardCall) (ino : UInt64) (name : String)
    (data : List UInt8) (now : UInt64) :
  ((run calls).checkWrite ino name data now).1 = verdict (writesTo ino calls) ⟨name, data, now⟩
  := (follows_run calls).fst_checkWrite ino ⟨name, data, now⟩

omit [Unicode] in
/-- When the clock is not set back, the recent writes are those of the last minute. -/
theorem length_recentHigh {ws : List CheckedWrite}
    (hclock : (ws ++ [w]).Pairwise fun v v' => v.now ≤ v'.now)
    (hhigh : EntropyGuard.new.thresholdWarn ≤ w.entropy) :
  (recentHigh (ws ++ [w])).length = (ws.countP fun v =>
    EntropyGuard.new.thresholdWarn ≤ v.entropy ∧ w.now.toNat ≤ v.now.toNat + 60) + 1
  := by
  have hnear : (((ws.filter fun v => EntropyGuard.new.thresholdWarn ≤ v.entropy).map
      CheckedWrite.record) ++ [w.record]).Pairwise fun r r' =>
        WriteRecord.Within 60 w.record r → WriteRecord.Within 60 r' r := by
    have hrecords : ((ws ++ [w]).map CheckedWrite.record).Pairwise fun r r' =>
        WriteRecord.Within 60 w.record r → WriteRecord.Within 60 r' r := by
      rw [List.pairwise_map]
      apply List.Pairwise.imp_of_mem _ hclock
      intro v v' hv hv' hle hwithin
      have hlast : v'.now ≤ w.now := by
        obtain hv' | hv' := List.mem_append.mp hv'
        · exact (List.pairwise_append.mp hclock).2.2 v' hv' w List.mem_cons_self
        · rw [List.mem_singleton.mp hv']
      have hnat : v'.now.toNat ≤ w.now.toNat := hlast
      unfold WriteRecord.Within CheckedWrite.record at hwithin ⊢
      dsimp only at hwithin ⊢
      omega
    rw [List.map_append] at hrecords
    exact hrecords.sublist ((List.filter_sublist.map _).append (.refl _))
  have hlasting := Window.lasting_concat_of_near (WriteRecord.Within 60) hnear
  unfold recentHigh
  rw [List.filter_append, List.map_append, List.filter_cons_of_pos (by simpa using hhigh),
    List.filter_nil, List.map_singleton]
  rw [show EntropyGuard.new.windowSecs = 60 from rfl, hlasting, Window.slide, List.length_append,
    ← List.countP_eq_length_filter, List.countP_map, List.countP_filter]
  congr 1
  apply List.countP_congr
  intro v _
  rw [Function.comp_apply, Bool.and_eq_true, decide_eq_true_iff, decide_eq_true_iff,
    decide_eq_true_iff, and_comm]
  exact and_congr_right fun _ => Nat.sub_le_iff_le_add'

/-! ### Counting threats -/

/-- The replies to some calls, one after the other. -/
def replies : EntropyGuard → List GuardCall → List (Option ThreatLevel)
  | _, [] => []
  | g, c :: calls => (g.call c).1 :: (g.call c).2.replies calls

/-- There is at most one reason for a reply. -/
def Once (call : GuardCall) (reply : Option ThreatLevel) : Prop :=
  match call with
  | .checkWrite _ w => reply ≠ some .pattern
      ∧ ¬ (reply = some .critical ∧ isSuspiciousExtension w.name)
  | .remove _ => True

/-- The threats before and after a reply: one more, if there is one reason for it, and otherwise
even more. -/
def Counted (n n' : ℕ) (once : Prop) (reply : Option ThreatLevel) : Prop :=
  n + (if reply.isSome then 1 else 0) ≤ n' ∧ (n' = n + (if reply.isSome then 1 else 0) ↔ once)

omit [ShannonEntropy] in
theorem counted_judge (g : EntropyGuard) (name : String) (entropy prevBaseline : ℚ) :
  let judged := g.judge name entropy prevBaseline
  Counted g.threatCount judged.1
    (¬ (judged.2 = some .critical ∧ isSuspiciousExtension name)) judged.2
    ∧ judged.2 ≠ some .pattern ∧ (g.thresholdWarn ≤ entropy → judged.2.isSome)
  := by
  unfold judge Counted
  by_cases hname : isSuspiciousExtension name <;> by_cases hcrit : g.thresholdCrit ≤ entropy <;>
    by_cases hplain : prevBaseline < 6 <;> by_cases hwarn : g.thresholdWarn ≤ entropy <;>
    simp [hname, hcrit, hplain, hwarn]

/-- A write that is long enough is judged, and then there may be a pattern. -/
theorem checkWrite_cases (g : EntropyGuard) (ino : UInt64) {w : CheckedWrite}
    (hlong : 512 ≤ w.data.length) :
  let judged := g.judge w.name w.entropy ((g.baseline.get ino).getD w.entropy)
  let result := g.checkWrite ino w.name w.data w.now
  (result.1 = judged.2 ∧ result.2.threatCount = judged.1)
    ∨ (g.thresholdWarn ≤ w.entropy ∧ result.1 = some .pattern
      ∧ result.2.threatCount = judged.1 + 1)
  := by
  dsimp only
  unfold EntropyGuard.checkWrite
  rw [if_neg (Nat.not_lt.mpr hlong)]
  dsimp only
  split
  · next hhigh =>
    split
    · exact Or.inr ⟨hhigh, rfl, rfl⟩
    · exact Or.inl ⟨rfl, rfl⟩
  · exact Or.inl ⟨rfl, rfl⟩

theorem counted_call (g : EntropyGuard) (c : GuardCall) :
  Counted g.threatCount (g.call c).2.threatCount (Once c (g.call c).1) (g.call c).1
  := by
  cases c with
  | remove ino => exact ⟨le_rfl, iff_of_true rfl trivial⟩
  | checkWrite ino w =>
      let reply := (g.checkWrite ino w.name w.data w.now).1
      show Counted g.threatCount (g.checkWrite ino w.name w.data w.now).2.threatCount
        (reply ≠ some .pattern ∧ ¬ (reply = some .critical ∧ isSuspiciousExtension w.name)) reply
      unfold reply
      by_cases hlong : 512 ≤ w.data.length
      · obtain ⟨hcounted, hpattern, hsome⟩ :=
          counted_judge g w.name w.entropy ((g.baseline.get ino).getD w.entropy)
        obtain ⟨hlevel, hcount⟩ | ⟨hhigh, hlevel, hcount⟩ := checkWrite_cases g ino hlong
        · rw [hlevel, hcount]
          exact ⟨hcounted.1, hcounted.2.trans (and_iff_right hpattern).symm⟩
        · -- the pattern comes on top of what the write was judged to be
          rw [hlevel, hcount]
          have hmore := hcounted.1
          rw [if_pos (hsome hhigh)] at hmore
          refine ⟨hmore.trans (Nat.le_succ _), iff_of_false ?_ fun honce => honce.1 rfl⟩
          rw [Option.isSome_some, if_pos rfl]
          omega
      · rw [EntropyGuard.checkWrite, if_pos (Nat.lt_of_not_le hlong)]
        exact ⟨le_rfl, iff_of_true rfl ⟨nofun, fun hboth => nomatch hboth.1⟩⟩

/-- The threats after some calls, beside the replies to them. -/
theorem counted_replies (g : EntropyGuard) (calls : List GuardCall) :
  let threats := g.threatCount + (g.replies calls).countP Option.isSome
  let counted := (calls.foldl (fun g c => (g.call c).2) g).threatCount
  threats ≤ counted ∧ (counted = threats ↔ ∀ e ∈ calls.zip (g.replies calls), Once e.1 e.2)
  := by
  induction calls generalizing g with
  | nil => exact ⟨le_rfl, iff_of_true rfl (List.forall_mem_nil _)⟩
  | cons c calls ih =>
      obtain ⟨hle, hiff⟩ := ih (g.call c).2
      obtain ⟨hle', hiff'⟩ := counted_call g c
      rw [replies, List.zip_cons_cons, List.forall_mem_cons, List.countP_cons, List.foldl_cons,
        ← hiff', ← hiff]
      dsimp only
      constructor <;> omega

/-- After any calls the guard has counted at least as many threats as it replied with, and
exactly as many when no reply was that there is a pattern, and none for a suspicious name that
the write is critical. -/
theorem threatCount_eq_iff (calls : List GuardCall) :
  (new.replies calls).countP Option.isSome ≤ (run calls).threatCount
    ∧ ((run calls).threatCount = (new.replies calls).countP Option.isSome
      ↔ ∀ e ∈ calls.zip (new.replies calls), Once e.1 e.2)
  := by
  have hcounted := counted_replies new calls
  rw [show new.threatCount = 0 from rfl, Nat.zero_add] at hcounted
  exact hcounted

end EntropyGuard

end Verdict

end Vexfs
