import Vexfs.Bytes.Decimal
import Vexfs.Collections.Parts
import Vexfs.Fs.Tag

/-!
# Telemetry

The file system writes its counters and the files that matter most as a text in JSON, and the
window program looks for the names of the fields in that text.  It finds the counters.  It does
not find the files, since it looks for a list that opens right behind the colon, where the
file system writes a space (`parseTelemetry_json_iff`).
-/

namespace Vexfs

open Bytes

/-- The scores, numbers of 32 bits, and their texts. -/
class ScoreText (S : Type) where
  display : S → String
  parse : String → Option S
  zero : S
  unquoted : ∀ s, '"' ∉ (display s).toList

structure RankedFile (S : Type) where
  name : String
  score : S
  tier : String

/-- What the file system tells about itself. -/
structure TelemetryState (S : Type) where
  cacheUsed : UInt64
  cacheMax : UInt64
  markovEntries : UInt64
  searchIndexed : UInt64
  snapshotsTotal : UInt64
  entropyThreats : UInt64
  totalFiles : UInt64
  memorySessions : UInt64
  memoryTrackedFiles : UInt64
  memoryActiveStreaks : UInt64
  memoryTrending : UInt64
  rankedFiles : List (RankedFile S)

/-- What the window program shows. -/
structure Telemetry (S : Type) where
  cacheUsed : UInt64
  cacheMax : UInt64
  markovEntries : UInt64
  searchIndexed : UInt64
  snapshotsTotal : UInt64
  entropyThreats : UInt64
  totalFiles : UInt64
  rankedFiles : List (RankedFile S)

variable {S : Type} [ScoreText S]

/-! ### Writing -/

abbrev quote (text : List Char) : List Char := Parts.quoted '"' text

def counterText (counter : String × UInt64) : List Char :=
  [' ', ' '] ++ (quote counter.1.toList
    ++ ([':', ' '] ++ Nat.toDigits 10 counter.2.toNat ++ [',', '\n']))

def rankedText (f : RankedFile S) : List Char :=
  ['{'] ++ (quote "name".toList ++ ([':'] ++ (quote f.name.toList
    ++ ([','] ++ (quote "score".toList ++ ([':'] ++ (ScoreText.display f.score).toList
    ++ ([','] ++ (quote "tier".toList ++ ([':'] ++ (quote f.tier.toList ++ ['}']))))))))))

def rankedTexts : List (RankedFile S) → List Char
  | [] => []
  | [f] => rankedText f
  | f :: f' :: fs => rankedText f ++ ([','] ++ rankedTexts (f' :: fs))

def TelemetryState.counters (t : TelemetryState S) : List (String × UInt64) :=
  [("cache_used", t.cacheUsed), ("cache_max", t.cacheMax),
    ("markov_entries", t.markovEntries), ("search_indexed", t.searchIndexed),
    ("snapshots_total", t.snapshotsTotal), ("entropy_threats", t.entropyThreats),
    ("total_files", t.totalFiles), ("memory_sessions", t.memorySessions),
    ("memory_tracked_files", t.memoryTrackedFiles),
    ("memory_active_streaks", t.memoryActiveStreaks), ("memory_trending", t.memoryTrending)]

def rankedKey : List Char := "ranked_files".toList

/-- The text of the telemetry file.  It has the first ten of the files. -/
def TelemetryState.json (t : TelemetryState S) : List Char :=
  ['{', '\n'] ++ (t.counters.flatMap counterText
    ++ ([' ', ' '] ++ (quote rankedKey
      ++ ([':', ' ', '['] ++ (rankedTexts (t.rankedFiles.take 10) ++ [']', '\n', '}'])))))

/-! ### Parsing -/

def getU64 (json : List Char) (key : String) : UInt64 :=
  UInt64.ofNat (((Parts.after (quote key.toList ++ [':']) json).bind fun rest =>
    parseU64 (trim (String.ofList ((rest.dropWhile (· = ' ')).takeWhile
      fun c => c ≠ ',' ∧ c ≠ '}' ∧ c ≠ '\n'))).toList).getD 0)

def getStr (obj : List Char) (key : String) : String :=
  String.ofList (((Parts.after (quote key.toList ++ [':', '"']) obj).map fun rest =>
    rest.takeWhile (· ≠ '"')).getD [])

def getF32 (obj : List Char) (key : String) : S :=
  ((Parts.after (quote key.toList ++ [':']) obj).bind fun rest =>
    ScoreText.parse (trim (String.ofList (rest.takeWhile fun c => c ≠ ',' ∧ c ≠ '}')))).getD
      ScoreText.zero

/-- The file that an object tells of.  One without a name is left out. -/
def parseRanked (obj : List Char) : Option (RankedFile S) :=
  let name := getStr obj "name"
  if name = "" then none else some ⟨name, getF32 obj "score", getStr obj "tier"⟩

/-- How the window program expects the list of the files to begin. -/
def rankedPattern : List Char := quote rankedKey ++ [':', '[']

def rankedFiles (json : List Char) : List (RankedFile S) :=
  match Parts.after rankedPattern json with
  | none => []
  | some arr => ((arr.splitOn '{').drop 1).filterMap parseRanked

def parseTelemetry (json : List Char) : Telemetry S where
  cacheUsed := getU64 json "cache_used"
  cacheMax := getU64 json "cache_max"
  markovEntries := getU64 json "markov_entries"
  searchIndexed := getU64 json "search_indexed"
  snapshotsTotal := getU64 json "snapshots_total"
  entropyThreats := getU64 json "entropy_threats"
  totalFiles := getU64 json "total_files"
  rankedFiles := rankedFiles json

/-! ### The counters -/

/-- A name of a field: it has no quotes, and does not begin like what follows a name. -/
structure IsKey (key : List Char) : Prop where
  unquoted : '"' ∉ key
  nonempty : key ≠ []
  letter : key.head? ≠ some ':'

theorem isDigit_of_mem_toDigits (n : ℕ) :
  ∀ c ∈ Nat.toDigits 10 n, c.isDigit
  := fun _ hc => Nat.isDigit_of_mem_toDigits (by decide) (by decide) hc

theorem notMem_toDigits {c : Char} (h : c.isDigit = false) (n : ℕ) :
  c ∉ Nat.toDigits 10 n
  := by
  intro hc
  rw [isDigit_of_mem_toDigits n c hc] at h
  cases h

/-- The value of a counter has no quotes. -/
theorem value_unquoted (n : ℕ) :
  '"' ∉ [':', ' '] ++ Nat.toDigits 10 n ++ [',', '\n']
  := by
  have hdigits : '"' ∉ Nat.toDigits 10 n := notMem_toDigits (by decide) n
  simp [hdigits]

/-- A counter with another name is passed over. -/
theorem after_counterText {key tail : List Char} (hkey : IsKey key) {counter : String × UInt64}
    (hcounter : '"' ∉ counter.1.toList) (hne : key ≠ counter.1.toList) (rest : List Char) :
  Parts.after (quote key ++ tail) (counterText counter ++ rest)
    = Parts.after (quote key ++ tail) rest
  := by
  have hhead : key.head?
      ≠ ([':', ' '] ++ Nat.toDigits 10 counter.2.toNat ++ [',', '\n'] ++ rest).head? :=
    hkey.letter
  rw [counterText, List.append_assoc, List.append_assoc, Parts.after_unquoted (by decide),
    Parts.after_quoted hkey.unquoted hcounter (fun h => hne h.1) hhead hkey.nonempty,
    Parts.after_unquoted (value_unquoted _)]

/-- The first counter with a name is found behind counters with other names. -/
theorem after_counters {key : List Char} (hkey : IsKey key) {counters : List (String × UInt64)}
    (hcounters : ∀ c ∈ counters, '"' ∉ c.1.toList) (hnodup : (counters.map Prod.fst).Nodup)
    {counter : String × UInt64} (hmem : counter ∈ counters) (hname : counter.1.toList = key)
    (tail : List Char) :
  ∃ rest, Parts.after (quote key ++ [':']) (counters.flatMap counterText ++ tail)
    = some (' ' :: (Nat.toDigits 10 counter.2.toNat ++ ',' :: rest))
  := by
  induction counters with
  | nil => cases hmem
  | cons c counters ih =>
      obtain ⟨hc, hcounters⟩ := List.forall_mem_cons.mp hcounters
      rw [List.map_cons, List.nodup_cons] at hnodup
      rw [List.flatMap_cons, List.append_assoc]
      obtain rfl | hmem := List.mem_cons.mp hmem
      · use '\n' :: (counters.flatMap counterText ++ tail)
        subst hname
        rw [counterText, List.append_assoc, List.append_assoc, Parts.after_unquoted (by decide)]
        have htext : quote counter.1.toList ++ ([':', ' ']
              ++ Nat.toDigits 10 counter.2.toNat ++ [',', '\n']
              ++ (counters.flatMap counterText ++ tail))
            = (quote counter.1.toList ++ [':']) ++ (' ' :: (Nat.toDigits 10 counter.2.toNat
              ++ ',' :: '\n' :: (counters.flatMap counterText ++ tail))) := by
          simp
        rw [htext]
        exact Parts.after_append _ _
      · have hne : key ≠ c.1.toList := by
          rintro rfl
          apply hnodup.1
          rw [← String.toList_inj.mp hname]
          exact List.mem_map_of_mem hmem
        rw [after_counterText hkey hc hne]
        exact ih hcounters hnodup.2 hmem

theorem isWhitespace_of_isDigit {c : Char} (h : c.isDigit) :
  isWhitespace c = false
  := by
  rw [Char.isDigit, Bool.and_eq_true, decide_eq_true_iff, decide_eq_true_iff, ge_iff_le,
    UInt32.le_iff_toNat_le, UInt32.le_iff_toNat_le] at h
  have hlow : 48 ≤ c.toNat := h.1
  have hhigh : c.toNat ≤ 57 := h.2
  simp only [isWhitespace, Bool.or_eq_false_iff, Bool.and_eq_false_iff, beq_eq_false_iff_ne,
    decide_eq_false_iff_not]
  omega

theorem dropWhile_isWhitespace {cs : List Char} (h : ∀ c ∈ cs, isWhitespace c = false) :
  cs.dropWhile isWhitespace = cs
  := by
  cases cs with
  | nil => rfl
  | cons c cs =>
      apply List.dropWhile_cons_of_neg
      rw [h c List.mem_cons_self]
      decide

/-- A text without white space is not trimmed. -/
theorem trim_ofList {cs : List Char} (h : ∀ c ∈ cs, isWhitespace c = false) :
  trim (String.ofList cs) = String.ofList cs
  := by
  rw [trim, String.toList_ofList, dropWhile_isWhitespace h, dropWhile_isWhitespace,
    List.reverse_reverse]
  intro c hc
  exact h c (List.mem_reverse.mp hc)

/-- A number is read up to the comma that follows. -/
theorem parse_value {n : ℕ} (hn : n < 2 ^ 64) (rest : List Char) :
  parseU64 (trim (String.ofList (((' ' :: (Nat.toDigits 10 n ++ ',' :: rest)).dropWhile
      (· = ' ')).takeWhile fun c => c ≠ ',' ∧ c ≠ '}' ∧ c ≠ '\n'))).toList = some n
  := by
  have hdigits := isDigit_of_mem_toDigits n
  have hspace : ((' ' :: (Nat.toDigits 10 n ++ ',' :: rest)).dropWhile (· = ' '))
      = Nat.toDigits 10 n ++ ',' :: rest := by
    rw [List.dropWhile_cons_of_pos (by decide)]
    obtain ⟨d, ds, hds⟩ := List.exists_cons_of_ne_nil (Nat.toDigits_ne_nil (n := n) (b := 10))
    rw [hds, List.cons_append]
    apply List.dropWhile_cons_of_neg
    rw [decide_eq_true_iff]
    rintro rfl
    exact notMem_toDigits (by decide) n (hds ▸ List.mem_cons_self)
  have hstop : (Nat.toDigits 10 n ++ ',' :: rest).takeWhile
      (fun c => c ≠ ',' ∧ c ≠ '}' ∧ c ≠ '\n') = Nat.toDigits 10 n := by
    rw [List.takeWhile_append_of_pos, List.takeWhile_cons_of_neg (by decide), List.append_nil]
    intro c hc
    rw [decide_eq_true_iff]
    refine ⟨?_, ?_, ?_⟩
    · rintro rfl
      exact notMem_toDigits (by decide) n hc
    · rintro rfl
      exact notMem_toDigits (by decide) n hc
    · rintro rfl
      exact notMem_toDigits (by decide) n hc
  rw [hspace, hstop, trim_ofList fun c hc => isWhitespace_of_isDigit (hdigits c hc),
    String.toList_ofList, parseU64_toDigits hn]

omit [ScoreText S] in
/-- The names of the counters are different, and none of them is that of the files. -/
theorem TelemetryState.nodup_counters (t : TelemetryState S) :
  (t.counters.map Prod.fst).Nodup
  := by
  have hnodup : ["cache_used", "cache_max", "markov_entries", "search_indexed",
      "snapshots_total", "entropy_threats", "total_files", "memory_sessions",
      "memory_tracked_files", "memory_active_streaks", "memory_trending"].Nodup := by decide
  exact hnodup

omit [ScoreText S] in
theorem TelemetryState.counters_keys (t : TelemetryState S) :
  ∀ key ∈ t.counters.map Prod.fst, IsKey key.toList ∧ rankedKey ≠ key.toList
  := by
  have hkeys : ∀ key ∈ ["cache_used", "cache_max", "markov_entries", "search_indexed",
      "snapshots_total", "entropy_threats", "total_files", "memory_sessions",
      "memory_tracked_files", "memory_active_streaks", "memory_trending"],
      ('"' ∉ key.toList ∧ key.toList ≠ [] ∧ key.toList.head? ≠ some ':')
        ∧ rankedKey ≠ key.toList := by decide
  intro key hmem
  obtain ⟨⟨hunquoted, hne, hletter⟩, hother⟩ := hkeys key hmem
  exact ⟨⟨hunquoted, hne, hletter⟩, hother⟩

/-- A counter that was written is read. -/
theorem getU64_json (t : TelemetryState S) (counter : String × UInt64)
    (hmem : counter ∈ t.counters) :
  getU64 t.json counter.1 = counter.2
  := by
  have hkeys (c : String × UInt64) (hc : c ∈ t.counters) : IsKey c.1.toList :=
    (t.counters_keys c.1 (List.mem_map_of_mem hc)).1
  obtain ⟨rest, hrest⟩ := after_counters (hkeys counter hmem) (fun c hc => (hkeys c hc).unquoted)
    t.nodup_counters hmem rfl ([' ', ' ']
    ++ (quote rankedKey ++ ([':', ' ', '[']
      ++ (rankedTexts (t.rankedFiles.take 10) ++ [']', '\n', '}']))))
  rw [getU64, TelemetryState.json, Parts.after_unquoted (by decide), hrest, Option.bind_some,
    parse_value counter.2.toNat_lt, Option.getD_some, UInt64.ofNat_toNat]

/-! ### The files -/

/-- A text without quotes is not taken for the list of the files. -/
theorem after_rankedPattern_unquoted {u : List Char} (h : '"' ∉ u) (rest : List Char) :
  Parts.after rankedPattern (u ++ rest) = Parts.after rankedPattern rest
  := Parts.after_unquoted h _ _ _

/-- Neither is a quoted text when no colon follows, or when it is another name. -/
theorem after_rankedPattern_quote {k : List Char} (hk : '"' ∉ k) {d : Char}
    (hd : d = ',' ∨ d = '}' ∨ d = ':' ∧ rankedKey ≠ k) (rest : List Char) :
  Parts.after rankedPattern (quote k ++ ([d] ++ rest)) = Parts.after rankedPattern rest
  := by
  have hletter : rankedKey.head? = some 'r' := by decide
  have hplain : '"' ∉ [d] := by
    obtain rfl | rfl | ⟨rfl, -⟩ := hd
    · decide
    · decide
    · decide
  have hother : rankedKey.head? ≠ ([d] ++ rest).head? := by
    rw [hletter]
    obtain rfl | rfl | ⟨rfl, -⟩ := hd
    · simp
    · simp
    · simp
  have hne : ¬ (rankedKey = k ∧ [':', '['] <+: [d] ++ rest) := by
    rintro ⟨hkey, hpre⟩
    have hcolon := (List.cons_prefix_cons.mp hpre).1
    obtain rfl | rfl | ⟨-, hne⟩ := hd
    · revert hcolon
      decide
    · revert hcolon
      decide
    · exact hne hkey
  rw [← after_rankedPattern_unquoted hplain rest]
  exact Parts.after_quoted (by decide) hk hne hother (by decide)

/-- A file is passed over when its name and its tier have no quotes. -/
theorem after_rankedText {f : RankedFile S} (hname : '"' ∉ f.name.toList)
    (htier : '"' ∉ f.tier.toList) (rest : List Char) :
  Parts.after rankedPattern (rankedText f ++ rest) = Parts.after rankedPattern rest
  := by
  have hother : ∀ k ∈ ["name", "score", "tier"], rankedKey ≠ k.toList := by decide
  simp only [rankedText, List.append_assoc]
  rw [after_rankedPattern_unquoted (by decide),
    after_rankedPattern_quote (by decide) (Or.inr (Or.inr ⟨rfl, hother "name" (by decide)⟩)),
    after_rankedPattern_quote hname (Or.inl rfl),
    after_rankedPattern_quote (by decide) (Or.inr (Or.inr ⟨rfl, hother "score" (by decide)⟩)),
    after_rankedPattern_unquoted (ScoreText.unquoted f.score),
    after_rankedPattern_unquoted (by decide),
    after_rankedPattern_quote (by decide) (Or.inr (Or.inr ⟨rfl, hother "tier" (by decide)⟩)),
    after_rankedPattern_quote htier (Or.inr (Or.inl rfl))]

theorem after_rankedTexts {fs : List (RankedFile S)}
    (h : ∀ f ∈ fs, '"' ∉ f.name.toList ∧ '"' ∉ f.tier.toList) (rest : List Char) :
  Parts.after rankedPattern (rankedTexts fs ++ rest) = Parts.after rankedPattern rest
  := by
  induction fs with
  | nil => rfl
  | cons f fs ih =>
      obtain ⟨⟨hname, htier⟩, hfs⟩ := List.forall_mem_cons.mp h
      cases fs with
      | nil => exact after_rankedText hname htier rest
      | cons f' fs =>
          rw [rankedTexts, List.append_assoc, List.append_assoc, after_rankedText hname htier,
            after_rankedPattern_unquoted (by decide), ih hfs]

theorem after_rankedPattern_counters {counters : List (String × UInt64)}
    (h : ∀ c ∈ counters, '"' ∉ c.1.toList ∧ rankedKey ≠ c.1.toList) (rest : List Char) :
  Parts.after rankedPattern (counters.flatMap counterText ++ rest)
    = Parts.after rankedPattern rest
  := by
  have hkey : IsKey rankedKey := by
    constructor
    · decide
    · decide
    · decide
  induction counters with
  | nil => rfl
  | cons c counters ih =>
      obtain ⟨⟨hc, hne⟩, hcounters⟩ := List.forall_mem_cons.mp h
      rw [List.flatMap_cons, List.append_assoc, ← ih hcounters]
      exact after_counterText hkey hc hne _

/-- No list of files is found when names and tiers have no quotes. -/
theorem rankedFiles_json {t : TelemetryState S}
    (h : ∀ f ∈ t.rankedFiles, '"' ∉ f.name.toList ∧ '"' ∉ f.tier.toList) :
  (rankedFiles t.json : List (RankedFile S)) = []
  := by
  have hcounters (c : String × UInt64) (hc : c ∈ t.counters) :
      '"' ∉ c.1.toList ∧ rankedKey ≠ c.1.toList :=
    (t.counters_keys c.1 (List.mem_map_of_mem hc)).imp_left IsKey.unquoted
  -- The list is there, but a space stands before its bracket.
  have hlist (rest : List Char) :
      Parts.after rankedPattern (quote rankedKey ++ ([':', ' ', '['] ++ rest))
        = Parts.after rankedPattern rest := by
    rw [← after_rankedPattern_unquoted (u := [':', ' ', '[']) (by decide) rest]
    apply Parts.after_quoted
    · decide
    · decide
    · rintro ⟨-, hpre⟩
      have hspace := (List.cons_prefix_cons.mp (List.cons_prefix_cons.mp hpre).2).1
      revert hspace
      decide
    · have hletter : rankedKey.head? = some 'r' := by decide
      rw [hletter]
      simp
    · decide
  have hfiles : ∀ f ∈ t.rankedFiles.take 10, '"' ∉ f.name.toList ∧ '"' ∉ f.tier.toList :=
    fun f hf => h f (List.mem_of_mem_take hf)
  have hend : Parts.after rankedPattern [']', '\n', '}'] = none := by decide
  rw [rankedFiles, TelemetryState.json, after_rankedPattern_unquoted (by decide),
    after_rankedPattern_counters hcounters, after_rankedPattern_unquoted (by decide), hlist,
    after_rankedTexts hfiles, hend]

omit [ScoreText S] in
theorem getStr_unquoted (obj : List Char) (key : String) :
  '"' ∉ (getStr obj key).toList
  := by
  rw [getStr, String.toList_ofList]
  cases Parts.after (quote key.toList ++ [':', '"']) obj with
  | none => exact List.not_mem_nil
  | some rest =>
      intro hmem
      have hne := List.mem_takeWhile_imp hmem
      revert hne
      decide

/-- The names and tiers that are found have no quotes. -/
theorem unquoted_of_mem_rankedFiles {json : List Char} {f : RankedFile S}
    (h : f ∈ (rankedFiles json : List (RankedFile S))) :
  '"' ∉ f.name.toList ∧ '"' ∉ f.tier.toList
  := by
  unfold rankedFiles at h
  split at h
  · cases h
  · obtain ⟨obj, -, hobj⟩ := List.mem_filterMap.mp h
    unfold parseRanked at hobj
    dsimp only at hobj
    split at hobj
    · cases hobj
    · obtain rfl := Option.some.inj hobj
      exact ⟨getStr_unquoted _ _, getStr_unquoted _ _⟩

/-- The window program has the counters of the file system, and the names and tiers of its
files. -/
structure Returns (t : TelemetryState S) (w : Telemetry S) : Prop where
  cacheUsed : w.cacheUsed = t.cacheUsed
  cacheMax : w.cacheMax = t.cacheMax
  markovEntries : w.markovEntries = t.markovEntries
  searchIndexed : w.searchIndexed = t.searchIndexed
  snapshotsTotal : w.snapshotsTotal = t.snapshotsTotal
  entropyThreats : w.entropyThreats = t.entropyThreats
  totalFiles : w.totalFiles = t.totalFiles
  files : w.rankedFiles.map (fun f => (f.name, f.tier))
    = t.rankedFiles.map fun f => (f.name, f.tier)

/-- What is found has no quotes in it, so nothing is found when all the files are. -/
theorem Returns.rankedFiles_eq_nil {t : TelemetryState S}
    (h : Returns t (parseTelemetry t.json)) :
  t.rankedFiles = []
  := by
  have hfiles : (rankedFiles t.json : List (RankedFile S)).map (fun f => (f.name, f.tier))
      = t.rankedFiles.map fun f => (f.name, f.tier) := h.files
  have hquotes (f : RankedFile S) (hf : f ∈ t.rankedFiles) :
      '"' ∉ f.name.toList ∧ '"' ∉ f.tier.toList := by
    have hmem : (f.name, f.tier) ∈ t.rankedFiles.map fun f => (f.name, f.tier) :=
      List.mem_map_of_mem (f := fun f : RankedFile S => (f.name, f.tier)) hf
    rw [← hfiles] at hmem
    obtain ⟨g, hg, heq⟩ := List.mem_map.mp hmem
    obtain ⟨hname, htier⟩ := Prod.mk.inj heq
    rw [← hname, ← htier]
    exact unquoted_of_mem_rankedFiles hg
  rw [rankedFiles_json hquotes] at hfiles
  exact List.map_eq_nil_iff.mp hfiles.symm

/-- The window program has all that the file system tells if and only if no file is ranked. -/
theorem parseTelemetry_json_iff (t : TelemetryState S) :
  Returns t (parseTelemetry t.json) ↔ t.rankedFiles = []
  := by
  constructor
  · exact Returns.rankedFiles_eq_nil
  · intro hnil
    constructor
    · exact getU64_json t ("cache_used", _) (List.mem_of_getElem? (i := 0) rfl)
    · exact getU64_json t ("cache_max", _) (List.mem_of_getElem? (i := 1) rfl)
    · exact getU64_json t ("markov_entries", _) (List.mem_of_getElem? (i := 2) rfl)
    · exact getU64_json t ("search_indexed", _) (List.mem_of_getElem? (i := 3) rfl)
    · exact getU64_json t ("snapshots_total", _) (List.mem_of_getElem? (i := 4) rfl)
    · exact getU64_json t ("entropy_threats", _) (List.mem_of_getElem? (i := 5) rfl)
    · exact getU64_json t ("total_files", _) (List.mem_of_getElem? (i := 6) rfl)
    · rw [hnil]
      apply List.map_eq_nil_iff.mpr
      apply rankedFiles_json
      rw [hnil]
      exact List.forall_mem_nil _

/-- Scores without a fraction. -/
@[reducible]
def ScoreText.whole : ScoreText ℕ where
  display n := String.ofList (Nat.toDigits 10 n)
  parse s := parseU64 s.toList
  zero := 0
  unquoted n := by
    rw [String.toList_ofList]
    exact notMem_toDigits (by decide) n

/-- A state with one file. -/
def oneFile : TelemetryState ℕ :=
  ⟨0, 0, 0, 0, 0, 0, 0, 0, 0, 0, 0, [⟨"a.txt", 1, "HOT"⟩]⟩

/-- A file that is ranked is not found. -/
theorem not_parseTelemetry_json :
  ¬ ∀ (S : Type) [ScoreText S] (t : TelemetryState S), Returns t (parseTelemetry t.json)
  := by
  intro h
  have hnil : oneFile.rankedFiles = [] :=
    @Returns.rankedFiles_eq_nil ℕ ScoreText.whole oneFile (@h ℕ ScoreText.whole oneFile)
  exact List.cons_ne_nil _ _ hnil

end Vexfs
