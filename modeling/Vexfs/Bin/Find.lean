import Mathlib.Data.List.DropRight
import Vexfs.Collections.Parts

/-!
# Finding files by a pattern

The patterns of `find --regex` are literal texts with wildcards `.*` in between, and may be
anchored at the start by `^` and at the end by `$`.  The matcher takes the first occurrence of
each literal text, and then wants to be at the end when the pattern is anchored there.  That is
right unless some text before the end matches already; then the matcher does not look for a
later occurrence (`regexMatch_iff`).
-/

namespace Vexfs

/-! ### The matcher -/

def wildcard : List Char := ['.', '*']

/-- Split at the wildcards, from left to right. -/
def splitWildcard : List Char → List (List Char)
  | [] => [[]]
  | '.' :: '*' :: cs => [] :: splitWildcard cs
  | c :: cs => (splitWildcard cs).modifyHead (c :: ·)

/-- What remains of the text behind the parts from number `i` on. -/
def matchParts (anchoredStart : Bool) : ℕ → List (List Char) → List Char → Option (List Char)
  | _, [], remaining => some remaining
  | i, part :: parts, remaining =>
      if part = [] then matchParts anchoredStart (i + 1) parts remaining
      else if i = 0 ∧ anchoredStart then
        if part <+: remaining then
          matchParts anchoredStart (i + 1) parts (remaining.drop part.length)
        else none
      else (Parts.after part remaining).bind (matchParts anchoredStart (i + 1) parts)

def regexMatch (pattern text : String) : Bool :=
  let pattern := pattern.toList
  let text := text.toList
  let anchoredStart := decide (pattern.head? = some '^')
  let anchoredEnd := decide (pattern.getLast? = some '$')
  let core := (pattern.dropWhile (· = '^')).rdropWhile (· = '$')
  if wildcard <:+: core then
    (matchParts anchoredStart 0 (splitWildcard core) text).elim false fun remaining =>
      !(anchoredEnd && !remaining.isEmpty)
  else if anchoredStart && anchoredEnd then text = core
  else if anchoredStart then core <+: text
  else if anchoredEnd then core <:+ text
  else core <:+: text

/-! ### Patterns -/

/-- A text that stands for itself in a pattern. -/
structure IsLiteral (part : List Char) : Prop where
  caret : '^' ∉ part
  dollar : '$' ∉ part
  noWildcard : ¬ wildcard <:+: part

/-- Literal texts with wildcards in between, and with or without anchors. -/
structure Pattern where
  anchoredStart : Bool
  parts : List (List Char)
  anchoredEnd : Bool
  nonempty : parts ≠ []
  literal : ∀ part ∈ parts, IsLiteral part

namespace Pattern

/-- The pattern without its anchors. -/
def core (p : Pattern) : List Char := wildcard.intercalate p.parts

def chars (p : Pattern) : List Char :=
  (if p.anchoredStart then ['^'] else []) ++ (p.core ++ if p.anchoredEnd then ['$'] else [])

/-- How a pattern is written. -/
def source (p : Pattern) : String := String.ofList p.chars

/-- What the parts match, where a wildcard is any text in a line. -/
def language (p : Pattern) : Language Char := Parts.language {w | '\n' ∉ w} p.parts

/-- The pattern matches somewhere in the text, at its start and at its end when it is anchored
there. -/
def Matches (p : Pattern) (text : List Char) : Prop :=
  ∃ u m v, text = u ++ (m ++ v) ∧ m ∈ p.language ∧ (p.anchoredStart → u = [])
    ∧ (p.anchoredEnd → v = [])

/-- The pattern, but not anchored at the end. -/
def openEnd (p : Pattern) : Pattern := { p with anchoredEnd := false }

/-- A pattern with a wildcard that is anchored at the end matches, and so does a part of the
text before the end when the anchor is left out. -/
def EndsEarly (p : Pattern) (text : List Char) : Prop :=
  p.anchoredEnd ∧ 2 ≤ p.parts.length ∧ p.Matches text
    ∧ ∃ pre, pre <+: text ∧ pre ≠ text ∧ p.openEnd.Matches pre

/-! ### Reading a pattern -/

theorem mem_intercalate {sep : List Char} {parts : List (List Char)} {c : Char}
    (h : c ∈ sep.intercalate parts) :
  c ∈ sep ∨ ∃ part ∈ parts, c ∈ part
  := by
  induction parts with
  | nil => cases h
  | cons part parts ih =>
      cases parts with
      | nil =>
          rw [List.intercalate_singleton] at h
          exact .inr ⟨part, List.mem_cons_self, h⟩
      | cons part' parts =>
          rw [List.intercalate_cons_cons, List.mem_append, List.mem_append] at h
          obtain (h | h) | h := h
          · exact .inr ⟨part, List.mem_cons_self, h⟩
          · exact .inl h
          · exact (ih h).imp_right fun ⟨q, hq, hc⟩ => ⟨q, List.mem_cons_of_mem _ hq, hc⟩

theorem caret_not_mem_core (p : Pattern) :
  '^' ∉ p.core
  := by
  intro h
  obtain hsep | ⟨part, hpart, hc⟩ := mem_intercalate h
  · exact absurd hsep (by decide)
  · exact (p.literal part hpart).caret hc

theorem dollar_not_mem_core (p : Pattern) :
  '$' ∉ p.core
  := by
  intro h
  obtain hsep | ⟨part, hpart, hc⟩ := mem_intercalate h
  · exact absurd hsep (by decide)
  · exact (p.literal part hpart).dollar hc

/-- The anchors are read as they are written. -/
theorem head?_chars (p : Pattern) :
  p.chars.head? = some '^' ↔ p.anchoredStart = true
  := by
  rw [chars]
  cases p.anchoredStart with
  | true => simp
  | false =>
      have hcore := p.caret_not_mem_core
      cases hc : p.core with
      | nil => cases p.anchoredEnd <;> simp
      | cons c cs =>
          rw [hc] at hcore
          simp
          rintro rfl
          exact hcore List.mem_cons_self

theorem getLast?_chars (p : Pattern) :
  p.chars.getLast? = some '$' ↔ p.anchoredEnd = true
  := by
  rw [chars]
  cases p.anchoredEnd with
  | true => simp
  | false =>
      simp only [Bool.false_eq_true, if_false, List.append_nil, iff_false]
      intro h
      obtain hstart | hcore := List.mem_append.mp (List.mem_of_getLast? h)
      · cases hs : p.anchoredStart <;> simp [hs] at hstart
      · exact p.dollar_not_mem_core hcore

theorem dropWhile_eq_self {c : Char} {cs : List Char} (h : c ∉ cs) :
  cs.dropWhile (· = c) = cs
  := by
  cases cs with
  | nil => rfl
  | cons d cs =>
      have hne : d ≠ c := fun heq => h (heq ▸ List.mem_cons_self)
      rw [List.dropWhile_cons_of_neg (by simpa using hne)]

theorem rdropWhile_eq_self {c : Char} {cs : List Char} (h : c ∉ cs) :
  cs.rdropWhile (· = c) = cs
  := by
  rw [List.rdropWhile, dropWhile_eq_self (by rw [List.mem_reverse]; exact h), List.reverse_reverse]

/-- What is left when the anchors are trimmed. -/
theorem trim_chars (p : Pattern) :
  (p.chars.dropWhile (· = '^')).rdropWhile (· = '$') = p.core
  := by
  have hrest : '^' ∉ p.core ++ if p.anchoredEnd then ['$'] else [] := by
    rw [List.mem_append, not_or]
    use p.caret_not_mem_core
    split
    · decide
    · exact List.not_mem_nil
  have hstart : p.chars.dropWhile (· = '^')
      = p.core ++ if p.anchoredEnd then ['$'] else [] := by
    rw [chars]
    cases p.anchoredStart with
    | true =>
        rw [if_pos rfl, List.singleton_append, List.dropWhile_cons_of_pos rfl,
          dropWhile_eq_self hrest]
    | false =>
        rw [if_neg Bool.false_ne_true, List.nil_append, dropWhile_eq_self hrest]
  rw [hstart]
  cases p.anchoredEnd with
  | true =>
      rw [if_pos rfl, List.rdropWhile_concat_pos _ _ _ rfl,
        rdropWhile_eq_self p.dollar_not_mem_core]
  | false =>
      rw [if_neg Bool.false_ne_true, List.append_nil, rdropWhile_eq_self p.dollar_not_mem_core]

/-! ### Splitting -/

theorem splitWildcard_cons {c : Char} {cs : List Char} (h : ¬ wildcard <+: c :: cs) :
  splitWildcard (c :: cs) = (splitWildcard cs).modifyHead (c :: ·)
  := by
  apply splitWildcard.eq_3
  rintro ds rfl rfl
  exact h ⟨ds, rfl⟩

/-- A literal text behind which a wildcard comes is split off. -/
theorem splitWildcard_append {part : List Char} (h : ¬ wildcard <:+: part) (cs : List Char) :
  splitWildcard (part ++ (wildcard ++ cs)) = part :: splitWildcard cs
  := by
  induction part with
  | nil => rfl
  | cons c part ih =>
      have hpart : ¬ wildcard <:+: part :=
        fun hin => h (hin.trans (List.suffix_cons c part).isInfix)
      have hpre : ¬ wildcard <+: c :: (part ++ (wildcard ++ cs)) := by
        intro hpre
        cases part with
        | nil =>
            obtain ⟨t, ht⟩ := hpre
            simp [wildcard] at ht
        | cons d part =>
            apply h
            obtain ⟨t, ht⟩ := hpre
            have hcd : '.' = c ∧ '*' = d := by
              simp [wildcard] at ht
              exact ⟨ht.1, ht.2.1⟩
            obtain ⟨rfl, rfl⟩ := hcd
            exact ⟨[], part, rfl⟩
      rw [List.cons_append, splitWildcard_cons hpre, ih hpart]
      rfl

theorem splitWildcard_of_literal {part : List Char} (h : ¬ wildcard <:+: part) :
  splitWildcard part = [part]
  := by
  induction part with
  | nil => rfl
  | cons c part ih =>
      rw [splitWildcard_cons fun hpre => h hpre.isInfix,
        ih fun hin => h (hin.trans (List.suffix_cons c part).isInfix)]
      rfl

/-- The parts of a pattern are found again. -/
theorem splitWildcard_intercalate {parts : List (List Char)} (hne : parts ≠ [])
    (h : ∀ part ∈ parts, ¬ wildcard <:+: part) :
  splitWildcard (wildcard.intercalate parts) = parts
  := by
  induction parts with
  | nil => exact absurd rfl hne
  | cons part parts ih =>
      rw [List.forall_mem_cons] at h
      cases parts with
      | nil => rw [List.intercalate_singleton, splitWildcard_of_literal h.1]
      | cons part' parts =>
          rw [List.intercalate_cons_cons, List.append_assoc, splitWildcard_append h.1,
            ih (List.cons_ne_nil _ _) h.2]

/-- A pattern contains a wildcard when it has two parts or more. -/
theorem wildcard_infix_core_iff (p : Pattern) :
  wildcard <:+: p.core ↔ 2 ≤ p.parts.length
  := by
  rw [core]
  have hne := p.nonempty
  have hliteral := p.literal
  cases hparts : p.parts with
  | nil => exact absurd hparts hne
  | cons part parts =>
      cases parts with
      | nil =>
          rw [hparts] at hliteral
          rw [List.intercalate_singleton]
          simp [(hliteral part List.mem_cons_self).noWildcard]
      | cons part' parts =>
          rw [List.intercalate_cons_cons]
          simp only [List.length_cons, Nat.le_add_left, iff_true]
          exact ⟨part, wildcard.intercalate (part' :: parts), rfl⟩

theorem splitWildcard_core (p : Pattern) :
  splitWildcard p.core = p.parts
  := splitWildcard_intercalate p.nonempty fun part hpart => (p.literal part hpart).noWildcard

/-! ### Matching -/

/-- What may remain behind a match that is not anchored at the end. -/
def Rests (p : Pattern) (text rest : List Char) : Prop :=
  ∃ u m, text = u ++ (m ++ rest) ∧ m ∈ p.language ∧ (p.anchoredStart → u = [])

theorem matches_iff (p : Pattern) (text : List Char) :
  p.Matches text ↔ ∃ rest, p.Rests text rest ∧ (p.anchoredEnd → rest = [])
  := by
  constructor
  · rintro ⟨u, m, v, htext, hm, hu, hv⟩
    exact ⟨v, ⟨u, m, htext, hm, hu⟩, hv⟩
  · rintro ⟨v, ⟨u, m, htext, hm, hu⟩, hv⟩
    exact ⟨u, m, v, htext, hm, hu, hv⟩

/-- The parts of the pattern follow one another, the first one at the start if the pattern is
anchored there. -/
theorem rests_iff {p : Pattern} {part : List Char} {parts : List (List Char)}
    (hparts : p.parts = part :: parts) {text : List Char} (htext : '\n' ∉ text)
    (rest : List Char) :
  p.Rests text rest ↔
    if p.anchoredStart then ∃ text', text = part ++ text' ∧ Parts.Leaves parts text' rest
    else Parts.Leaves (part :: parts) text rest
  := by
  have hgap (t : List Char) (ht : t <:+ text) (w : List Char) (hw : w <:+: t) :
      w ∈ ({w | '\n' ∉ w} : Language Char) :=
    fun hmem => htext ((hw.trans ht.isInfix).subset hmem)
  rw [Rests, language, hparts]
  split
  · next hstart =>
    rw [← Parts.exists_mem_language_iff (hgap text (List.suffix_refl _))]
    constructor
    · rintro ⟨u, m, rfl, hm, hu⟩
      rw [hu hstart]
      exact ⟨m, hm, rfl⟩
    · rintro ⟨m, hm, rfl⟩
      exact ⟨[], m, rfl, hm, fun _ => rfl⟩
  · next hstart =>
    constructor
    · rintro ⟨u, m, rfl, hm, -⟩
      obtain ⟨text', htext', h⟩ :=
        (Parts.exists_mem_language_iff (hgap (m ++ rest) (List.suffix_append u _))).mp ⟨m, hm, rfl⟩
      exact ⟨u, text', by rw [htext'], h⟩
    · rintro ⟨u, text', rfl, h⟩
      obtain ⟨m, hm, htext'⟩ :=
        (Parts.exists_mem_language_iff (hgap (part ++ text') (List.suffix_append u _))).mpr
          ⟨text', rfl, h⟩
      exact ⟨u, m, by rw [htext'], hm, fun h => absurd h hstart⟩

/-- Where the start is not anchored, the matcher takes the first occurrence of each part. -/
theorem matchParts_eq_scan {anchoredStart : Bool} {i : ℕ} (h : ¬ (i = 0 ∧ anchoredStart))
    (parts : List (List Char)) (text : List Char) :
  matchParts anchoredStart i parts text = Parts.scan parts text
  := by
  induction parts generalizing i text with
  | nil => rfl
  | cons part parts ih =>
      have hnext : ¬ (i + 1 = 0 ∧ anchoredStart) := fun hzero => absurd hzero.1 (Nat.succ_ne_zero i)
      rw [matchParts, Parts.scan]
      split
      · next hnil =>
        rw [hnil, Parts.after_nil, ih hnext]
        rfl
      · congr 1
        funext text'
        exact ih hnext text'

theorem matchParts_start (part : List Char) (parts : List (List Char)) (text : List Char) :
  matchParts true 0 (part :: parts) text
    = if part <+: text then Parts.scan parts (text.drop part.length) else none
  := by
  have hnext : ¬ (0 + 1 = 0 ∧ true) := by decide
  rw [matchParts, matchParts_eq_scan hnext, matchParts_eq_scan hnext]
  split
  · next hnil =>
    rw [hnil, if_pos List.nil_prefix]
    rfl
  · rw [if_pos ⟨rfl, rfl⟩]

theorem rests_of_matchParts {p : Pattern} {text rest : List Char} (htext : '\n' ∉ text)
    (h : matchParts p.anchoredStart 0 p.parts text = some rest) :
  p.Rests text rest
  := by
  obtain ⟨part, parts, hparts⟩ := List.exists_cons_of_ne_nil p.nonempty
  rw [rests_iff hparts htext]
  rw [hparts] at h
  cases hstart : p.anchoredStart with
  | true =>
      rw [hstart, matchParts_start] at h
      split at h
      · next hpre =>
        obtain ⟨text', rfl⟩ := hpre
        rw [List.drop_left] at h
        exact ⟨text', rfl, Parts.leaves_of_scan h⟩
      · cases h
  | false =>
      rw [hstart, matchParts_eq_scan (by simp)] at h
      exact Parts.leaves_of_scan h

/-- The matcher leaves the longest rest. -/
theorem exists_matchParts {p : Pattern} {text rest : List Char} (htext : '\n' ∉ text)
    (h : p.Rests text rest) :
  ∃ r, matchParts p.anchoredStart 0 p.parts text = some r ∧ rest <:+ r
  := by
  obtain ⟨part, parts, hparts⟩ := List.exists_cons_of_ne_nil p.nonempty
  rw [rests_iff hparts htext] at h
  rw [hparts]
  cases hstart : p.anchoredStart with
  | true =>
      rw [hstart, if_pos rfl] at h
      obtain ⟨text', rfl, h'⟩ := h
      rw [matchParts_start, if_pos (List.prefix_append _ _), List.drop_left]
      exact Parts.exists_scan h'
  | false =>
      rw [hstart, if_neg Bool.false_ne_true] at h
      rw [matchParts_eq_scan (by simp)]
      exact Parts.exists_scan h

/-- Some text before the end matches exactly when something may remain. -/
theorem exists_openEnd_matches_iff (p : Pattern) (text : List Char) :
  (∃ pre, pre <+: text ∧ pre ≠ text ∧ p.openEnd.Matches pre)
    ↔ ∃ rest, p.Rests text rest ∧ rest ≠ []
  := by
  constructor
  · rintro ⟨pre, ⟨tail, rfl⟩, hne, u, m, v, rfl, hm, hu, -⟩
    refine ⟨v ++ tail, ⟨u, m, by simp only [List.append_assoc], hm, hu⟩, ?_⟩
    intro hnil
    obtain ⟨-, rfl⟩ := List.append_eq_nil_iff.mp hnil
    exact hne (List.append_nil _).symm
  · rintro ⟨rest, ⟨u, m, rfl, hm, hu⟩, hne⟩
    refine ⟨u ++ m, ⟨rest, List.append_assoc u m rest⟩, ?_, u, m, [], ?_, hm, hu, ?_⟩
    · intro heq
      apply hne
      apply List.append_right_eq_self.mp
      rw [List.append_assoc]
      exact heq.symm
    · rw [List.append_nil]
    · exact fun _ => rfl

theorem chars_source (p : Pattern) :
  p.source.toList = p.chars
  := String.toList_ofList

/-- Without wildcards the pattern is one literal text, and is matched as such. -/
theorem regexMatch_of_one (p : Pattern) {part : List Char} (h : p.parts = [part])
    (text : String) :
  regexMatch p.source text = true ↔ p.Matches text.toList
  := by
  have hcore : p.core = part := by rw [core, h, List.intercalate_singleton]
  have hnone : ¬ wildcard <:+: p.core := by
    rw [wildcard_infix_core_iff, h, List.length_singleton]
    decide
  have hlanguage (m : List Char) : m ∈ p.language ↔ m = part := by
    rw [language, h]
    rfl
  have hstart : decide (p.chars.head? = some '^') = p.anchoredStart :=
    Bool.eq_iff_iff.mpr (decide_eq_true_iff.trans p.head?_chars)
  have hend : decide (p.chars.getLast? = some '$') = p.anchoredEnd :=
    Bool.eq_iff_iff.mpr (decide_eq_true_iff.trans p.getLast?_chars)
  rw [regexMatch, chars_source, hstart, hend, trim_chars, if_neg hnone, hcore, Matches]
  simp only [hlanguage]
  cases p.anchoredStart with
  | true =>
      cases p.anchoredEnd with
      | true => simp
      | false =>
          have hpre : part <+: text.toList ↔ ∃ v, text.toList = part ++ v :=
            exists_congr fun v => eq_comm
          simp [hpre]
  | false =>
      cases p.anchoredEnd with
      | true =>
          have hsuf : part <:+ text.toList ↔ ∃ u, text.toList = u ++ part :=
            exists_congr fun u => eq_comm
          simp [hsuf]
      | false =>
          have hmid : part <:+: text.toList ↔ ∃ u v, text.toList = u ++ (part ++ v) :=
            exists_congr fun u => exists_congr fun v => by rw [eq_comm, List.append_assoc]
          simp [hmid]

theorem regexMatch_of_wildcard (p : Pattern) (h : 2 ≤ p.parts.length) (text : String) :
  regexMatch p.source text = true
    ↔ ∃ rest, matchParts p.anchoredStart 0 p.parts text.toList = some rest
      ∧ (p.anchoredEnd → rest = [])
  := by
  have hstart : decide (p.chars.head? = some '^') = p.anchoredStart :=
    Bool.eq_iff_iff.mpr (decide_eq_true_iff.trans p.head?_chars)
  have hend : decide (p.chars.getLast? = some '$') = p.anchoredEnd :=
    Bool.eq_iff_iff.mpr (decide_eq_true_iff.trans p.getLast?_chars)
  rw [regexMatch, chars_source, hstart, hend, trim_chars, if_pos (p.wildcard_infix_core_iff.mpr h),
    splitWildcard_core]
  cases matchParts p.anchoredStart 0 p.parts text.toList with
  | none => simp
  | some rest => cases p.anchoredEnd <;> simp

/-- What the matcher accepts matches. -/
theorem matches_of_regexMatch (p : Pattern) {text : String} (htext : '\n' ∉ text.toList)
    (h : regexMatch p.source text = true) :
  p.Matches text.toList
  := by
  by_cases hparts : 2 ≤ p.parts.length
  · obtain ⟨rest, hmatch, hend⟩ := (p.regexMatch_of_wildcard hparts text).mp h
    exact (p.matches_iff _).mpr ⟨rest, rests_of_matchParts htext hmatch, hend⟩
  · obtain ⟨part, hpart⟩ := List.length_eq_one_iff.mp
      (Nat.le_antisymm (Nat.le_of_lt_succ (Nat.lt_of_not_le hparts))
        (List.length_pos_iff.mpr p.nonempty))
    exact (p.regexMatch_of_one hpart text).mp h

/-- What matches is accepted, unless a text before the end matches already. -/
theorem regexMatch_of_matches (p : Pattern) {text : String} (htext : '\n' ∉ text.toList)
    (h : p.Matches text.toList) (hearly : ¬ p.EndsEarly text.toList) :
  regexMatch p.source text = true
  := by
  by_cases hparts : 2 ≤ p.parts.length
  · obtain ⟨rest, hrests, hend⟩ := (p.matches_iff _).mp h
    obtain ⟨r, hmatch, -⟩ := exists_matchParts htext hrests
    refine (p.regexMatch_of_wildcard hparts text).mpr ⟨r, hmatch, ?_⟩
    intro hanchored
    by_contra hne
    apply hearly
    refine ⟨hanchored, hparts, h, ?_⟩
    exact (p.exists_openEnd_matches_iff _).mpr ⟨r, rests_of_matchParts htext hmatch, hne⟩
  · obtain ⟨part, hpart⟩ := List.length_eq_one_iff.mp
      (Nat.le_antisymm (Nat.le_of_lt_succ (Nat.lt_of_not_le hparts))
        (List.length_pos_iff.mpr p.nonempty))
    exact (p.regexMatch_of_one hpart text).mpr h

/-- When a text before the end matches, the matcher stops there. -/
theorem not_regexMatch_of_endsEarly (p : Pattern) {text : String} (htext : '\n' ∉ text.toList)
    (h : p.EndsEarly text.toList) :
  regexMatch p.source text = false
  := by
  obtain ⟨hanchored, hparts, -, hpre⟩ := h
  obtain ⟨rest, hrests, hne⟩ := (p.exists_openEnd_matches_iff _).mp hpre
  obtain ⟨r, hmatch, hr⟩ := exists_matchParts htext hrests
  rw [← Bool.not_eq_true, p.regexMatch_of_wildcard hparts text]
  rintro ⟨r', hmatch', hnil⟩
  obtain rfl := Option.some.inj (hmatch.symm.trans hmatch')
  rw [hnil hanchored, List.suffix_nil] at hr
  exact hne hr

/-- The matcher decides whether a pattern matches a text without line ends exactly when the
pattern is not anchored at the end, or has no wildcard, or does not match, or no text before the
end matches the pattern without the anchor. -/
theorem regexMatch_iff (p : Pattern) (text : String) (htext : '\n' ∉ text.toList) :
  (regexMatch p.source text = true ↔ p.Matches text.toList) ↔ ¬ p.EndsEarly text.toList
  := by
  constructor
  · intro hiff hearly
    rw [p.not_regexMatch_of_endsEarly htext hearly] at hiff
    exact Bool.false_ne_true (hiff.mpr hearly.2.2.1)
  · intro hearly
    exact ⟨p.matches_of_regexMatch htext, fun h => p.regexMatch_of_matches htext h hearly⟩

/-- The pattern `^a.*b`. -/
def fromAToB : Pattern where
  anchoredStart := true
  parts := [['a'], ['b']]
  anchoredEnd := false
  nonempty := List.cons_ne_nil _ _
  literal := by
    intro part hpart
    rw [List.mem_pair] at hpart
    obtain rfl | rfl := hpart
    · exact ⟨by decide, by decide, by decide⟩
    · exact ⟨by decide, by decide, by decide⟩

/-- The pattern without an end is decided. -/
theorem regexMatch_fromAToB :
  regexMatch fromAToB.source "a to b." = true ↔ fromAToB.Matches "a to b.".toList
  := by
  apply (regexMatch_iff fromAToB "a to b." (by decide)).mpr
  intro hearly
  exact Bool.false_ne_true hearly.1

/-- The pattern `.*.rs$`. -/
def sourceFiles : Pattern where
  anchoredStart := false
  parts := [[], ['.', 'r', 's']]
  anchoredEnd := true
  nonempty := List.cons_ne_nil _ _
  literal := by
    intro part hpart
    rw [List.mem_pair] at hpart
    obtain rfl | rfl := hpart
    · exact ⟨by decide, by decide, by decide⟩
    · exact ⟨by decide, by decide, by decide⟩

/-- A name that has its ending twice is not found by the ending. -/
theorem not_regexMatch :
  ¬ ∀ (p : Pattern) (text : String), '\n' ∉ text.toList →
    (regexMatch p.source text = true ↔ p.Matches text.toList)
  := by
  intro h
  have hfalse : regexMatch sourceFiles.source "main.rs.rs" = false := by decide
  have hmatches : sourceFiles.Matches "main.rs.rs".toList := by
    refine ⟨[], "main.rs.rs".toList, [], rfl, ?_, fun _ => rfl, fun _ => rfl⟩
    have hgap : "main.rs".toList ∈ ({w | '\n' ∉ w} : Language Char) := by
      change '\n' ∉ "main.rs".toList
      decide
    exact Language.mem_mul.mpr ⟨"main.rs".toList, Language.mem_mul.mpr
      ⟨[], rfl, "main.rs".toList, hgap, rfl⟩, ['.', 'r', 's'], rfl, by decide⟩
  rw [(h sourceFiles "main.rs.rs" (by decide)).mpr hmatches] at hfalse
  exact Bool.noConfusion hfalse

end Pattern

end Vexfs
