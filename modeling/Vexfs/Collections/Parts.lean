import Mathlib.Computability.Language

/-!
# Parts of a text

The parts of a list of texts come one after the other in a text when each comes in what
follows the one before it.  Taking the first occurrence of every part finds them whenever they
come so, and leaves the longest rest of the text.
-/

namespace Parts

variable {α : Type*}

/-! ### Occurrences -/

/-- The parts come one after the other, and the rest follows the last of them. -/
def Leaves : List (List α) → List α → List α → Prop
  | [], text, rest => text = rest
  | part :: parts, text, rest => ∃ u text', text = u ++ (part ++ text') ∧ Leaves parts text' rest

theorem Leaves.suffix {parts : List (List α)} {text rest : List α} (h : Leaves parts text rest) :
  rest <:+ text
  := by
  induction parts generalizing text with
  | nil =>
      obtain rfl : text = rest := h
      exact List.suffix_refl _
  | cons part parts ih =>
      obtain ⟨u, text', rfl, h'⟩ := h
      rw [← List.append_assoc]
      exact (ih h').trans (List.suffix_append _ _)

/-- A text that is followed by another one leaves more. -/
theorem Leaves.append {parts : List (List α)} {text rest : List α} (h : Leaves parts text rest)
    (tail : List α) :
  Leaves parts (text ++ tail) (rest ++ tail)
  := by
  induction parts generalizing text with
  | nil =>
      obtain rfl : text = rest := h
      rfl
  | cons part parts ih =>
      obtain ⟨u, text', rfl, h'⟩ := h
      refine ⟨u, text' ++ tail, ?_, ih h'⟩
      rw [List.append_assoc, List.append_assoc]

/-- What comes behind the parts may be left out of the text. -/
theorem Leaves.of_append {parts : List (List α)} {text rest tail : List α}
    (h : Leaves parts text (rest ++ tail)) :
  ∃ text', text = text' ++ tail ∧ Leaves parts text' rest
  := by
  induction parts generalizing text with
  | nil => exact ⟨rest, h, rfl⟩
  | cons part parts ih =>
      obtain ⟨u, text', rfl, h'⟩ := h
      obtain ⟨text'', rfl, h''⟩ := ih h'
      refine ⟨u ++ (part ++ text''), ?_, u, text'', rfl, h''⟩
      rw [List.append_assoc, List.append_assoc]

/-! ### First occurrences -/

section First

variable [DecidableEq α]

/-- What follows the first occurrence of a part. -/
def after (part : List α) : List α → Option (List α)
  | [] => if part = [] then some [] else none
  | c :: cs => if part <+: c :: cs then some ((c :: cs).drop part.length) else after part cs

/-- What follows the parts, when the first occurrence of every part is taken. -/
def scan : List (List α) → List α → Option (List α)
  | [], text => some text
  | part :: parts, text => (after part text).bind (scan parts)

/-- The empty part comes at once. -/
theorem after_nil (text : List α) :
  after [] text = some text
  := by
  cases text with
  | nil => exact if_pos rfl
  | cons c cs => exact if_pos List.nil_prefix

/-- Where the first element of a part does not come, the part does not begin. -/
theorem after_append_of_notMem {c : α} {part u : List α} (h : c ∉ u) (text : List α) :
  after (c :: part) (u ++ text) = after (c :: part) text
  := by
  induction u with
  | nil => rfl
  | cons d u ih =>
      obtain ⟨hne, hu⟩ := not_or.mp (mt List.mem_cons.mpr h)
      rw [List.cons_append, after, if_neg, ih hu]
      intro hpre
      exact hne (List.cons_prefix_cons.mp hpre).1

/-- A part at the beginning is found there. -/
theorem after_append (part text : List α) :
  after part (part ++ text) = some text
  := by
  cases hpart : part ++ text with
  | nil =>
      obtain ⟨rfl, rfl⟩ := List.append_eq_nil_iff.mp hpart
      exact if_pos rfl
  | cons c cs => rw [after, ← hpart, if_pos (List.prefix_append _ _), List.drop_left]

theorem exists_of_after {part text rest : List α} (h : after part text = some rest) :
  ∃ u, text = u ++ (part ++ rest)
  := by
  induction text with
  | nil =>
      rw [after] at h
      split at h
      · next hnil =>
        obtain rfl := Option.some.inj h
        exact ⟨[], by rw [hnil]; rfl⟩
      · cases h
  | cons c cs ih =>
      rw [after] at h
      split at h
      · next hpre =>
        obtain ⟨t, ht⟩ := hpre
        rw [← ht, List.drop_left] at h
        obtain rfl := Option.some.inj h
        exact ⟨[], ht.symm⟩
      · obtain ⟨u, rfl⟩ := ih h
        exact ⟨c :: u, rfl⟩

/-- The first occurrence leaves more than another one. -/
theorem exists_after (u part rest : List α) :
  ∃ r, after part (u ++ (part ++ rest)) = some r ∧ rest <:+ r
  := by
  induction u with
  | nil =>
      rw [List.nil_append]
      cases htext : part ++ rest with
      | nil =>
          obtain ⟨rfl, rfl⟩ := List.append_eq_nil_iff.mp htext
          exact ⟨[], if_pos rfl, List.suffix_refl _⟩
      | cons c cs =>
          refine ⟨rest, ?_, List.suffix_refl _⟩
          rw [after, ← htext, if_pos (List.prefix_append _ _), List.drop_left]
  | cons c u ih =>
      rw [List.cons_append, after]
      split
      · next hpre =>
        obtain ⟨t, ht⟩ := hpre
        refine ⟨t, by rw [← ht, List.drop_left], ?_⟩
        have hrest : rest <:+ part ++ t := by
          rw [ht, ← List.cons_append, ← List.append_assoc]
          exact List.suffix_append _ _
        apply List.suffix_of_suffix_length_le hrest (List.suffix_append _ _)
        have hlength := congrArg List.length ht
        simp only [List.length_append, List.length_cons] at hlength
        omega
      · exact ih

/-! #### Quoted parts -/

/-- A text between quotes. -/
def quoted (quote : α) (text : List α) : List α := quote :: (text ++ [quote])

omit [DecidableEq α] in
/-- Two texts without quotes that a text begins with, up to a quote, are the same. -/
theorem eq_of_prefix_quote {quote : α} {key k tail rest : List α} (hkey : quote ∉ key)
    (hk : quote ∉ k) (h : key ++ quote :: tail <+: k ++ quote :: rest) :
  key = k ∧ tail <+: rest
  := by
  induction key generalizing k with
  | nil =>
      cases k with
      | nil => exact ⟨rfl, (List.cons_prefix_cons.mp h).2⟩
      | cons c k =>
          obtain rfl := (List.cons_prefix_cons.mp h).1
          exact absurd List.mem_cons_self hk
  | cons c key ih =>
      obtain ⟨hc, hkey⟩ := not_or.mp (mt List.mem_cons.mpr hkey)
      cases k with
      | nil => exact absurd (List.cons_prefix_cons.mp h).1.symm hc
      | cons d k =>
          have hk' : quote ∉ k := fun hmem => hk (List.mem_cons_of_mem d hmem)
          obtain ⟨hcd, hrest⟩ := List.cons_prefix_cons.mp h
          obtain ⟨hkeys, htail⟩ := ih hkey hk' hrest
          exact ⟨List.cons_eq_cons.mpr ⟨hcd, hkeys⟩, htail⟩

/-- A text without quotes is passed over. -/
theorem after_unquoted {quote : α} {u : List α} (h : quote ∉ u) (key tail text : List α) :
  after (quoted quote key ++ tail) (u ++ text) = after (quoted quote key ++ tail) text
  := after_append_of_notMem h text

/-- A quoted text is passed over when it is not the part that is looked for, and that part does
not begin where the quotes end. -/
theorem after_quoted {quote : α} {key tail k rest : List α} (hkey : quote ∉ key)
    (hk : quote ∉ k) (hne : ¬ (key = k ∧ tail <+: rest)) (hhead : key.head? ≠ rest.head?)
    (hnil : key ≠ []) :
  after (quoted quote key ++ tail) (quoted quote k ++ rest)
    = after (quoted quote key ++ tail) rest
  := by
  have hpart : quoted quote key ++ tail = quote :: (key ++ quote :: tail) := by
    rw [quoted, List.cons_append, List.append_assoc, List.singleton_append]
  have htext : quoted quote k ++ rest = quote :: (k ++ quote :: rest) := by
    rw [quoted, List.cons_append, List.append_assoc, List.singleton_append]
  have hopen : ¬ quote :: (key ++ quote :: tail) <+: quote :: (k ++ quote :: rest) := by
    intro h
    exact hne (eq_of_prefix_quote hkey hk (List.cons_prefix_cons.mp h).2)
  have hclose : ¬ quote :: (key ++ quote :: tail) <+: quote :: rest := by
    intro h
    obtain ⟨c, key, rfl⟩ := List.exists_cons_of_ne_nil hnil
    cases rest with
    | nil => exact absurd (List.cons_prefix_cons.mp h).2 (by simp)
    | cons d rest =>
        have hc := (List.cons_prefix_cons.mp (List.cons_prefix_cons.mp h).2).1
        exact hhead (congrArg some hc)
  rw [hpart, htext, after, if_neg hopen, after_append_of_notMem hk, after, if_neg hclose]

theorem leaves_of_scan {parts : List (List α)} {text rest : List α}
    (h : scan parts text = some rest) :
  Leaves parts text rest
  := by
  induction parts generalizing text with
  | nil => exact Option.some.inj h
  | cons part parts ih =>
      obtain ⟨text', hafter, h'⟩ := Option.bind_eq_some_iff.mp h
      obtain ⟨u, rfl⟩ := exists_of_after hafter
      exact ⟨u, text', rfl, ih h'⟩

/-- Parts that come in the end of a text are found in the whole text. -/
theorem exists_scan_append {parts : List (List α)} {text rest : List α}
    (h : Leaves parts text rest) (w : List α) :
  ∃ r, scan parts (w ++ text) = some r ∧ rest <:+ r
  := by
  induction parts generalizing text w with
  | nil =>
      obtain rfl : text = rest := h
      exact ⟨w ++ text, rfl, List.suffix_append _ _⟩
  | cons part parts ih =>
      obtain ⟨u, text', rfl, h'⟩ := h
      obtain ⟨r', hafter, w', rfl⟩ := exists_after (w ++ u) part text'
      obtain ⟨r, hscan, hr⟩ := ih h' w'
      refine ⟨r, ?_, hr⟩
      rw [scan, ← List.append_assoc, hafter]
      exact hscan

/-- The parts are found when they come one after the other, and what is left then is the
longest rest. -/
theorem exists_scan {parts : List (List α)} {text rest : List α} (h : Leaves parts text rest) :
  ∃ r, scan parts text = some r ∧ rest <:+ r
  := exists_scan_append h []

/-! #### Splitting at a part -/

/-- What comes before the first occurrence of a part, and what follows it, if there is one. -/
def splitOnce (part : List α) : List α → List α × Option (List α)
  | [] => if part = [] then ([], some []) else ([], none)
  | c :: cs =>
      if part <+: c :: cs then ([], some ((c :: cs).drop part.length))
      else (c :: (splitOnce part cs).1, (splitOnce part cs).2)

/-- A text is split where a part follows it, unless the part begins in the text. -/
theorem splitOnce_append {u part : List α} (hne : part ≠ []) (h : ¬ part <:+: u ++ part.dropLast)
    (rest : List α) :
  splitOnce part (u ++ (part ++ rest)) = (u, some rest)
  := by
  induction u with
  | nil =>
      obtain ⟨c, cs, rfl⟩ := List.exists_cons_of_ne_nil hne
      have hprefix : c :: cs <+: c :: (cs ++ rest) := List.prefix_append (c :: cs) rest
      rw [List.nil_append, List.cons_append, splitOnce, if_pos hprefix, ← List.cons_append,
        List.drop_left]
  | cons c u ih =>
      have hnot : ¬ part <+: c :: (u ++ (part ++ rest)) := by
        intro hprefix
        have hsplit : c :: (u ++ (part ++ rest))
            = (c :: u ++ part.dropLast) ++ (part.getLast hne :: rest) := by
          conv_lhs => rw [← List.dropLast_append_getLast hne]
          simp
        have hlen : part.length ≤ (c :: u ++ part.dropLast).length := by
          have hpos := List.length_pos_iff.mpr hne
          simp only [List.length_append, List.length_cons, List.length_dropLast]
          omega
        rw [hsplit] at hprefix
        exact h (List.prefix_of_prefix_length_le hprefix (List.prefix_append _ _) hlen).isInfix
      have hrest : ¬ part <:+: u ++ part.dropLast := by
        intro hpart
        exact h (hpart.trans (List.suffix_cons c _).isInfix)
      rw [List.cons_append, splitOnce, if_neg hnot, ih hrest]

end First

/-! ### Languages -/

/-- The texts that begin with the first part and end with the last one, and have texts of
`gap` between the parts. -/
def language (gap : Language α) : List (List α) → Language α
  | [] => 1
  | [part] => {part}
  | part :: part' :: parts => {part} * gap * language gap (part' :: parts)

/-- A text begins with a text of the language when it begins with the first part, and the
others follow. -/
theorem exists_mem_language_iff {gap : Language α} {part text rest : List α}
    {parts : List (List α)} (hgap : ∀ w, w <:+: text → w ∈ gap) :
  (∃ m ∈ language gap (part :: parts), text = m ++ rest)
    ↔ ∃ text', text = part ++ text' ∧ Leaves parts text' rest
  := by
  induction parts generalizing part text with
  | nil =>
      constructor
      · rintro ⟨m, hm, rfl⟩
        obtain rfl : m = part := hm
        exact ⟨rest, rfl, rfl⟩
      · rintro ⟨text', rfl, rfl⟩
        exact ⟨part, rfl, rfl⟩
  | cons part' parts ih =>
      constructor
      · rintro ⟨m, hm, rfl⟩
        obtain ⟨pg, hpg, m', hm', rfl⟩ := Language.mem_mul.mp hm
        obtain ⟨p, hp, g, -, rfl⟩ := Language.mem_mul.mp hpg
        obtain rfl : p = part := hp
        have hgap' (w : List α) (hw : w <:+: m' ++ rest) : w ∈ gap := by
          apply hgap w (hw.trans _)
          rw [List.append_assoc]
          exact (List.suffix_append _ _).isInfix
        obtain ⟨text', htext', h'⟩ := (ih hgap').mp ⟨m', hm', rfl⟩
        refine ⟨g ++ (m' ++ rest), by simp only [List.append_assoc], g, text', ?_, h'⟩
        rw [htext']
      · rintro ⟨text', rfl, g, text'', rfl, h'⟩
        have hgap' (w : List α) (hw : w <:+: part' ++ text'') : w ∈ gap := by
          apply hgap w (hw.trans _)
          rw [← List.append_assoc]
          exact (List.suffix_append _ _).isInfix
        obtain ⟨m', hm', htext'⟩ := (ih hgap').mpr ⟨text'', rfl, h'⟩
        have hg : g ∈ gap := by
          apply hgap
          exact ⟨part, part' ++ text'', by rw [List.append_assoc]⟩
        refine ⟨part ++ g ++ m', ?_, ?_⟩
        · exact Language.append_mem_mul (Language.append_mem_mul rfl hg) hm'
        · rw [htext']
          simp only [List.append_assoc]

end Parts
