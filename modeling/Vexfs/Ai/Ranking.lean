import Mathlib.Analysis.SpecialFunctions.Log.Basic
import Vexfs.Ai.Search

/-!
# Searching

A file is found by a query when its score is positive.  A term that comes in the file adds its
frequency times the logarithm of the number of files over the number of files that it is
counted for, and a term that is a part of the name adds 0.3.  So a term that is counted as
often as there are files adds nothing, and a file all of whose terms are such is not found
although it has them (`finds_iff`).
-/

namespace Vexfs

/-- The natural logarithm. -/
class Ln (R : Type) where
  ln : R → R

noncomputable instance lnReal : Ln ℝ where
  ln := Real.log

namespace SearchIndex

/-! ### Scores -/

section Scores

variable {R : Type} [Field R] [LinearOrder R] [Ln R]

/-- How much a word tells that is counted for `df` of the files.  The least value is 0. -/
def idf (nDocs df : ℕ) : R := max (Ln.ln ((nDocs : R) / df)) 0

variable [Letters]

/-- Whether a term is a part of a name. -/
def InName (term name : String) : Prop := term.toList <:+: (Unicode.toLowercase name).toList

instance (term name : String) : Decidable (InName term name) :=
  inferInstanceAs (Decidable (_ <:+: _))

/-- Add what a term is worth in a file, and the term if it matches. -/
def scoreTerm (s : SearchIndex R) (file : IndexedFile R) (acc : R × List String)
    (term : String) : R × List String :=
  let nDocs := max s.files.len 1
  let tf := (file.wordFreq.get term).getD 0
  let acc := if 0 < tf then
      (acc.1 + tf * idf nDocs ((s.docFreq.get term).getD 1), acc.2 ++ [term])
    else acc
  if InName term file.name then
    (acc.1 + 3 / 10, if acc.2.contains term then acc.2 else acc.2 ++ [term])
  else acc

/-- The result for a file, if its score is positive. -/
def result (s : SearchIndex R) (terms : List String) (file : IndexedFile R) :
    Option (SearchResult R) :=
  let acc := terms.foldl (s.scoreTerm file) (0, [])
  if 0 < acc.1 then some ⟨file.ino, file.name, acc.1, acc.2⟩ else none

theorem ino_of_result {s : SearchIndex R} {terms : List String} {file : IndexedFile R}
    {r : SearchResult R} (h : s.result terms file = some r) :
  r.ino = file.ino
  := by
  rw [result] at h
  split at h
  · rw [← Option.some.inj h]
  · cases h

/-- The results for a query, best first.  The files are gone through in the given order. -/
def search (s : SearchIndex R) (order : Arrangement UInt64) (query : String) :
    List (SearchResult R) :=
  let terms := terms (Unicode.toLowercase query)
  if terms = [] then []
  else
    (((s.files.iter order).map Prod.snd).filterMap (s.result terms)).mergeSort
      fun a b => b.score ≤ a.score

/-- What a term is worth in a file. -/
def worth (s : SearchIndex R) (file : IndexedFile R) (term : String) : R :=
  (if 0 < file.wordFreq.tally term then
      file.wordFreq.tally term * idf (max s.files.len 1) ((s.docFreq.get term).getD 1)
    else 0)
  + if InName term file.name then 3 / 10 else 0

theorem fst_scoreTerm (s : SearchIndex R) (file : IndexedFile R) (acc : R × List String)
    (term : String) :
  (s.scoreTerm file acc term).1 = acc.1 + s.worth file term
  := by
  rw [scoreTerm, worth, FiniteMap.tally]
  split <;> split <;> simp [add_assoc]

theorem fst_foldl_scoreTerm (s : SearchIndex R) (file : IndexedFile R) (terms : List String)
    (acc : R × List String) :
  (terms.foldl (s.scoreTerm file) acc).1 = acc.1 + (terms.map (s.worth file)).sum
  := by
  induction terms generalizing acc with
  | nil => exact (add_zero _).symm
  | cons term terms ih =>
      rw [List.foldl_cons, ih, fst_scoreTerm, List.map_cons, List.sum_cons, add_assoc]

/-- Results come with scores that do not increase. -/
theorem pairwise_search (s : SearchIndex R) (order : Arrangement UInt64) (query : String) :
  (s.search order query).Pairwise fun a b => b.score ≤ a.score
  := by
  rw [search]
  split
  · exact List.Pairwise.nil
  · apply SortedMap.pairwise_mergeSort fun r : SearchResult R => OrderDual.toDual r.score
    exact fun a b => decide_eq_true_iff

theorem mem_search {s : SearchIndex R} {order : Arrangement UInt64} {query : String}
    {r : SearchResult R} :
  r ∈ s.search order query ↔ terms (Unicode.toLowercase query) ≠ []
    ∧ ∃ ino file, s.files.get ino = some file
      ∧ s.result (terms (Unicode.toLowercase query)) file = some r
  := by
  rw [search]
  split
  · next hnil => simp [hnil]
  · next hne =>
    rw [List.mem_mergeSort, List.mem_filterMap]
    simp only [List.mem_map, Prod.exists, FiniteMap.mem_iter]
    constructor
    · rintro ⟨file, ⟨ino, _, hget, rfl⟩, hr⟩
      exact ⟨hne, ino, _, hget, hr⟩
    · rintro ⟨-, ino, file, hget, hr⟩
      exact ⟨file, ⟨ino, file, hget, rfl⟩, hr⟩

end Scores

/-! ### Real scores -/

/-- A sum of values that are not negative is positive when one of them is. -/
theorem sum_map_pos_iff {α : Type} {f : α → ℝ} {l : List α} (h : ∀ a ∈ l, 0 ≤ f a) :
  0 < (l.map f).sum ↔ ∃ a ∈ l, 0 < f a
  := by
  induction l with
  | nil => simp
  | cons a l ih =>
      rw [List.forall_mem_cons] at h
      have hsum : 0 ≤ (l.map f).sum := List.sum_nonneg fun x hx => by
        obtain ⟨b, hb, rfl⟩ := List.mem_map.mp hx
        exact h.2 b hb
      rw [List.map_cons, List.sum_cons, List.exists_mem_cons_iff, ← ih h.2]
      constructor
      · intro hpos
        by_contra hnone
        rw [not_or, not_lt, not_lt] at hnone
        linarith
      · rintro (ha | hl)
        · linarith
        · linarith [h.1]

/-- A word tells something when it is counted for less files than there are. -/
theorem idf_pos_iff {nDocs df : ℕ} (h : 0 < df) :
  0 < (idf nDocs df : ℝ) ↔ df < nDocs
  := by
  have hdf : (0 : ℝ) < df := Nat.cast_pos.mpr h
  have hle : (0 : ℝ) ≤ nDocs / df := by positivity
  rw [idf, lt_max_iff, or_iff_left (lt_irrefl _)]
  change 0 < Real.log _ ↔ _
  rw [Real.log_pos_iff hle, one_lt_div hdf, Nat.cast_lt]

theorem worth_nonneg [Letters] (s : SearchIndex ℝ) (file : IndexedFile ℝ) (term : String) :
  0 ≤ s.worth file term
  := by
  apply add_nonneg
  · split
    · next htf => exact mul_nonneg htf.le (le_max_right _ _)
    · exact le_refl _
  · split
    · positivity
    · exact le_refl _

theorem worth_pos_iff [Letters] {s : SearchIndex ℝ} {file : IndexedFile ℝ} {term : String}
    (h : 0 < file.wordFreq.tally term → 0 < (s.docFreq.get term).getD 1) :
  0 < s.worth file term ↔ 0 < file.wordFreq.tally term
      ∧ (s.docFreq.get term).getD 1 < max s.files.len 1
    ∨ InName term file.name
  := by
  have hname (x : ℝ) (hx : 0 ≤ x) : 0 < x + (if InName term file.name then 3 / 10 else 0)
      ↔ 0 < x ∨ InName term file.name := by
    split
    · next hin =>
      simp only [hin, or_true, iff_true]
      positivity
    · next hnot => simp [hnot]
  rw [worth]
  split
  · next htf =>
    have hidf : 0 ≤ (idf (max s.files.len 1) ((s.docFreq.get term).getD 1) : ℝ) :=
      le_max_right _ _
    rw [hname _ (mul_nonneg htf.le hidf), mul_pos_iff_of_pos_left htf, idf_pos_iff (h htf)]
    simp only [htf, true_and]
  · next htf =>
    rw [hname _ (le_refl 0)]
    simp [htf]

/-- A file has a result when one of the terms is worth something in it. -/
theorem isSome_result_iff [Letters] {s : SearchIndex ℝ} {terms : List String}
    {file : IndexedFile ℝ} :
  (s.result terms file).isSome ↔ ∃ t ∈ terms, 0 < s.worth file t
  := by
  have hscore := s.fst_foldl_scoreTerm file terms (0, [])
  rw [zero_add] at hscore
  rw [← sum_map_pos_iff fun t _ => s.worth_nonneg file t, ← hscore, result]
  split
  · next hpos => simp [hpos]
  · next hzero => simp [hzero]

/-! ### Indexes that are built once -/

section Built

variable [Letters]

/-- The words of a file are those that come in its content or its name. -/
theorem tally_file_pos_iff (d : Document) (w : String) :
  0 < (d.file : IndexedFile ℝ).wordFreq.tally w ↔ d.HasWord w
  := by
  rw [Document.file, Document.HasWord]
  dsimp only
  split
  · next hzero =>
    rw [FiniteMap.tally_foldl_bump, FiniteMap.tally_empty, zero_add, nsmul_one, Nat.cast_pos,
      List.count_pos_iff, List.eq_nil_of_length_eq_zero hzero]
    simp
  · next hne =>
    have hlength : (0 : ℝ) < (contentWords d.content).length :=
      Nat.cast_pos.mpr (Nat.pos_of_ne_zero hne)
    rw [FiniteMap.tally_foldl_bump, FiniteMap.tally_map _ (zero_div _),
      FiniteMap.tally_foldl_bump, FiniteMap.tally_empty, zero_add, nsmul_one, nsmul_eq_mul,
      ← List.count_pos_iff, ← List.count_pos_iff]
    have hcontent : (0 : ℝ) ≤ (contentWords d.content).count w
        / (contentWords d.content).length := by positivity
    have hname : (0 : ℝ) ≤ (nameWords d.name).count w * (1 / 2) := by positivity
    constructor
    · intro hpos
      by_contra hnone
      rw [not_or, Nat.pos_iff_ne_zero, Nat.pos_iff_ne_zero, not_not, not_not] at hnone
      rw [hnone.1, hnone.2, Nat.cast_zero, zero_div, zero_mul, add_zero] at hpos
      exact lt_irrefl _ hpos
    · rintro (hpos | hpos)
      · exact add_pos_of_pos_of_nonneg (div_pos (Nat.cast_pos.mpr hpos) hlength) hname
      · apply add_pos_of_nonneg_of_pos hcontent
        exact mul_pos (Nat.cast_pos.mpr hpos) one_half_pos

/-- A word that comes in a document is counted for it. -/
theorem counted_pos {docs : List Document} {d : Document} (hd : d ∈ docs) {w : String}
    (h : d.HasWord w) :
  0 < counted docs w
  := by
  have hle : d.counted w ≤ counted docs w :=
    List.single_le_sum (fun n _ => Nat.zero_le n) _ (List.mem_map_of_mem hd)
  apply lt_of_lt_of_le _ hle
  rw [Document.counted]
  obtain hcontent | hname := h
  · rw [if_pos hcontent]
    exact Nat.add_pos_left Nat.one_pos _
  · exact Nat.add_pos_right _ (List.count_pos_iff.mpr hname)

/-- Whether one of the terms tells a document from the others: it comes in it and is counted
less often than there are documents, or it is a part of the name. -/
def Tells (docs : List Document) (terms : List String) (d : Document) : Prop :=
  ∃ t ∈ terms, d.HasWord t ∧ counted docs t < docs.length ∨ InName t d.name

instance (docs : List Document) (terms : List String) (d : Document) :
    Decidable (Tells docs terms d) :=
  inferInstanceAs (Decidable (∃ t ∈ terms, _ ∨ _))

/-- A document is found exactly when a term tells it from the others. -/
theorem mem_search_build_iff {docs : List Document} (h : (docs.map Document.ino).Nodup)
    (order : Arrangement UInt64) (query : String) {d : Document} (hd : d ∈ docs) :
  (∃ r ∈ (build docs : SearchIndex ℝ).search order query, r.ino = d.ino)
    ↔ Tells docs (terms (Unicode.toLowercase query)) d
  := by
  have hbuilt : Built (build docs : SearchIndex ℝ) docs := built_build h
  have hworth (t : String) : 0 < (build docs : SearchIndex ℝ).worth d.file t
      ↔ d.HasWord t ∧ counted docs t < docs.length ∨ InName t d.name := by
    have hdf (hword : d.HasWord t) :
        ((build docs : SearchIndex ℝ).docFreq.get t).getD 1 = counted docs t := by
      have hpos := counted_pos hd hword
      rw [← hbuilt.counts, FiniteMap.tally] at hpos ⊢
      cases hget : (build docs : SearchIndex ℝ).docFreq.get t with
      | none =>
          rw [hget] at hpos
          exact absurd hpos (lt_irrefl 0)
      | some n => rfl
    have hlength : max docs.length 1 = docs.length :=
      Nat.max_eq_left (List.length_pos_of_mem hd)
    rw [worth_pos_iff, tally_file_pos_iff, hbuilt.len, hlength]
    · apply or_congr_left
      apply and_congr_right
      intro hword
      rw [hdf hword]
    · intro htf
      have hword := (tally_file_pos_iff d t).mp htf
      rw [hdf hword]
      exact counted_pos hd hword
  have htells : ((build docs : SearchIndex ℝ).result (terms (Unicode.toLowercase query))
      d.file).isSome ↔ Tells docs (terms (Unicode.toLowercase query)) d := by
    rw [isSome_result_iff, Tells]
    exact exists_congr fun t => and_congr_right fun _ => hworth t
  rw [← htells]
  constructor
  · rintro ⟨r, hr, hino⟩
    obtain ⟨-, ino, file, hget, hresult⟩ := mem_search.mp hr
    obtain ⟨d', hd', -, rfl⟩ := (hbuilt.files ino file).mp hget
    have heq : d'.ino = d.ino := (ino_of_result hresult).symm.trans hino
    rw [← List.inj_on_of_nodup_map h hd' hd heq, hresult]
    rfl
  · intro hsome
    obtain ⟨r, hr⟩ := Option.isSome_iff_exists.mp hsome
    refine ⟨r, mem_search.mpr ⟨?_, d.ino, d.file, ?_, hr⟩, ino_of_result hr⟩
    · intro hnil
      obtain ⟨t, ht, -⟩ := htells.mp hsome
      rw [hnil] at ht
      cases ht
    · exact (hbuilt.files d.ino d.file).mpr ⟨d, hd, rfl, rfl⟩

/-- When different inodes are indexed once each, a query finds every file whose content has one
of its terms of more than two characters, with scores that do not increase, exactly when each
of these files is told from the others by a term of the query. -/
theorem finds_iff {docs : List Document} (h : (docs.map Document.ino).Nodup)
    (order : Arrangement UInt64) (query : String) :
  ((∀ t ∈ terms (Unicode.toLowercase query), 2 < t.length →
      ∀ d ∈ docs, t ∈ contentWords d.content →
        ∃ r ∈ (build docs : SearchIndex ℝ).search order query, r.ino = d.ino)
    ∧ ((build docs : SearchIndex ℝ).search order query).Pairwise fun a b => b.score ≤ a.score)
  ↔ ∀ t ∈ terms (Unicode.toLowercase query), 2 < t.length →
      ∀ d ∈ docs, t ∈ contentWords d.content → Tells docs (terms (Unicode.toLowercase query)) d
  := by
  rw [and_iff_left (pairwise_search _ order query)]
  constructor
  · intro hfinds t ht hlength d hd hword
    exact (mem_search_build_iff h order query hd).mp (hfinds t ht hlength d hd hword)
  · intro htells t ht hlength d hd hword
    exact (mem_search_build_iff h order query hd).mpr (htells t ht hlength d hd hword)

end Built

/-- A file with the words "login" and "token". -/
def loginFile : Document := ⟨2, "a.rs", [108, 111, 103, 105, 110, 32, 116, 111, 107, 101, 110], 0⟩

/-- A file with the word "select". -/
def selectFile : Document := ⟨3, "b.rs", [115, 101, 108, 101, 99, 116], 0⟩

/-- A word of one of two files is found. -/
theorem finds_two_files :
  let _ := Letters.ascii
  (∀ t ∈ terms (Unicode.toLowercase "Login"), 2 < t.length →
      ∀ d ∈ [loginFile, selectFile], t ∈ contentWords d.content →
        ∃ r ∈ (build [loginFile, selectFile] : SearchIndex ℝ).search .id "Login", r.ino = d.ino)
    ∧ ((build [loginFile, selectFile] : SearchIndex ℝ).search .id "Login").Pairwise
      fun a b => b.score ≤ a.score
  := by
  intro _
  have hterms : terms (Unicode.toLowercase "Login") = ["login"] := by decide
  have htells : Tells [loginFile, selectFile] ["login"] loginFile := by decide
  have hselect : "login" ∉ contentWords selectFile.content := by decide
  apply (finds_iff (by decide) .id "Login").mpr
  rw [hterms]
  intro t ht _ d hd hword
  obtain rfl := List.mem_singleton.mp ht
  rw [List.mem_pair] at hd
  obtain rfl | rfl := hd
  · exact htells
  · exact absurd hword hselect

/-- A word of the only file is not found. -/
theorem not_finds :
  let _ := Letters.ascii
  ¬ ∀ (docs : List Document), (docs.map Document.ino).Nodup →
    ∀ (order : Arrangement UInt64) (query : String),
      (∀ t ∈ terms (Unicode.toLowercase query), 2 < t.length →
        ∀ d ∈ docs, t ∈ contentWords d.content →
          ∃ r ∈ (build docs : SearchIndex ℝ).search order query, r.ino = d.ino)
      ∧ ((build docs : SearchIndex ℝ).search order query).Pairwise fun a b => b.score ≤ a.score
  := by
  intro _ h
  have hnodup : ([loginFile].map Document.ino).Nodup := by decide
  have hfound := (h [loginFile] hnodup .id "login").1 "login" (by decide) (by decide) loginFile
    (List.mem_singleton_self _) (by decide)
  have htells := (mem_search_build_iff hnodup .id "login" (List.mem_singleton_self _)).mp hfound
  revert htells
  decide

end SearchIndex

end Vexfs
