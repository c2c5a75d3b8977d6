import Vexfs.Bytes.Utf8
import Vexfs.Collections.Keys
import Vexfs.Collections.Tally
import Vexfs.Fs.Tag

/-!
# The search index

The index knows, for each file, how often each word comes in it, and for each word in how many
files it comes.  The words of a file are those of its content and of its name, and the two are
counted one after the other.  So a word that comes in both, or twice in the name, counts twice,
and a file whose new content has no words leaves its old words counted.  The counts of a run
are exact exactly when none of this happens (`exact_run_iff`).
-/

namespace Vexfs

/-! ### Words -/

/-- What the standard library does with the tables of Unicode, for words. -/
class Letters extends Unicode where
  isAlphanumeric : Char → Bool

/-- The functions for texts of ASCII characters. -/
@[reducible]
def Letters.ascii : Letters where
  fromUtf8Lossy := Bytes.fromUtf8Lossy
  toLowercase s := String.ofList (s.toList.map Char.toLower)
  isAlphanumeric := Char.isAlphanum

/-- A file that is indexed.  The frequencies of its words are numbers of `R`. -/
structure IndexedFile (R : Type) where
  ino : UInt64
  name : String
  wordFreq : FiniteMap String R
  totalWords : ℕ
  lastModified : UInt64

/-- The files by inode, and in how many files each word comes. -/
structure SearchIndex (R : Type) where
  files : FiniteMap UInt64 (IndexedFile R)
  docFreq : FiniteMap String ℕ

structure SearchResult (R : Type) where
  ino : UInt64
  name : String
  score : R
  matchedTerms : List String

namespace SearchIndex

/-- Words that do not help a search. -/
def isStopword (word : String) : Bool :=
  ["the", "and", "for", "are", "but", "not", "you", "all", "can", "had", "her", "was", "one",
    "our", "out", "day", "get", "has", "him", "his", "how", "its", "may", "new", "now", "old",
    "see", "two", "who", "boy", "did", "she", "use", "way", "will"].contains word

section Words

variable [Letters]

/-- The pieces of a text between the characters that are no letters or digits. -/
def pieces (text : String) : List String :=
  (text.toList.splitOnP fun c => !Letters.isAlphanumeric c).map String.ofList

/-- The words of a text in lower case. -/
def terms (text : String) : List String :=
  ((pieces text).filter fun w => 2 < w.utf8ByteSize).filter fun w => !isStopword w

/-- The words of a content. -/
def contentWords (content : List UInt8) : List String :=
  terms (Unicode.toLowercase (Unicode.fromUtf8Lossy content))

/-- The words of a name. -/
def nameWords (name : String) : List String :=
  ((pieces name).filter fun w => 1 < w.utf8ByteSize).map Unicode.toLowercase

end Words

/-! ### Indexing -/

variable {R : Type}

def new : SearchIndex R := ⟨.empty, .empty⟩

/-- The words of the file that an inode has, if it has one.  They come in the order of a list,
but what is done with them is the same in every order. -/
def oldWords (s : SearchIndex R) (ino : UInt64) : List String :=
  ((s.files.get ino).map fun old => old.wordFreq.keys).getD []

section Indexing

variable [Field R] [Letters]

/-- Index a file by the words of its name alone. -/
def indexByName (s : SearchIndex R) (ino : UInt64) (name : String) (lastModified : UInt64) :
    SearchIndex R :=
  let words := nameWords name
  { files := s.files.insert ino
      { ino, name, wordFreq := words.foldl (.bump 1) .empty, totalWords := words.length,
        lastModified }
    docFreq := words.foldl (.bump 1) s.docFreq }

/-- Index a file by the words of its content and its name. -/
def index (s : SearchIndex R) (ino : UInt64) (name : String) (content : List UInt8)
    (lastModified : UInt64) : SearchIndex R :=
  let words := contentWords content
  let totalWords := words.length
  if totalWords = 0 then s.indexByName ino name lastModified
  else
    let wordFreq := (words.foldl (.bump 1) (.empty : FiniteMap String R)).map (· / totalWords)
    let docFreq := (s.oldWords ino).foldl .lower s.docFreq
    let docFreq := wordFreq.keys.foldl (.bump 1) docFreq
    { files := s.files.insert ino
        { ino, name, wordFreq := (nameWords name).foldl (.bump (1 / 2)) wordFreq, totalWords,
          lastModified }
      docFreq := (nameWords name).foldl (.bump 1) docFreq }

end Indexing

/-- Remove a file from the index. -/
def remove (s : SearchIndex R) (ino : UInt64) : SearchIndex R where
  files := s.files.erase ino
  docFreq := (s.oldWords ino).foldl .lower s.docFreq

/-- A call of the index. -/
inductive Call where
  | index (ino : UInt64) (name : String) (content : List UInt8) (lastModified : UInt64)
  | remove (ino : UInt64)

section Runs

variable [Field R] [Letters]

def step (s : SearchIndex R) : Call → SearchIndex R
  | .index ino name content lastModified => s.index ino name content lastModified
  | .remove ino => s.remove ino

/-- The index after some calls. -/
def run (s : SearchIndex R) (calls : List Call) : SearchIndex R := calls.foldl step s

end Runs

/-! ### Counting files -/

/-- Whether a file has a word. -/
def HasWord (w : String) (file : IndexedFile R) : Prop := w ∈ file.wordFreq.keys

instance (w : String) (file : IndexedFile R) : Decidable (HasWord w file) :=
  inferInstanceAs (Decidable (w ∈ file.wordFreq.keys))

/-- In how many of the files a word comes. -/
def filesWith (files : FiniteMap UInt64 (IndexedFile R)) (w : String) : ℕ :=
  files.entries.countP fun e => HasWord w e.2

/-- The counts are those of the files. -/
def Exact (s : SearchIndex R) : Prop := ∀ w, s.docFreq.tally w = filesWith s.files w

theorem countP_hasWord_cons (e : UInt64 × IndexedFile R) (es : List (UInt64 × IndexedFile R))
    (w : String) :
  (e :: es).countP (fun e => HasWord w e.2)
    = es.countP (fun e => HasWord w e.2) + if HasWord w e.2 then 1 else 0
  := by
  rw [List.countP_cons]
  by_cases hw : HasWord w e.2
  · rw [if_pos hw, if_pos (decide_eq_true hw)]
  · rw [if_neg hw, if_neg (by rw [decide_eq_true_iff]; exact hw)]

/-- A file counts for its words, and the others are left out. -/
theorem filesWith_insert (files : FiniteMap UInt64 (IndexedFile R)) (ino : UInt64)
    (file : IndexedFile R) (w : String) :
  filesWith (files.insert ino file) w
    = filesWith (files.erase ino) w + if HasWord w file then 1 else 0
  := by
  have hperm := FiniteMap.entries_perm (files.get_insert_self ino file)
  rw [filesWith, hperm.countP_eq, countP_hasWord_cons, (files.erase_insert ino file).countP_eq]
  rfl

/-- The files and the one without the file of an inode. -/
theorem filesWith_erase (s : SearchIndex R) (ino : UInt64) (w : String) :
  filesWith s.files w
    = filesWith (s.files.erase ino) w + if w ∈ s.oldWords ino then 1 else 0
  := by
  rw [oldWords]
  cases hget : s.files.get ino with
  | none =>
      rw [filesWith, (FiniteMap.entries_erase_of_none hget).countP_eq]
      simp [filesWith]
  | some file =>
      rw [filesWith, (FiniteMap.entries_perm hget).countP_eq, countP_hasWord_cons]
      rfl

theorem nodup_oldWords (s : SearchIndex R) (ino : UInt64) :
  (s.oldWords ino).Nodup
  := by
  rw [oldWords]
  cases s.files.get ino with
  | none => exact List.nodup_nil
  | some file => exact file.wordFreq.nodup_keys

/-- Removing a file takes it out of the counts of its words. -/
theorem Exact.tally_lower {s : SearchIndex R} (h : s.Exact) (ino : UInt64) (w : String) :
  ((s.oldWords ino).foldl .lower s.docFreq).tally w = filesWith (s.files.erase ino) w
  := by
  rw [FiniteMap.tally_foldl_lower _ (s.nodup_oldWords ino), h w, filesWith_erase s ino w,
    Nat.add_sub_cancel]

/-! ### Exact counts -/

section Exactness

variable [Field R] [Letters]

/-- The words of the file that a call indexes are counted once each: those of the name are
different, and not in the content, and the file has no old words that are not taken away. -/
def Call.CountsOnce (s : SearchIndex R) : Call → Prop
  | .index ino name content _ => (nameWords name).Nodup
      ∧ (∀ w ∈ nameWords name, w ∉ contentWords content)
      ∧ (contentWords content = [] → s.oldWords ino = [])
  | .remove _ => True

omit [Field R] [Letters] in
/-- Words of a name that are counted one by one, after the words of a content. -/
theorem count_add_iff {N C : List String} :
  (∀ w, (if w ∈ C then 1 else 0) + N.count w = if w ∈ N ∨ w ∈ C then 1 else 0)
    ↔ N.Nodup ∧ ∀ w ∈ N, w ∉ C
  := by
  constructor
  · intro h
    constructor
    · rw [List.nodup_iff_count_le_one]
      intro w
      have hw := h w
      split at hw <;> split at hw <;> omega
    · intro w hN hC
      have hw := h w
      have hpos := List.count_pos_iff.mpr hN
      rw [if_pos hC, if_pos (.inl hN)] at hw
      omega
  · rintro ⟨hnodup, hdisjoint⟩ w
    rw [hnodup.count]
    by_cases hN : w ∈ N
    · rw [if_neg (hdisjoint w hN), if_pos hN, if_pos (.inl hN)]
    · rw [if_neg hN]
      simp [hN]

omit [Field R] [Letters] in
/-- Words of a name that are counted one by one, besides old words. -/
theorem add_count_iff {N old : List String} :
  (∀ w, (if w ∈ old then 1 else 0) + N.count w = if w ∈ N then 1 else 0)
    ↔ N.Nodup ∧ old = []
  := by
  constructor
  · intro h
    constructor
    · rw [List.nodup_iff_count_le_one]
      intro w
      have hw := h w
      split at hw <;> split at hw <;> omega
    · rw [List.eq_nil_iff_forall_not_mem]
      intro w hold
      have hw := h w
      rw [if_pos hold] at hw
      split at hw
      · next hN =>
        have hpos := List.count_pos_iff.mpr hN
        omega
      · omega
  · rintro ⟨hnodup, rfl⟩ w
    rw [hnodup.count, if_neg List.not_mem_nil, Nat.zero_add]

theorem tally_indexByName (s : SearchIndex R) (ino : UInt64) (name : String)
    (lastModified : UInt64) (w : String) :
  (s.indexByName ino name lastModified).docFreq.tally w
    = s.docFreq.tally w + (nameWords name).count w
  := by
  rw [indexByName, FiniteMap.tally_foldl_bump, smul_eq_mul, mul_one]

theorem filesWith_indexByName (s : SearchIndex R) (ino : UInt64) (name : String)
    (lastModified : UInt64) (w : String) :
  filesWith (s.indexByName ino name lastModified).files w
    = filesWith (s.files.erase ino) w + if w ∈ nameWords name then 1 else 0
  := by
  rw [indexByName, filesWith_insert]
  congr 1
  apply if_congr _ rfl rfl
  rw [HasWord, FiniteMap.mem_keys_foldl_bump]
  exact or_iff_left List.not_mem_nil

omit [Letters] in
/-- What is counted for a content. -/
theorem mem_keys_wordFreq {words : List String} {total : R} {w : String} :
  w ∈ ((words.foldl (.bump 1) (.empty : FiniteMap String R)).map (· / total)).keys ↔ w ∈ words
  := by
  rw [FiniteMap.keys_map, FiniteMap.mem_keys_foldl_bump]
  exact or_iff_left List.not_mem_nil

theorem Exact.tally_index {s : SearchIndex R} (h : s.Exact) {ino : UInt64} {name : String}
    {content : List UInt8} {lastModified : UInt64} (hne : contentWords content ≠ [])
    (w : String) :
  (s.index ino name content lastModified).docFreq.tally w
    = filesWith (s.files.erase ino) w
      + ((if w ∈ contentWords content then 1 else 0) + (nameWords name).count w)
  := by
  rw [index, if_neg (by rw [List.length_eq_zero_iff]; exact hne)]
  dsimp only
  rw [FiniteMap.tally_foldl_bump, FiniteMap.tally_foldl_bump, smul_eq_mul, mul_one, smul_eq_mul,
    mul_one, h.tally_lower, (FiniteMap.nodup_keys _).count, add_assoc]
  simp only [mem_keys_wordFreq]

theorem filesWith_index (s : SearchIndex R) {ino : UInt64} {name : String}
    {content : List UInt8} {lastModified : UInt64} (hne : contentWords content ≠ [])
    (w : String) :
  filesWith (s.index ino name content lastModified).files w
    = filesWith (s.files.erase ino) w
      + if w ∈ nameWords name ∨ w ∈ contentWords content then 1 else 0
  := by
  rw [index, if_neg (by rw [List.length_eq_zero_iff]; exact hne)]
  dsimp only
  rw [filesWith_insert]
  congr 1
  apply if_congr _ rfl rfl
  rw [HasWord, FiniteMap.mem_keys_foldl_bump, mem_keys_wordFreq]

/-- A call keeps exact counts exactly when it counts every word once. -/
theorem Exact.step_iff {s : SearchIndex R} (h : s.Exact) (c : Call) :
  (s.step c).Exact ↔ c.CountsOnce s
  := by
  cases c with
  | index ino name content lastModified =>
      by_cases hnil : contentWords content = []
      · have hindex : s.index ino name content lastModified
            = s.indexByName ino name lastModified := by
          rw [index, if_pos (List.length_eq_zero_iff.mpr hnil)]
        rw [step, hindex, Call.CountsOnce, hnil, Exact]
        have hcounts (w : String) : (s.indexByName ino name lastModified).docFreq.tally w
              = filesWith (s.indexByName ino name lastModified).files w
            ↔ (if w ∈ s.oldWords ino then 1 else 0) + (nameWords name).count w
              = if w ∈ nameWords name then 1 else 0 := by
          rw [tally_indexByName, filesWith_indexByName, h w, filesWith_erase s ino w, add_assoc,
            Nat.add_left_cancel_iff]
        rw [forall_congr' hcounts, add_count_iff]
        simp
      · rw [step, Call.CountsOnce, Exact]
        have hcounts (w : String) : (s.index ino name content lastModified).docFreq.tally w
              = filesWith (s.index ino name content lastModified).files w
            ↔ (if w ∈ contentWords content then 1 else 0) + (nameWords name).count w
              = if w ∈ nameWords name ∨ w ∈ contentWords content then 1 else 0 := by
          rw [h.tally_index hnil, filesWith_index s hnil, Nat.add_left_cancel_iff]
        rw [forall_congr' hcounts, count_add_iff]
        simp [hnil]
  | remove ino =>
      rw [Call.CountsOnce, iff_true]
      exact h.tally_lower ino

omit [Field R] [Letters] in
theorem exact_new :
  (new : SearchIndex R).Exact
  := fun _ => rfl

/-- The counts of a run are exact after each of its calls exactly when each call counts the
words of its file once. -/
theorem exact_run_iff (calls : List Call) :
  (∀ pre, pre <+: calls → ((new : SearchIndex R).run pre).Exact)
    ↔ ∀ pre c, pre ++ [c] <+: calls → c.CountsOnce ((new : SearchIndex R).run pre)
  := by
  have hconcat (pre : List Call) (c : Call) :
      (new : SearchIndex R).run (pre ++ [c]) = ((new : SearchIndex R).run pre).step c := by
    rw [run, List.foldl_concat]
    rfl
  constructor
  · intro hexact pre c hpre
    have hstep := hexact (pre ++ [c]) hpre
    rw [hconcat] at hstep
    exact ((hexact pre ((List.prefix_append pre [c]).trans hpre)).step_iff c).mp hstep
  · intro honce pre hpre
    induction pre using List.reverseRecOn with
    | nil => exact exact_new
    | append_singleton pre c ih =>
        rw [hconcat]
        exact ((ih ((List.prefix_append pre [c]).trans hpre)).step_iff c).mpr (honce pre c hpre)

end Exactness

/-- A word that comes in the content and in the name of a file counts twice. -/
theorem not_exact_run :
  let _ := Letters.ascii
  ¬ ∀ calls : List Call, ((new : SearchIndex ℚ).run calls).Exact
  := by
  intro _ h
  have hexact := h [.index 2 "config.rs" [99, 111, 110, 102, 105, 103] 0] "config"
  revert hexact
  decide

/-! ### Indexes that are built once -/

/-- A file with its content. -/
structure Document where
  ino : UInt64
  name : String
  content : List UInt8
  lastModified : UInt64

section Built

variable [Letters]

/-- Whether a word comes in the content or in the name. -/
def Document.HasWord (d : Document) (w : String) : Prop :=
  w ∈ contentWords d.content ∨ w ∈ nameWords d.name

instance (d : Document) (w : String) : Decidable (d.HasWord w) :=
  inferInstanceAs (Decidable (_ ∨ _))

/-- How often a word is counted for a document: once for the content, and as often as it comes
in the name. -/
def Document.counted (d : Document) (w : String) : ℕ :=
  (if w ∈ contentWords d.content then 1 else 0) + (nameWords d.name).count w

/-- How often a word is counted for some documents. -/
def counted (docs : List Document) (w : String) : ℕ := (docs.map fun d => d.counted w).sum

section Fields

variable {R : Type} [Field R]

/-- The file that is indexed for a document. -/
def Document.file (d : Document) : IndexedFile R where
  ino := d.ino
  name := d.name
  wordFreq :=
    if (contentWords d.content).length = 0 then (nameWords d.name).foldl (.bump 1) .empty
    else (nameWords d.name).foldl (.bump (1 / 2))
      (((contentWords d.content).foldl (.bump 1) (.empty : FiniteMap String R)).map
        (· / (contentWords d.content).length))
  totalWords :=
    if (contentWords d.content).length = 0 then (nameWords d.name).length
    else (contentWords d.content).length
  lastModified := d.lastModified

/-- The index of some documents, each indexed once. -/
def build (docs : List Document) : SearchIndex R :=
  docs.foldl (fun s d => s.index d.ino d.name d.content d.lastModified) new

theorem files_index (s : SearchIndex R) (d : Document) :
  (s.index d.ino d.name d.content d.lastModified).files = s.files.insert d.ino d.file
  := by
  rw [index, Document.file]
  split
  · simp [indexByName]
  · simp

/-- A document that is not indexed yet adds to the counts of its words. -/
theorem tally_index {s : SearchIndex R} {d : Document} (h : s.files.get d.ino = none)
    (w : String) :
  (s.index d.ino d.name d.content d.lastModified).docFreq.tally w
    = s.docFreq.tally w + d.counted w
  := by
  have hold : s.oldWords d.ino = [] := by
    rw [oldWords, h]
    rfl
  rw [index, Document.counted]
  split
  · next hzero =>
    rw [tally_indexByName, List.eq_nil_of_length_eq_zero hzero, if_neg List.not_mem_nil,
      Nat.zero_add]
  · dsimp only
    rw [FiniteMap.tally_foldl_bump, FiniteMap.tally_foldl_bump, smul_eq_mul, mul_one,
      smul_eq_mul, mul_one, hold, List.foldl_nil, (FiniteMap.nodup_keys _).count, add_assoc]
    simp only [mem_keys_wordFreq]

/-- What an index of documents is that were indexed once each. -/
structure Built (s : SearchIndex R) (docs : List Document) : Prop where
  files : ∀ ino file, s.files.get ino = some file ↔ ∃ d ∈ docs, d.ino = ino ∧ d.file = file
  counts : ∀ w, s.docFreq.tally w = counted docs w
  len : s.files.len = docs.length

theorem built_build {docs : List Document} (h : (docs.map Document.ino).Nodup) :
  Built (build docs : SearchIndex R) docs
  := by
  induction docs using List.reverseRecOn with
  | nil =>
      constructor
      · intro ino file
        simp [build, new]
      · exact fun w => rfl
      · rfl
  | append_singleton docs d ih =>
      rw [List.map_append, List.nodup_append'] at h
      obtain ⟨hdocs, -, hdisjoint⟩ := h
      have hbuilt := ih hdocs
      have hbuild : (build (docs ++ [d]) : SearchIndex R)
          = (build docs).index d.ino d.name d.content d.lastModified := List.foldl_concat ..
      have hnew : (build docs : SearchIndex R).files.get d.ino = none := by
        rw [Option.eq_none_iff_forall_ne_some]
        intro file hget
        obtain ⟨d', hd', hino, -⟩ := (hbuilt.files d.ino file).mp hget
        exact hdisjoint (hino ▸ List.mem_map_of_mem hd') (List.mem_singleton_self _)
      rw [hbuild]
      constructor
      · intro ino file
        rw [files_index, FiniteMap.get_insert]
        split
        · next heq =>
          subst heq
          constructor
          · intro hfile
            exact ⟨d, List.mem_append_right _ (List.mem_singleton_self _), rfl,
              Option.some.inj hfile⟩
          · rintro ⟨d', hd', hino, rfl⟩
            obtain hold | hlast := List.mem_append.mp hd'
            · exact absurd (List.mem_singleton.mpr hino)
                (hdisjoint (List.mem_map_of_mem hold))
            · rw [List.mem_singleton.mp hlast]
        · next hne =>
          rw [hbuilt.files]
          constructor
          · rintro ⟨d', hd', h'⟩
            exact ⟨d', List.mem_append_left _ hd', h'⟩
          · rintro ⟨d', hd', h'⟩
            obtain hold | hlast := List.mem_append.mp hd'
            · exact ⟨d', hold, h'⟩
            · rw [List.mem_singleton.mp hlast] at h'
              exact absurd h'.1.symm hne
      · intro w
        rw [tally_index hnew, hbuilt.counts, counted, counted, List.map_append, List.sum_append]
        rfl
      · have hlookup : (build docs : SearchIndex R).files.entries.lookup d.ino = none := hnew
        rw [files_index, FiniteMap.len, FiniteMap.insert,
          (build docs : SearchIndex R).files.increasing.length_insert, hlookup,
          List.length_append]
        exact congrArg (· + 1) hbuilt.len

end Fields

end Built

end SearchIndex

end Vexfs
