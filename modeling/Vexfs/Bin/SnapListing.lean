import Vexfs.Bin.Daemon
import Vexfs.Bin.Telemetry
import Vexfs.Fuse.SnapRestore

/-!
# The listing of the snapshots

One command prints the snapshots of an image, and the window program runs the command and
reads what it prints.  A line is split at the dashes, so the window program shows what was
listed when the names of the files do not look like a part of a line
(`parseSnapshotOutput_snapAll`), and then every entry names a snapshot that can be restored.
-/

namespace Vexfs

open Bytes

/-! ### Printing -/

/-- A snapshot as it is listed. -/
structure ListedSnapshot where
  id : UInt32
  name : String
  size : UInt64
  timestamp : UInt64
deriving DecidableEq, Repr

/-- What is listed of some slots, up to the first that cannot be read. -/
def DiskManager.listSnapshots [Crc32] (dm : DiskManager) : List ℕ → List ListedSnapshot
  | [] => []
  | i :: is =>
      match dm.readSnapshot i with
      | .error _ => []
      | .ok s =>
          if s.isValid snapshotMagic ∧ s.getName ≠ "" then
            ⟨s.id, s.getName, s.size, s.timestamp⟩ :: dm.listSnapshots is
          else dm.listSnapshots is

/-- The time since a timestamp. -/
def ageStr (now timestamp : UInt64) : List Char :=
  let age := now.toNat - timestamp.toNat
  if age < 60 then Nat.toDigits 10 age ++ "s ago".toList
  else if age < 3600 then Nat.toDigits 10 (age / 60) ++ "m ago".toList
  else if age < 86400 then Nat.toDigits 10 (age / 3600) ++ "h ago".toList
  else Nat.toDigits 10 (age / 86400) ++ "d ago".toList

/-- The dash between the parts of a line. -/
def dash : List Char := [' ', '—', ' ']

namespace ListedSnapshot

def sizeText (s : ListedSnapshot) : List Char :=
  Nat.toDigits 10 s.size.toNat ++ " bytes".toList

/-- What follows the version. -/
def details (s : ListedSnapshot) (now : UInt64) : List Char :=
  s.name.toList ++ (dash ++ (s.sizeText ++ (dash ++ ageStr now s.timestamp)))

def line (s : ListedSnapshot) (now : UInt64) : List Char :=
  [' ', ' ', '[', 'v'] ++ (Nat.toDigits 10 s.id.toNat ++ ([']', ' '] ++ s.details now))

end ListedSnapshot

/-- The snapshots of an image, the latest first. -/
def DiskManager.sortedSnapshots [Crc32] (dm : DiskManager) : List ListedSnapshot :=
  (dm.listSnapshots (List.range maxSnapshotSlots)).mergeSort fun a b => b.timestamp ≤ a.timestamp

def headerLines (image : String) (count : ℕ) : List (List Char) :=
  ["".toList, "╔══════════════════════════════════════════════════╗".toList,
    "║           VexFS Snapshot Manager                 ║".toList,
    "╚══════════════════════════════════════════════════╝".toList, "".toList,
    "📁 Image:            ".toList ++ image.toList,
    "📸 Total snapshots:  ".toList ++ Nat.toDigits 10 count, "".toList]

/-- The lines that are printed. -/
def snapAllLines (image : String) (now : UInt64) (snaps : List ListedSnapshot) :
    List (List Char) :=
  headerLines image snaps.length ++
    if snaps = [] then
      ["No snapshots yet. Snapshots are created automatically on write.".toList]
    else List.replicate 60 '─' :: (snaps.map (·.line now) ++ ["".toList])

/-- What the command prints. -/
def DiskManager.snapAll [Crc32] (dm : DiskManager) (image : String) (now : UInt64) : String :=
  String.ofList ((snapAllLines image now dm.sortedSnapshots).flatMap (· ++ ['\n']))

/-! ### Reading -/

/-- A snapshot as the window program shows it. -/
structure SnapEntry where
  version : UInt32
  name : String
  size : UInt64
  age : String
deriving DecidableEq, Repr

def trimChars (cs : List Char) : List Char := (trim (String.ofList cs)).toList

def parseU32 (cs : List Char) : Option UInt32 :=
  ((parseU64 cs).filter (· < 2 ^ 32)).map UInt32.ofNat

/-- The parts of a line behind the version. -/
def parseDetails (version : UInt32) (rest : List Char) : SnapEntry :=
  let parts := Parts.splitOnce dash (trimChars rest)
  let parts₂ := Parts.splitOnce dash (parts.2.getD [])
  let size := ((splitWhitespace (trim (String.ofList parts₂.1))).head?.bind fun s =>
    parseU64 s.toList).getD 0
  { version
    name := trim (String.ofList parts.1)
    size := UInt64.ofNat size
    age := trim (String.ofList (parts₂.2.getD [])) }

/-- The snapshot a line tells of, if it tells of one.  The program panics when the line ends with
the bracket, or goes on with a character of more than one byte. -/
def parseSnapLine (line : List Char) : DiskResult (Option SnapEntry) :=
  let line := trimChars line
  if ¬ ['[', 'v'] <+: line then .ok none
  else
    let inner := line.drop 2
    match inner.dropWhile (· ≠ ']') with
    | [] => .ok none
    | _ :: after =>
        match parseU32 (inner.takeWhile (· ≠ ']')) with
        | none => .ok none
        | some version =>
            match after with
            | [] => .error (.panic "byte index is out of bounds")
            | c :: rest =>
                if c.utf8Size = 1 then .ok (some (parseDetails version rest))
                else .error (.panic "byte index is not a char boundary")

def parseSnapshotOutput (text : String) : DiskResult (List SnapEntry) := do
  let entries ← (lines text).mapM fun line => parseSnapLine line.toList
  return entries.filterMap id

/-! ### Lines -/

/-- A line without the carriage return at its end. -/
def stripReturn (l : List Char) : List Char :=
  if l.getLast? = some '\r' then l.dropLast else l

theorem lines_cons {l : List Char} (h : '\n' ∉ l) (rest : List Char) :
  lines (String.ofList (l ++ '\n' :: rest))
    = String.ofList (stripReturn l) :: lines (String.ofList rest)
  := by
  have hsplit : (l ++ '\n' :: rest).splitOn '\n' = l :: rest.splitOn '\n' :=
    List.splitOn_append_cons_self_of_not_mem h rest
  have hne := List.splitOn_ne_nil '\n' rest
  rw [lines, lines, String.toList_ofList, String.toList_ofList, hsplit,
    List.dropLast_cons_of_ne_nil hne, List.getLast?_cons_of_ne_nil hne]
  rfl

/-- The lines of a text are those it is made of, but for the carriage returns. -/
theorem lines_flatMap_newline {ls : List (List Char)} (h : ∀ l ∈ ls, '\n' ∉ l) :
  lines (String.ofList (ls.flatMap (· ++ ['\n'])))
    = ls.map fun l => String.ofList (stripReturn l)
  := by
  induction ls with
  | nil => rfl
  | cons l ls ih =>
      obtain ⟨hl, hls⟩ := List.forall_mem_cons.mp h
      rw [List.flatMap_cons, List.append_assoc, List.singleton_append, lines_cons hl, ih hls]
      rfl

/-! ### Trimming -/

/-- A text that neither begins nor ends with white space. -/
structure IsTrimmed (cs : List Char) : Prop where
  first : ∀ c ∈ cs.head?, isWhitespace c = false
  last : ∀ c ∈ cs.getLast?, isWhitespace c = false

/-- White space before a text is dropped. -/
theorem dropWhile_append_isTrimmed {pre cs : List Char} (hpre : ∀ c ∈ pre, isWhitespace c)
    (hfirst : ∀ c ∈ cs.head?, isWhitespace c = false) :
  (pre ++ cs).dropWhile isWhitespace = cs
  := by
  rw [List.dropWhile_append_of_pos hpre]
  cases cs with
  | nil => rfl
  | cons c cs =>
      apply List.dropWhile_cons_of_neg
      rw [hfirst c rfl]
      decide

/-- White space around a text is trimmed. -/
theorem trimChars_append {pre cs : List Char} (hpre : ∀ c ∈ pre, isWhitespace c)
    (h : IsTrimmed cs) :
  trimChars (pre ++ cs) = cs
  := by
  have hlast := @dropWhile_append_isTrimmed [] cs.reverse
    (List.forall_mem_nil _) (by rw [List.head?_reverse]; exact h.last)
  rw [List.nil_append] at hlast
  rw [trimChars, trim, String.toList_ofList, String.toList_ofList,
    dropWhile_append_isTrimmed hpre h.first, hlast, List.reverse_reverse]

theorem trimChars_eq {cs : List Char} (h : IsTrimmed cs) :
  trimChars cs = cs
  := @trimChars_append [] cs (List.forall_mem_nil _) h

theorem trim_ofList_eq {cs : List Char} (h : IsTrimmed cs) :
  trim (String.ofList cs) = String.ofList cs
  := by
  apply String.toList_inj.mp
  rw [String.toList_ofList]
  exact trimChars_eq h

/-- A text is trimmed when it begins with a trimmed one and ends with one. -/
theorem IsTrimmed.append {a b c : List Char} (ha : a ≠ []) (hc : c ≠ []) (hfirst : IsTrimmed a)
    (hlast : IsTrimmed c) :
  IsTrimmed (a ++ (b ++ c))
  := by
  constructor
  · rw [List.head?_append_of_ne_nil _ ha]
    exact hfirst.first
  · rw [← List.append_assoc, List.getLast?_append_of_ne_nil _ hc]
    exact hlast.last

theorem isTrimmed_of_digits {cs : List Char} (h : ∀ c ∈ cs, c.isDigit) :
  IsTrimmed cs
  := ⟨fun c hc => isWhitespace_of_isDigit (h c (List.mem_of_mem_head? hc)),
    fun c hc => isWhitespace_of_isDigit (h c (List.mem_of_mem_getLast? hc))⟩

theorem isTrimmed_toDigits (n : ℕ) :
  IsTrimmed (Nat.toDigits 10 n)
  := isTrimmed_of_digits (isDigit_of_mem_toDigits n)

theorem toDigits_ne_nil (n : ℕ) :
  Nat.toDigits 10 n ≠ []
  := Nat.toDigits_ne_nil

/-- An age is a number and a unit. -/
theorem ageStr_eq (now timestamp : UInt64) :
  ∃ n c, c ∈ ['s', 'm', 'h', 'd'] ∧ ageStr now timestamp = Nat.toDigits 10 n ++ c :: " ago".toList
  := by
  unfold ageStr
  dsimp only
  split
  · exact ⟨_, 's', by simp, rfl⟩
  · split
    · exact ⟨_, 'm', by simp, rfl⟩
    · split
      · exact ⟨_, 'h', by simp, rfl⟩
      · exact ⟨_, 'd', by simp, rfl⟩

theorem isTrimmed_ageStr (now timestamp : UInt64) :
  IsTrimmed (ageStr now timestamp) ∧ ageStr now timestamp ≠ []
  := by
  obtain ⟨n, c, -, heq⟩ := ageStr_eq now timestamp
  have hago : IsTrimmed ['a', 'g', 'o'] := by constructor <;> simp [isWhitespace]
  have happend := IsTrimmed.append (b := [c, ' ']) (toDigits_ne_nil n)
    (show ['a', 'g', 'o'] ≠ [] by simp) (isTrimmed_toDigits n) hago
  rw [heq]
  exact ⟨happend, by simp⟩

/-! ### One snapshot -/

/-- Only a dash at the end of a text begins the dash behind it. -/
theorem not_dash_infix {u : List Char} (h : '—' ∉ u) :
  ¬ dash <:+: u ++ dash.dropLast
  := by
  rintro ⟨a, b, heq⟩
  have hcount := congrArg (List.count '—') heq
  have hlast := congrArg List.getLast? heq
  cases b using List.reverseRecOn with
  | nil =>
      simp [dash] at hlast
  | append_singleton b c _ =>
      have hend : ((a ++ dash) ++ (b ++ [c])).getLast? = some c := by
        rw [← List.append_assoc, List.getLast?_concat]
      have hc : c = '—' := by
        rw [hend] at hlast
        simpa [dash] using hlast
      subst hc
      simp [dash, List.count_eq_zero.mpr h] at hcount
      omega

/-- A number of 32 bits that was written is read back. -/
theorem parseU32_toDigits (n : UInt32) :
  parseU32 (Nat.toDigits 10 n.toNat) = some n
  := by
  have hlt := n.toNat_lt
  rw [parseU32, parseU64_toDigits (hlt.trans (by decide)), Option.filter_some,
    if_pos (decide_eq_true hlt), Option.map_some, UInt32.ofNat_toNat]

/-- A name that does not look like a part of a line: it is in one line, does not begin or end with
white space, and has no dash between blanks, also not together with the blank behind it. -/
structure IsPlainName (name : String) : Prop where
  unbroken : '\n' ∉ name.toList
  trimmed : IsTrimmed name.toList
  dashless : ¬ dash <:+: name.toList ++ dash.dropLast

namespace ListedSnapshot

/-- What the window program shows of a snapshot. -/
def entry (s : ListedSnapshot) (now : UInt64) : SnapEntry :=
  ⟨s.id, s.name, s.size, String.ofList (ageStr now s.timestamp)⟩

variable {s : ListedSnapshot} {now : UInt64}

theorem isTrimmed_sizeText (s : ListedSnapshot) :
  IsTrimmed s.sizeText
  := by
  have hbytes : IsTrimmed "bytes".toList := by constructor <;> simp [isWhitespace]
  exact IsTrimmed.append (b := [' ']) (toDigits_ne_nil _) (by simp) (isTrimmed_toDigits _) hbytes

theorem dash_notMem_toDigits (n : ℕ) :
  '—' ∉ Nat.toDigits 10 n
  := notMem_toDigits (by decide) n

/-- The details of a snapshot with a plain name are read back. -/
theorem parseDetails_details (hne : s.name ≠ "") (hname : IsPlainName s.name) :
  parseDetails s.id (s.details now) = s.entry now
  := by
  obtain ⟨hage, hagene⟩ := isTrimmed_ageStr now s.timestamp
  have hnil : s.name.toList ≠ [] := fun h => hne (String.toList_eq_nil_iff.mp h)
  have htrim : trimChars (s.details now) = s.details now := by
    apply trimChars_eq
    have happend := IsTrimmed.append (b := dash ++ (s.sizeText ++ dash)) hnil hagene
      hname.trimmed hage
    simpa [details] using happend
  have hfirst : Parts.splitOnce dash (s.details now)
      = (s.name.toList, some (s.sizeText ++ (dash ++ ageStr now s.timestamp))) :=
    Parts.splitOnce_append (by simp [dash]) hname.dashless _
  have hsecond : Parts.splitOnce dash (s.sizeText ++ (dash ++ ageStr now s.timestamp))
      = (s.sizeText, some (ageStr now s.timestamp)) := by
    apply Parts.splitOnce_append (by simp [dash])
    apply not_dash_infix
    simp [sizeText, dash_notMem_toDigits]
  have hsize : splitWhitespace (String.ofList s.sizeText)
      = String.ofList (Nat.toDigits 10 s.size.toNat) :: splitWhitespace "bytes" := by
    have hdigits : ∀ c ∈ Nat.toDigits 10 s.size.toNat, isWhitespace c = false :=
      fun c hc => isWhitespace_of_isDigit (isDigit_of_mem_toDigits _ c hc)
    have htext : s.sizeText = Nat.toDigits 10 s.size.toNat ++ ' ' :: "bytes".toList := rfl
    rw [splitWhitespace, String.toList_ofList, htext,
      List.splitOnP_append_cons_of_forall_mem hdigits ' ' (by decide),
      List.filter_cons_of_pos (by simp), List.map_cons, ← splitWhitespace]
  have hparse := parseU64_toDigits s.size.toNat_lt
  rw [parseDetails, htrim, hfirst]
  dsimp only
  rw [Option.getD_some, hsecond]
  dsimp only
  rw [trim_ofList_eq (isTrimmed_sizeText s), hsize, List.head?_cons, Option.bind_some,
    String.toList_ofList, hparse, Option.getD_some, Option.getD_some, trim_ofList_eq hage,
    trim_ofList_eq hname.trimmed, String.ofList_toList, UInt64.ofNat_toNat]
  rfl

/-- The line of a snapshot with a plain name is read back. -/
theorem parseSnapLine_line (hne : s.name ≠ "") (hname : IsPlainName s.name) :
  parseSnapLine (s.line now) = .ok (some (s.entry now))
  := by
  obtain ⟨hage, hagene⟩ := isTrimmed_ageStr now s.timestamp
  let inner := Nat.toDigits 10 s.id.toNat ++ ([']', ' '] ++ s.details now)
  have htrim : trimChars (s.line now) = ['[', 'v'] ++ inner := by
    have hbracket : IsTrimmed ['['] := by constructor <;> simp [isWhitespace]
    have happend := IsTrimmed.append
      (b := 'v' :: (Nat.toDigits 10 s.id.toNat ++ ([']', ' '] ++ (s.name.toList ++ (dash
        ++ (s.sizeText ++ dash)))))) (show ['['] ≠ [] by simp) hagene hbracket hage
    have htrimmed : IsTrimmed (['[', 'v'] ++ inner) := by
      simpa [inner, details] using happend
    exact @trimChars_append [' ', ' '] _ (by simp [isWhitespace]) htrimmed
  have hbracket : ∀ c ∈ Nat.toDigits 10 s.id.toNat, decide (c ≠ ']') = true := by
    intro c hc
    apply decide_eq_true
    rintro rfl
    exact notMem_toDigits (by decide) _ hc
  have hdrop : inner.dropWhile (· ≠ ']') = ']' :: ' ' :: s.details now := by
    rw [List.dropWhile_append_of_pos hbracket]
    exact List.dropWhile_cons_of_neg (by decide)
  have htake : inner.takeWhile (· ≠ ']') = Nat.toDigits 10 s.id.toNat := by
    rw [List.takeWhile_append_of_pos hbracket]
    simp
  have hinner : (['[', 'v'] ++ inner).drop 2 = inner := rfl
  rw [parseSnapLine, htrim]
  dsimp only
  rw [if_neg (not_not.mpr (List.prefix_append _ _)), hinner, hdrop, htake, parseU32_toDigits]
  dsimp only
  rw [if_pos (by decide), parseDetails_details hne hname]

theorem last_line :
  ∀ c ∈ (s.line now).getLast?, isWhitespace c = false
  := by
  obtain ⟨hage, hagene⟩ := isTrimmed_ageStr now s.timestamp
  have hsplit : s.line now = ([' ', ' ', '[', 'v'] ++ (Nat.toDigits 10 s.id.toNat
      ++ ([']', ' '] ++ (s.name.toList ++ (dash ++ (s.sizeText ++ dash))))))
      ++ ageStr now s.timestamp := by
    simp [line, details]
  rw [hsplit, List.getLast?_append_of_ne_nil _ hagene]
  exact hage.last

theorem newline_notMem_line (hname : '\n' ∉ s.name.toList) :
  '\n' ∉ s.line now
  := by
  obtain ⟨n, c, hc, hage⟩ := ageStr_eq now s.timestamp
  have hdigits : ∀ n, '\n' ∉ Nat.toDigits 10 n := notMem_toDigits (by decide)
  have hunit : '\n' ≠ c := by
    rintro rfl
    simp at hc
  simp [line, details, sizeText, dash, hage, hdigits, hname, hunit]

end ListedSnapshot

/-! ### The other lines -/

theorem stripReturn_eq {l : List Char} (h : ∀ c ∈ l.getLast?, isWhitespace c = false) :
  stripReturn l = l
  := by
  rw [stripReturn, if_neg]
  intro hlast
  exact absurd (h '\r' hlast) (by decide)

/-- Some first characters of a line are left, unless all are white space. -/
theorem exists_trimChars {c : Char} (hc : isWhitespace c = false) (cs : List Char) :
  ∃ cs', trimChars (c :: cs) = c :: cs'
  := by
  have htrim : trimChars (c :: cs) = (c :: cs).rdropWhile isWhitespace := by
    rw [trimChars, trim, String.toList_ofList, String.toList_ofList,
      List.dropWhile_cons_of_neg (by rw [hc]; decide)]
    rfl
  have hne : (c :: cs).rdropWhile isWhitespace ≠ [] := by
    intro hnil
    have hall := List.rdropWhile_eq_nil_iff.mp hnil c List.mem_cons_self
    rw [hc] at hall
    cases hall
  obtain ⟨d, cs', heq⟩ := List.exists_cons_of_ne_nil hne
  have hprefix := List.rdropWhile_prefix isWhitespace (l := c :: cs)
  rw [heq] at hprefix
  rw [htrim, heq, (List.cons_prefix_cons.mp hprefix).1]
  exact ⟨cs', rfl⟩

/-- A line that begins with another character is skipped. -/
theorem parseSnapLine_skip {l : List Char} (c : Char) (hhead : l.head? = some c)
    (hc : isWhitespace c = false) (hne : c ≠ '[') :
  parseSnapLine (stripReturn l) = .ok none
  := by
  obtain ⟨cs, rfl⟩ := List.head?_eq_some_iff.mp hhead
  have hskip : ∀ cs, parseSnapLine (c :: cs) = .ok none := by
    intro cs
    obtain ⟨cs', htrim⟩ := exists_trimChars hc cs
    have hprefix : ¬ ['[', 'v'] <+: c :: cs' := fun h =>
      hne (List.cons_prefix_cons.mp h).1.symm
    rw [parseSnapLine, htrim]
    dsimp only
    rw [if_pos hprefix]
  unfold stripReturn
  split
  · cases cs with
    | nil =>
        next hlast =>
        obtain rfl : c = '\r' := by simpa using hlast
        exact absurd hc (by decide)
    | cons d cs => exact hskip _
  · exact hskip cs

/-- The lines around those of the snapshots are skipped. -/
theorem parseSnapLine_headerLines (image : String) (count : ℕ) :
  ∀ l ∈ headerLines image count, parseSnapLine (stripReturn l) = .ok none
  := by
  have hempty : parseSnapLine (stripReturn "".toList) = .ok none := rfl
  simp only [headerLines, List.forall_mem_cons]
  exact ⟨hempty, parseSnapLine_skip '╔' (by simp) (by decide) (by decide),
    parseSnapLine_skip '║' (by simp) (by decide) (by decide),
    parseSnapLine_skip '╚' (by simp) (by decide) (by decide), hempty,
    parseSnapLine_skip '📁' (by simp) (by decide) (by decide),
    parseSnapLine_skip '📸' (by simp) (by decide) (by decide), hempty, List.forall_mem_nil _⟩

theorem newline_notMem_headerLines {image : String} (himage : '\n' ∉ image.toList) (count : ℕ) :
  ∀ l ∈ headerLines image count, '\n' ∉ l
  := by
  have hdigits : '\n' ∉ Nat.toDigits 10 count := notMem_toDigits (by decide) count
  simp only [headerLines, List.forall_mem_cons]
  exact ⟨by simp, by simp, by simp, by simp, by simp, by simp [himage], by simp [hdigits],
    by simp, List.forall_mem_nil _⟩

/-! ### The listing -/

/-- What the window program reads of some lines. -/
def readLines (ls : List (List Char)) : DiskResult (List SnapEntry) := do
  let entries ← ls.mapM fun l => parseSnapLine (stripReturn l)
  return entries.filterMap id

theorem parseSnapshotOutput_flatMap {ls : List (List Char)} (h : ∀ l ∈ ls, '\n' ∉ l) :
  parseSnapshotOutput (String.ofList (ls.flatMap (· ++ ['\n']))) = readLines ls
  := by
  have hline : ((fun line : String => parseSnapLine line.toList)
      ∘ fun l => String.ofList (stripReturn l)) = fun l => parseSnapLine (stripReturn l) := by
    funext l
    rw [Function.comp_apply, String.toList_ofList]
  rw [parseSnapshotOutput, readLines, lines_flatMap_newline h, List.mapM_map, hline]

theorem readLines_cons {l : List Char} {r : Option SnapEntry}
    (h : parseSnapLine (stripReturn l) = .ok r) (ls : List (List Char)) :
  readLines (l :: ls) = (readLines ls).map (r.toList ++ ·)
  := by
  rw [readLines, readLines, List.mapM_cons, h]
  cases ls.mapM fun l => parseSnapLine (stripReturn l) with
  | error e => rfl
  | ok entries => cases r <;> rfl

theorem readLines_skip {pre : List (List Char)}
    (hpre : ∀ l ∈ pre, parseSnapLine (stripReturn l) = .ok none) (ls : List (List Char)) :
  readLines (pre ++ ls) = readLines ls
  := by
  induction pre with
  | nil => rfl
  | cons l pre ih =>
      obtain ⟨hl, hpre⟩ := List.forall_mem_cons.mp hpre
      rw [List.cons_append, readLines_cons hl, ih hpre]
      cases readLines ls <;> rfl

/-- The lines of snapshots with plain names, and lines that are skipped. -/
theorem readLines_snapshots {now : UInt64} {snaps : List ListedSnapshot}
    (hnames : ∀ s ∈ snaps, s.name ≠ "" ∧ IsPlainName s.name) {post : List (List Char)}
    (hpost : ∀ l ∈ post, parseSnapLine (stripReturn l) = .ok none) :
  readLines (snaps.map (·.line now) ++ post) = .ok (snaps.map (·.entry now))
  := by
  induction snaps with
  | nil =>
      rw [List.map_nil, List.nil_append, ← List.append_nil post, readLines_skip hpost]
      rfl
  | cons s snaps ih =>
      obtain ⟨⟨hne, hname⟩, hnames⟩ := List.forall_mem_cons.mp hnames
      have hline : parseSnapLine (stripReturn (s.line now)) = .ok (some (s.entry now)) := by
        rw [stripReturn_eq, ListedSnapshot.parseSnapLine_line hne hname]
        exact ListedSnapshot.last_line
      rw [List.map_cons, List.cons_append, readLines_cons hline, ih hnames]
      rfl

section Listing

variable [Crc32] {dm : DiskManager}

/-- A snapshot that is listed has a name, and can be found by its name and version. -/
theorem DiskManager.of_mem_listSnapshots {is : List ℕ} {s : ListedSnapshot}
    (h : s ∈ dm.listSnapshots is) :
  s.name ≠ "" ∧ (dm.findSnapshot s.name s.id is).isSome
  := by
  induction is with
  | nil => cases h
  | cons i is ih =>
      rw [listSnapshots] at h
      rw [findSnapshot]
      cases hread : dm.readSnapshot i with
      | error e =>
          rw [hread] at h
          cases h
      | ok r =>
          rw [hread] at h
          dsimp only at h ⊢
          split at h
          · next hvalid =>
            obtain rfl | h := List.mem_cons.mp h
            · exact ⟨hvalid.2, by rw [if_pos ⟨hvalid.1, rfl, rfl⟩]; rfl⟩
            · refine ⟨(ih h).1, ?_⟩
              split
              · rfl
              · exact (ih h).2
          · refine ⟨(ih h).1, ?_⟩
            split
            · rfl
            · exact (ih h).2

/-- A snapshot that is listed has the name of a record. -/
theorem DiskManager.record_of_mem_listSnapshots {is : List ℕ} {s : ListedSnapshot}
    (h : s ∈ dm.listSnapshots is) :
  ∃ i ∈ is, ∃ r, dm.readSnapshot i = .ok r ∧ r.isValid snapshotMagic ∧ r.getName = s.name
  := by
  induction is with
  | nil => cases h
  | cons i is ih =>
      have hrest : s ∈ dm.listSnapshots is → ∃ j ∈ i :: is, ∃ r, dm.readSnapshot j = .ok r
          ∧ r.isValid snapshotMagic ∧ r.getName = s.name := by
        intro h
        obtain ⟨j, hj, hr⟩ := ih h
        exact ⟨j, List.mem_cons_of_mem i hj, hr⟩
      rw [listSnapshots] at h
      cases hread : dm.readSnapshot i with
      | error e =>
          rw [hread] at h
          cases h
      | ok r =>
          rw [hread] at h
          dsimp only at h
          split at h
          · next hvalid =>
            obtain rfl | h := List.mem_cons.mp h
            · exact ⟨i, List.mem_cons_self, r, hread, hvalid.1, rfl⟩
            · exact hrest h
          · exact hrest h

/-- The window program shows the snapshots that are listed, when the names are plain, and every
one that it shows can be found by what it shows. -/
theorem parseSnapshotOutput_snapAll (dm : DiskManager) {image : String} (now : UInt64)
    (himage : '\n' ∉ image.toList) (hnames : ∀ s ∈ dm.sortedSnapshots, IsPlainName s.name) :
  parseSnapshotOutput (dm.snapAll image now) = .ok (dm.sortedSnapshots.map (·.entry now))
    ∧ ∀ e ∈ dm.sortedSnapshots.map (·.entry now),
      (dm.findSnapshot e.name e.version (List.range maxSnapshotSlots)).isSome
  := by
  let snaps := dm.sortedSnapshots
  have hlisted : ∀ s ∈ snaps, s ∈ dm.listSnapshots (List.range maxSnapshotSlots) :=
    fun s hs => List.mem_mergeSort.mp hs
  have hfound := fun s hs => DiskManager.of_mem_listSnapshots (hlisted s hs)
  have hempty : parseSnapLine (stripReturn "".toList) = .ok none := rfl
  have hbar : parseSnapLine (stripReturn (List.replicate 60 '─')) = .ok none :=
    parseSnapLine_skip '─' rfl (by decide) (by decide)
  have hnone : parseSnapLine (stripReturn
      "No snapshots yet. Snapshots are created automatically on write.".toList) = .ok none :=
    parseSnapLine_skip 'N' (by simp) (by decide) (by decide)
  constructor
  · rw [DiskManager.snapAll, parseSnapshotOutput_flatMap, snapAllLines,
      readLines_skip (parseSnapLine_headerLines image _)]
    · split
      · next hnil =>
        rw [hnil, readLines_cons hnone]
        rfl
      · rw [readLines_cons hbar, readLines_snapshots]
        · rfl
        · exact fun s hs => ⟨(hfound s hs).1, hnames s hs⟩
        · exact List.forall_mem_singleton.mpr hempty
    · intro l hl
      obtain hl | hl := List.mem_append.mp hl
      · exact newline_notMem_headerLines himage _ l hl
      · split at hl
        · rw [List.mem_singleton.mp hl]
          simp
        · obtain rfl | hl := List.mem_cons.mp hl
          · simp
          · obtain hl | hl := List.mem_append.mp hl
            · obtain ⟨s, hs, rfl⟩ := List.mem_map.mp hl
              exact ListedSnapshot.newline_notMem_line (hnames s hs).unbroken
            · rw [List.mem_singleton.mp hl]
              simp
  · intro e he
    obtain ⟨s, hs, rfl⟩ := List.mem_map.mp he
    exact (hfound s hs).2

omit [Crc32] in
/-- The one snapshot of an image is listed and shown. -/
theorem parseSnapshotOutput_snapAll_one :
  let _ := Crc32.ieee
  let snap : SnapshotRaw := SnapshotRaw.setName
    { SnapshotRaw.empty with magic := snapshotMagic, isUsed := 1, ino := 2 } "a"
  let dm := ((DiskManager.format Storage.Image.empty 0 0).writeSnapshot 0 snap).2
  parseSnapshotOutput (dm.snapAll "disk.img" 90) = .ok (dm.sortedSnapshots.map (·.entry 90))
    ∧ ∀ e ∈ dm.sortedSnapshots.map (·.entry 90),
      (dm.findSnapshot e.name e.version (List.range maxSnapshotSlots)).isSome
  := by
  intro _ snap dm
  have hsize := (DiskManager.steady_format Storage.Image.empty 0 0).tidy.size_le
  have hwrite := DiskManager.changesIn_writeSnapshot (DiskManager.format Storage.Image.empty 0 0)
    0 snap
  apply parseSnapshotOutput_snapAll dm 90 (by simp)
  intro s hs
  obtain ⟨i, -, r, hread, hvalid, hname⟩ :=
    DiskManager.record_of_mem_listSnapshots (List.mem_mergeSort.mp hs)
  rw [← hname]
  by_cases hi : i = 0
  · subst hi
    have hsame : dm.readSnapshot 0 = .ok snap :=
      DiskManager.readSnapshot_writeSnapshot (by decide) _
    obtain rfl := Except.ok.inj (hsame.symm.trans hread)
    have ha : snap.getName = "a" := by decide
    rw [ha]
    exact ⟨by simp, ⟨by simp [isWhitespace], by simp [isWhitespace]⟩, by decide⟩
  · have hsame := hwrite.readSnapshot_eq hsize (fun _ => disjoint_snapshotRange hi)
    rw [hsame] at hread
    have hunused := DiskManager.readSnapshot_format Storage.Image.empty 0 0 hread
    simp [SnapshotRaw.isValid, hunused] at hvalid

end Listing

end Vexfs
