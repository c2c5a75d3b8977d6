import Vexfs.Bin.Daemon

/-!
# Requests that save a file

The daemon reads once, and takes what it got for the whole request.  When the read ends within
the body, the body is shorter than the length in the headers, and the daemon writes an empty
file, or a file that ends with a replacement character.  A request is saved exactly when the
read has all of it, or lacks only the end of a replacement character (`handle_post_iff`).
-/

namespace Vexfs

open Bytes

/-! ### Well-formed requests -/

def lineBreak : List Char := ['\r', '\n']

/-- A field of the headers. -/
structure Header where
  name : String
  value : String
  ascii : ∀ c ∈ name.toList, c.toNat < 128
  noColon : ':' ∉ name.toList
  unbroken : ∀ c ∈ name.toList ++ ':' :: value.toList, c ≠ '\r' ∧ c ≠ '\n'

namespace Header

def line (h : Header) : List Char := h.name.toList ++ ':' :: h.value.toList

def IsContentLength (h : Header) : Prop :=
  h.name.toList.map Char.toLower = "content-length".toList

/-- The value is a number in decimal, with white space around it. -/
def IsNumber (h : Header) (n : ℕ) : Prop :=
  (trim h.value).toList ≠ [] ∧ (∀ c ∈ (trim h.value).toList, c.isDigit)
    ∧ Nat.ofDigitChars 10 (trim h.value).toList 0 = n

end Header

/-- A request to save a file.  The first field that gives a length gives that of the body. -/
structure PostRequest where
  name : String
  version : String
  headers : List Header
  body : String
  name_space : ∀ c ∈ name.toList, isWhitespace c = false
  version_unbroken : ∀ c ∈ version.toList, c ≠ '\r' ∧ c ≠ '\n'
  contentLength : ∃ before len after, headers = before ++ len :: after
    ∧ (∀ h ∈ before, ¬ h.IsContentLength) ∧ len.IsContentLength
    ∧ len.IsNumber (utf8Len body.toList)

namespace PostRequest

def post : List Char := ['P', 'O', 'S', 'T']

def target (r : PostRequest) : List Char := apiFile.toList ++ r.name.toList

def requestLine (r : PostRequest) : List Char :=
  post ++ ' ' :: (r.target ++ ' ' :: r.version.toList)

/-- The lines up to the empty one. -/
def headLines (r : PostRequest) : List (List Char) := r.requestLine :: r.headers.map Header.line

def head (r : PostRequest) : List Char := r.headLines.flatMap (· ++ lineBreak) ++ lineBreak

def bytes (r : PostRequest) : List UInt8 := encode (r.head ++ r.body.toList)

end PostRequest

/-! ### Lines -/

theorem lines_append {l : List Char} (h : '\n' ∉ l) (rest : List Char) :
  lines (String.ofList (l ++ lineBreak ++ rest)) = String.ofList l :: lines (String.ofList rest)
  := by
  have hcr : '\n' ∉ l ++ ['\r'] := by simp [h]
  have hsplit : (l ++ lineBreak ++ rest).splitOn '\n'
      = (l ++ ['\r']) :: rest.splitOn '\n' := by
    rw [← List.splitOn_append_cons_self_of_not_mem hcr]
    simp [lineBreak]
  have hne := List.splitOn_ne_nil '\n' rest
  rw [lines, lines, String.toList_ofList, String.toList_ofList, hsplit,
    List.dropLast_cons_of_ne_nil hne, List.getLast?_cons_of_ne_nil hne]
  simp

theorem lines_flatMap {ls : List (List Char)} (h : ∀ l ∈ ls, '\n' ∉ l) (rest : List Char) :
  lines (String.ofList (ls.flatMap (· ++ lineBreak) ++ rest))
    = ls.map String.ofList ++ lines (String.ofList rest)
  := by
  induction ls with
  | nil => rfl
  | cons l ls ih =>
      obtain ⟨hl, hls⟩ := List.forall_mem_cons.mp h
      rw [List.flatMap_cons, List.append_assoc, lines_append hl, ih hls]
      rfl

/-- A line break is no empty line when a line follows. -/
theorem after_lineBreak {c : Char} (hc : c ≠ '\r') (cs : List Char) :
  Parts.after endOfHeaders (lineBreak ++ c :: cs) = Parts.after endOfHeaders (c :: cs)
  := by
  have hfirst : ¬ endOfHeaders <+: '\r' :: '\n' :: c :: cs := by
    intro h
    have hthird := List.cons_prefix_cons.mp (List.cons_prefix_cons.mp
      (List.cons_prefix_cons.mp h).2).2
    exact hc hthird.1.symm
  have hsecond : ¬ endOfHeaders <+: '\n' :: c :: cs := by
    intro h
    have hhead := (List.cons_prefix_cons.mp h).1
    revert hhead
    decide
  rw [lineBreak, List.cons_append, List.cons_append, List.nil_append, Parts.after,
    if_neg hfirst, Parts.after, if_neg hsecond]

/-- The first empty line ends the headers. -/
theorem after_endOfHeaders {ls : List (List Char)} (hne : ls ≠ [])
    (h : ∀ l ∈ ls, l ≠ [] ∧ '\r' ∉ l) (text : List Char) :
  Parts.after endOfHeaders (ls.flatMap (· ++ lineBreak) ++ (lineBreak ++ text)) = some text
  := by
  induction ls with
  | nil => contradiction
  | cons l ls ih =>
      obtain ⟨⟨-, hl⟩, hls⟩ := List.forall_mem_cons.mp h
      have hskip (rest : List Char) :
          Parts.after endOfHeaders (l ++ rest) = Parts.after endOfHeaders rest :=
        Parts.after_append_of_notMem hl rest
      rw [List.flatMap_cons, List.append_assoc, List.append_assoc, hskip]
      cases ls with
      | nil => exact Parts.after_append endOfHeaders text
      | cons l' ls =>
          obtain ⟨⟨hl'ne, hl'⟩, -⟩ := List.forall_mem_cons.mp hls
          obtain ⟨c, cs, rfl⟩ := List.exists_cons_of_ne_nil hl'ne
          have hc : c ≠ '\r' := by
            rintro rfl
            exact hl' List.mem_cons_self
          rw [← ih (List.cons_ne_nil _ _) hls]
          exact after_lineBreak hc _

/-! ### The fields -/

theorem toLower_ne_colon {c : Char} (hascii : c.toNat < 128) (h : c ≠ ':') :
  c.toLower ≠ ':'
  := by
  have hall : ∀ n < 128, Char.ofNat n ≠ ':' → (Char.ofNat n).toLower ≠ ':' := by decide
  have hc := hall c.toNat hascii
  rw [Char.ofNat_toNat] at hc
  exact hc h

/-- Two texts without colons that a text begins with, up to a colon, are the same. -/
theorem eq_of_prefix_colon {p q t : List Char} (hp : ':' ∉ p) (hq : ':' ∉ q)
    (hpt : p ++ [':'] <+: t) (hqt : q ++ [':'] <+: t) :
  p = q
  := by
  obtain ⟨u, rfl⟩ := hpt
  obtain ⟨v, hv⟩ := hqt
  have hafter (s : List Char) (hs : ':' ∉ s) (w : List Char) :
      (s ++ [':'] ++ w).takeWhile (· ≠ ':') = s := by
    rw [List.append_assoc, List.takeWhile_append_of_pos, List.singleton_append,
      List.takeWhile_cons_of_neg, List.append_nil]
    · simp
    · intro c hc
      simp only [ne_eq, decide_eq_true_eq]
      rintro rfl
      exact hs hc
  rw [← hafter p hp u, ← hv, hafter q hq v]

section Reading

variable [CaseMaps]

/-- The name of a field tells whether the line gives the length. -/
theorem namesLength_line (h : Header) :
  namesLength (String.ofList h.line) = true ↔ h.IsContentLength
  := by
  have hpre : (h.name.toList ++ [':']).map Char.toLower
      <+: (CaseMaps.toLowercase (String.ofList h.line)).toList := by
    apply CaseMaps.lowercase_ascii
    · intro c hc
      obtain hc | hc := List.mem_append.mp hc
      · exact h.ascii c hc
      · obtain rfl := List.mem_singleton.mp hc
        decide
    · rw [String.toList_ofList]
      exact ⟨h.value.toList, (List.append_cons _ _ _).symm⟩
  have hcolon : ':' ∉ h.name.toList.map Char.toLower := by
    rw [List.mem_map]
    rintro ⟨c, hc, hlower⟩
    apply toLower_ne_colon (h.ascii c hc) _ hlower
    rintro rfl
    exact h.noColon hc
  rw [List.map_append] at hpre
  rw [namesLength, decide_eq_true_iff, Header.IsContentLength]
  constructor
  · intro hname
    exact eq_of_prefix_colon hcolon (by decide) hpre hname
  · intro hname
    rw [hname] at hpre
    exact hpre

namespace PostRequest

variable (r : PostRequest)

theorem not_namesLength_requestLine :
  namesLength (String.ofList r.requestLine) = false
  := by
  have hbegins : post <+: (String.ofList r.requestLine).toList := by
    rw [String.toList_ofList, requestLine]
    exact List.prefix_append _ _
  have hpost := CaseMaps.lowercase_ascii post (String.ofList r.requestLine) (by simp [post])
    hbegins
  rw [namesLength, decide_eq_false_iff_not]
  intro hname
  have hcont := List.prefix_of_prefix_length_le hpost hname (by decide)
  revert hcont
  decide

omit [CaseMaps] in
/-- The lines of the head have no breaks in them, and are not empty. -/
theorem headLines_unbroken :
  ∀ l ∈ r.headLines, l ≠ [] ∧ ∀ c ∈ l, c ≠ '\r' ∧ c ≠ '\n'
  := by
  have hspace {c : Char} (h : isWhitespace c = false) : c ≠ '\r' ∧ c ≠ '\n' := by
    constructor
    · rintro rfl
      revert h
      decide
    · rintro rfl
      revert h
      decide
  rw [headLines]
  refine List.forall_mem_cons.mpr ⟨⟨List.cons_ne_nil _ _, ?_⟩, ?_⟩
  · intro c hc
    have hfixed : ∀ c ∈ post ++ ' ' :: apiFile.toList, c ≠ '\r' ∧ c ≠ '\n' := by
      simp [apiFile, post]
    have hline : r.requestLine = (post ++ ' ' :: apiFile.toList)
        ++ (r.name.toList ++ [' '] ++ r.version.toList) := by
      simp [requestLine, target]
    rw [hline] at hc
    obtain hc | hc := List.mem_append.mp hc
    · exact hfixed c hc
    · obtain hc | hc := List.mem_append.mp hc
      · obtain hc | hc := List.mem_append.mp hc
        · exact hspace (r.name_space c hc)
        · obtain rfl := List.mem_singleton.mp hc
          decide
      · exact r.version_unbroken c hc
  · intro l hl
    obtain ⟨h, -, rfl⟩ := List.mem_map.mp hl
    exact ⟨List.append_ne_nil_of_right_ne_nil _ (List.cons_ne_nil _ _), h.unbroken⟩

omit [CaseMaps] in
/-- The value of a field is what follows the colon. -/
theorem length_find {h : Header} {n : ℕ} (hn : h.IsNumber n) :
  ((Parts.after [':'] h.line).bind fun value =>
      parseU64 (trim (String.ofList value)).toList)
    = if n < 2 ^ 64 then some n else none
  := by
  have hafter : Parts.after [':'] h.line = some h.value.toList := by
    rw [Header.line, Parts.after_append_of_notMem h.noColon]
    exact Parts.after_append [':'] _
  obtain ⟨hne, hdigits, rfl⟩ := hn
  rw [hafter, Option.bind_some, String.ofList_toList, parseU64_of_digits hne hdigits]

/-! ### What the daemon reads -/

omit [CaseMaps] in
theorem head_append (text : List Char) :
  r.head ++ text = r.headLines.flatMap (· ++ lineBreak) ++ (lineBreak ++ text)
  := List.append_assoc _ _ _

omit [CaseMaps] in
theorem lines_head (text : List Char) :
  lines (String.ofList (r.head ++ text))
    = r.headLines.map String.ofList ++ lines (String.ofList (lineBreak ++ text))
  := by
  rw [head_append]
  apply lines_flatMap
  intro l hl hmem
  exact ((r.headLines_unbroken l hl).2 '\n' hmem).2 rfl

/-- The daemon finds the length of the body, unless the length is no number of 64 bits. -/
theorem contentLength_head (text : List Char) :
  Vexfs.contentLength (String.ofList (r.head ++ text))
    = if utf8Len r.body.toList < 2 ^ 64 then utf8Len r.body.toList else 0
  := by
  obtain ⟨before, len, after, hheaders, hbefore, hlen, hnumber⟩ := r.contentLength
  have hfind : (lines (String.ofList (r.head ++ text))).find? namesLength
      = some (String.ofList len.line) := by
    have hnone : (String.ofList r.requestLine
        :: before.map fun h => String.ofList h.line).find? namesLength = none := by
      rw [List.find?_eq_none]
      intro line hline
      obtain rfl | hline := List.mem_cons.mp hline
      · rw [r.not_namesLength_requestLine]
        decide
      · obtain ⟨h, hh, rfl⟩ := List.mem_map.mp hline
        exact mt (namesLength_line h).mp (hbefore h hh)
    rw [lines_head, headLines, hheaders, List.map_cons, List.map_append, List.map_cons,
      List.map_append, List.map_cons, List.map_map, ← List.cons_append, List.append_assoc,
      List.find?_append]
    have hcomp : String.ofList ∘ Header.line = fun h => String.ofList h.line := rfl
    rw [hcomp, hnone, Option.none_or, List.cons_append,
      List.find?_cons_of_pos ((namesLength_line len).mpr hlen)]
  rw [Vexfs.contentLength, hfind, Option.bind_some, String.toList_ofList, length_find hnumber]
  split
  · rfl
  · rfl

omit [CaseMaps] in
theorem after_head (text : List Char) :
  Parts.after endOfHeaders (r.head ++ text) = some text
  := by
  rw [head_append]
  apply after_endOfHeaders (List.cons_ne_nil _ _)
  intro l hl
  obtain ⟨hne, hbreak⟩ := r.headLines_unbroken l hl
  exact ⟨hne, fun hmem => (hbreak '\r' hmem).1 rfl⟩

/-- The method and the path that the daemon finds. -/
theorem parseRequest_head (text : List Char) :
  parseRequest (String.ofList (r.head ++ text))
    = ⟨"POST", apiFile ++ r.name, bodyStr (String.ofList (r.head ++ text))⟩
  := by
  have hpost : ∀ c ∈ post, isWhitespace c = false := by simp [post, isWhitespace]
  have htarget : ∀ c ∈ r.target, isWhitespace c = false := by
    intro c hc
    obtain hc | hc := List.mem_append.mp hc
    · have hfile : ∀ c ∈ apiFile.toList, isWhitespace c = false := by
        simp [apiFile, isWhitespace]
      exact hfile c hc
    · exact r.name_space c hc
  have hsplit : splitWhitespace (String.ofList r.requestLine)
      = "POST" :: (apiFile ++ r.name) :: splitWhitespace r.version := by
    rw [splitWhitespace, String.toList_ofList, requestLine,
      List.splitOnP_append_cons_of_forall_mem hpost ' ' (by decide),
      List.splitOnP_append_cons_of_forall_mem htarget ' ' (by decide),
      List.filter_cons_of_pos (by decide), List.filter_cons_of_pos (by simp [target, apiFile]),
      List.map_cons, List.map_cons, ← splitWhitespace, target, ← String.toList_append,
      String.ofList_toList]
    rfl
  have hmethod : CaseMaps.toUppercase "POST" = "POST" :=
    CaseMaps.uppercase_ascii "POST" (by simp)
  rw [parseRequest, lines_head, headLines, List.map_cons, List.cons_append, List.headD_cons,
    hsplit, List.headD_cons, List.tail_cons, List.headD_cons, hmethod]

/-! ### What the daemon writes -/

omit [CaseMaps] in
theorem prefix_of_getTo {cs p : List Char} {n : ℕ} (h : getTo cs n = some p) :
  p <+: cs
  := by
  induction cs, n using getTo.induct generalizing p with
  | case1 cs =>
      rw [getTo] at h
      obtain rfl := Option.some.inj h
      exact List.nil_prefix
  | case2 n => cases h
  | case3 c cs n hle ih =>
      rw [getTo, if_pos hle] at h
      obtain ⟨q, hq, rfl⟩ := Option.map_eq_some_iff.mp h
      exact List.cons_prefix_cons.mpr ⟨rfl, ih hq⟩
  | case4 c cs n hgt =>
      rw [getTo, if_neg hgt] at h
      cases h

omit [CaseMaps] in
/-- A text has as many bytes as it has. -/
theorem getTo_utf8Len (cs : List Char) :
  getTo cs (utf8Len cs) = some cs
  := by
  induction cs with
  | nil => rfl
  | cons c cs ih =>
      have hpos := c.utf8Size_pos
      rw [utf8Len_cons]
      obtain ⟨n, hn⟩ := Nat.exists_eq_add_of_le' (by omega : 1 ≤ c.utf8Size + utf8Len cs)
      rw [hn, getTo, if_pos (by omega), ← hn, Nat.add_sub_cancel_left, ih]
      rfl

/-- A body that was read is written as it is. -/
theorem bodyStr_head_body (h : utf8Len r.body.toList < 2 ^ 64) :
  bodyStr (String.ofList (r.head ++ r.body.toList)) = r.body
  := by
  rw [bodyStr, contentLength_head, if_pos h, String.toList_ofList, after_head, utf8Len_append,
    Nat.min_eq_left (Nat.le_add_left _ _), Option.getD_some, getTo_utf8Len, Option.getD_some,
    String.ofList_toList]

/-- What is written begins what follows the head. -/
theorem begins_bodyStr_head (text : List Char) :
  (bodyStr (String.ofList (r.head ++ text))).toList <+: text
  := by
  rw [bodyStr, String.toList_ofList, String.toList_ofList, after_head, Option.getD_some]
  cases h : getTo text (min (Vexfs.contentLength (String.ofList (r.head ++ text)))
      (utf8Len (r.head ++ text))) with
  | none => exact List.nil_prefix
  | some p => exact prefix_of_getTo h

omit [CaseMaps] in
theorem path_ne_telemetry (name : String) :
  apiFile ++ name ≠ "/api/telemetry"
  := by
  intro h
  have hpre : apiFile.toList <+: "/api/telemetry".toList := by
    rw [← h, String.toList_append]
    exact List.prefix_append _ _
  revert hpre
  decide

omit [CaseMaps] in
theorem route_post (mountpoint body : String) (name : String) :
  route mountpoint ⟨"POST", apiFile ++ name, body⟩
    = .write (join mountpoint (urldecode name)) body
  := by
  have hoptions : "POST" ≠ "OPTIONS" := by decide
  have hget : "POST" ≠ "GET" := by decide
  rw [route, if_neg hoptions, if_neg (path_ne_telemetry name), if_neg fun h => hget h.2,
    stripPrefix_append]
  rfl

/-- When the read has all of the head, the daemon writes what it found of the body. -/
theorem handle_take (mountpoint : String) {n : ℕ} (hhead : utf8Len r.head ≤ n) :
  handle mountpoint (r.bytes.take n)
    = .write (join mountpoint (urldecode r.name)) (bodyStr (String.ofList (r.head
        ++ (fromUtf8Lossy ((encode r.body.toList).take (n - utf8Len r.head))).toList)))
  := by
  have htake : r.bytes.take n
      = encode r.head ++ (encode r.body.toList).take (n - utf8Len r.head) := by
    rw [bytes, encode_append, List.take_append, length_encode,
      List.take_of_length_le (by rwa [length_encode])]
  have hne : r.bytes.take n ≠ [] := by
    rw [htake]
    apply List.append_ne_nil_of_left_ne_nil
    rw [← List.length_pos_iff, length_encode, head, utf8Len_append]
    apply Nat.add_pos_right
    decide
  have hraw : fromUtf8Lossy (r.bytes.take n) = String.ofList (r.head
      ++ (fromUtf8Lossy ((encode r.body.toList).take (n - utf8Len r.head))).toList) := by
    rw [← fromUtf8Lossy_append, String.ofList_toList, htake]
  rw [handle, if_neg hne, hraw, parseRequest_head, route_post]

/-- The body is saved, or nothing is written. -/
def Answered (mountpoint : String) (a : Action) : Prop :=
  a = .write (join mountpoint (urldecode r.name)) r.body ∨ a = .methodNotAllowed

/-- A request is saved exactly when the read has all of it, or lacks the end of a replacement
character that ends the body. -/
theorem handle_post_iff (mountpoint : String) {n : ℕ} (hhead : utf8Len r.head ≤ n)
    (hn : n ≤ bufSize) :
  r.Answered mountpoint (handle mountpoint (r.bytes.take n))
    ↔ r.bytes.length ≤ n
      ∨ (∃ x, r.body.toList = x ++ [Char.ofNat 0xFFFD]) ∧ r.bytes.length ≤ n + 2
  := by
  have hlength : r.bytes.length = utf8Len r.head + utf8Len r.body.toList := by
    rw [bytes, length_encode, utf8Len_append]
  have hreplacement : (Char.ofNat 0xFFFD).utf8Size = 3 := by decide
  rw [handle_take r mountpoint hhead, hlength]
  constructor
  · intro h
    have hbody := (Action.write.inj (h.resolve_right fun h => by cases h)).2
    have hpre := r.begins_bodyStr_head
      (fromUtf8Lossy ((encode r.body.toList).take (n - utf8Len r.head))).toList
    rw [hbody] at hpre
    -- What was read begins with the body, so at most its last character was replaced.
    obtain ⟨x, y, hxy, hle, hx⟩ | ⟨x, c, y, hxy, hlt, hx⟩ :=
      fromUtf8Lossy_take r.body.toList (n - utf8Len r.head)
    · rw [hx, hxy] at hpre
      have hnil : y = [] := by
        have hlen := hpre.length_le
        rw [List.length_append] at hlen
        exact List.length_eq_zero_iff.mp (by omega)
      left
      rw [hxy, hnil, List.append_nil]
      omega
    · rw [hx, hxy, List.prefix_append_right_inj, List.cons_prefix_cons] at hpre
      obtain ⟨rfl, hnil⟩ := hpre
      obtain rfl := List.prefix_nil.mp hnil
      right
      use ⟨x, hxy⟩
      rw [hxy, utf8Len_append, utf8Len_cons, hreplacement]
      rw [show utf8Len [] = 0 from rfl]
      omega
  · intro h
    left
    have htext : (fromUtf8Lossy ((encode r.body.toList).take (n - utf8Len r.head))).toList
        = r.body.toList := by
      by_cases hall : utf8Len r.head + utf8Len r.body.toList ≤ n
      · rw [List.take_of_length_le (by rw [length_encode]; omega)]
        have hdecode := fromUtf8Lossy_append r.body.toList []
        rw [List.append_nil] at hdecode
        exact hdecode.trans (List.append_nil _)
      · obtain ⟨⟨x, hx⟩, hle⟩ := h.resolve_left hall
        have hlen : utf8Len r.body.toList = utf8Len x + 3 := by
          rw [hx, utf8Len_append, utf8Len_cons, hreplacement]
          rfl
        rw [hx]
        apply fromUtf8Lossy_take_concat
        · omega
        · omega
    have hsmall : utf8Len r.body.toList < 2 ^ 64 := by
      rw [bufSize] at hn
      omega
    rw [htext, bodyStr_head_body r hsmall]

end PostRequest

end Reading

/-! ### A request -/

namespace PostRequest

def hostField : Header where
  name := "Host"
  value := " localhost"
  ascii := by simp
  noColon := by simp
  unbroken := by simp

def lengthField : Header where
  name := "Content-Length"
  value := " 2"
  ascii := by simp
  noColon := by simp
  unbroken := by simp

/-- Save two letters. -/
def saveHi : PostRequest where
  name := "hi.txt"
  version := "HTTP/1.1"
  headers := [hostField, lengthField]
  body := "hi"
  name_space := by simp [isWhitespace]
  version_unbroken := by simp
  contentLength := by
    refine ⟨[hostField], lengthField, [], rfl, ?_, ?_, ?_⟩
    · intro h hh
      obtain rfl := List.mem_singleton.mp hh
      rw [Header.IsContentLength]
      decide
    · rw [Header.IsContentLength]
      decide
    · have htrim : (trim lengthField.value).toList = ['2'] := by
        simp [trim, lengthField, isWhitespace]
      have hlength : utf8Len "hi".toList = 2 := by decide
      rw [Header.IsNumber, htrim, hlength]
      simp [Nat.ofDigitChars]

/-- The read has all of the request. -/
theorem handle_post_saveHi :
  saveHi.Answered "/mnt" (@handle CaseMaps.ascii "/mnt" (saveHi.bytes.take 200))
    ↔ saveHi.bytes.length ≤ 200
      ∨ (∃ x, saveHi.body.toList = x ++ [Char.ofNat 0xFFFD])
        ∧ saveHi.bytes.length ≤ 200 + 2
  := @handle_post_iff CaseMaps.ascii saveHi "/mnt" 200 (by decide +kernel) (by decide)

/-- A read of the head alone empties the file. -/
theorem not_handle_post :
  ¬ ∀ [CaseMaps] (r : PostRequest) (mountpoint : String) (n : ℕ), utf8Len r.head ≤ n →
    n ≤ bufSize → r.Answered mountpoint (handle mountpoint (r.bytes.take n))
  := by
  intro h
  have hempty := @h CaseMaps.ascii saveHi "/mnt" (utf8Len saveHi.head) (Nat.le_refl _)
    (by decide +kernel)
  rw [@handle_take CaseMaps.ascii saveHi "/mnt" _ (Nat.le_refl _), Nat.sub_self,
    List.take_zero] at hempty
  have hbody := (Action.write.inj (hempty.resolve_right fun h => by cases h)).2
  have hpre := @begins_bodyStr_head CaseMaps.ascii saveHi (fromUtf8Lossy []).toList
  rw [hbody] at hpre
  revert hpre
  decide

end PostRequest

end Vexfs
