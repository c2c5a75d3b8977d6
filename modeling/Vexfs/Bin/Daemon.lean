import Vexfs.Bin.UrlDecode
import Vexfs.Bytes.Decimal
import Vexfs.Bytes.Truncation
import Vexfs.Collections.Parts
import Vexfs.Collections.Walk
import Vexfs.Fs.Tag

/-!
# Requests to the daemon

The daemon takes what one read of the connection gives, looks for the method, the path, the
length and the body of a request in it, and reads, writes, deletes or creates the file that the
path names, which is percent-encoded and relative to the mountpoint.

Names are not checked.  A name may be absolute, and may climb out of the mountpoint
(`inside_iff`).
-/

namespace Vexfs

open Bytes

/-! ### Texts -/

/-- The case maps of Unicode, of which only what they do to ASCII characters is known. -/
class CaseMaps where
  toUppercase : String → String
  toLowercase : String → String
  uppercase_ascii : ∀ s : String, (∀ c ∈ s.toList, c.toNat < 128) →
    toUppercase s = String.ofList (s.toList.map Char.toUpper)
  /-- ASCII characters do not depend on what follows them. -/
  lowercase_ascii : ∀ (cs : List Char) (s : String), (∀ c ∈ cs, c.toNat < 128) →
    cs <+: s.toList → cs.map Char.toLower <+: (toLowercase s).toList

/-- The case maps for ASCII characters only. -/
@[reducible]
def CaseMaps.ascii : CaseMaps where
  toUppercase s := String.ofList (s.toList.map Char.toUpper)
  toLowercase s := String.ofList (s.toList.map Char.toLower)
  uppercase_ascii _ _ := rfl
  lowercase_ascii cs s _ h := by
    rw [String.toList_ofList]
    exact h.map Char.toLower

def splitWhitespace (s : String) : List String :=
  ((s.toList.splitOnP isWhitespace).filter (· ≠ [])).map String.ofList

/-- The first `n` bytes of a text, if they are characters of it. -/
def getTo : List Char → ℕ → Option (List Char)
  | _, 0 => some []
  | [], _ + 1 => none
  | c :: cs, n + 1 =>
      if c.utf8Size ≤ n + 1 then (getTo cs (n + 1 - c.utf8Size)).map (c :: ·) else none

/-! ### Requests -/

/-- How many bytes the daemon reads at most. -/
def bufSize : ℕ := 262144

structure HttpRequest where
  method : String
  path : String
  body : String
deriving DecidableEq

def endOfHeaders : List Char := ['\r', '\n', '\r', '\n']

section

variable [CaseMaps]

def namesLength (line : String) : Bool :=
  "content-length:".toList <+: (CaseMaps.toLowercase line).toList

/-- The length in the first line that names one. -/
def contentLength (raw : String) : ℕ :=
  (((lines raw).find? namesLength).bind fun line =>
    (Parts.after [':'] line.toList).bind fun value =>
      parseU64 (trim (String.ofList value)).toList).getD 0

/-- What follows the headers, up to the length.  It is empty when the length is more than what
was read, or ends within a character. -/
def bodyStr (raw : String) : String :=
  String.ofList ((getTo ((Parts.after endOfHeaders raw.toList).getD [])
    (min (contentLength raw) (utf8Len raw.toList))).getD [])

def parseRequest (raw : String) : HttpRequest :=
  let parts := splitWhitespace ((lines raw).headD "")
  { method := CaseMaps.toUppercase (parts.headD "")
    path := parts.tail.headD "/"
    body := bodyStr raw }

end

/-! ### Paths -/

/-- Join a path to a base.  An absolute path replaces the base. -/
def join (base path : String) : String :=
  if path.toList.head? = some '/' then path
  else if base ≠ "" ∧ base.toList.getLast? ≠ some '/' then
    String.ofList (base.toList ++ '/' :: path.toList)
  else String.ofList (base.toList ++ path.toList)

/-- What the daemon does for a request. -/
inductive Action where
  | readToString (path : String)
  | write (path contents : String)
  /-- Remove a file, or a directory with all it has. -/
  | delete (path : String)
  | createDir (path : String)
  | methodNotAllowed
  /-- What requests do that are not about one file or directory. -/
  | other
deriving DecidableEq

/-- The path of the file or directory that an action is about. -/
def Action.path : Action → Option String
  | .readToString path => some path
  | .write path _ => some path
  | .delete path => some path
  | .createDir path => some path
  | .methodNotAllowed => none
  | .other => none

def apiFile : String := "/api/file/"

def apiDir : String := "/api/dir/"

def fileAction (mountpoint : String) (r : HttpRequest) (name : String) : Action :=
  let fpath := join mountpoint (urldecode name)
  if r.method = "GET" then .readToString fpath
  else if r.method = "POST" then .write fpath r.body
  else if r.method = "DELETE" then .delete fpath
  else .methodNotAllowed

def dirAction (mountpoint : String) (r : HttpRequest) (name : String) : Action :=
  let dpath := join mountpoint (urldecode name)
  if r.method = "POST" then .createDir dpath else .methodNotAllowed

def stripPrefix (pre s : String) : Option String :=
  if pre.toList <+: s.toList then some (String.ofList (s.toList.drop pre.toList.length)) else none

def route (mountpoint : String) (r : HttpRequest) : Action :=
  if r.method = "OPTIONS" then .other
  else if r.path = "/api/telemetry" then .other
  else if r.path = "/api/files" ∧ r.method = "GET" then .other
  else
    match stripPrefix apiFile r.path with
    | some name => fileAction mountpoint r name
    | none =>
        match stripPrefix apiDir r.path with
        | some name => dirAction mountpoint r name
        | none => .other

/-- Answer what one read of the connection gave. -/
def handle [CaseMaps] (mountpoint : String) (buf : List UInt8) : Action :=
  if buf = [] then .other else route mountpoint (parseRequest (fromUtf8Lossy buf))

/-! ### Where paths lead -/

/-- What a component of a path does. -/
def component (name : List Char) : Walk.Move (List Char) :=
  if name = [] ∨ name = ['.'] then .stay
  else if name = ['.', '.'] then .up
  else .down name

def moves (path : List Char) : List (Walk.Move (List Char)) :=
  (path.splitOn '/').map component

/-- Where a path leads, from the current directory if it is relative. -/
def resolve (cwd : List (List Char)) (path : String) : List (List Char) :=
  Walk.walk (if path.toList.head? = some '/' then [] else cwd) (moves path.toList)

/-- A path leads to the mountpoint or below it. -/
def Inside (cwd : List (List Char)) (mountpoint path : String) : Prop :=
  resolve cwd mountpoint <+: resolve cwd path

/-- A name does not leave the mountpoint: an absolute one begins with the way to the
mountpoint, and another one goes down again what it climbs of that way. -/
def StaysInside (cwd : List (List Char)) (mountpoint name : String) : Prop :=
  if name.toList.head? = some '/' then
    resolve cwd mountpoint <+: (Walk.climb (moves name.toList)).down
  else
    (resolve cwd mountpoint).rtake (Walk.climb (moves name.toList)).up
      <+: (Walk.climb (moves name.toList)).down

/-- The moves of a path that is joined to a base come behind those of the base. -/
theorem walk_moves_append (place : List (List Char)) (base path : List Char) :
  Walk.walk place (moves (base ++ '/' :: path))
    = Walk.walk (Walk.walk place (moves base)) (moves path)
  := by
  rw [moves, List.splitOn_append_cons_self, List.map_append]
  exact Walk.walk_append _ _ _

theorem resolve_join_of_absolute {cwd : List (List Char)} {base path : String}
    (h : path.toList.head? = some '/') :
  resolve cwd (join base path) = Walk.walk [] (moves path.toList)
  := by
  rw [join, if_pos h, resolve, if_pos h]

/-- A relative path goes on from where the base leads. -/
theorem resolve_join {cwd : List (List Char)} {base path : String}
    (h : path.toList.head? ≠ some '/') :
  resolve cwd (join base path) = Walk.walk (resolve cwd base) (moves path.toList)
  := by
  rw [join, if_neg h]
  by_cases hempty : base.toList = []
  · obtain rfl := String.toList_eq_nil_iff.mp hempty
    rw [if_neg fun hb => hb.1 rfl, resolve, String.toList_ofList, hempty, List.nil_append,
      if_neg h]
    rfl
  · have hhead (rest : List Char) : (base.toList ++ rest).head? = base.toList.head? :=
      List.head?_append_of_ne_nil _ hempty
    split
    · rw [resolve, String.toList_ofList, hhead, walk_moves_append]
      rfl
    · next hsep =>
      have hlast : base.toList.getLast? = some '/' := by
        by_contra hlast
        exact hsep ⟨fun hb => hempty (String.toList_eq_nil_iff.mpr hb), hlast⟩
      obtain ⟨b, hb⟩ := List.getLast?_eq_some_iff.mp hlast
      rw [resolve, resolve, String.toList_ofList, hhead, hb, List.append_assoc,
        List.singleton_append, walk_moves_append, walk_moves_append]
      rfl

/-- Joining a name to the mountpoint stays inside exactly when the name does. -/
theorem inside_join_iff (cwd : List (List Char)) (mountpoint name : String) :
  Inside cwd mountpoint (join mountpoint name) ↔ StaysInside cwd mountpoint name
  := by
  rw [Inside, StaysInside]
  split
  · next h => rw [resolve_join_of_absolute h, Walk.walk_root]
  · next h => rw [resolve_join h, Walk.prefix_walk_iff]

/-! ### What requests reach -/

theorem stripPrefix_append (pre name : String) :
  stripPrefix pre (pre ++ name) = some name
  := by
  rw [stripPrefix, String.toList_append, if_pos (List.prefix_append _ _), List.drop_left,
    String.ofList_toList]

/-- A path to a directory is none to a file. -/
theorem stripPrefix_apiFile (name : String) :
  stripPrefix apiFile (apiDir ++ name) = none
  := by
  rw [stripPrefix, String.toList_append, if_neg]
  intro h
  have htake : apiFile.toList.take 6 <+: apiDir.toList :=
    List.prefix_of_prefix_length_le ((List.take_prefix _ _).trans h) (List.prefix_append _ _)
      (by decide)
  revert htake
  decide

theorem path_fileAction {mountpoint : String} {r : HttpRequest} {name path : String}
    (h : (fileAction mountpoint r name).path = some path) :
  path = join mountpoint (urldecode name)
  := by
  unfold fileAction at h
  split at h
  · exact (Option.some.inj h).symm
  · split at h
    · exact (Option.some.inj h).symm
    · split at h
      · exact (Option.some.inj h).symm
      · cases h

theorem path_dirAction {mountpoint : String} {r : HttpRequest} {name path : String}
    (h : (dirAction mountpoint r name).path = some path) :
  path = join mountpoint (urldecode name)
  := by
  unfold dirAction at h
  split at h
  · exact (Option.some.inj h).symm
  · cases h

/-- The path of an action is what the name in the request is decoded to, joined to the
mountpoint. -/
theorem path_route {mountpoint : String} {r : HttpRequest} {name path : String}
    (hname : r.path = apiFile ++ name ∨ r.path = apiDir ++ name)
    (h : (route mountpoint r).path = some path) :
  path = join mountpoint (urldecode name)
  := by
  unfold route at h
  split at h
  · cases h
  · split at h
    · cases h
    · split at h
      · cases h
      · obtain hname | hname := hname
        · rw [hname, stripPrefix_append] at h
          exact path_fileAction h
        · rw [hname, stripPrefix_apiFile, stripPrefix_append] at h
          exact path_dirAction h

/-- What a request reads, writes, deletes or creates is inside the mountpoint exactly when the
decoded name does not leave it. -/
theorem route_inside_iff (cwd : List (List Char)) {mountpoint : String} {r : HttpRequest}
    {name path : String} (hname : r.path = apiFile ++ name ∨ r.path = apiDir ++ name)
    (h : (route mountpoint r).path = some path) :
  Inside cwd mountpoint path ↔ StaysInside cwd mountpoint (urldecode name)
  := by
  rw [path_route hname h]
  exact inside_join_iff cwd mountpoint (urldecode name)

/-- A name with an encoded space stays inside. -/
theorem route_inside_space :
  Inside [] "/mnt/vexfs" "/mnt/vexfs/my notes.txt"
    ↔ StaysInside [] "/mnt/vexfs" (urldecode "my%20notes.txt")
  := route_inside_iff [] (r := ⟨"GET", "/api/file/my%20notes.txt", ""⟩) (Or.inl (by decide))
    (by decide)

/-- Two dots and an encoded slash reach a file beside the mountpoint. -/
theorem not_route_inside :
  ¬ ∀ (cwd : List (List Char)) (mountpoint : String) (r : HttpRequest) (name path : String),
    (r.path = apiFile ++ name ∨ r.path = apiDir ++ name) →
      (route mountpoint r).path = some path → Inside cwd mountpoint path
  := by
  intro h
  have hsecret := h [] "/mnt/vexfs" ⟨"GET", "/api/file/..%2Fsecret", ""⟩ "..%2Fsecret"
    "/mnt/vexfs/../secret" (Or.inl (by decide)) (by decide)
  rw [Inside] at hsecret
  revert hsecret
  decide

end Vexfs
