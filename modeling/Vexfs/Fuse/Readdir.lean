import Vexfs.Collections.Paging
import Vexfs.Fuse.Roomy

/-!
# Reading a directory

`readdir` lists a directory anew at every call and continues at a position of this list, the
cookie of the last entry that was accepted.  Changes between the calls move the entries behind
them to other positions: an entry that is there all the time is returned exactly once when it
has moved back over the position of a call as often as it has moved ahead over it
(`readdir_once_iff`).
-/

namespace Vexfs

open Paging

/-! ### Listings -/

def searchFilename : String := ".vexfs-search"

def telemetryFilename : String := ".vexfs-telemetry.json"

def askFilename : String := ".vexfs-ask"

def contextFilename : String := ".vexfs-context"

def jarvisFilename : String := ".vexfs-jarvis"

/-- An entry of a listing: the directory itself, its parent, a virtual file, or an entry of
the index. -/
inductive DirEntry where
  | dot (ino : UInt64)
  | dotDot (ino : UInt64)
  | virtual (ino : UInt64) (name : String)
  | child (ino : UInt64) (isDir : Bool) (name : String)
deriving DecidableEq

/-- What the kernel is told of an entry: its inode number, whether it is a directory, and its
name. -/
def DirEntry.reply : DirEntry → UInt64 × Bool × String
  | .dot ino => (ino, true, ".")
  | .dotDot ino => (ino, true, "..")
  | .virtual ino name => (ino, false, name)
  | .child ino isDir name => (ino, isDir, name)

/-- The virtual files, which are in the root. -/
def virtualEntries : List DirEntry :=
  [.virtual searchIno searchFilename, .virtual telemetryIno telemetryFilename,
    .virtual askIno askFilename, .virtual contextIno contextFilename,
    .virtual jarvisIno jarvisFilename]

namespace VexFS

variable {fs : VexFS} {ino : UInt64}

/-- The entries before those of the index. -/
def headEntries (fs : VexFS) (ino : UInt64) : List DirEntry :=
  let parentOfIno := if ino = rootIno then rootIno
    else ((fs.files.get ino).map VexFile.parentIno).getD rootIno
  .dot ino :: .dotDot parentOfIno :: if ino = rootIno then virtualEntries else []

/-- The entries of the index. -/
def childEntries (fs : VexFS) (ino : UInt64) : List DirEntry :=
  (fs.index.listDir ino).map fun e => .child e.2.ino e.2.isDir e.1.name

def dirEntries (fs : VexFS) (ino : UInt64) : List DirEntry :=
  fs.headEntries ino ++ fs.childEntries ino

/-- List a directory from a position on, with the cookies of the entries, until `room` entries
were accepted. -/
def readdir (fs : VexFS) (ino : UInt64) (offset room : ℕ) : List (DirEntry × ℕ) :=
  (((fs.dirEntries ino).zipIdx.drop offset).take room).map fun p => (p.1, p.2 + 1)

/-- An entry of the index is listed, unless its name is past the end of the scan. -/
theorem mem_childEntries_iff {isDir : Bool} {child : UInt64} {name : String} :
  .child child isDir name ∈ fs.childEntries ino ↔ name ≤ Key.lastName
    ∧ ∃ val, fs.index.get ino name = some val ∧ val.ino = child ∧ val.isDir = isDir
  := by
  rw [childEntries, fs.index.listDir_eq, List.mem_map]
  constructor
  · rintro ⟨⟨key, val⟩, hmem, heq⟩
    obtain ⟨hentry, hkey⟩ := List.mem_filter.mp hmem
    obtain ⟨rfl, hname⟩ := of_decide_eq_true hkey
    obtain ⟨rfl, rfl, rfl⟩ := DirEntry.child.inj heq
    refine ⟨hname, val, ?_, rfl, rfl⟩
    rw [Index.get_eq]
    exact (SortedMap.mem_iff_lookup fs.index.increasing).mp hentry
  · rintro ⟨hname, val, hget, rfl, rfl⟩
    rw [Index.get_eq] at hget
    use (⟨ino, name⟩, val)
    have hentry := (SortedMap.mem_iff_lookup fs.index.increasing).mpr hget
    exact ⟨List.mem_filter.mpr ⟨hentry, decide_eq_true ⟨rfl, hname⟩⟩, rfl⟩

/-- The listing of a directory in which all names are. -/
theorem childEntries_of_entries (dir : UInt64) {es : List (Key × Value)}
    (h : fs.index.entries = es)
    (hall : ∀ e ∈ es, e.1.parentIno = dir ∧ e.1.name ≤ Key.lastName) :
  fs.childEntries dir = es.map fun e => .child e.2.ino e.2.isDir e.1.name
  := by
  have hself : (es.filter fun e => decide (e.1.parentIno = dir ∧ e.1.name ≤ Key.lastName)) = es :=
    List.filter_eq_self.mpr fun e he => decide_eq_true (hall e he)
  rw [childEntries, fs.index.listDir_eq, h, hself]

theorem nodup_childEntries (fs : VexFS) (ino : UInt64) :
  (fs.childEntries ino).Nodup
  := by
  have hsorted : ((fs.index.listDir ino)).Pairwise fun e e' => e.1 < e'.1 := by
    rw [fs.index.listDir_eq]
    exact List.Pairwise.filter _ fs.index.increasing
  have hparent : ∀ e ∈ fs.index.listDir ino, e.1.parentIno = ino := by
    intro e he
    rw [fs.index.listDir_eq] at he
    exact (of_decide_eq_true (List.mem_filter.mp he).2).1
  apply List.pairwise_map.mpr
  apply hsorted.imp_of_mem
  rintro ⟨⟨parent, name⟩, val⟩ ⟨⟨parent', name'⟩, val'⟩ he he' hlt heq
  obtain ⟨-, -, hname⟩ := DirEntry.child.inj heq
  obtain rfl : parent = ino := hparent _ he
  obtain rfl : parent' = parent := hparent _ he'
  obtain rfl : name = name' := hname
  exact absurd hlt (lt_irrefl _)

theorem nodup_headEntries (fs : VexFS) (ino : UInt64) :
  (fs.headEntries ino).Nodup
  := by
  have hvirtual : virtualEntries.Nodup := by decide
  unfold headEntries
  dsimp only
  split
  · apply List.nodup_cons.mpr
    use by simp [virtualEntries]
    apply List.nodup_cons.mpr
    use by simp [virtualEntries]
  · simp

/-- No entry is listed twice. -/
theorem nodup_dirEntries (fs : VexFS) (ino : UInt64) :
  (fs.dirEntries ino).Nodup
  := by
  apply (fs.nodup_headEntries ino).append (fs.nodup_childEntries ino)
  intro entry hhead hchild
  obtain ⟨e, -, rfl⟩ := List.mem_map.mp hchild
  unfold headEntries at hhead
  dsimp only at hhead
  split at hhead <;> simp [virtualEntries] at hhead

/-! ### One call -/

/-- A call as a page of the listing. -/
def page (fs : VexFS) (ino : UInt64) (room : ℕ) : Page DirEntry where
  view := fs.dirEntries ino
  room

theorem readdir_entries (fs : VexFS) (ino : UInt64) (offset room : ℕ) :
  (fs.readdir ino offset room).map Prod.fst = (fs.page ino room).elements offset
  := by
  have hfst : Prod.fst ∘ (fun p : DirEntry × ℕ => (p.1, p.2 + 1)) = Prod.fst := rfl
  rw [readdir, List.map_map, hfst, List.map_take, List.map_drop, List.zipIdx_map_fst]
  rfl

/-- The position the next call continues at: the cookie of the last entry. -/
def nextOffset (offset : ℕ) (entries : List (DirEntry × ℕ)) : ℕ :=
  (entries.getLast?.map Prod.snd).getD offset

theorem nextOffset_readdir (fs : VexFS) (ino : UInt64) (offset room : ℕ) :
  nextOffset offset (fs.readdir ino offset room) = (fs.page ino room).next offset
  := by
  have hlength : (fs.readdir ino offset room).length
      = ((fs.page ino room).elements offset).length := by
    rw [← readdir_entries, List.length_map]
  rw [Page.next, ← hlength, nextOffset]
  cases hlen : (fs.readdir ino offset room).length with
  | zero =>
      rw [List.length_eq_zero_iff.mp hlen, List.getLast?_nil, Option.map_none, Option.getD_none,
        Nat.add_zero]
  | succ n =>
      have hlast : (fs.readdir ino offset room)[n]? = some _ :=
        List.getElem?_eq_getElem (by omega : n < (fs.readdir ino offset room).length)
      rw [List.getLast?_eq_getElem?, hlen, Nat.add_sub_cancel, hlast, Option.map_some,
        Option.getD_some]
      simp only [readdir, List.getElem_map, List.getElem_take, List.getElem_drop,
        List.getElem_zipIdx]
      omega

end VexFS

/-! ### Scans -/

/-- The requests that change names. -/
def Request.ChangesNames : Request → Prop
  | .create _ _ | .mkdir _ _ | .unlink _ _ | .rename _ _ _ _ => True
  | _ => False

/-- A scan of a directory in a session: where the next call continues, the calls so far, each
with the state it was made in and the room it had, the entries that were returned, and all
states since before the first call. -/
structure DirScan where
  session : Session
  offset : ℕ
  calls : List (VexFS × ℕ)
  returned : List DirEntry
  states : List VexFS

namespace DirScan

def start (s : Session) : DirScan where
  session := s
  offset := 0
  calls := []
  returned := []
  states := [s.fs]

/-- The next call of a scan. -/
def call (scan : DirScan) (dir : UInt64) (room : ℕ) : DirScan :=
  let entries := scan.session.fs.readdir dir scan.offset room
  { scan with
    offset := VexFS.nextOffset scan.offset entries
    calls := scan.calls ++ [(scan.session.fs, room)]
    returned := scan.returned ++ entries.map Prod.fst }

theorem offset_call (scan : DirScan) (dir : UInt64) (room : ℕ) :
  (scan.call dir room).offset = (scan.session.fs.page dir room).next scan.offset
  := scan.session.fs.nextOffset_readdir dir scan.offset room

theorem returned_call (scan : DirScan) (dir : UInt64) (room : ℕ) :
  (scan.call dir room).returned
    = scan.returned ++ (scan.session.fs.page dir room).elements scan.offset
  := by rw [call, VexFS.readdir_entries]

/-- The calls of a scan as pages of the listing. -/
def pages (scan : DirScan) (dir : UInt64) : List (Page DirEntry) :=
  scan.calls.map fun c => c.1.page dir c.2

/-- The last call of a scan has returned the rest of the listing. -/
def Done (scan : DirScan) (dir : UInt64) : Prop :=
  ∃ c, scan.calls.getLast? = some c ∧ (c.1.dirEntries dir).length ≤ scan.offset

/-- How often an entry has moved, between two calls, from before the position the second one
continues at to behind it. -/
def again (scan : DirScan) (dir : UInt64) (entry : DirEntry) : ℕ :=
  Paging.again entry 0 (scan.pages dir)

/-- How often an entry has moved, between two calls, from behind the position the second one
continues at to before it. -/
def missed (scan : DirScan) (dir : UInt64) (entry : DirEntry) : ℕ :=
  Paging.missed entry 0 (scan.pages dir)

variable [Crc32] [Zstd]

/-- A scan goes on with a call, or the names change. -/
inductive Step (dir : UInt64) : DirScan → DirScan → Prop where
  | call (scan : DirScan) (room : ℕ) : Step dir scan (scan.call dir room)
  | change (scan : DirScan) {env : Env} {request : Request} {reply : Reply} {s : Session}
      (hnames : request.ChangesNames) (hexec : scan.session.exec env request = .ok (reply, s)) :
      Step dir scan { scan with session := s, states := scan.states ++ [s.fs] }

variable {s : Session} {scan : DirScan} {dir : UInt64}

/-- What was returned is what was read by pages. -/
theorem returned_eq (h : Relation.ReflTransGen (Step dir) (start s) scan) :
  scan.returned = read 0 (scan.pages dir) ∧ scan.offset = stop 0 (scan.pages dir)
  := by
  induction h with
  | refl => exact ⟨rfl, rfl⟩
  | @tail scan _ _ hstep ih =>
      obtain ⟨hreturned, hoffset⟩ := ih
      cases hstep with
      | call room =>
          have hpages : (scan.call dir room).pages dir
              = scan.pages dir ++ [scan.session.fs.page dir room] :=
            List.map_append
          rw [hpages, read_concat, stop_concat, ← hreturned, ← hoffset]
          exact ⟨scan.returned_call dir room, scan.offset_call dir room⟩
      | change hnames hexec => exact ⟨hreturned, hoffset⟩

/-- The calls were made in states of the scan. -/
theorem mem_states (h : Relation.ReflTransGen (Step dir) (start s) scan) :
  scan.session.fs ∈ scan.states ∧ ∀ c ∈ scan.calls, c.1 ∈ scan.states
  := by
  induction h with
  | refl => exact ⟨List.mem_cons_self, fun c hc => by cases hc⟩
  | tail _ hstep ih =>
      obtain ⟨hnow, hcalls⟩ := ih
      cases hstep with
      | call room =>
          use hnow
          intro c hc
          obtain hc | hc := List.mem_append.mp hc
          · exact hcalls c hc
          · obtain rfl := List.mem_singleton.mp hc
            exact hnow
      | change hnames hexec =>
          use List.mem_append_right _ List.mem_cons_self
          exact fun c hc => List.mem_append_left _ (hcalls c hc)

/-- In a scan that is done, an entry of the directory that is there all the time is returned
exactly once when it has moved back over the position of a call as often as it has moved ahead
over it. -/
theorem readdir_once_iff {ino : UInt64} {isDir : Bool} {name : String}
    (h : Relation.ReflTransGen (Step dir) (start s) scan) (hdone : scan.Done dir)
    (hname : name ≤ Key.lastName)
    (hthere : ∀ fs ∈ scan.states, ∃ val, fs.index.get dir name = some val ∧ val.ino = ino
      ∧ val.isDir = isDir) :
  scan.returned.count (.child ino isDir name) = 1
    ↔ scan.missed dir (.child ino isDir name) = scan.again dir (.child ino isDir name)
  := by
  obtain ⟨hreturned, hoffset⟩ := returned_eq h
  obtain ⟨-, hcalls⟩ := mem_states h
  rw [hreturned]
  apply count_read_eq_one_iff
  · intro page hpage
    obtain ⟨c, -, rfl⟩ := List.mem_map.mp hpage
    exact c.1.nodup_dirEntries dir
  · intro page hpage
    obtain ⟨c, hc, rfl⟩ := List.mem_map.mp hpage
    apply List.mem_append_right
    exact VexFS.mem_childEntries_iff.mpr ⟨hname, hthere c.1 (hcalls c hc)⟩
  · obtain ⟨c, hlast, hend⟩ := hdone
    refine ⟨c.1.page dir c.2, ?_, ?_⟩
    · rw [pages, List.getLast?_map, hlast]
      rfl
    · rw [← hoffset]
      exact hend

/-- Removing an entry takes it out of the index, whatever it replies. -/
theorem entries_unlink (s : Session) (parent : UInt64) (name : String) :
  (s.unlink parent name).2.fs.index.entries
    = SortedMap.erase ⟨parent, name⟩ s.fs.index.entries
  := by
  have hperform : (s.unlink parent name).2 = s.perform (.unlink parent name) := by
    unfold Session.unlink
    split
    · rfl
    · split <;> rfl
  rw [hperform, Session.fs_perform, Call.run, ← Index.entries_remove, VexFS.unlink]
  split
  · next hremove => rw [hremove]
  · next hremove => split <;> rw [hremove]

omit [Crc32] [Zstd] in
/-- A fresh session whose root has the file `a`, with room for another one. -/
theorem exists_one_file :
  let _ := Crc32.ieee
  let _ := Zstd.refusing
  ∃ s i, FreshSession Storage.Image.empty 0 0 s
    ∧ s.fs.index.entries = [(⟨rootIno, "a"⟩, ⟨2, 0, false, i⟩)]
    ∧ s.fs.nextInode = 3
    ∧ s.fs.disk.Blank 1 ∧ s.fs.cache.Room 0
  := by
  intro _ _
  let blank := VexFS.new (DiskManager.format Storage.Image.empty 0 0)
  obtain ⟨s, i, -, hexec, hfs, hroom, hblank, -⟩ := Session.exec_create_of_blank
    (s := ⟨blank, []⟩) rootIno "a" rfl rfl
    (.format Storage.Image.empty 0 0) (by decide) (by decide)
    (FileCache.room_new (n := 0) (by decide)) Env.still
  refine ⟨s, i, .of_reachable (.exec _ _ .start hexec), ?_, ?_, hblank, hroom⟩
  · rw [hfs]
    exact blank.index.entries_insert rootIno "a" _
  · rw [hfs]
    rfl

omit [Crc32] [Zstd] in
/-- A scan of the root that is done at once returns its file once. -/
theorem readdir_once_one_file :
  let _ := Crc32.ieee
  let _ := Zstd.refusing
  ∃ s, FreshSession Storage.Image.empty 0 0 s
    ∧ ((start s).call rootIno 8).returned.count (.child 2 false "a") = 1
  := by
  intro _ _
  obtain ⟨s, i, hfresh, hentries, -⟩ := exists_one_file
  use s, hfresh
  have hchildren := VexFS.childEntries_of_entries rootIno hentries (by simp; decide)
  have hlist : s.fs.dirEntries rootIno
      = .dot rootIno :: .dotDot rootIno :: (virtualEntries ++ [.child 2 false "a"]) := by
    rw [VexFS.dirEntries, hchildren]
    rfl
  have hstep : Step rootIno (start s) ((start s).call rootIno 8) := .call (start s) 8
  apply (readdir_once_iff (.single hstep) ?_ (by decide) ?_).mpr rfl
  · refine ⟨(s.fs, 8), rfl, ?_⟩
    rw [offset_call, VexFS.page]
    dsimp only [start]
    rw [hlist]
    decide
  · intro fs hmem
    obtain rfl : fs = s.fs := List.mem_singleton.mp hmem
    refine ⟨⟨2, 0, false, i⟩, ?_, rfl, rfl⟩
    rw [Index.get_eq, hentries]
    rfl

omit [Crc32] [Zstd] in
/-- When the file before it is removed between two calls, a file is not returned at all. -/
theorem not_readdir_once :
  let _ := Crc32.ieee
  let _ := Zstd.refusing
  ¬ ∀ s, FreshSession Storage.Image.empty 0 0 s → ∀ dir scan,
      Relation.ReflTransGen (Step dir) (start s) scan → scan.Done dir → ∀ ino isDir name,
      (∀ fs ∈ scan.states, ∃ val, fs.index.get dir name = some val ∧ val.ino = ino
        ∧ val.isDir = isDir) →
      scan.returned.count (.child ino isDir name) = 1
  := by
  intro _ _ h
  obtain ⟨s, i, ⟨blank, hload, hreach⟩, hentries, hnext, hblank, hroom⟩ := exists_one_file
  have hfree : s.fs.index.get rootIno "b" = none := by
    rw [Index.get_eq, hentries]
    rfl
  obtain ⟨s₂, j, -, hexec₂, hfs₂, -⟩ := Session.exec_create_of_blank (s := s)
    rootIno "b" rfl hfree hblank (by decide) (by rw [hnext]; decide) hroom Env.still
  rw [hnext] at hfs₂
  let a : Key × Value := (⟨rootIno, "a"⟩, ⟨2, 0, false, i⟩)
  let b : Key × Value := (⟨rootIno, "b"⟩, ⟨3, 0, false, j⟩)
  have hab : (⟨rootIno, "a"⟩ : Key) < ⟨rootIno, "b"⟩ := by decide
  have hentries₂ : s₂.fs.index.entries = [a, b] := by
    have hlt : ∀ e ∈ [a], e.1 < (⟨rootIno, "b"⟩ : Key) :=
      List.forall_mem_singleton.mpr hab
    rw [hfs₂]
    dsimp only
    rw [Index.entries_insert, hentries]
    exact SortedMap.insert_append_right _ [] hlt
  let request : Request := .unlink rootIno "a"
  let s₃ := (s₂.perform (.request request)).unlink rootIno "a"
  have hexec₃ : s₂.exec Env.still request = .ok s₃ := rfl
  have hentries₃ : s₃.2.fs.index.entries = [b] := by
    have hgt : ∀ e ∈ [b], (⟨rootIno, "a"⟩ : Key) < e.1 :=
      List.forall_mem_singleton.mpr hab
    apply (entries_unlink _ rootIno "a").trans
    rw [Session.fs_perform]
    apply Eq.trans (congrArg (SortedMap.erase _) hentries₂)
    exact SortedMap.erase_cons_self hgt
  -- The first call ends with the file `a`, and nothing is left behind it for the second one.
  have ha : rootIno = rootIno ∧ "a" ≤ Key.lastName := by decide
  have hb : rootIno = rootIno ∧ "b" ≤ Key.lastName := by decide
  have hlist : s₂.fs.dirEntries rootIno = .dot rootIno :: .dotDot rootIno :: (virtualEntries
      ++ [.child 2 false "a", .child 3 false "b"]) := by
    rw [VexFS.dirEntries, VexFS.childEntries_of_entries rootIno hentries₂
      (List.forall_mem_cons.mpr ⟨ha, List.forall_mem_singleton.mpr hb⟩)]
    rfl
  have hlist' : s₃.2.fs.dirEntries rootIno
      = .dot rootIno :: .dotDot rootIno :: (virtualEntries ++ [.child 3 false "b"]) := by
    rw [VexFS.dirEntries, VexFS.childEntries_of_entries rootIno hentries₃
      (List.forall_mem_singleton.mpr hb)]
    rfl
  let scan := (start s₂).call rootIno 8
  let scan' : DirScan := { scan with session := s₃.2, states := scan.states ++ [s₃.2.fs] }
  have hnames : request.ChangesNames := trivial
  have hsteps : Relation.ReflTransGen (Step rootIno) (start s₂) (scan'.call rootIno 8) :=
    ((Relation.ReflTransGen.single (.call (start s₂) 8)).tail
      (.change scan hnames hexec₃)).tail (.call scan' 8)
  have hoffset : scan'.offset = 8 := by
    apply ((start s₂).offset_call rootIno 8).trans
    rw [VexFS.page]
    dsimp only [start]
    rw [hlist]
    rfl
  have hdone : (scan'.call rootIno 8).Done rootIno := by
    refine ⟨(s₃.2.fs, 8), rfl, ?_⟩
    rw [offset_call, hoffset, hlist']
    exact Nat.le_add_right 8 _
  have hthere : ∀ fs ∈ (scan'.call rootIno 8).states, ∃ val, fs.index.get rootIno "b" = some val
      ∧ val.ino = 3 ∧ val.isDir = false := by
    have hmem : ∀ fs ∈ [s₂.fs, s₃.2.fs], b ∈ fs.index.entries := by
      rw [List.forall_mem_cons, List.forall_mem_singleton, hentries₂, hentries₃]
      exact ⟨List.mem_cons_of_mem _ List.mem_cons_self, List.mem_cons_self⟩
    intro fs hfs
    refine ⟨b.2, ?_, rfl, rfl⟩
    rw [Index.get_eq]
    exact (SortedMap.mem_iff_lookup fs.index.increasing).mp (hmem fs hfs)
  have hcount := h s₂ ⟨blank, hload, .exec _ _ hreach hexec₂⟩ rootIno _ hsteps hdone 3 false "b"
    hthere
  have hfirst : scan'.returned = .dot rootIno :: .dotDot rootIno :: (virtualEntries
      ++ [.child 2 false "a"]) := by
    apply ((start s₂).returned_call rootIno 8).trans
    rw [VexFS.page]
    dsimp only [start]
    rw [hlist]
    rfl
  have hrest : (s₃.2.fs.page rootIno 8).elements 8 = [] := by
    rw [VexFS.page, hlist']
    rfl
  rw [returned_call, hoffset, hfirst] at hcount
  exact absurd ((congrArg _ (congrArg _ hrest)).symm.trans hcount) (by decide)

end DirScan

end Vexfs
