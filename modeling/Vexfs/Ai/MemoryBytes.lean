import Vexfs.Ai.Memory

/-!
# The `.mem` file

The bytes of an engine are seven sections behind each other.  Each section counts its entries,
and none writes more entries than its limit.  `Bounded` collects what an engine must satisfy so
that nothing is left out or cut; an engine that is reached by calls and is bounded is read back
(`fromBytes_run`), except for the session that has not ended.
-/

namespace Vexfs

open Bytes

namespace MemoryEngine

/-! ### Writing -/

/-- Strings are written as in the `.ai` file. -/
def pushStr (s : String) : List UInt8 := writeStr s

/-- The entries of a map, at most `limit` of them, behind their number. -/
def mapBytes {α β : Type} [LinearOrder α] (limit : ℕ) (write : α × β → List UInt8)
    (order : Arrangement α) (m : FiniteMap α β) : List UInt8 :=
  u32ToLe (UInt32.ofNat (min m.len limit)) ++ ((m.iter order).take limit).flatMap write

def fileBytes (f : UInt64 × String) : List UInt8 := u64ToLe f.1 ++ pushStr f.2

def sessionBytes (s : Session) : List UInt8 :=
  u64ToLe s.id ++ (u64ToLe s.startTs ++ (u64ToLe s.endTs ++ (u64ToLe s.totalWrites ++
    (u64ToLe s.totalReads ++ (u32ToLe (UInt32.ofNat (min s.filesTouched.length 100)) ++
      ((s.filesTouched.take 100).flatMap fileBytes ++ pushStr (s.focusFile.getD "")))))))

def countsBytes {n : ℕ} (counts : List.Vector UInt32 n) : List UInt8 :=
  counts.toList.flatMap u32ToLe

def temporalBytes (e : UInt64 × TemporalPattern) : List UInt8 :=
  u64ToLe e.1 ++ (countsBytes e.2.byHour ++ (countsBytes e.2.byDay ++ u32ToLe e.2.total))

def streakBytes (e : UInt64 × Streak) : List UInt8 :=
  u64ToLe e.1 ++ (u32ToLe e.2.currentDays ++ (u32ToLe e.2.longestDays ++
    u64ToLe e.2.lastTouchedDay))

def pairBytes (e : (UInt64 ×ₗ UInt64) × UInt32) : List UInt8 :=
  u64ToLe (ofLex e.1).1 ++ (u64ToLe (ofLex e.1).2 ++ u32ToLe e.2)

def dailyBytes (e : UInt64 × List.Vector UInt32 14) : List UInt8 :=
  u64ToLe e.1 ++ countsBytes e.2

/-- The orders in which the maps of an engine are gone through. -/
structure Orders where
  temporal : Arrangement UInt64
  streaks : Arrangement UInt64
  pairs : Arrangement (UInt64 ×ₗ UInt64)
  daily : Arrangement UInt64
  names : Arrangement UInt64

/-- The bytes `VEXMEM01`. -/
def magic : List UInt8 := [0x56, 0x45, 0x58, 0x4D, 0x45, 0x4D, 0x30, 0x31]

/-- What is written behind the magic. -/
def engineBytes (e : MemoryEngine) (orders : Orders) : List UInt8 :=
  u64ToLe e.totalSessions ++
    (u32ToLe (UInt32.ofNat (min e.sessions.length 500)) ++
      ((e.sessions.take 500).flatMap sessionBytes ++
    (mapBytes 10000 temporalBytes orders.temporal e.temporal ++
    (mapBytes 10000 streakBytes orders.streaks e.streaks ++
    (mapBytes 50000 pairBytes orders.pairs e.coAccess.pairs ++
    (u64ToLe e.trends.lastDay ++
      (mapBytes 10000 dailyBytes orders.daily e.trends.daily ++
    mapBytes 10000 fileBytes orders.names e.names)))))))

def toBytes (e : MemoryEngine) (orders : Orders) : List UInt8 := magic ++ e.engineBytes orders

/-! ### Reading -/

/-- Read a map, at most `limit` entries of it.  A step reads one of them. -/
def readMap {α β : Type} [LinearOrder α] (limit : ℕ)
    (step : FiniteMap α β → Reader (FiniteMap α β)) : Reader (FiniteMap α β) := do
  let count ← readU32
  loop (min count.toNat limit) step .empty

def readFile (files : List (UInt64 × String)) : Reader (List (UInt64 × String)) := do
  let ino ← readU64
  let name ← readStr
  pure (files ++ [(ino, name)])

def readSession (sessions : List Session) : Reader (List Session) := do
  let id ← readU64
  let startTs ← readU64
  let endTs ← readU64
  let totalWrites ← readU64
  let totalReads ← readU64
  let fileCount ← readU32
  let filesTouched ← loop (min fileCount.toNat 100) readFile []
  let focusRaw ← readStr
  let focusFile := if focusRaw.isEmpty then none else some focusRaw
  pure (sessions ++
    [⟨id, startTs, endTs, filesTouched, 0, totalWrites, totalReads, focusFile⟩])

def readTemporal (temporal : FiniteMap UInt64 TemporalPattern) :
    Reader (FiniteMap UInt64 TemporalPattern) := do
  let ino ← readU64
  let byHour ← readArray readU32 24
  let byDay ← readArray readU32 7
  let total ← readU32
  pure (temporal.insert ino ⟨byHour, byDay, total⟩)

def readStreak (streaks : FiniteMap UInt64 Streak) : Reader (FiniteMap UInt64 Streak) := do
  let ino ← readU64
  let currentDays ← readU32
  let longestDays ← readU32
  let lastTouchedDay ← readU64
  pure (streaks.insert ino ⟨currentDays, longestDays, lastTouchedDay⟩)

def readPair (pairs : FiniteMap (UInt64 ×ₗ UInt64) UInt32) :
    Reader (FiniteMap (UInt64 ×ₗ UInt64) UInt32) := do
  let a ← readU64
  let b ← readU64
  let count ← readU32
  pure (pairs.insert (toLex (a, b)) count)

def readDaily (daily : FiniteMap UInt64 (List.Vector UInt32 14)) :
    Reader (FiniteMap UInt64 (List.Vector UInt32 14)) := do
  let ino ← readU64
  let counts ← readArray readU32 14
  pure (daily.insert ino counts)

def readName (names : FiniteMap UInt64 String) : Reader (FiniteMap UInt64 String) := do
  let ino ← readU64
  let name ← readStr
  pure (names.insert ino name)

/-- Read what is behind the magic, with a session of its own for the engine. -/
def readEngine (session : Session) : Reader MemoryEngine := do
  let totalSessions ← readU64
  let sessionCount ← readU32
  let sessions ← loop (min sessionCount.toNat 500) readSession []
  let temporal ← readMap 10000 readTemporal
  let streaks ← readMap 10000 readStreak
  let pairs ← readMap 50000 readPair
  let lastDay ← readU64
  let daily ← readMap 10000 readDaily
  let names ← readMap 10000 readName
  pure ⟨sessions, session, temporal, streaks, ⟨pairs⟩, ⟨daily, lastDay⟩, names, totalSessions⟩

/-- Read an engine.  The clock is read for the number and for the start of its session. -/
def fromBytes (sessionId now : UInt64) (data : List UInt8) : Option MemoryEngine :=
  if data.length < 8 then none
  else if data.take 8 ≠ magic then none
  else (readEngine (.new sessionId now) (data.drop 8)).map Prod.fst

/-! ### Entries -/

theorem reads_counts {n : ℕ} (counts : List.Vector UInt32 n) :
  Reads (readArray readU32 n) (countsBytes counts) counts
  := Reads.array counts fun c _ => Reads.u32 c

theorem reads_file (files : List (UInt64 × String)) {f : UInt64 × String}
    (h : (utf8 f.2).length ≤ 255) :
  Reads (readFile files) (fileBytes f) (files ++ [f])
  := by
  apply Reads.bind (Reads.u64 _)
  exact (reads_str h).map fun name => files ++ [(f.1, name)]

theorem reads_name (names : FiniteMap UInt64 String) {f : UInt64 × String}
    (h : (utf8 f.2).length ≤ 255) :
  Reads (readName names) (fileBytes f) (names.insert f.1 f.2)
  := by
  apply Reads.bind (Reads.u64 _)
  exact (reads_str h).map fun name => names.insert f.1 name

theorem reads_temporal (temporal : FiniteMap UInt64 TemporalPattern)
    (e : UInt64 × TemporalPattern) :
  Reads (readTemporal temporal) (temporalBytes e) (temporal.insert e.1 e.2)
  := by
  apply Reads.bind (Reads.u64 _)
  apply Reads.bind (reads_counts _)
  apply Reads.bind (reads_counts _)
  exact (Reads.u32 _).map fun total => temporal.insert e.1 ⟨e.2.byHour, e.2.byDay, total⟩

theorem reads_streak (streaks : FiniteMap UInt64 Streak) (e : UInt64 × Streak) :
  Reads (readStreak streaks) (streakBytes e) (streaks.insert e.1 e.2)
  := by
  apply Reads.bind (Reads.u64 _)
  apply Reads.bind (Reads.u32 _)
  apply Reads.bind (Reads.u32 _)
  exact (Reads.u64 _).map fun day => streaks.insert e.1 ⟨e.2.currentDays, e.2.longestDays, day⟩

theorem reads_pair (pairs : FiniteMap (UInt64 ×ₗ UInt64) UInt32)
    (e : (UInt64 ×ₗ UInt64) × UInt32) :
  Reads (readPair pairs) (pairBytes e) (pairs.insert e.1 e.2)
  := by
  apply Reads.bind (Reads.u64 _)
  apply Reads.bind (Reads.u64 _)
  exact (Reads.u32 _).map fun count => pairs.insert (toLex ((ofLex e.1).1, (ofLex e.1).2)) count

theorem reads_daily (daily : FiniteMap UInt64 (List.Vector UInt32 14))
    (e : UInt64 × List.Vector UInt32 14) :
  Reads (readDaily daily) (dailyBytes e) (daily.insert e.1 e.2)
  := by
  apply Reads.bind (Reads.u64 _)
  exact (reads_counts _).map fun counts => daily.insert e.1 counts

/-! ### Sections -/

/-- The first elements of a list are read. -/
theorem reads_take {α : Type} {limit : ℕ} (hlimit : limit < 2 ^ 32)
    {step : List α → Reader (List α)} {write : α → List UInt8} {l : List α} {g : α → α}
    (hstep : ∀ as, ∀ a ∈ l, Reads (step as) (write a) (as ++ [g a])) :
  Reads (loop (min (UInt32.ofNat (min l.length limit)).toNat limit) step [])
    ((l.take limit).flatMap write) ((l.take limit).map g)
  := by
  have hle : min l.length limit ≤ limit := Nat.min_le_right _ _
  rw [UInt32.toNat_ofNat_of_lt' (Nat.lt_of_le_of_lt hle hlimit), Nat.min_eq_left hle]
  have hlength : (l.take limit).length = min l.length limit := by
    rw [List.length_take, Nat.min_comm]
  have hreads := Reads.loop hlength (fun as a ha => hstep as a (List.mem_of_mem_take ha)) []
  rw [List.foldl_append_eq_append, ← List.flatMap_def, ← List.map_eq_flatMap,
    List.nil_append] at hreads
  exact hreads

/-- A list that is short enough is read whole, and its elements come in their order. -/
theorem reads_list {α : Type} {limit : ℕ} (hlimit : limit < 2 ^ 32)
    {step : List α → Reader (List α)} {write : α → List UInt8} {l : List α}
    (hstep : ∀ as, ∀ a ∈ l, Reads (step as) (write a) (as ++ [a])) (h : l.length ≤ limit) :
  Reads (loop (min (UInt32.ofNat (min l.length limit)).toNat limit) step [])
    ((l.take limit).flatMap write) l
  := by
  have hreads := reads_take (g := id) hlimit hstep
  rw [List.take_of_length_le h, List.map_id] at hreads
  rw [List.take_of_length_le h]
  exact hreads

/-- What is left of a map when only the first entries are written, and a value is read as `g`
tells. -/
def keptMap {α β : Type} [LinearOrder α] (limit : ℕ) (order : Arrangement α) (g : β → β)
    (m : FiniteMap α β) : FiniteMap α β :=
  ((m.iter order).take limit).foldl (fun m e => m.insert e.1 (g e.2)) .empty

/-- The first entries of a map are read. -/
theorem reads_keptMap {α β : Type} [LinearOrder α] {limit : ℕ} (hlimit : limit < 2 ^ 32)
    {step : FiniteMap α β → Reader (FiniteMap α β)} {write : α × β → List UInt8}
    {g : β → β} {m : FiniteMap α β} (order : Arrangement α)
    (hstep : ∀ m', ∀ e ∈ m.iter order, Reads (step m') (write e) (m'.insert e.1 (g e.2))) :
  Reads (readMap limit step) (mapBytes limit write order m) (keptMap limit order g m)
  := by
  have hle : min m.len limit ≤ limit := Nat.min_le_right _ _
  have hlength : ((m.iter order).take limit).length = min m.len limit := by
    rw [List.length_take, Nat.min_comm, m.length_iter]
  apply Reads.bind (Reads.u32 _)
  rw [UInt32.toNat_ofNat_of_lt' (Nat.lt_of_le_of_lt hle hlimit), Nat.min_eq_left hle]
  exact Reads.loop hlength (fun m' e he => hstep m' e (List.mem_of_mem_take he)) .empty

/-- A map that is small enough is read whole, whatever the order of its entries is. -/
theorem reads_map {α β : Type} [LinearOrder α] {limit : ℕ} (hlimit : limit < 2 ^ 32)
    {step : FiniteMap α β → Reader (FiniteMap α β)} {write : α × β → List UInt8}
    {m : FiniteMap α β} (order : Arrangement α)
    (hstep : ∀ m', ∀ e ∈ m.iter order, Reads (step m') (write e) (m'.insert e.1 e.2))
    (h : m.len ≤ limit) :
  Reads (readMap limit step) (mapBytes limit write order m) m
  := by
  have hkept : keptMap limit order id m = m := by
    rw [keptMap, List.take_of_length_le ((m.length_iter order).trans_le h)]
    exact m.foldl_insert_iter order
  have hreads := reads_keptMap (g := id) hlimit order hstep
  rw [hkept] at hreads
  exact hreads

/-! ### Engines -/

/-- A name of 1 to 255 bytes. -/
def IsName (s : String) : Prop := 1 ≤ (utf8 s).length ∧ (utf8 s).length ≤ 255

instance (s : String) : Decidable (IsName s) :=
  inferInstanceAs (Decidable (_ ∧ _))

/-- The names of a session. -/
structure NamedSession (s : Session) : Prop where
  files : ∀ f ∈ s.filesTouched, IsName f.2
  focus : ∀ name, s.focusFile = some name → IsName name

/-- The names that an engine saves. -/
structure Named (e : MemoryEngine) : Prop where
  sessions : ∀ s ∈ e.sessions, NamedSession s
  names : ∀ ino name, e.names.get ino = some name → IsName name

/-- An engine of which every part is within the limits of the file. -/
structure Bounded (e : MemoryEngine) : Prop where
  named : e.Named
  files_le : ∀ s ∈ e.sessions, s.filesTouched.length ≤ 100
  temporal_le : e.temporal.len ≤ 10000
  streaks_le : e.streaks.len ≤ 10000
  pairs_le : e.coAccess.pairs.len ≤ 50000
  daily_le : e.trends.daily.len ≤ 10000
  names_le : e.names.len ≤ 10000

/-- What calls keep: there are at most 500 sessions, and none counts open files. -/
structure Kept (e : MemoryEngine) : Prop where
  sessions_le : e.sessions.length ≤ maxSessions
  peakFiles : ∀ s ∈ e.sessions, s.peakFiles = 0
  current : e.currentSession.peakFiles = 0

theorem isEmpty_of_isName {s : String} (h : IsName s) :
  s.isEmpty = false
  := by
  rw [String.isEmpty_eq_false_iff]
  rintro rfl
  exact absurd h.1 (by decide)

theorem reads_session (sessions : List Session) {s : Session} (hnamed : NamedSession s)
    (hfiles : s.filesTouched.length ≤ 100) (hpeak : s.peakFiles = 0) :
  Reads (readSession sessions) (sessionBytes s) (sessions ++ [s])
  := by
  apply Reads.bind (Reads.u64 _)
  apply Reads.bind (Reads.u64 _)
  apply Reads.bind (Reads.u64 _)
  apply Reads.bind (Reads.u64 _)
  apply Reads.bind (Reads.u64 _)
  apply Reads.bind (Reads.u32 _)
  apply Reads.bind (reads_list (by decide)
    (fun files f hf => reads_file files (hnamed.files f hf).2) hfiles)
  obtain ⟨id, startTs, endTs, filesTouched, peakFiles, totalWrites, totalReads, focusFile⟩ := s
  obtain rfl : peakFiles = 0 := hpeak
  have hread (focusRaw : String) (hraw : (utf8 focusRaw).length ≤ 255) :=
    (reads_str hraw).map fun focusRaw => sessions ++ [⟨id, startTs, endTs, filesTouched, 0,
      totalWrites, totalReads, if focusRaw.isEmpty then none else some focusRaw⟩]
  cases focusFile with
  | none => exact hread "" (by decide)
  | some name =>
      have hname := hnamed.focus name rfl
      have h := hread name hname.2
      rw [isEmpty_of_isName hname] at h
      exact h

/-- An engine that keeps what calls keep, and is bounded, is read back. -/
theorem Bounded.reads {e : MemoryEngine} (h : e.Bounded) (hkept : e.Kept) (orders : Orders)
    (session : Session) :
  Reads (readEngine session) (e.engineBytes orders) { e with currentSession := session }
  := by
  apply Reads.bind (Reads.u64 _)
  apply Reads.bind (Reads.u32 _)
  apply Reads.bind (reads_list (by decide) (fun sessions s hs =>
    reads_session sessions (h.named.sessions s hs) (h.files_le s hs) (hkept.peakFiles s hs))
    hkept.sessions_le)
  apply Reads.bind (reads_map (by decide) _ (fun m e _ => reads_temporal m e) h.temporal_le)
  apply Reads.bind (reads_map (by decide) _ (fun m e _ => reads_streak m e) h.streaks_le)
  apply Reads.bind (reads_map (by decide) _ (fun m e _ => reads_pair m e) h.pairs_le)
  apply Reads.bind (Reads.u64 _)
  apply Reads.bind (reads_map (by decide) _ (fun m e _ => reads_daily m e) h.daily_le)
  have hnames := reads_map (by decide) orders.names (fun m f hf =>
    reads_name m (h.named.names f.1 f.2 (FiniteMap.mem_iter.mp hf)).2) h.names_le
  exact hnames.map fun names => { e with currentSession := session, names }

/-! ### Runs -/

theorem Kept.new (sessionId now now' : UInt64) :
  (MemoryEngine.new sessionId now now').Kept
  where
  sessions_le := Nat.zero_le _
  peakFiles _ h := absurd h List.not_mem_nil
  current := rfl

/-- The sessions after one more was closed. -/
theorem mem_sessions_closeSession {e : MemoryEngine} {order : Arrangement UInt64}
    {ts now : UInt64} {s : Session} (h : s ∈ (e.closeSession order ts now).sessions) :
  s ∈ e.sessions ∨ s = { e.currentSession with endTs := ts, focusFile := e.focusOf order }
  := by
  have hmem : s ∈ e.sessions ++
      [{ e.currentSession with endTs := ts, focusFile := e.focusOf order }] := by
    rw [closeSession] at h
    dsimp only at h
    split at h
    · exact List.mem_of_mem_tail h
    · exact h
  rw [List.mem_append, List.mem_singleton] at hmem
  exact hmem

theorem touchFile_peakFiles (s : Session) (ino : UInt64) (name : String) :
  (touchFile s ino name).peakFiles = s.peakFiles
  := by
  rw [touchFile]
  split
  · rfl
  · rfl

theorem Kept.step {e : MemoryEngine} (h : e.Kept) (c : Call) :
  (e.step c).Kept
  := by
  cases c with
  | recordAccess ino name ts now =>
      exact ⟨h.sessions_le, h.peakFiles, (touchFile_peakFiles _ _ _).trans h.current⟩
  | recordWrite ino => exact ⟨h.sessions_le, h.peakFiles, h.current⟩
  | recordRead ino => exact ⟨h.sessions_le, h.peakFiles, h.current⟩
  | closeSession order ts now =>
      constructor
      · have hle := h.sessions_le
        rw [MemoryEngine.step, MemoryEngine.closeSession]
        dsimp only
        split
        · rw [List.length_tail, List.length_append, List.length_singleton]
          omega
        · omega
      · intro s hs
        obtain hold | rfl := mem_sessions_closeSession hs
        · exact h.peakFiles s hold
        · exact h.current
      · rfl

theorem Kept.run {e : MemoryEngine} (h : e.Kept) (calls : List Call) :
  (e.run calls).Kept
  := by
  induction calls generalizing e with
  | nil => exact h
  | cons c calls ih => exact ih (h.step c)

/-- A call that gives a file a name of 1 to 255 bytes, if any. -/
def Call.IsNamed : Call → Prop
  | .recordAccess _ name _ _ => IsName name
  | .recordWrite _ => True
  | .recordRead _ => True
  | .closeSession _ _ _ => True

/-- The focus of a session is the name of a file. -/
theorem Named.focusOf {e : MemoryEngine} (h : e.Named) {order : Arrangement UInt64}
    {name : String} (hfocus : e.focusOf order = some name) :
  IsName name
  := by
  obtain ⟨p, -, hp⟩ := Option.bind_eq_some_iff.mp hfocus
  exact h.names p.1 name hp

theorem NamedSession.touchFile {s : Session} (h : NamedSession s) {ino : UInt64} {name : String}
    (hname : IsName name) :
  NamedSession (touchFile s ino name)
  := by
  rw [MemoryEngine.touchFile]
  split
  · exact h
  · constructor
    · intro f hf
      obtain hold | hnew := List.mem_append.mp hf
      · exact h.files f hold
      · obtain rfl := List.mem_singleton.mp hnew
        exact hname
    · exact h.focus

/-- Calls with such names keep all names so. -/
theorem Named.step {e : MemoryEngine} (h : e.Named) (hcurrent : NamedSession e.currentSession)
    {c : Call} (hc : c.IsNamed) :
  (e.step c).Named ∧ NamedSession (e.step c).currentSession
  := by
  cases c with
  | recordAccess ino name ts now =>
      refine ⟨⟨h.sessions, ?_⟩, hcurrent.touchFile hc⟩
      intro ino' name' hget
      change (e.names.insert ino name).get ino' = some name' at hget
      rw [FiniteMap.get_insert] at hget
      split at hget
      · obtain rfl := Option.some.inj hget
        exact hc
      · exact h.names ino' name' hget
  | recordWrite ino => exact ⟨⟨h.sessions, h.names⟩, ⟨hcurrent.files, hcurrent.focus⟩⟩
  | recordRead ino => exact ⟨⟨h.sessions, h.names⟩, ⟨hcurrent.files, hcurrent.focus⟩⟩
  | closeSession order ts now =>
      refine ⟨⟨?_, h.names⟩, ⟨fun f hf => absurd hf List.not_mem_nil, fun name hname => ?_⟩⟩
      · intro s hs
        obtain hold | rfl := mem_sessions_closeSession hs
        · exact h.sessions s hold
        · exact ⟨hcurrent.files, fun name hname => h.focusOf hname⟩
      · cases hname

theorem Named.run {e : MemoryEngine} (h : e.Named) (hcurrent : NamedSession e.currentSession)
    {calls : List Call} (hcalls : ∀ c ∈ calls, c.IsNamed) :
  (e.run calls).Named
  := by
  induction calls generalizing e with
  | nil => exact h
  | cons c calls ih =>
      rw [List.forall_mem_cons] at hcalls
      obtain ⟨hnamed, hsession⟩ := h.step hcurrent hcalls.1
      exact ih hnamed hsession hcalls.2

theorem Named.new (sessionId now now' : UInt64) :
  (MemoryEngine.new sessionId now now').Named
    ∧ NamedSession (MemoryEngine.new sessionId now now').currentSession
  := by
  refine ⟨⟨fun s hs => absurd hs List.not_mem_nil, fun ino name hget => ?_⟩,
    ⟨fun f hf => absurd hf List.not_mem_nil, fun name hname => ?_⟩⟩
  · cases hget
  · cases hname

/-- An engine that is reached by calls, and whose parts are within the limits of the file, is
read back from its bytes, whatever the order of its maps is.  Only the session that has not
ended is not saved. -/
theorem fromBytes_run (sessionId now now' : UInt64) (calls : List Call)
    (h : ((new sessionId now now').run calls).Bounded) (orders : Orders)
    (sessionId' now'' : UInt64) :
  fromBytes sessionId' now'' (((new sessionId now now').run calls).toBytes orders)
    = some { (new sessionId now now').run calls with
        currentSession := .new sessionId' now'' }
  := by
  have hmagic : magic.length = 8 := rfl
  have hread := (h.reads ((Kept.new sessionId now now').run calls) orders
    (.new sessionId' now'')).eq
  rw [fromBytes, toBytes, if_neg, if_neg, List.drop_left' hmagic, hread]
  · rfl
  · exact not_not_intro (List.take_left' hmagic)
  · rw [List.length_append, hmagic]
    omega

/-- The engine of a session with two files, and of the start of the next one, is read back. -/
theorem fromBytes_run_two_sessions :
  let calls : List Call := [.recordAccess 2 "main.rs" 100 100,
    .recordAccess 3 "auth.rs" 90000 90000, .recordWrite 2, .closeSession .id 90060 90060,
    .recordAccess 2 "main.rs" 90070 90070]
  fromBytes 7 8 (((new 1 2 3).run calls).toBytes ⟨.id, .id, .id, .id, .id⟩)
    = some { (new 1 2 3).run calls with currentSession := .new 7 8 }
  := by
  have hmain : IsName "main.rs" := by decide
  have hauth : IsName "auth.rs" := by decide
  obtain ⟨hnamed, hcurrent⟩ := Named.new 1 2 3
  apply fromBytes_run
  constructor
  · apply hnamed.run hcurrent
    simp [Call.IsNamed, hmain, hauth]
  · decide
  · decide
  · decide
  · decide
  · decide
  · decide

end MemoryEngine

end Vexfs
