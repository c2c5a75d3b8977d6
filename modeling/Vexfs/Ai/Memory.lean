import Mathlib.Data.Prod.Lex
import Mathlib.Data.Vector.Basic
import Vexfs.Ai.Persist

/-!
# The memory of sessions

The engine remembers, across mounts, which files were opened in a session, when files are
opened, on how many days in a row, and which files are opened together.  It is saved in a file
of seven sections behind each other, in each of which a map is written in whatever order it is
gone through.  An engine whose parts are within the limits of the file is read back
(`fromBytes_run`).
-/

namespace Vexfs

open Bytes

/-! ### Sessions -/

/-- A session, from mount to unmount. -/
structure MemoryEngine.Session where
  id : UInt64
  startTs : UInt64
  endTs : UInt64
  filesTouched : List (UInt64 × String)
  peakFiles : ℕ
  totalWrites : UInt64
  totalReads : UInt64
  focusFile : Option String
deriving DecidableEq, Repr

/-- A session that starts now. -/
def MemoryEngine.Session.new (id now : UInt64) : Session where
  id
  startTs := now
  endTs := 0
  filesTouched := []
  peakFiles := 0
  totalWrites := 0
  totalReads := 0
  focusFile := none

/-! ### Patterns, streaks and trends

Counts wrap around.  A build with overflow checks stops instead, so the states that it reaches
are reached here too. -/

/-- The hour of the day, below 24. -/
def hourOf (ts : UInt64) : Fin 24 :=
  ⟨ts.toNat % 86400 / 3600, Nat.div_lt_of_lt_mul (Nat.mod_lt _ (by decide))⟩

/-- The day of the week, where 0 is Monday. -/
def dayOf (ts : UInt64) : Fin 7 :=
  ⟨(ts.toNat / 86400 + 3) % 7, Nat.mod_lt _ (by decide)⟩

/-- The day since the epoch. -/
def dayNumber (ts : UInt64) : ℕ := (ts / 86400).toNat

/-- Count an element of an array up. -/
def countAt {n : ℕ} (counts : List.Vector UInt32 n) (i : Fin n) : List.Vector UInt32 n :=
  counts.set i (counts.get i + 1)

/-- When a file is opened. -/
structure TemporalPattern where
  byHour : List.Vector UInt32 24
  byDay : List.Vector UInt32 7
  total : UInt32

namespace TemporalPattern

def default : TemporalPattern where
  byHour := .replicate 24 0
  byDay := .replicate 7 0
  total := 0

def record (p : TemporalPattern) (ts : UInt64) : TemporalPattern where
  byHour := countAt p.byHour (hourOf ts)
  byDay := countAt p.byDay (dayOf ts)
  total := p.total + 1

end TemporalPattern

/-- On how many days in a row a file was touched. -/
structure Streak where
  currentDays : UInt32
  longestDays : UInt32
  lastTouchedDay : UInt64
deriving DecidableEq, Repr

namespace Streak

def new : Streak := ⟨0, 0, 0⟩

def touch (s : Streak) (ts : UInt64) : Streak :=
  let today := ts / 86400
  if today = s.lastTouchedDay then s
  else if today = s.lastTouchedDay + 1 then
    let currentDays := s.currentDays + 1
    { currentDays
      longestDays := if s.longestDays < currentDays then currentDays else s.longestDays
      lastTouchedDay := today }
  else { s with currentDays := 1, lastTouchedDay := today }

end Streak

/-- How often each file was touched on each of the last 14 days. -/
structure TrendTracker where
  daily : FiniteMap UInt64 (List.Vector UInt32 14)
  lastDay : UInt64

namespace TrendTracker

def new (now : UInt64) : TrendTracker := ⟨.empty, now / 86400⟩

def rotateLeft (counts : List.Vector UInt32 14) (advance : ℕ) : List.Vector UInt32 14 :=
  .ofFn fun i => counts.get (i + Fin.ofNat 14 advance)

/-- Set the last counts to 0. -/
def clearLast (counts : List.Vector UInt32 14) (advance : ℕ) : List.Vector UInt32 14 :=
  .ofFn fun i => if i.val < 14 - advance then counts.get i else 0

/-- Move the window to today. -/
def advanceTo (t : TrendTracker) (today : UInt64) : TrendTracker :=
  if t.lastDay < today then
    let advance := min (today - t.lastDay).toNat 14
    { daily := t.daily.map fun counts => clearLast (rotateLeft counts advance) advance
      lastDay := today }
  else t

def record (t : TrendTracker) (ino now : UInt64) : TrendTracker :=
  let t := t.advanceTo (now / 86400)
  let counts := (t.daily.get ino).getD (.replicate 14 0)
  { t with daily := t.daily.insert ino (countAt counts 13) }

end TrendTracker

/-! ### Files that are opened together -/

/-- How often two files were opened in one session, the smaller inode first. -/
structure CoAccessMap where
  pairs : FiniteMap (UInt64 ×ₗ UInt64) UInt32

namespace CoAccessMap

def new : CoAccessMap := ⟨.empty⟩

/-- The pairs of an element of a list and a later one. -/
def pairsOf : List UInt64 → List (UInt64 × UInt64)
  | [] => []
  | a :: as => as.map (fun b => (a, b)) ++ pairsOf as

def countPair (m : CoAccessMap) (p : UInt64 × UInt64) : CoAccessMap :=
  let key := toLex (min p.1 p.2, max p.1 p.2)
  ⟨m.pairs.insert key ((m.pairs.get key).getD 0 + 1)⟩

/-- Count the pairs of the first 20 inodes of a session. -/
def recordSession (m : CoAccessMap) (files : List (UInt64 × String)) : CoAccessMap :=
  if files.length < 2 then m
  else
    let unique := (files.map Prod.fst).eraseDups.take 20
    (pairsOf unique).foldl countPair m

end CoAccessMap

/-! ### The engine -/

structure MemoryEngine where
  sessions : List MemoryEngine.Session
  currentSession : MemoryEngine.Session
  temporal : FiniteMap UInt64 TemporalPattern
  streaks : FiniteMap UInt64 Streak
  coAccess : CoAccessMap
  trends : TrendTracker
  names : FiniteMap UInt64 String
  totalSessions : UInt64

def maxSessions : ℕ := 500

namespace MemoryEngine

/-- A new engine.  The clock is read three times. -/
def new (sessionId now now' : UInt64) : MemoryEngine where
  sessions := []
  currentSession := .new sessionId now
  temporal := .empty
  streaks := .empty
  coAccess := .new
  trends := .new now'
  names := .empty
  totalSessions := 0

/-- Put a file on the list of the files of a session, once. -/
def touchFile (s : Session) (ino : UInt64) (name : String) : Session :=
  if s.filesTouched.any fun f => f.1 = ino then s
  else { s with filesTouched := s.filesTouched ++ [(ino, name)] }

/-- A file is opened at time `ts`; the trend reads the clock again. -/
def recordAccess (e : MemoryEngine) (ino : UInt64) (name : String) (ts now : UInt64) :
    MemoryEngine :=
  { e with
    names := e.names.insert ino name
    currentSession := touchFile e.currentSession ino name
    temporal := e.temporal.insert ino (((e.temporal.get ino).getD .default).record ts)
    streaks := e.streaks.insert ino (((e.streaks.get ino).getD .new).touch ts)
    trends := e.trends.record ino now }

def recordWrite (e : MemoryEngine) : MemoryEngine :=
  { e with currentSession :=
    { e.currentSession with totalWrites := e.currentSession.totalWrites + 1 } }

def recordRead (e : MemoryEngine) : MemoryEngine :=
  { e with currentSession :=
    { e.currentSession with totalReads := e.currentSession.totalReads + 1 } }

/-- How often each inode is on the list of a session. -/
def frequencies (files : List (UInt64 × String)) : FiniteMap UInt64 UInt32 :=
  files.foldl (fun m f => m.insert f.1 ((m.get f.1).getD 0 + 1)) .empty

/-- The last of the pairs with the greatest count. -/
def maxByCount : List (UInt64 × UInt32) → Option (UInt64 × UInt32)
  | [] => none
  | p :: ps => some (ps.foldl (fun best p => if best.2 ≤ p.2 then p else best) p)

/-- The name of a file that was opened most often.  The counts are gone through in the given
order. -/
def focusOf (e : MemoryEngine) (order : Arrangement UInt64) : Option String :=
  (maxByCount ((frequencies e.currentSession.filesTouched).iter order)).bind
    fun p => e.names.get p.1

/-- Close the session at time `ts`; the next session reads the clock again. -/
def closeSession (e : MemoryEngine) (order : Arrangement UInt64) (ts now : UInt64) :
    MemoryEngine :=
  let archived := { e.currentSession with endTs := ts, focusFile := e.focusOf order }
  let sessions := e.sessions ++ [archived]
  let totalSessions := e.totalSessions + 1
  { e with
    sessions := if maxSessions < sessions.length then sessions.tail else sessions
    currentSession := .new (ts + totalSessions) now
    coAccess := e.coAccess.recordSession archived.filesTouched
    totalSessions }

/-- A call of the engine, with the times that the clock gives. -/
inductive Call where
  | recordAccess (ino : UInt64) (name : String) (ts now : UInt64)
  | recordWrite (ino : UInt64)
  | recordRead (ino : UInt64)
  | closeSession (order : Arrangement UInt64) (ts now : UInt64)

def step (e : MemoryEngine) : Call → MemoryEngine
  | .recordAccess ino name ts now => e.recordAccess ino name ts now
  | .recordWrite _ => e.recordWrite
  | .recordRead _ => e.recordRead
  | .closeSession order ts now => e.closeSession order ts now

/-- The engine after some calls. -/
def run (e : MemoryEngine) (calls : List Call) : MemoryEngine := calls.foldl step e

end MemoryEngine

end Vexfs
