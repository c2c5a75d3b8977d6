import Vexfs.Ai.EndSession
import Vexfs.Ai.EntropyGuard
import Vexfs.Ai.Importance
import Vexfs.Ai.Search

/-!
# The engine

The engine handles one event after the other, and hands each of them on to its parts: the
prefetchers, the index, the guard, the log and the memory.  What it hands on depends on the
events before, as far as they say which file was opened last and what was written to a file
that is still open.  So after any events each part is what its own calls make of it, and these
are read off the events (`run_parts`).
-/

namespace Vexfs

/-! ### The log -/

inductive AccessKind where
  | «open»
  | write
  | read
  | close
  | delete
deriving DecidableEq, Repr

structure AccessEvent where
  ino : UInt64
  name : String
  kind : AccessKind
  timestamp : UInt64
  durationSecs : UInt64
  sizeBytes : UInt64
deriving DecidableEq, Repr

structure AccessLog where
  events : List AccessEvent
  maxEvents : ℕ

namespace AccessLog

def new (maxEvents : ℕ) : AccessLog := ⟨[], maxEvents⟩

def record (l : AccessLog) (event : AccessEvent) : AccessLog :=
  { l with events := (if l.maxEvents ≤ l.events.length then l.events.tail else l.events) ++ [event] }

/-- The log keeps the last events, and always one. -/
theorem foldl_record (maxEvents : ℕ) (events : List AccessEvent) :
  events.foldl record (new maxEvents) = ⟨events.rtake (max maxEvents 1), maxEvents⟩
  := by
  induction events using List.reverseRecOn with
  | nil => rw [List.foldl_nil, List.rtake_nil, new]
  | append_singleton events event ih =>
      obtain ⟨n, hn⟩ : ∃ n, max maxEvents 1 = n + 1 := ⟨max maxEvents 1 - 1, by omega⟩
      rw [List.foldl_concat, ih, record, hn, List.rtake_concat_succ]
      dsimp only
      congr 2
      rw [List.rtake, List.rtake, List.length_drop]
      split
      · next hfull =>
        rw [List.tail_drop]
        obtain hlt | hle := Nat.lt_or_ge n events.length
        · congr 1
          omega
        · rw [List.drop_of_length_le (by omega), List.drop_of_length_le (by omega)]
      · congr 1
        omega

end AccessLog

/-! ### Events -/

inductive FsEvent where
  | openFile (ino : UInt64) (name : String) (size : UInt64)
  | write (ino : UInt64) (name : String) (data : List UInt8)
  | close (ino : UInt64) (name : String) (duration : UInt64)
  | delete (ino : UInt64) (name : String)
  | syncCacheSize (used max : UInt64)
  | searchQuery (query : String)
  | askQuery (query : String) (fileList : List String)
  | syncAI
  | endSession

/-- The times that the clock gives while an event is handled, and the orders in which maps are
gone through. -/
structure EngineEnv where
  loggedAt : UInt64
  accessedAt : UInt64
  scoredAt : UInt64 → UInt64
  rememberedAt : UInt64
  trendAt : UInt64
  checkedAt : UInt64
  indexedAt : UInt64
  closedAt : UInt64
  startedAt : UInt64
  analysedAt : UInt64
  scoreOrder : Arrangement UInt64
  focusOrder : Arrangement UInt64
  discovery : DiscoveryOrders

/-- Count one more, unless the count overflows. -/
def countOne (counts : FiniteMap UInt64 UInt32) (ino : UInt64) :
    Option (FiniteMap UInt64 UInt32) :=
  let count := counts.tally ino
  if count + 1 = 0 then none else some (counts.bump 1 ino)

/-- The engine, with the index over some numbers.  The queries only write texts for virtual
files, and the files of the index and the predictions that these show are left out. -/
structure Engine (R : Type) where
  markov : MarkovPrefetcher
  neural : NeuralPrefetcher
  importance : ImportanceEngine
  entropyGuard : EntropyGuard
  search : SearchIndex R
  log : AccessLog
  ai : AIEngine
  lastOpenedIno : Option UInt64
  writeAccumulator : FiniteMap UInt64 (List UInt8)
  sessionFiles : List UInt64
  sessionWrites : FiniteMap UInt64 UInt32
  sessionOpens : FiniteMap UInt64 UInt32

namespace Engine

variable {R : Type}

def new (markov : MarkovPrefetcher) (neural : NeuralPrefetcher) (importance : ImportanceEngine)
    (entropyGuard : EntropyGuard) (search : SearchIndex R) (log : AccessLog)
    (memory : MemoryEngine) : Engine R where
  markov
  neural
  importance
  entropyGuard
  search
  log
  ai := .new memory
  lastOpenedIno := none
  writeAccumulator := .empty
  sessionFiles := []
  sessionWrites := .empty
  sessionOpens := .empty

/-- Record the transition from the file that was opened last. -/
def recordLastOpened (e : Engine R) (ino : UInt64) (name : String) : Option MarkovPrefetcher :=
  match e.lastOpenedIno with
  | some prev =>
      if prev ≠ ino then e.markov.recordTransition ⟨prev, ino, name⟩ else some e.markov
  | none => some e.markov

section Handling

variable [Field R] [FloatOps] [ShannonEntropy] [Letters] [ImportanceScore]

def handleOpen (e : Engine R) (fuel : ℕ) (env : EngineEnv) (ino : UInt64) (name : String)
    (size : UInt64) : Option (Engine R) := do
  let log := e.log.record ⟨ino, name, .open, env.loggedAt, 0, size⟩
  let markov ← e.recordLastOpened ino name
  let importance ←
    e.importance.recordAccess ⟨env.scoreOrder, env.scoredAt, ino, name, 0, env.accessedAt⟩
  let neural ← (e.neural.recordAccess ⟨ino, name⟩).toOption
  let ai ← (e.ai.handle fuel (.openFile ino name env.rememberedAt env.trendAt)).toOption
  let sessionOpens ← countOne e.sessionOpens ino
  some { e with
    log, markov, importance, neural, ai, sessionOpens
    lastOpenedIno := some ino
    sessionFiles := if ino ∈ e.sessionFiles then e.sessionFiles else e.sessionFiles ++ [ino] }

def handleWrite (e : Engine R) (fuel : ℕ) (env : EngineEnv) (ino : UInt64) (name : String)
    (data : List UInt8) : Option (Engine R) := do
  let entropyGuard := (e.entropyGuard.checkWrite ino name data env.checkedAt).2
  let fullContent := (e.writeAccumulator.get ino).getD [] ++ data
  let ai ← (e.ai.handle fuel (.writeFile ino)).toOption
  let sessionWrites ← countOne e.sessionWrites ino
  some { e with
    entropyGuard, ai, sessionWrites
    writeAccumulator := e.writeAccumulator.insert ino fullContent
    search := e.search.index ino name fullContent env.indexedAt
    log := e.log.record ⟨ino, name, .write, env.loggedAt, 0, UInt64.ofNat data.length⟩ }

def handleClose (e : Engine R) (env : EngineEnv) (ino : UInt64) (name : String)
    (duration : UInt64) : Option (Engine R) := do
  let importance ←
    e.importance.recordAccess ⟨env.scoreOrder, env.scoredAt, ino, name, duration, env.accessedAt⟩
  some { e with
    importance
    log := e.log.record ⟨ino, name, .close, env.loggedAt, 0, 0⟩
    writeAccumulator := e.writeAccumulator.erase ino }

def handleDelete (e : Engine R) (env : EngineEnv) (ino : UInt64) (name : String) : Engine R :=
  { e with
    search := e.search.remove ino
    writeAccumulator := e.writeAccumulator.erase ino
    log := e.log.record ⟨ino, name, .delete, env.loggedAt, 0, 0⟩ }

def handleEndSession (e : Engine R) (fuel : ℕ) (env : EngineEnv) : Option (Engine R) := do
  let ai ← (e.ai.handle fuel
    (.endSession env.focusOrder env.closedAt env.startedAt env.discovery env.analysedAt)).toOption
  some { e with ai, sessionFiles := [], sessionWrites := .empty, sessionOpens := .empty }

/-- Handle an event.  There is no result when a part panics, or when `fuel` is too small for the
recursion that finds a root. -/
def handleEvent (e : Engine R) (fuel : ℕ) (env : EngineEnv) : FsEvent → Option (Engine R)
  | .openFile ino name size => e.handleOpen fuel env ino name size
  | .write ino name data => e.handleWrite fuel env ino name data
  | .close ino name duration => e.handleClose env ino name duration
  | .delete ino name => some (e.handleDelete env ino name)
  | .endSession => e.handleEndSession fuel env
  | .syncCacheSize _ _ | .searchQuery _ | .askQuery _ _ | .syncAI => some e

/-- The engine after some events. -/
def run (e : Engine R) (fuel : ℕ) (events : List (EngineEnv × FsEvent)) : Option (Engine R) :=
  events.foldlM (fun e event => e.handleEvent fuel event.1 event.2) e

end Handling

end Engine

/-! ### What the events hand on -/

/-- The calls that events hand on to a part, each by the events before it. -/
def handedAfter {ε γ : Type*} (f : List ε → ε → List γ) : List ε → List ε → List γ
  | _, [] => []
  | before, e :: events => f before e ++ handedAfter f (before ++ [e]) events

def handed {ε γ : Type*} (f : List ε → ε → List γ) (events : List ε) : List γ :=
  handedAfter f [] events

theorem handed_concat {ε γ : Type*} (f : List ε → ε → List γ) (events : List ε) (e : ε) :
  handed f (events ++ [e]) = handed f events ++ f events e
  := by
  have hafter : ∀ before, handedAfter f before (events ++ [e])
      = handedAfter f before events ++ f (before ++ events) e := by
    induction events with
    | nil =>
        intro before
        rw [List.nil_append, handedAfter, handedAfter, handedAfter, List.append_nil,
          List.append_nil, List.nil_append]
    | cons e' events ih =>
        intro before
        rw [List.cons_append, handedAfter, handedAfter, ih, List.append_assoc, List.append_assoc]
        rfl
  exact hafter []

abbrev TimedEvent := EngineEnv × FsEvent

def FsEvent.opened : FsEvent → Option UInt64
  | .openFile ino _ _ => some ino
  | _ => none

def FsEvent.writtenTo : FsEvent → Option UInt64
  | .write ino _ _ => some ino
  | _ => none

/-- The file that was opened last. -/
def lastOpened (events : List TimedEvent) : Option UInt64 :=
  (events.filterMap fun e => e.2.opened).getLast?

/-- What was written to a file that is open. -/
def FsEvent.extend (ino : UInt64) (content : List UInt8) : FsEvent → List UInt8
  | .write ino' _ data => if ino = ino' then content ++ data else content
  | .close ino' _ _ | .delete ino' _ => if ino = ino' then [] else content
  | _ => content

/-- What was written to a file since it was last closed or deleted. -/
def written (ino : UInt64) (events : List TimedEvent) : List UInt8 :=
  events.foldl (fun content e => e.2.extend ino content) []

/-- The events of a session, after one more. -/
def FsEvent.continue (session : List FsEvent) : FsEvent → List FsEvent
  | .endSession => []
  | e => session ++ [e]

/-- The events since the last session ended. -/
def session (events : List TimedEvent) : List FsEvent :=
  events.foldl (fun session e => e.2.continue session) []

def transitionCalls (before : List TimedEvent) : TimedEvent → List TransitionCall
  | (_, .openFile ino name _) =>
      match lastOpened before with
      | some prev => if prev = ino then [] else [⟨prev, ino, name⟩]
      | none => []
  | _ => []

def neuralCalls (_ : List TimedEvent) : TimedEvent → List AccessCall
  | (_, .openFile ino name _) => [⟨ino, name⟩]
  | _ => []

def importanceCalls (_ : List TimedEvent) : TimedEvent → List ImportanceCall
  | (env, .openFile ino name _) =>
      [⟨env.scoreOrder, env.scoredAt, ino, name, 0, env.accessedAt⟩]
  | (env, .close ino name duration) =>
      [⟨env.scoreOrder, env.scoredAt, ino, name, duration, env.accessedAt⟩]
  | _ => []

def guardCalls (_ : List TimedEvent) : TimedEvent → List GuardCall
  | (env, .write ino name data) => [.checkWrite ino ⟨name, data, env.checkedAt⟩]
  | _ => []

def searchCalls (before : List TimedEvent) : TimedEvent → List SearchIndex.Call
  | (env, .write ino name data) => [.index ino name (written ino before ++ data) env.indexedAt]
  | (_, .delete ino _) => [.remove ino]
  | _ => []

def loggedEvents (_ : List TimedEvent) : TimedEvent → List AccessEvent
  | (env, .openFile ino name size) => [⟨ino, name, .open, env.loggedAt, 0, size⟩]
  | (env, .write ino name data) =>
      [⟨ino, name, .write, env.loggedAt, 0, UInt64.ofNat data.length⟩]
  | (env, .close ino name _) => [⟨ino, name, .close, env.loggedAt, 0, 0⟩]
  | (env, .delete ino name) => [⟨ino, name, .delete, env.loggedAt, 0, 0⟩]
  | _ => []

def memoryEvents (_ : List TimedEvent) : TimedEvent → List AIEngine.Event
  | (env, .openFile ino name _) => [.openFile ino name env.rememberedAt env.trendAt]
  | (_, .write ino _ _) => [.writeFile ino]
  | (env, .endSession) =>
      [.endSession env.focusOrder env.closedAt env.startedAt env.discovery env.analysedAt]
  | _ => []

/-! ### Runs -/

namespace Engine

variable {R : Type} [Field R] [FloatOps] [ShannonEntropy] [Letters] [ImportanceScore]
  {e₀ e e' : Engine R} {fuel : ℕ} {events : List TimedEvent} {event : TimedEvent}

/-- Each part is what its own calls make of it. -/
structure Parts (e₀ e : Engine R) (fuel : ℕ) (transitions : List TransitionCall)
    (accesses : List AccessCall) (importances : List ImportanceCall) (guards : List GuardCall)
    (searches : List SearchIndex.Call) (logged : List AccessEvent)
    (remembered : List AIEngine.Event) : Prop where
  markov : e₀.markov.run transitions = some e.markov
  neural : e₀.neural.run accesses = .ok e.neural
  importance : e₀.importance.run importances = some e.importance
  entropyGuard : guards.foldl (fun g c => (g.call c).2) e₀.entropyGuard = e.entropyGuard
  search : e₀.search.run searches = e.search
  log : logged.foldl AccessLog.record e₀.log = e.log
  ai : e₀.ai.run fuel remembered = .ok e.ai

theorem Parts.trans {e₁ e₂ : Engine R} {ts ts' : List TransitionCall} {as as' : List AccessCall}
    {is is' : List ImportanceCall} {gs gs' : List GuardCall} {ss ss' : List SearchIndex.Call}
    {ls ls' : List AccessEvent} {rs rs' : List AIEngine.Event}
    (h : Parts e₀ e₁ fuel ts as is gs ss ls rs) (h' : Parts e₁ e₂ fuel ts' as' is' gs' ss' ls' rs') :
  Parts e₀ e₂ fuel (ts ++ ts') (as ++ as') (is ++ is') (gs ++ gs') (ss ++ ss') (ls ++ ls')
    (rs ++ rs')
  := by
  constructor
  · rw [MarkovPrefetcher.run, List.foldlM_append]
    exact Option.bind_eq_some_iff.mpr ⟨_, h.markov, h'.markov⟩
  · rw [NeuralPrefetcher.run, List.foldlM_append, ← NeuralPrefetcher.run, h.neural]
    exact h'.neural
  · rw [ImportanceEngine.run, List.foldlM_append]
    exact Option.bind_eq_some_iff.mpr ⟨_, h.importance, h'.importance⟩
  · rw [List.foldl_append, h.entropyGuard, h'.entropyGuard]
  · rw [SearchIndex.run, List.foldl_append]
    exact (congrArg (SearchIndex.run · ss') h.search).trans h'.search
  · rw [List.foldl_append, h.log, h'.log]
  · rw [AIEngine.run_append, h.ai]
    exact h'.ai

/-- What the engine keeps of the events of a session: which files were opened, and how often
files were opened and written to. -/
structure Counts (e : Engine R) (session : List FsEvent) : Prop where
  nodup : e.sessionFiles.Nodup
  files : ∀ ino, ino ∈ e.sessionFiles ↔ ino ∈ session.filterMap FsEvent.opened
  opens : ∀ ino, (e.sessionOpens.tally ino).toNat = (session.filterMap FsEvent.opened).count ino
  writes : ∀ ino,
    (e.sessionWrites.tally ino).toNat = (session.filterMap FsEvent.writtenTo).count ino

/-- What the engine keeps of the events themselves. -/
structure Keeps (e : Engine R) (events : List TimedEvent) : Prop where
  last : e.lastOpenedIno = lastOpened events
  accumulated : ∀ ino, (e.writeAccumulator.get ino).getD [] = written ino events
  counts : e.Counts (session events)

omit [Field R] [FloatOps] [ShannonEntropy] [Letters] [ImportanceScore] in
theorem foldlM_singleton {m : Type → Type} [Monad m] [LawfulMonad m] {α β : Type}
    (f : β → α → m β) (b : β) (a : α) :
  [a].foldlM f b = f b a
  := by
  rw [List.foldlM_cons]
  exact bind_pure _

omit [Field R] [FloatOps] [ShannonEntropy] [Letters] [ImportanceScore] in
theorem ok_of_toOption {ε α : Type} {x : Except ε α} {a : α} (h : x.toOption = some a) :
  x = .ok a
  := by
  cases x with
  | error _ => cases h
  | ok _ => exact congrArg Except.ok (Option.some.inj h)

omit [ShannonEntropy] [Letters] [Field R] [FloatOps] [ImportanceScore] in
/-- Opening a file records a transition, if another file was opened before. -/
theorem run_transitionCalls (h : e.lastOpenedIno = lastOpened events) (env : EngineEnv)
    (ino : UInt64) (name : String) (size : UInt64) :
  e.markov.run (transitionCalls events (env, .openFile ino name size))
    = e.recordLastOpened ino name
  := by
  rw [recordLastOpened, h, transitionCalls]
  cases lastOpened events with
  | none => rfl
  | some prev =>
      dsimp only
      by_cases hprev : prev = ino
      · rw [if_neg (not_not.mpr hprev), if_pos hprev]
        rfl
      · rw [if_pos hprev, if_neg hprev]
        exact foldlM_singleton _ _ _

/-- One event hands its calls on to the parts. -/
theorem Keeps.parts (h : e.Keeps events) (hhandle : e.handleEvent fuel event.1 event.2 = some e') :
  Parts e e' fuel (transitionCalls events event) (neuralCalls events event)
    (importanceCalls events event) (guardCalls events event) (searchCalls events event)
    (loggedEvents events event) (memoryEvents events event)
  := by
  obtain ⟨env, event⟩ := event
  cases event with
  | openFile ino name size =>
      rw [handleEvent, handleOpen] at hhandle
      simp only [Option.bind_eq_bind, Option.bind_eq_some_iff] at hhandle
      obtain ⟨markov, hmarkov, importance, himportance, neural, hneural, ai, hai, opens, hopens,
        heq⟩ := hhandle
      obtain rfl := Option.some.inj heq
      refine ⟨(run_transitionCalls h.last env ino name size).trans hmarkov, ?_, ?_, rfl, rfl, rfl,
        ?_⟩
      · exact (foldlM_singleton _ _ _).trans (ok_of_toOption hneural)
      · exact (foldlM_singleton _ _ _).trans himportance
      · exact (foldlM_singleton _ _ _).trans (ok_of_toOption hai)
  | write ino name data =>
      rw [handleEvent, handleWrite] at hhandle
      simp only [Option.bind_eq_bind, Option.bind_eq_some_iff] at hhandle
      obtain ⟨ai, hai, writes, hwrites, heq⟩ := hhandle
      obtain rfl := Option.some.inj heq
      refine ⟨rfl, rfl, rfl, rfl, ?_, rfl, ?_⟩
      · rw [searchCalls, ← h.accumulated]
        rfl
      · exact (foldlM_singleton _ _ _).trans (ok_of_toOption hai)
  | close ino name duration =>
      rw [handleEvent, handleClose] at hhandle
      simp only [Option.bind_eq_bind, Option.bind_eq_some_iff] at hhandle
      obtain ⟨importance, himportance, heq⟩ := hhandle
      obtain rfl := Option.some.inj heq
      exact ⟨rfl, rfl, (foldlM_singleton _ _ _).trans himportance, rfl, rfl, rfl, rfl⟩
  | delete ino name =>
      obtain rfl := Option.some.inj hhandle
      exact ⟨rfl, rfl, rfl, rfl, rfl, rfl, rfl⟩
  | endSession =>
      rw [handleEvent, handleEndSession] at hhandle
      simp only [Option.bind_eq_bind, Option.bind_eq_some_iff] at hhandle
      obtain ⟨ai, hai, heq⟩ := hhandle
      obtain rfl := Option.some.inj heq
      exact ⟨rfl, rfl, rfl, rfl, rfl, rfl, (foldlM_singleton _ _ _).trans (ok_of_toOption hai)⟩
  | _ =>
      obtain rfl := Option.some.inj hhandle
      exact ⟨rfl, rfl, rfl, rfl, rfl, rfl, rfl⟩

omit [Field R] [FloatOps] [ShannonEntropy] [Letters] [ImportanceScore] in
theorem toNat_countOne {counts counts' : FiniteMap UInt64 UInt32} {ino : UInt64}
    (h : countOne counts ino = some counts') (ino' : UInt64) :
  (counts'.tally ino').toNat = (counts.tally ino').toNat + [ino].count ino'
  := by
  unfold countOne at h
  dsimp only at h
  split at h
  · cases h
  next hfits =>
  obtain rfl := Option.some.inj h
  rw [FiniteMap.tally_bump, List.count_singleton]
  by_cases heq : ino = ino'
  · rw [if_pos heq, if_pos (beq_iff_eq.mpr heq), ← heq]
    exact toNat_succ_of_ne hfits
  · rw [if_neg heq, if_neg (mt beq_iff_eq.mp heq), add_zero, Nat.add_zero]

section Counting

omit [Field R] [FloatOps] [ShannonEntropy] [Letters] [ImportanceScore]

variable {events : List FsEvent} {event : FsEvent}

theorem Counts.new (hfiles : e.sessionFiles = []) (hopens : e.sessionOpens = .empty)
    (hwrites : e.sessionWrites = .empty) :
  e.Counts []
  := by
  refine ⟨?_, fun ino => ?_, fun ino => ?_, fun ino => ?_⟩
  · rw [hfiles]
    exact List.nodup_nil
  · rw [hfiles]
    exact Iff.rfl
  · rw [hopens]
    rfl
  · rw [hwrites]
    rfl

/-- A file was opened. -/
theorem Counts.opened (h : e.Counts events) {ino : UInt64} (hopened : event.opened = some ino)
    (hwritten : event.writtenTo = none)
    (hfiles : e'.sessionFiles = if ino ∈ e.sessionFiles then e.sessionFiles
      else e.sessionFiles ++ [ino])
    (hopens : countOne e.sessionOpens ino = some e'.sessionOpens)
    (hwrites : e'.sessionWrites = e.sessionWrites) :
  e'.Counts (events ++ [event])
  := by
  have hopened' : (events ++ [event]).filterMap FsEvent.opened
      = events.filterMap FsEvent.opened ++ [ino] := by
    rw [List.filterMap_append, List.filterMap_cons_some hopened, List.filterMap_nil]
  constructor
  · rw [hfiles]
    split
    · exact h.nodup
    · next hnew =>
      rw [List.nodup_append_comm]
      exact List.nodup_cons.mpr ⟨hnew, h.nodup⟩
  · intro ino'
    rw [hopened', List.mem_append, ← h.files, List.mem_singleton, hfiles]
    split
    · next hold =>
      constructor
      · exact Or.inl
      · rintro (hmem | rfl)
        · exact hmem
        · exact hold
    · rw [List.mem_append, List.mem_singleton]
  · intro ino'
    rw [hopened', List.count_append, ← h.opens]
    exact toNat_countOne hopens ino'
  · intro ino'
    rw [hwrites, List.filterMap_append, List.filterMap_cons_none hwritten, List.filterMap_nil,
      List.append_nil]
    exact h.writes ino'

/-- A file was written to. -/
theorem Counts.written (h : e.Counts events) {ino : UInt64} (hopened : event.opened = none)
    (hwritten : event.writtenTo = some ino) (hfiles : e'.sessionFiles = e.sessionFiles)
    (hopens : e'.sessionOpens = e.sessionOpens)
    (hwrites : countOne e.sessionWrites ino = some e'.sessionWrites) :
  e'.Counts (events ++ [event])
  := by
  have hopened' : (events ++ [event]).filterMap FsEvent.opened
      = events.filterMap FsEvent.opened := by
    rw [List.filterMap_append, List.filterMap_cons_none hopened, List.filterMap_nil,
      List.append_nil]
  refine ⟨hfiles ▸ h.nodup, fun ino' => ?_, fun ino' => ?_, fun ino' => ?_⟩
  · rw [hopened', hfiles]
    exact h.files ino'
  · rw [hopened', hopens]
    exact h.opens ino'
  · rw [List.filterMap_append, List.filterMap_cons_some hwritten, List.filterMap_nil,
      List.count_append, ← h.writes]
    exact toNat_countOne hwrites ino'

/-- No file was opened or written to. -/
theorem Counts.other (h : e.Counts events) (hopened : event.opened = none)
    (hwritten : event.writtenTo = none) (hfiles : e'.sessionFiles = e.sessionFiles)
    (hopens : e'.sessionOpens = e.sessionOpens) (hwrites : e'.sessionWrites = e.sessionWrites) :
  e'.Counts (events ++ [event])
  := by
  have hopened' : (events ++ [event]).filterMap FsEvent.opened
      = events.filterMap FsEvent.opened := by
    rw [List.filterMap_append, List.filterMap_cons_none hopened, List.filterMap_nil,
      List.append_nil]
  have hwritten' : (events ++ [event]).filterMap FsEvent.writtenTo
      = events.filterMap FsEvent.writtenTo := by
    rw [List.filterMap_append, List.filterMap_cons_none hwritten, List.filterMap_nil,
      List.append_nil]
  refine ⟨hfiles ▸ h.nodup, fun ino' => ?_, fun ino' => ?_, fun ino' => ?_⟩
  · rw [hopened', hfiles]
    exact h.files ino'
  · rw [hopened', hopens]
    exact h.opens ino'
  · rw [hwritten', hwrites]
    exact h.writes ino'

end Counting

omit [Field R] [FloatOps] [ShannonEntropy] [Letters] [ImportanceScore] in
theorem lastOpened_concat (events : List TimedEvent) (event : TimedEvent) :
  lastOpened (events ++ [event]) = event.2.opened.or (lastOpened events)
  := by
  have hsingle : [event].filterMap (fun e => e.2.opened) = event.2.opened.toList := by
    rw [List.filterMap_cons]
    cases event.2.opened <;> rfl
  rw [lastOpened, lastOpened, List.filterMap_append, hsingle]
  cases event.2.opened with
  | none => rw [Option.toList_none, List.append_nil, Option.none_or]
  | some ino => rw [Option.toList_some, List.getLast?_concat, Option.some_or]

theorem Keeps.handleEvent (h : e.Keeps events)
    (hhandle : e.handleEvent fuel event.1 event.2 = some e') :
  e'.Keeps (events ++ [event])
  := by
  have hwritten : ∀ ino, written ino (events ++ [event])
      = event.2.extend ino (written ino events) := fun ino => List.foldl_concat _ _ _ _
  have hsession : session (events ++ [event]) = event.2.continue (session events) :=
    List.foldl_concat _ _ _ _
  have hlast := lastOpened_concat events event
  obtain ⟨env, event⟩ := event
  dsimp only at hwritten hsession hlast hhandle
  have herase : ∀ ino ino', ((e.writeAccumulator.erase ino).get ino').getD []
      = if ino' = ino then [] else written ino' events := by
    intro ino ino'
    rw [FiniteMap.get_erase]
    split
    · rfl
    · exact h.accumulated ino'
  cases event with
  | openFile ino name size =>
      rw [Engine.handleEvent, handleOpen] at hhandle
      simp only [Option.bind_eq_bind, Option.bind_eq_some_iff] at hhandle
      obtain ⟨markov, hmarkov, importance, himportance, neural, hneural, ai, hai, opens, hopens,
        heq⟩ := hhandle
      obtain rfl := Option.some.inj heq
      refine ⟨hlast.symm, fun ino' => (h.accumulated ino').trans (hwritten ino').symm, ?_⟩
      rw [hsession]
      exact h.counts.opened rfl rfl rfl hopens rfl
  | write ino name data =>
      rw [Engine.handleEvent, handleWrite] at hhandle
      simp only [Option.bind_eq_bind, Option.bind_eq_some_iff] at hhandle
      obtain ⟨ai, hai, writes, hwrites, heq⟩ := hhandle
      obtain rfl := Option.some.inj heq
      refine ⟨h.last.trans hlast.symm, fun ino' => ?_, ?_⟩
      · rw [hwritten, FsEvent.extend, FiniteMap.get_insert, ← h.accumulated]
        split
        · next heq => rw [heq, Option.getD_some]
        · rfl
      · rw [hsession]
        exact h.counts.written rfl rfl rfl rfl hwrites
  | close ino name duration =>
      rw [Engine.handleEvent, handleClose] at hhandle
      simp only [Option.bind_eq_bind, Option.bind_eq_some_iff] at hhandle
      obtain ⟨importance, himportance, heq⟩ := hhandle
      obtain rfl := Option.some.inj heq
      refine ⟨h.last.trans hlast.symm, fun ino' => (herase ino ino').trans (hwritten ino').symm,
        ?_⟩
      rw [hsession]
      exact h.counts.other rfl rfl rfl rfl rfl
  | delete ino name =>
      obtain rfl := Option.some.inj hhandle
      refine ⟨h.last.trans hlast.symm, fun ino' => (herase ino ino').trans (hwritten ino').symm,
        ?_⟩
      rw [hsession]
      exact h.counts.other rfl rfl rfl rfl rfl
  | endSession =>
      rw [Engine.handleEvent, handleEndSession] at hhandle
      simp only [Option.bind_eq_bind, Option.bind_eq_some_iff] at hhandle
      obtain ⟨ai, hai, heq⟩ := hhandle
      obtain rfl := Option.some.inj heq
      refine ⟨h.last.trans hlast.symm, fun ino' => (h.accumulated ino').trans (hwritten ino').symm,
        ?_⟩
      rw [hsession]
      exact .new rfl rfl rfl
  | _ =>
      obtain rfl := Option.some.inj hhandle
      refine ⟨h.last.trans hlast.symm, fun ino' => (h.accumulated ino').trans (hwritten ino').symm,
        ?_⟩
      rw [hsession]
      exact h.counts.other rfl rfl rfl rfl rfl

theorem parts_run (h : e₀.Keeps []) (hrun : e₀.run fuel events = some e) :
  Parts e₀ e fuel (handed transitionCalls events) (handed neuralCalls events)
      (handed importanceCalls events) (handed guardCalls events) (handed searchCalls events)
      (handed loggedEvents events) (handed memoryEvents events)
    ∧ e.Keeps events
  := by
  induction events using List.reverseRecOn generalizing e with
  | nil =>
      obtain rfl := Option.some.inj hrun
      exact ⟨⟨rfl, rfl, rfl, rfl, rfl, rfl, rfl⟩, h⟩
  | append_singleton events event ih =>
      rw [run, List.foldlM_append] at hrun
      obtain ⟨e₁, hbefore, hlast⟩ := Option.bind_eq_some_iff.mp hrun
      rw [foldlM_singleton] at hlast
      obtain ⟨hparts, hkeeps⟩ := ih hbefore
      simp only [handed_concat]
      exact ⟨hparts.trans (hkeeps.parts hlast), hkeeps.handleEvent hlast⟩

/-- After any events each part of the engine is what its own calls make of it: a transition for
every open of another file than the one opened last, an indexing for every write with all that
was written to the file since it was last closed or deleted, and so on.  The session is
described by the files opened and written to since the last one ended, and the log holds the
last events. -/
theorem run_parts {markov : MarkovPrefetcher} {neural : NeuralPrefetcher}
    {importance : ImportanceEngine} {entropyGuard : EntropyGuard} {search : SearchIndex R}
    {maxEvents : ℕ} {memory : MemoryEngine}
    (h : (new markov neural importance entropyGuard search (.new maxEvents) memory).run fuel events
      = some e) :
  Parts (new markov neural importance entropyGuard search (.new maxEvents) memory) e fuel
      (handed transitionCalls events) (handed neuralCalls events)
      (handed importanceCalls events) (handed guardCalls events) (handed searchCalls events)
      (handed loggedEvents events) (handed memoryEvents events)
    ∧ e.Keeps events
    ∧ e.log.events = (handed loggedEvents events).rtake (max maxEvents 1)
  := by
  obtain ⟨hparts, hkeeps⟩ := parts_run ⟨rfl, fun _ => rfl, .new rfl rfl rfl⟩ h
  refine ⟨hparts, hkeeps, ?_⟩
  rw [← hparts.log]
  exact congrArg AccessLog.events (AccessLog.foldl_record maxEvents _)

/-- What the environment supplies when the clock stands still. -/
def EngineEnv.still : EngineEnv where
  loggedAt := 0
  accessedAt := 0
  scoredAt _ := 0
  rememberedAt := 0
  trendAt := 0
  checkedAt := 0
  indexedAt := 0
  closedAt := 0
  startedAt := 0
  analysedAt := 0
  scoreOrder := .id
  focusOrder := .id
  discovery := ⟨.id, .id, .id⟩

omit [Field R] [FloatOps] [ShannonEntropy] [Letters] [ImportanceScore] in
/-- Two files are opened one after the other, and the second one is written to. -/
theorem run_parts_two_files :
  let _ := FloatOps.machine
  let _ := ShannonEntropy.extremes
  let _ := Letters.ascii
  let _ := ImportanceScore.byCount
  let events : List TimedEvent := [(EngineEnv.still, .openFile 2 "a" 0),
    (EngineEnv.still, .openFile 3 "b" 0), (EngineEnv.still, .write 3 "b" [104, 105])]
  ∃ e : Engine ℚ, (new (.new 100) .new .new .new .new (.new 10) (.new 0 0 0)).run 0 events = some e
    ∧ (MarkovPrefetcher.new 100).run [⟨2, 3, "b"⟩] = some e.markov
    ∧ (e.writeAccumulator.get 3).getD [] = [104, 105]
  := by
  intro _ _ _ _ events
  obtain ⟨e, hrun⟩ : ∃ e : Engine ℚ,
      (new (.new 100) .new .new .new .new (.new 10) (.new 0 0 0)).run 0 events = some e := ⟨_, rfl⟩
  obtain ⟨hparts, hkeeps, -⟩ := run_parts hrun
  exact ⟨e, hrun, hparts.markov, hkeeps.accumulated 3⟩

end Engine

end Vexfs
