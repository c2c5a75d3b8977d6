import Vexfs.Ai.CoAccess
import Vexfs.Ai.Focus
import Vexfs.Ai.MemoryBytes
import Vexfs.Ai.Workspace

/-!
# Closing sessions

When a session ends, the engine counts its pairs and discovers the projects.  That stops when
one of the files that were opened together often enough has no name.  Recording gives every
opened file a name, but the file of an engine keeps 50000 pairs and only 10000 names, so an
engine that is read back may have lost the name of a file and kept its pair.  Every session of
a run can be closed exactly when no engine was saved so (`closes_iff`).
-/

namespace Vexfs

open Bytes UnionFind

namespace MemoryEngine

/-! ### What is read back -/

/-- A string that is written and read back. -/
def cutStr (s : String) : String :=
  fromUtf8Lossy ((utf8 s).take (min (utf8 s).length 255))

/-- A session that is written and read back. -/
def cutSession (s : Session) : Session :=
  let focusRaw := cutStr (s.focusFile.getD "")
  { s with
    filesTouched := (s.filesTouched.take 100).map fun f => (f.1, cutStr f.2)
    peakFiles := 0
    focusFile := if focusRaw.isEmpty then none else some focusRaw }

/-- An engine that is written and read back, with a session of its own. -/
def reread (e : MemoryEngine) (orders : Orders) (session : Session) : MemoryEngine where
  sessions := (e.sessions.take 500).map cutSession
  currentSession := session
  temporal := keptMap 10000 orders.temporal id e.temporal
  streaks := keptMap 10000 orders.streaks id e.streaks
  coAccess := ⟨keptMap 50000 orders.pairs id e.coAccess.pairs⟩
  trends := ⟨keptMap 10000 orders.daily id e.trends.daily, e.trends.lastDay⟩
  names := keptMap 10000 orders.names cutStr e.names
  totalSessions := e.totalSessions

theorem reads_cutStr (s : String) :
  Reads readStr (pushStr s) (cutStr s)
  := by
  have hle : min (utf8 s).length 255 ≤ 255 := Nat.min_le_right _ _
  have hlen : (UInt8.ofNat (min (utf8 s).length 255)).toNat = min (utf8 s).length 255 :=
    UInt8.toNat_ofNat_of_lt' (Nat.lt_succ_of_le hle)
  have htake : ((utf8 s).take (min (utf8 s).length 255)).length
      = (UInt8.ofNat (min (utf8 s).length 255)).toNat := by
    rw [hlen, List.length_take, Nat.min_eq_left (Nat.min_le_left _ _)]
  rw [pushStr, writeStr, ← List.singleton_append]
  apply Reads.bind (Reads.u8 _)
  exact (Reads.exact htake).map fromUtf8Lossy

theorem reads_cutFile (files : List (UInt64 × String)) (f : UInt64 × String) :
  Reads (readFile files) (fileBytes f) (files ++ [(f.1, cutStr f.2)])
  := by
  apply Reads.bind (Reads.u64 _)
  exact (reads_cutStr f.2).map fun name => files ++ [(f.1, name)]

theorem reads_cutName (names : FiniteMap UInt64 String) (f : UInt64 × String) :
  Reads (readName names) (fileBytes f) (names.insert f.1 (cutStr f.2))
  := by
  apply Reads.bind (Reads.u64 _)
  exact (reads_cutStr f.2).map fun name => names.insert f.1 name

theorem reads_cutSession (sessions : List Session) (s : Session) :
  Reads (readSession sessions) (sessionBytes s) (sessions ++ [cutSession s])
  := by
  apply Reads.bind (Reads.u64 _)
  apply Reads.bind (Reads.u64 _)
  apply Reads.bind (Reads.u64 _)
  apply Reads.bind (Reads.u64 _)
  apply Reads.bind (Reads.u64 _)
  apply Reads.bind (Reads.u32 _)
  apply Reads.bind (reads_take (by decide) fun files f _ => reads_cutFile files f)
  exact (reads_cutStr _).map fun focusRaw => sessions ++
    [{ cutSession s with focusFile := if focusRaw.isEmpty then none else some focusRaw }]

/-- An engine of any size is read, up to what its file leaves out. -/
theorem reads_reread (e : MemoryEngine) (orders : Orders) (session : Session) :
  Reads (readEngine session) (e.engineBytes orders) (e.reread orders session)
  := by
  apply Reads.bind (Reads.u64 _)
  apply Reads.bind (Reads.u32 _)
  apply Reads.bind (reads_take (by decide) fun sessions s _ => reads_cutSession sessions s)
  apply Reads.bind (reads_keptMap (g := id) (by decide) _ fun m e _ => reads_temporal m e)
  apply Reads.bind (reads_keptMap (g := id) (by decide) _ fun m e _ => reads_streak m e)
  apply Reads.bind (reads_keptMap (g := id) (by decide) _ fun m e _ => reads_pair m e)
  apply Reads.bind (Reads.u64 _)
  apply Reads.bind (reads_keptMap (g := id) (by decide) _ fun m e _ => reads_daily m e)
  have hnames : Reads (readMap 10000 readName)
      (mapBytes 10000 fileBytes orders.names e.names) (keptMap 10000 orders.names cutStr e.names) :=
    reads_keptMap (by decide) _ fun m f _ => reads_cutName m f
  exact hnames.map fun names => { e.reread orders session with names }

theorem fromBytes_toBytes (e : MemoryEngine) (orders : Orders) (sessionId now : UInt64) :
  fromBytes sessionId now (e.toBytes orders) = some (e.reread orders (.new sessionId now))
  := by
  have hmagic : magic.length = 8 := rfl
  have hread := (e.reads_reread orders (.new sessionId now)).eq
  rw [fromBytes, toBytes, if_neg, if_neg, List.drop_left' hmagic, hread]
  · rfl
  · exact not_not_intro (List.take_left' hmagic)
  · rw [List.length_append, hmagic]
    omega

/-- The entries that are read back are the first ones that were gone through. -/
theorem get_keptMap {α β : Type} [LinearOrder α] {limit : ℕ} {order : Arrangement α}
    {g : β → β} {m : FiniteMap α β} {k : α} {w : β} :
  (keptMap limit order g m).get k = some w
    ↔ ∃ v, (k, v) ∈ (m.iter order).take limit ∧ g v = w
  := by
  have hfold (es : List (α × β)) (m' : FiniteMap α β) :
      es.foldl (fun m e => m.insert e.1 (g e.2)) m'
        = (es.map fun e => (e.1, g e.2)).foldl (fun m e => m.insert e.1 e.2) m' := by
    rw [List.foldl_map]
  have hnodup : ((((m.iter order).take limit).map fun e => (e.1, g e.2)).map Prod.fst).Nodup := by
    rw [List.map_map, List.map_take]
    exact (List.take_sublist _ _).nodup (m.nodup_keys_iter order)
  rw [keptMap, hfold, FiniteMap.get_foldl_insert hnodup, FiniteMap.get_empty, Option.or_none,
    SortedMap.lookup_eq_some_iff hnodup, List.mem_map]
  constructor
  · rintro ⟨⟨k', v⟩, hmem, heq⟩
    obtain ⟨rfl, hw⟩ := Prod.mk.inj heq
    exact ⟨v, hmem, hw⟩
  · rintro ⟨v, hmem, rfl⟩
    exact ⟨(k, v), hmem, rfl⟩

/-! ### Names -/

/-- What is known of the files that have a name. -/
def statsMap (e : MemoryEngine) : FiniteMap UInt64 FileStats :=
  e.names.mapWithKey fun ino name =>
    let opens := ((e.temporal.get ino).map TemporalPattern.total).getD 0
    { name
      totalOpens := opens
      lastTs := ((e.streaks.get ino).map fun s => s.lastTouchedDay * 86400).getD 0
      totalWriteSecs := opens.toUInt64 }

theorem keys_statsMap (e : MemoryEngine) :
  e.statsMap.keys = e.names.keys
  := FiniteMap.keys_mapWithKey _ _

/-- The files of the session, and those that were opened together often enough, have names. -/
structure PairsNamed (e : MemoryEngine) : Prop where
  pairs : ∀ a b, Together e.coAccess.pairs a b → a ∈ e.names.keys ∧ b ∈ e.names.keys
  files : ∀ f ∈ e.currentSession.filesTouched, f.1 ∈ e.names.keys

/-- The pairs of files that were opened together often enough are saved with their names, or
not at all. -/
def SavesNames (e : MemoryEngine) (orders : Orders) : Prop :=
  ∀ a b count, (toLex (a, b), count) ∈ (e.coAccess.pairs.iter orders.pairs).take 50000 →
    coThreshold ≤ count →
    a ∈ ((e.names.iter orders.names).take 10000).map Prod.fst
      ∧ b ∈ ((e.names.iter orders.names).take 10000).map Prod.fst

theorem PairsNamed.new (sessionId now now' : UInt64) :
  (MemoryEngine.new sessionId now now').PairsNamed
  where
  pairs := by
    rintro a b ⟨count, hget, -⟩
    cases hget
  files f hf := absurd hf List.not_mem_nil

theorem mem_keys_insert {m : FiniteMap UInt64 String} {ino ino' : UInt64} {name : String} :
  ino' ∈ (m.insert ino name).keys ↔ ino' = ino ∨ ino' ∈ m.keys
  := by
  rw [FiniteMap.mem_keys, FiniteMap.mem_keys, FiniteMap.get_insert]
  split
  · next heq => simp [heq]
  · next hne => simp [hne]

theorem PairsNamed.recordAccess {e : MemoryEngine} (h : e.PairsNamed) (ino : UInt64)
    (name : String) (ts now : UInt64) :
  (e.recordAccess ino name ts now).PairsNamed
  where
  pairs a b hab := by
    obtain ⟨ha, hb⟩ := h.pairs a b hab
    exact ⟨mem_keys_insert.mpr (.inr ha), mem_keys_insert.mpr (.inr hb)⟩
  files f hf := by
    have hmem : f.1 ∈ (touchFile e.currentSession ino name).filesTouched.map Prod.fst :=
      List.mem_map_of_mem hf
    obtain heq | hold := mem_touchFile.mp hmem
    · exact mem_keys_insert.mpr (.inl heq)
    · obtain ⟨f', hf', heq⟩ := List.mem_map.mp hold
      exact mem_keys_insert.mpr (.inr (heq ▸ h.files f' hf'))

/-- A pair whose count changes is one of the session. -/
theorem get_recordSession {m : CoAccessMap} {files : List (UInt64 × String)} {a b : UInt64}
    {count : UInt32} (h : (m.recordSession files).pairs.get (toLex (a, b)) = some count) :
  m.pairs.get (toLex (a, b)) = some count ∨ a ∈ files.map Prod.fst ∧ b ∈ files.map Prod.fst
  := by
  rw [CoAccessMap.recordSession_eq] at h
  have hmem (p : UInt64 × UInt64)
      (hp : p ∈ CoAccessMap.pairsOf (CoAccessMap.firstInodes files)) :
      p.1 ∈ files.map Prod.fst ∧ p.2 ∈ files.map Prod.fst := by
    have hfirst (x : UInt64) (hx : x ∈ CoAccessMap.firstInodes files) : x ∈ files.map Prod.fst :=
      List.mem_eraseDups.mp (List.mem_of_mem_take hx)
    exact (CoAccessMap.mem_pairsOf hp).imp (hfirst _) (hfirst _)
  revert hmem h
  generalize CoAccessMap.pairsOf (CoAccessMap.firstInodes files) = ps
  intro h hmem
  induction ps generalizing m with
  | nil => exact .inl h
  | cons p ps ih =>
      rw [List.forall_mem_cons] at hmem
      obtain hget | hboth := ih h hmem.2
      · have hpairs : (m.countPair p).pairs = m.pairs.insert (CoAccessMap.keyOf p)
            ((m.pairs.get (CoAccessMap.keyOf p)).getD 0 + 1) := rfl
        rw [hpairs, FiniteMap.get_insert] at hget
        split at hget
        · next heq =>
          obtain ⟨rfl, rfl⟩ := Prod.mk.inj (toLex.injective heq)
          right
          obtain hle | hle := le_total p.1 p.2
          · rw [min_eq_left hle, max_eq_right hle]
            exact hmem.1
          · rw [min_eq_right hle, max_eq_left hle]
            exact hmem.1.symm
        · exact .inl hget
      · exact .inr hboth

theorem PairsNamed.closeSession {e : MemoryEngine} (h : e.PairsNamed)
    (order : Arrangement UInt64) (ts now : UInt64) :
  (e.closeSession order ts now).PairsNamed
  where
  pairs a b := by
    rintro ⟨count, hget, hle⟩
    have hfile (x : UInt64) (hx : x ∈ e.currentSession.filesTouched.map Prod.fst) :
        x ∈ e.names.keys := by
      obtain ⟨f, hf, rfl⟩ := List.mem_map.mp hx
      exact h.files f hf
    obtain hold | ⟨ha, hb⟩ := get_recordSession hget
    · exact h.pairs a b ⟨count, hold, hle⟩
    · exact ⟨hfile a ha, hfile b hb⟩
  files f hf := absurd hf List.not_mem_nil

theorem mem_keys_keptMap {limit : ℕ} {order : Arrangement UInt64} {g : String → String}
    {m : FiniteMap UInt64 String} {ino : UInt64} :
  ino ∈ (keptMap limit order g m).keys ↔ ino ∈ ((m.iter order).take limit).map Prod.fst
  := by
  rw [FiniteMap.mem_keys, Option.isSome_iff_exists, List.mem_map]
  constructor
  · rintro ⟨w, hw⟩
    obtain ⟨v, hv, -⟩ := get_keptMap.mp hw
    exact ⟨(ino, v), hv, rfl⟩
  · rintro ⟨⟨ino, v⟩, hv, rfl⟩
    exact ⟨g v, get_keptMap.mpr ⟨v, hv, rfl⟩⟩

/-- What it means that the pairs of an engine that is read back have names. -/
theorem pairs_reread_iff {e : MemoryEngine} {orders : Orders} {session : Session} :
  (∀ a b, Together (e.reread orders session).coAccess.pairs a b →
      a ∈ (e.reread orders session).names.keys ∧ b ∈ (e.reread orders session).names.keys)
    ↔ e.SavesNames orders
  := by
  have htogether (a b : UInt64) : Together (e.reread orders session).coAccess.pairs a b
      ↔ ∃ count, (toLex (a, b), count) ∈ (e.coAccess.pairs.iter orders.pairs).take 50000
        ∧ coThreshold ≤ count := by
    constructor
    · rintro ⟨count, hget, hle⟩
      obtain ⟨v, hv, rfl⟩ := get_keptMap.mp hget
      exact ⟨v, hv, hle⟩
    · rintro ⟨count, hmem, hle⟩
      exact ⟨count, get_keptMap.mpr ⟨count, hmem, rfl⟩, hle⟩
  have hkeys (ino : UInt64) : ino ∈ (e.reread orders session).names.keys
      ↔ ino ∈ ((e.names.iter orders.names).take 10000).map Prod.fst := mem_keys_keptMap
  constructor
  · intro h a b count hmem hle
    rw [← hkeys, ← hkeys]
    exact h a b ((htogether a b).mpr ⟨count, hmem, hle⟩)
  · intro h a b hab
    obtain ⟨count, hmem, hle⟩ := (htogether a b).mp hab
    rw [hkeys, hkeys]
    exact h a b count hmem hle

end MemoryEngine

/-! ### The engine -/

/-- What the engine keeps of its sessions and its files. -/
structure AIEngine where
  memory : MemoryEngine
  projects : List Project

namespace AIEngine

/-- An event, with the times that the clock gives and the orders of the maps.  An engine is
also saved and read back, when the file system is mounted again. -/
inductive Event where
  | openFile (ino : UInt64) (name : String) (ts now : UInt64)
  | writeFile (ino : UInt64)
  | other
  | endSession (order : Arrangement UInt64) (ts now : UInt64) (discovery : DiscoveryOrders)
      (nowTs : UInt64)
  | remount (orders : MemoryEngine.Orders) (sessionId now now' : UInt64)

def new (memory : MemoryEngine) : AIEngine := ⟨memory, []⟩

section Events

variable [FloatOps]

/-- Handle an event.  `fuel` bounds the depth of the recursion that finds a root. -/
def handle (fuel : ℕ) (ai : AIEngine) : Event → Except Stop AIEngine
  | .openFile ino name ts now =>
      .ok { ai with memory := (ai.memory.recordAccess ino name ts now).recordRead }
  | .writeFile _ => .ok { ai with memory := ai.memory.recordWrite }
  | .other => .ok ai
  | .endSession order ts now discovery nowTs => do
      let memory := ai.memory.closeSession order ts now
      let projects ← discoverProjects fuel discovery memory.coAccess.pairs memory.statsMap
        memory.names nowTs
      return ⟨memory, projects⟩
  | .remount orders sessionId now now' =>
      .ok (new ((MemoryEngine.fromBytes sessionId now (ai.memory.toBytes orders)).getD
        (.new sessionId now now')))

def run (fuel : ℕ) (ai : AIEngine) (events : List Event) : Except Stop AIEngine :=
  events.foldlM (handle fuel) ai

/-- The event is handled, with any fuel that is large enough. -/
def Handles (ai : AIEngine) (event : Event) (ai' : AIEngine) : Prop :=
  ∃ bound, ∀ fuel, bound ≤ fuel → ai.handle fuel event = .ok ai'

/-- The events are handled, with any fuel that is large enough. -/
def Reaches (ai : AIEngine) (events : List Event) (ai' : AIEngine) : Prop :=
  ∃ bound, ∀ fuel, bound ≤ fuel → ai.run fuel events = .ok ai'

/-! ### Runs -/

theorem handle_remount (fuel : ℕ) (ai : AIEngine) (orders : MemoryEngine.Orders)
    (sessionId now now' : UInt64) :
  ai.handle fuel (.remount orders sessionId now now')
    = .ok (new (ai.memory.reread orders (.new sessionId now)))
  := by rw [handle, MemoryEngine.fromBytes_toBytes, Option.getD_some]

theorem Reaches.nil (ai : AIEngine) :
  ai.Reaches [] ai
  := ⟨0, fun _ _ => rfl⟩

theorem run_append (fuel : ℕ) (ai : AIEngine) (events events' : List Event) :
  ai.run fuel (events ++ events') = ai.run fuel events >>= fun ai' => ai'.run fuel events'
  := List.foldlM_append

theorem run_singleton (fuel : ℕ) (ai : AIEngine) (event : Event) :
  ai.run fuel [event] = ai.handle fuel event
  := by
  rw [run, List.foldlM_cons]
  exact bind_pure _

theorem Reaches.append {ai ai' ai'' : AIEngine} {events events' : List Event}
    (h : ai.Reaches events ai') (h' : ai'.Reaches events' ai'') :
  ai.Reaches (events ++ events') ai''
  := by
  obtain ⟨bound, hrun⟩ := h
  obtain ⟨bound', hrun'⟩ := h'
  use max bound bound'
  intro fuel hfuel
  rw [run_append, hrun fuel (le_of_max_le_left hfuel)]
  exact hrun' fuel (le_of_max_le_right hfuel)

/-- After some events, one more is handled. -/
theorem Reaches.concat_iff {ai ai' ai'' : AIEngine} {events : List Event} {event : Event}
    (h : ai.Reaches events ai') :
  ai.Reaches (events ++ [event]) ai'' ↔ ai'.Handles event ai''
  := by
  obtain ⟨bound, hrun⟩ := h
  have hconcat (fuel : ℕ) (hfuel : bound ≤ fuel) :
      ai.run fuel (events ++ [event]) = ai'.handle fuel event := by
    rw [run_append, hrun fuel hfuel]
    exact run_singleton fuel ai' event
  constructor
  · rintro ⟨bound', hall⟩
    use max bound bound'
    intro fuel hfuel
    rw [← hconcat fuel (le_of_max_le_left hfuel)]
    exact hall fuel (le_of_max_le_right hfuel)
  · rintro ⟨bound', hevent⟩
    use max bound bound'
    intro fuel hfuel
    rw [hconcat fuel (le_of_max_le_left hfuel)]
    exact hevent fuel (le_of_max_le_right hfuel)

/-- Events lead to one engine. -/
theorem Reaches.unique {ai ai₁ ai₂ : AIEngine} {events : List Event}
    (h₁ : ai.Reaches events ai₁) (h₂ : ai.Reaches events ai₂) :
  ai₁ = ai₂
  := by
  obtain ⟨bound₁, hrun₁⟩ := h₁
  obtain ⟨bound₂, hrun₂⟩ := h₂
  have heq := hrun₁ (max bound₁ bound₂) (Nat.le_max_left _ _)
  rw [hrun₂ _ (Nat.le_max_right _ _)] at heq
  exact (Except.ok.inj heq).symm

/-! ### Closing a session -/

/-- A session is closed when the files of its pairs have names. -/
theorem exists_handles_endSession {ai : AIEngine} (h : ai.memory.PairsNamed)
    (order : Arrangement UInt64) (ts now : UInt64) (discovery : DiscoveryOrders)
    (nowTs : UInt64) :
  ∃ ai', ai.Handles (.endSession order ts now discovery nowTs) ai'
    ∧ ai'.memory = ai.memory.closeSession order ts now
  := by
  let memory := ai.memory.closeSession order ts now
  have hnamed : memory.PairsNamed := h.closeSession order ts now
  have hpairs := hnamed.pairs
  rw [← memory.keys_statsMap] at hpairs
  obtain ⟨projects, hprojects⟩ :=
    exists_discoverProjects discovery memory.names nowTs (.inr hpairs)
  refine ⟨⟨memory, projects⟩, ⟨memory.statsMap.len, ?_⟩, rfl⟩
  intro fuel hfuel
  rw [handle, hprojects fuel hfuel]
  rfl

/-- An engine whose session has no files can close it only when the files of its pairs have
names, or no file has one. -/
theorem pairs_of_handles_endSession {ai ai' : AIEngine} {order : Arrangement UInt64}
    {ts now nowTs : UInt64} {discovery : DiscoveryOrders}
    (h : ai.Handles (.endSession order ts now discovery nowTs) ai')
    (hfiles : ai.memory.currentSession.filesTouched = []) (hne : ai.memory.names.keys ≠ [])
    (a b : UInt64) (hab : Together ai.memory.coAccess.pairs a b) :
  a ∈ ai.memory.names.keys ∧ b ∈ ai.memory.names.keys
  := by
  obtain ⟨bound, hall⟩ := h
  let memory := ai.memory.closeSession order ts now
  have hpairs : memory.coAccess.pairs = ai.memory.coAccess.pairs := by
    change (ai.memory.coAccess.recordSession ai.memory.currentSession.filesTouched).pairs = _
    rw [hfiles]
    rfl
  have hkeys : memory.statsMap.keys = ai.memory.names.keys := memory.keys_statsMap
  by_contra hmissing
  have hstop := discoverProjects_missing discovery memory.names nowTs (hkeys ▸ hne)
    (fun hknown => hmissing (hkeys ▸ hknown a b (hpairs ▸ hab)))
    (Nat.succ_pos (max bound memory.statsMap.len))
    (Nat.le_succ_of_le (Nat.le_max_right bound memory.statsMap.len))
  have hok := hall (max bound memory.statsMap.len + 1)
    (Nat.le_succ_of_le (Nat.le_max_left _ _))
  rw [handle, hstop] at hok
  cases hok

/-- An event is handled, and leaves the files of the pairs with names, unless it saves a pair
without its names. -/
theorem exists_handles {ai : AIEngine} (h : ai.memory.PairsNamed) {event : Event}
    (hevent : ∀ orders sessionId now now', event = .remount orders sessionId now now' →
      ai.memory.SavesNames orders) :
  ∃ ai', ai.Handles event ai' ∧ ai'.memory.PairsNamed
  := by
  cases event with
  | openFile ino name ts now =>
      exact ⟨_, ⟨0, fun _ _ => rfl⟩, (h.recordAccess ino name ts now).pairs,
        (h.recordAccess ino name ts now).files⟩
  | writeFile ino => exact ⟨_, ⟨0, fun _ _ => rfl⟩, h.pairs, h.files⟩
  | other => exact ⟨_, ⟨0, fun _ _ => rfl⟩, h⟩
  | endSession order ts now discovery nowTs =>
      obtain ⟨ai', hai', hmemory⟩ := exists_handles_endSession h order ts now discovery nowTs
      exact ⟨ai', hai', hmemory ▸ h.closeSession order ts now⟩
  | remount orders sessionId now now' =>
      refine ⟨_, ⟨0, fun fuel _ => handle_remount fuel ai orders sessionId now now'⟩, ?_, ?_⟩
      · exact MemoryEngine.pairs_reread_iff.mpr (hevent orders sessionId now now' rfl)
      · exact fun f hf => absurd hf List.not_mem_nil

/-- When the session after a remount can be closed, no pair was saved without its names. -/
theorem savesNames_of_handles {ai ai' : AIEngine} (h : ai.memory.PairsNamed)
    {orders : MemoryEngine.Orders} {sessionId now : UInt64} {order : Arrangement UInt64}
    {ts ts' nowTs : UInt64} {discovery : DiscoveryOrders}
    (hclose : (new (ai.memory.reread orders (.new sessionId now))).Handles
      (.endSession order ts ts' discovery nowTs) ai') :
  ai.memory.SavesNames orders
  := by
  have hpairs := pairs_of_handles_endSession hclose rfl
  by_cases hnames : (ai.memory.reread orders (.new sessionId now)).names.keys = []
  · intro a b count hmem hle
    -- no name was saved, so there was none
    have hnil : ai.memory.names.keys = [] := by
      by_contra hne
      have hlength : ((ai.memory.names.iter orders.names).take 10000).length ≠ 0 := by
        rw [List.length_take, FiniteMap.length_iter, ← FiniteMap.length_keys]
        have hpos := List.length_pos_iff.mpr hne
        omega
      obtain ⟨f, hf⟩ := List.exists_mem_of_length_pos (Nat.pos_of_ne_zero hlength)
      have hmem' : f.1 ∈ (ai.memory.reread orders (.new sessionId now)).names.keys :=
        MemoryEngine.mem_keys_keptMap.mpr (List.mem_map_of_mem hf)
      rw [hnames] at hmem'
      cases hmem'
    have hnamed := (h.pairs a b ⟨count, FiniteMap.mem_iter.mp (List.mem_of_mem_take hmem),
      hle⟩).1
    rw [hnil] at hnamed
    cases hnamed
  · exact MemoryEngine.pairs_reread_iff.mp (hpairs hnames)

/-- Events that save no pair without its names are handled. -/
theorem exists_reaches {ai : AIEngine} (h : ai.memory.PairsNamed) {events : List Event}
    (hsaves : ∀ pre orders sessionId now now',
      pre ++ [.remount orders sessionId now now'] <+: events →
      ∀ ai', ai.Reaches pre ai' → ai'.memory.PairsNamed → ai'.memory.SavesNames orders) :
  ∃ ai', ai.Reaches events ai' ∧ ai'.memory.PairsNamed
  := by
  induction events using List.reverseRecOn with
  | nil => exact ⟨ai, .nil ai, h⟩
  | append_singleton events event ih =>
      have hprefix : events <+: events ++ [event] := List.prefix_append _ _
      obtain ⟨ai', hreach, hnamed⟩ := ih fun pre orders sessionId now now' hpre =>
        hsaves pre orders sessionId now now' (hpre.trans hprefix)
      have hevent (orders : MemoryEngine.Orders) (sessionId now now' : UInt64)
          (heq : event = .remount orders sessionId now now') : ai'.memory.SavesNames orders := by
        subst heq
        exact hsaves events orders sessionId now now' (List.prefix_refl _) ai' hreach hnamed
      obtain ⟨ai'', hhandles, hnamed'⟩ := exists_handles hnamed hevent
      exact ⟨ai'', hreach.concat_iff.mpr hhandles, hnamed'⟩

/-- In a run of an engine that starts without files, the session can be closed at any time
exactly when every remount saves the pairs of files that were opened together often enough
with the names of both files, or not at all. -/
theorem closes_iff (sessionId now now' : UInt64) (events : List Event) :
  (∀ pre, pre <+: events → ∀ order ts ts' discovery nowTs, ∃ ai,
      (new (.new sessionId now now')).Reaches
        (pre ++ [.endSession order ts ts' discovery nowTs]) ai)
    ↔ ∀ pre orders id t t', pre ++ [.remount orders id t t'] <+: events →
      ∀ ai, (new (.new sessionId now now')).Reaches pre ai → ai.memory.SavesNames orders
  := by
  have hstart := MemoryEngine.PairsNamed.new sessionId now now'
  constructor
  · intro hcloses pre orders id t t' hpre ai hreach
    have hsaves (pre : List Event) (orders : MemoryEngine.Orders) (id t t' : UInt64)
        (hpre : pre ++ [.remount orders id t t'] <+: events) (ai : AIEngine)
        (hreach : (new (.new sessionId now now')).Reaches pre ai)
        (hnamed : ai.memory.PairsNamed) : ai.memory.SavesNames orders := by
      obtain ⟨ai', hai'⟩ := hcloses _ hpre .id 0 0 ⟨.id, .id, .id⟩ 0
      have hremount := hreach.concat_iff.mpr
        ⟨0, fun fuel _ => handle_remount fuel ai orders id t t'⟩
      exact savesNames_of_handles hnamed (hremount.concat_iff.mp hai')
    obtain ⟨ai', hreach', hnamed⟩ := exists_reaches hstart
      fun pre' orders' id' t t' hpre' =>
        hsaves pre' orders' id' t t' (hpre'.trans ((List.prefix_append pre _).trans hpre))
    obtain rfl := hreach.unique hreach'
    exact hsaves pre orders id t t' hpre ai hreach hnamed
  · intro hsaves pre hpre order ts ts' discovery nowTs
    obtain ⟨ai, hreach, hnamed⟩ := exists_reaches hstart
      fun pre' orders id t t' hpre' ai hreach _ =>
        hsaves pre' orders id t t' (hpre'.trans hpre) ai hreach
    obtain ⟨ai', hclose, -⟩ := exists_handles_endSession hnamed order ts ts' discovery nowTs
    exact ⟨ai', hreach.concat_iff.mpr hclose⟩

/-! ### More files than names -/

/-- Two files are opened in a session. -/
def openTwo : List Event :=
  [.openFile 1 "a" 0 0, .openFile 2 "b" 0 0, .endSession .id 0 0 ⟨.id, .id, .id⟩ 0]

/-- The memory after the session with the two files. -/
def memoryTwo (memory : MemoryEngine) : MemoryEngine :=
  ((memory.recordAccess 1 "a" 0 0).recordRead.recordAccess 2 "b" 0 0).recordRead.closeSession
    .id 0 0

theorem exists_openTwo {ai : AIEngine} (h : ai.memory.PairsNamed) :
  ∃ ai', ai.Reaches openTwo ai' ∧ ai'.memory = memoryTwo ai.memory ∧ ai'.memory.PairsNamed
  := by
  let memory := ((ai.memory.recordAccess 1 "a" 0 0).recordRead.recordAccess 2 "b" 0 0).recordRead
  have h₁ : (ai.memory.recordAccess 1 "a" 0 0).recordRead.PairsNamed :=
    ⟨(h.recordAccess 1 "a" 0 0).pairs, (h.recordAccess 1 "a" 0 0).files⟩
  have h₂ : memory.PairsNamed :=
    ⟨(h₁.recordAccess 2 "b" 0 0).pairs, (h₁.recordAccess 2 "b" 0 0).files⟩
  let opened : AIEngine := { ai with memory }
  have hopen : ai.Reaches [.openFile 1 "a" 0 0, .openFile 2 "b" 0 0] opened :=
    ⟨0, fun _ _ => rfl⟩
  have hnamed : opened.memory.PairsNamed := h₂
  obtain ⟨ai', hclose, hmemory⟩ := exists_handles_endSession hnamed .id 0 0 ⟨.id, .id, .id⟩ 0
  refine ⟨ai', hopen.concat_iff.mpr hclose, hmemory, ?_⟩
  rw [hmemory]
  exact h₂.closeSession .id 0 0

/-- Opening files counts no pairs, and gives the files names. -/
theorem exists_openAll {ai : AIEngine} (h : ai.memory.PairsNamed) (inos : List UInt64) :
  ∃ ai', ai.Reaches (inos.map fun ino => .openFile ino "c" 0 0) ai'
    ∧ ai'.memory.PairsNamed
    ∧ ai'.memory.coAccess = ai.memory.coAccess
    ∧ ∀ ino, ino ∈ ai'.memory.names.keys ↔ ino ∈ inos ∨ ino ∈ ai.memory.names.keys
  := by
  induction inos generalizing ai with
  | nil => exact ⟨ai, .nil ai, h, rfl, fun ino => by simp⟩
  | cons ino inos ih =>
      let opened : AIEngine :=
        { ai with memory := (ai.memory.recordAccess ino "c" 0 0).recordRead }
      have hopen : ai.Reaches [.openFile ino "c" 0 0] opened := ⟨0, fun _ _ => rfl⟩
      have hnamed : opened.memory.PairsNamed :=
        ⟨(h.recordAccess ino "c" 0 0).pairs, (h.recordAccess ino "c" 0 0).files⟩
      obtain ⟨ai', hreach, hnamed', hcoAccess, hnames⟩ := ih hnamed
      refine ⟨ai', hopen.append hreach, hnamed', hcoAccess, ?_⟩
      intro ino'
      rw [hnames, List.mem_cons, or_assoc, or_left_comm]
      exact or_congr_right MemoryEngine.mem_keys_insert

end Events

/-- What comes last is not among the first. -/
theorem not_mem_take_lastOrder {x : UInt64} {keys : List UInt64} (h : keys.Nodup) {n : ℕ}
    (hn : n < keys.length) :
  x ∉ ((MemoryEngine.lastOrder x).arrange keys).take n
  := by
  have hlength := List.length_eq_length_filter_add (l := keys) fun k => !decide (k = x)
  have hcount : (keys.filter fun k => decide (k = x)).length ≤ 1 := by
    rw [← List.countP_eq_length_filter]
    exact List.nodup_iff_count_le_one.mp h x
  simp only [Bool.not_not] at hlength
  intro hmem
  rw [MemoryEngine.lastOrder, List.take_append_of_le_length (by omega)] at hmem
  have hne := (List.mem_filter.mp (List.mem_of_mem_take hmem)).2
  simp at hne

/-- Ten thousand inodes, from 3. -/
def manyInos : List UInt64 := (List.range 10000).map fun i => UInt64.ofNat (i + 3)

theorem nodup_manyInos :
  (1 :: manyInos).Nodup
  := by
  have htoNat (i : ℕ) (hi : i ∈ List.range 10000) : (UInt64.ofNat (i + 3)).toNat = i + 3 := by
    have hlt : i + 3 < 10003 := Nat.add_lt_add_right (List.mem_range.mp hi) 3
    exact UInt64.toNat_ofNat_of_lt' (hlt.trans (by decide))
  rw [List.nodup_cons]
  constructor
  · intro hmem
    obtain ⟨i, hi, heq⟩ := List.mem_map.mp hmem
    have hone := htoNat i hi
    rw [heq] at hone
    simp at hone
  · apply List.Nodup.map_on _ List.nodup_range
    intro i hi j hj heq
    have hij := congrArg UInt64.toNat heq
    rw [htoNat i hi, htoNat j hj] at hij
    omega

/-- An engine that opened two files together in three sessions, and then ten thousand more,
may lose the name of one of the two; after that it cannot close a session. -/
theorem not_closes :
  let _ := FloatOps.machine
  ¬ ∀ (sessionId now now' : UInt64) (events : List Event) (order : Arrangement UInt64)
      (ts ts' : UInt64) (discovery : DiscoveryOrders) (nowTs : UInt64),
    ∃ ai, (new (.new sessionId now now')).Reaches
      (events ++ [.endSession order ts ts' discovery nowTs]) ai
  := by
  intro _ h
  have hstart : (new (.new 0 0 0)).memory.PairsNamed := MemoryEngine.PairsNamed.new 0 0 0
  obtain ⟨ai₁, hreach₁, hmemory₁, h₁⟩ := exists_openTwo hstart
  obtain ⟨ai₂, hreach₂, hmemory₂, h₂⟩ := exists_openTwo h₁
  obtain ⟨ai₃, hreach₃, hmemory₃, h₃⟩ := exists_openTwo h₂
  obtain ⟨ai, hreach, hnamed, hcoAccess, hnames⟩ := exists_openAll h₃ manyInos
  have hopens := ((hreach₁.append hreach₂).append hreach₃).append hreach
  let orders : MemoryEngine.Orders := ⟨.id, .id, .id, .id, MemoryEngine.lastOrder 1⟩
  obtain ⟨ai', hai'⟩ := h 0 0 0 _ .id 0 0 ⟨.id, .id, .id⟩ 0
  have hremount := hopens.concat_iff.mpr ⟨0, fun fuel _ => handle_remount fuel ai orders 0 0 0⟩
  have hsaves := savesNames_of_handles hnamed (hremount.concat_iff.mp hai')
  have hmemory : ai₃.memory = memoryTwo (memoryTwo (memoryTwo (.new 0 0 0))) := by
    rw [hmemory₃, hmemory₂, hmemory₁]
    rfl
  -- the pair is saved
  have hpairs : (memoryTwo (memoryTwo (memoryTwo (.new 0 0 0)))).coAccess.pairs.entries
      = [(toLex (1, 2), 3)] := by decide
  have hpair : (toLex (1, 2), 3) ∈ (ai.memory.coAccess.pairs.iter orders.pairs).take 50000 := by
    rw [hcoAccess, hmemory, List.take_of_length_le]
    · apply FiniteMap.mem_iter.mpr
      apply FiniteMap.mem_entries.mp
      rw [hpairs]
      exact List.mem_singleton_self _
    · rw [FiniteMap.length_iter, FiniteMap.len, hpairs]
      decide
  -- the name of its first file is not
  have hone : 1 ∈ ai₃.memory.names.keys := by
    rw [hmemory]
    decide
  have hlength : 10000 < ai.memory.names.keys.length := by
    have hsubset : 1 :: manyInos ⊆ ai.memory.names.keys := by
      intro ino hino
      rw [hnames]
      obtain rfl | hmem := List.mem_cons.mp hino
      · exact .inr hone
      · exact .inl hmem
    have hle := (nodup_manyInos.subperm hsubset).length_le
    rw [List.length_cons, manyInos, List.length_map, List.length_range] at hle
    exact hle
  have hname := (hsaves 1 2 3 hpair (by decide)).1
  rw [List.map_take, FiniteMap.keys_iter] at hname
  exact not_mem_take_lastOrder ai.memory.names.nodup_keys hlength hname

end AIEngine

end Vexfs
