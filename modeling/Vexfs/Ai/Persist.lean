import Vexfs.Ai.Markov
import Vexfs.Bytes.Reader
import Vexfs.Bytes.Utf8
import Vexfs.Fs.Disk

/-!
# The `.ai` file

The tables of the prefetcher are saved in a file: the transitions as one stream of records,
each with the inode that it leads from, then the importance of the files, then a checksum.
The records come in whatever order the maps are gone through.  Loading the file groups the
transitions by inode again, and gives the tables that were saved (`load_save`).
-/

namespace Vexfs

open Bytes

/-- The checksum of the files of the prefetcher, a function of the bytes it covers. -/
class Blake3 where
  hash : List UInt8 → List.Vector UInt8 32

/-- A checksum that does not look at the bytes. -/
@[reducible]
def Blake3.zero : Blake3 where
  hash _ := .replicate 32 0

/-! ### Strings -/

/-- A string with its length in front, cut after 255 bytes. -/
def writeStr (s : String) : List UInt8 :=
  let bytes := utf8 s
  let len := min bytes.length 255
  UInt8.ofNat len :: bytes.take len

def readStr : Reader String := do
  let len ← readU8
  let bytes ← readExact len.toNat
  pure (fromUtf8Lossy bytes)

theorem reads_str {s : String} (h : (utf8 s).length ≤ 255) :
  Reads readStr (writeStr s) s
  := by
  have hlen : (UInt8.ofNat (utf8 s).length).toNat = (utf8 s).length :=
    UInt8.toNat_ofNat_of_lt' (Nat.lt_succ_of_le h)
  rw [writeStr, Nat.min_eq_left h, List.take_length, ← List.singleton_append]
  apply Reads.bind (Reads.u8 _)
  have hread := (Reads.exact hlen.symm).map fromUtf8Lossy
  rw [utf8, fromUtf8Lossy_encode] at hread
  exact hread

/-! ### The tables -/

abbrev MarkovTable : Type := FiniteMap UInt64 (List Transition)

/-- How important a file is. -/
structure Importance where
  name : String
  accessCount : UInt32
  lastAccess : UInt64
  totalSecs : UInt64
deriving DecidableEq, Repr

abbrev ImportanceTable : Type := FiniteMap UInt64 Importance

namespace AIPersistence

/-- The bytes `VEXAI002`. -/
def magicV2 : List UInt8 := [0x56, 0x45, 0x58, 0x41, 0x49, 0x30, 0x30, 0x32]

/-- The record of a transition from an inode. -/
def transitionBytes (e : UInt64 × Transition) : List UInt8 :=
  u64ToLe e.1 ++ (u64ToLe e.2.ino ++ (u32ToLe e.2.count ++ writeStr e.2.name))

/-- The record of the importance of an inode. -/
def importanceBytes (e : UInt64 × Importance) : List UInt8 :=
  u64ToLe e.1 ++ (u32ToLe e.2.accessCount ++ (u64ToLe e.2.lastAccess ++
    (u64ToLe e.2.totalSecs ++ writeStr e.2.name)))

/-- The number of the transitions, modulo `2 ^ 32`. -/
def markovCount (lists : List (UInt64 × List Transition)) : UInt32 :=
  (lists.map fun e => UInt32.ofNat e.2.length).sum

/-- What precedes the checksum in a saved file. -/
def payload (markovOrder importanceOrder : Arrangement UInt64) (markov : MarkovTable)
    (importance : ImportanceTable) : List UInt8 :=
  magicV2 ++ (u32ToLe 2 ++ (u32ToLe (markovCount (markov.iter markovOrder)) ++
    ((markov.iter markovOrder).flatMap (fun e =>
      e.2.flatMap fun t => transitionBytes (e.1, t)) ++
    (u32ToLe (UInt32.ofNat importance.len) ++
      (importance.iter importanceOrder).flatMap importanceBytes))))

/-- What `save` leaves in the file when it succeeds.  The two maps are gone through in the given
orders. -/
def save [Blake3] (markovOrder importanceOrder : Arrangement UInt64) (markov : MarkovTable)
    (importance : ImportanceTable) : List UInt8 :=
  let buf := payload markovOrder importanceOrder markov importance
  buf ++ (Blake3.hash buf).toList

def readTransition (markov : MarkovTable) : Reader MarkovTable := do
  let fromIno ← readU64
  let toIno ← readU64
  let count ← readU32
  let name ← readStr
  pure (markov.push fromIno ⟨toIno, name, count⟩)

def readImportance (importance : ImportanceTable) : Reader ImportanceTable := do
  let ino ← readU64
  let accessCount ← readU32
  let lastAccess ← readU64
  let totalSecs ← readU64
  let name ← readStr
  pure (importance.insert ino ⟨name, accessCount, lastAccess, totalSecs⟩)

/-- Read the tables behind the magic and the version. -/
def readTables : Reader (MarkovTable × ImportanceTable) := do
  let markovCount ← readU32
  let markov ← loop markovCount.toNat readTransition .empty
  let impCount ← readU32
  let importance ← loop impCount.toNat readImportance .empty
  pure (markov, importance)

/-- Load the tables from a file, `none` if there is no such file.  A file that is no saved one
gives empty tables, and one with a sound checksum that ends too early an error. -/
def load [Blake3] (file : Option (List UInt8)) : Option (MarkovTable × ImportanceTable) :=
  match file with
  | none => some (.empty, .empty)
  | some raw =>
      if raw.length < 8 + 32 then some (.empty, .empty)
      else
        let payload := raw.take (raw.length - 32)
        let storedHash := raw.drop (raw.length - 32)
        if (Blake3.hash payload).toList ≠ storedHash then some (.empty, .empty)
        else if payload.take 8 ≠ magicV2 then some (.empty, .empty)
        else (readTables (payload.drop 12)).map Prod.fst

/-! ### The records -/

theorem reads_transition (markov : MarkovTable) {e : UInt64 × Transition}
    (h : (utf8 e.2.name).length ≤ 255) :
  Reads (readTransition markov) (transitionBytes e) (markov.push e.1 e.2)
  := by
  apply Reads.bind (Reads.u64 _)
  apply Reads.bind (Reads.u64 _)
  apply Reads.bind (Reads.u32 _)
  exact (reads_str h).map fun name => markov.push e.1 ⟨e.2.ino, name, e.2.count⟩

theorem reads_importance (importance : ImportanceTable) {e : UInt64 × Importance}
    (h : (utf8 e.2.name).length ≤ 255) :
  Reads (readImportance importance) (importanceBytes e) (importance.insert e.1 e.2)
  := by
  apply Reads.bind (Reads.u64 _)
  apply Reads.bind (Reads.u32 _)
  apply Reads.bind (Reads.u64 _)
  apply Reads.bind (Reads.u64 _)
  exact (reads_str h).map fun name =>
    importance.insert e.1 ⟨name, e.2.accessCount, e.2.lastAccess, e.2.totalSecs⟩

/-- The lists of transitions are written as one stream of records. -/
theorem flatMap_transitionBytes (lists : List (UInt64 × List Transition)) :
  lists.flatMap (fun e => e.2.flatMap fun t => transitionBytes (e.1, t))
    = (FiniteMap.elements lists).flatMap transitionBytes
  := by
  rw [FiniteMap.elements, List.flatMap_assoc]
  congr 1
  funext e
  rw [List.flatMap_map]

theorem markovCount_eq (lists : List (UInt64 × List Transition)) :
  markovCount lists = UInt32.ofNat (FiniteMap.elements lists).length
  := by
  induction lists with
  | nil => rfl
  | cons e lists ih =>
      have hlength : (FiniteMap.elements (e :: lists)).length
          = e.2.length + (FiniteMap.elements lists).length := by
        rw [FiniteMap.elements, List.flatMap_cons, List.length_append, List.length_map]
        rfl
      rw [hlength, UInt32.ofNat_add, ← ih]
      rfl

/-- Tables of which every part fits its field in the file. -/
structure Savable (markov : MarkovTable) (importance : ImportanceTable) : Prop where
  ne_nil : ∀ ino ts, markov.get ino = some ts → ts ≠ []
  markov_name : ∀ ino ts, markov.get ino = some ts → ∀ t ∈ ts, (utf8 t.name).length ≤ 255
  importance_name : ∀ ino i, importance.get ino = some i → (utf8 i.name).length ≤ 255
  markov_lt : (FiniteMap.elements markov.entries).length < 2 ^ 32
  importance_lt : importance.len < 2 ^ 32

variable {markov : MarkovTable} {importance : ImportanceTable}

theorem Savable.reads (h : Savable markov importance)
    (markovOrder importanceOrder : Arrangement UInt64) :
  Reads readTables
    (u32ToLe (markovCount (markov.iter markovOrder)) ++
      ((markov.iter markovOrder).flatMap (fun e =>
        e.2.flatMap fun t => transitionBytes (e.1, t)) ++
      (u32ToLe (UInt32.ofNat importance.len) ++
        (importance.iter importanceOrder).flatMap importanceBytes)))
    (markov, importance)
  := by
  have hmarkov := h.markov_lt
  rw [← markov.length_elements_iter markovOrder] at hmarkov
  rw [flatMap_transitionBytes, markovCount_eq]
  apply Reads.bind (Reads.u32 _)
  rw [UInt32.toNat_ofNat_of_lt' hmarkov]
  apply Reads.bind
  · apply Reads.loop rfl
    intro markov' e he
    apply reads_transition
    obtain ⟨⟨ino, ts⟩, hts, ht⟩ := List.mem_flatMap.mp he
    obtain ⟨t, htmem, rfl⟩ := List.mem_map.mp ht
    exact h.markov_name ino ts (FiniteMap.mem_iter.mp hts) t htmem
  · rw [FiniteMap.foldl_push_elements h.ne_nil]
    apply Reads.bind (Reads.u32 _)
    rw [UInt32.toNat_ofNat_of_lt' h.importance_lt]
    have hreads : Reads (loop importance.len readImportance .empty)
        ((importance.iter importanceOrder).flatMap importanceBytes)
        ((importance.iter importanceOrder).foldl (fun m e => m.insert e.1 e.2) .empty) := by
      apply Reads.loop (importance.length_iter importanceOrder)
      intro importance' e he
      exact reads_importance importance' (h.importance_name e.1 e.2 (FiniteMap.mem_iter.mp he))
    rw [FiniteMap.foldl_insert_iter] at hreads
    exact hreads.map fun importance => (markov, importance)

/-- What was saved is loaded, whatever the order of the maps is and whatever the checksum. -/
theorem load_save [Blake3] (h : Savable markov importance)
    (markovOrder importanceOrder : Arrangement UInt64) :
  load (some (save markovOrder importanceOrder markov importance)) = some (markov, importance)
  := by
  have hpayload : ∃ rest, payload markovOrder importanceOrder markov importance
      = magicV2 ++ (u32ToLe 2 ++ rest) ∧ readTables rest = some ((markov, importance), []) :=
    ⟨_, rfl, (h.reads markovOrder importanceOrder).eq⟩
  obtain ⟨rest, hpayload, hread⟩ := hpayload
  have hlength : (payload markovOrder importanceOrder markov importance).length
      = 12 + rest.length := by
    rw [hpayload, List.length_append, List.length_append, length_u32ToLe, magicV2]
    show 8 + (4 + rest.length) = _
    omega
  have hhash := (Blake3.hash (payload markovOrder importanceOrder markov importance)).toList_length
  have hsave : (save markovOrder importanceOrder markov importance).length - 32
      = (payload markovOrder importanceOrder markov importance).length := by
    rw [save, List.length_append, hhash, Nat.add_sub_cancel]
  rw [load, hsave, save]
  dsimp only
  rw [List.take_left, List.drop_left, if_neg, if_neg, if_neg, hpayload]
  · have hdrop : (magicV2 ++ (u32ToLe 2 ++ rest)).drop 12 = rest := by
      rw [← List.append_assoc]
      exact List.drop_left' (by rw [List.length_append, length_u32ToLe]; rfl)
    rw [hdrop, hread]
    rfl
  · rw [hpayload]
    exact not_not_intro (List.take_left' rfl)
  · exact not_not_intro rfl
  · rw [List.length_append, hlength, hhash]
    omega

/-- The tables of two transitions and one file are saved and loaded. -/
theorem load_save_two_transitions :
  @load .zero (some (@save .zero .id .id
      (FiniteMap.empty.insert 2 [⟨3, "lib.rs", 10⟩, ⟨4, "mod.rs", 5⟩])
      (FiniteMap.empty.insert 3 ⟨"lib.rs", 42, 1700000000, 3600⟩)))
    = some (FiniteMap.empty.insert 2 [⟨3, "lib.rs", 10⟩, ⟨4, "mod.rs", 5⟩],
      FiniteMap.empty.insert 3 ⟨"lib.rs", 42, 1700000000, 3600⟩)
  := by
  apply @load_save _ _ .zero
  have hmarkov : ∀ ino ts, ((FiniteMap.empty : MarkovTable).insert 2
      [⟨3, "lib.rs", 10⟩, ⟨4, "mod.rs", 5⟩]).get ino = some ts →
      ts = [⟨3, "lib.rs", 10⟩, ⟨4, "mod.rs", 5⟩] := by
    intro ino ts h
    rw [FiniteMap.get_insert, FiniteMap.get_empty] at h
    split at h
    · exact (Option.some.inj h).symm
    · cases h
  constructor
  · intro ino ts h
    rw [hmarkov ino ts h]
    exact List.cons_ne_nil _ _
  · intro ino ts h
    rw [hmarkov ino ts h]
    decide
  · intro ino i h
    rw [FiniteMap.get_insert, FiniteMap.get_empty] at h
    split at h
    · cases h
      decide
    · cases h
  · decide
  · decide

end AIPersistence

end Vexfs
