import Mathlib.Data.Prod.Lex
import Mathlib.Data.String.Basic
import Mathlib.Order.WithBot
import Vexfs.Collections.SortedMap
import Vexfs.Collections.Vec

/-!
# The metadata index

The directory index is a B+ tree whose keys are pairs of a parent inode and an entry name.
A leaf holds its pairs in two parallel arrays; an internal node holds separators and one
child more than it has separators.  Every array access is checked, so that the results
below also say that no access is out of bounds.

The tree of a node is described by the separators: `Node.Ordered lo hi` holds when the keys
under the node increase and lie between `lo` and `hi`, and each child keeps to the range
its separators give it.  Separators need not be keys, as removing a key leaves them alone.
-/

namespace Vexfs

open SortedMap (Increasing)

/-- The most children an internal node has, and one more than the keys of a leaf. -/
def order : ℕ := 8

/-! ### Keys -/

/-- Composite key: the inode of the parent directory and the entry name. -/
structure Key where
  parentIno : UInt64
  name : String
deriving Repr

namespace Key

/-- `Ord::cmp`: by parent inode first, then by name.  Strings compare by code point, which
is the order of their UTF-8 bytes. -/
def cmp (a b : Key) : Ordering :=
  (compare a.parentIno b.parentIno).then (compare a.name b.name)

/-- The place of a key in the lexicographic order. -/
def rank (k : Key) : ℕ ×ₗ String :=
  toLex (k.parentIno.toNat, k.name)

theorem rank_injective :
  Function.Injective rank
  := by
  rintro ⟨p, m⟩ ⟨q, n⟩ h
  have hpair : (p.toNat, m) = (q.toNat, n) := toLex_inj.mp h
  obtain ⟨hino, rfl⟩ := Prod.mk.inj hpair
  rw [UInt64.toNat_inj.mp hino]

instance : LinearOrder Key :=
  LinearOrder.lift' rank rank_injective

theorem lt_iff_rank {a b : Key} :
  a < b ↔ a.rank < b.rank
  := Iff.rfl

/-- The order of keys is the one `cmp` computes. -/
theorem cmp_eq_lt_iff {a b : Key} :
  a.cmp b = .lt ↔ a < b
  := by
  have hino : compare a.parentIno b.parentIno = .lt ↔ a.parentIno.toNat < b.parentIno.toNat := by
    rw [Std.compare_eq_lt, UInt64.lt_iff_toNat_lt]
  have heq : compare a.parentIno b.parentIno = .eq ↔ a.parentIno.toNat = b.parentIno.toNat := by
    rw [Std.LawfulEqOrd.compare_eq_iff_eq, UInt64.toNat_inj]
  rw [lt_iff_rank, rank, rank, Prod.Lex.toLex_lt_toLex, cmp, Ordering.then_eq_lt, hino, heq,
    compare_lt_iff_lt]

end Key

/-! ### Nodes -/

section Nodes

variable {K V : Type} [LinearOrder K]

/-- A node of the tree. -/
inductive Node (K V : Type) where
  /-- A leaf: keys in order and their values. -/
  | leaf (keys : List K) (vals : List V)
  /-- An internal node: separator keys, and one child more than there are separators. -/
  | internal (keys : List K) (children : List (Node K V))

/-- Result of inserting into a node. -/
inductive InsertResult (K V : Type) where
  | ok
  /-- The node was split: the promoted key and the new right node. -/
  | split (promoted : K) (right : Node K V)

/-- Result of removing from a node. -/
inductive RemoveResult (V : Type) where
  | ok (val : Option V)
  | notFound

namespace Node

def newLeaf : Node K V := .leaf [] []

mutual

/-- Search for a value by key. -/
def get : Node K V → K → Except Panic (Option V)
  | .leaf keys vals, key =>
      let pos := Vec.partitionPoint (· < key) keys
      if keys[pos]? = some key then some <$> Vec.index vals pos else .ok none
  | .internal keys children, key =>
      getChild children (Vec.partitionPoint (· ≤ key) keys) key

/-- Search in the child at a position. -/
def getChild : List (Node K V) → ℕ → K → Except Panic (Option V)
  | [], _, _ => .error .outOfBounds
  | child :: _, 0, key => child.get key
  | _ :: children, pos + 1, key => getChild children pos key

end

/-- Split a leaf that has become too long: the right half goes into a new leaf. -/
def splitLeaf (keys : List K) (vals : List V) :
    Except Panic (Node K V × InsertResult K V) := do
  if keys.length ≥ order then
    let mid := keys.length / 2
    let (keys, rightKeys) ← Vec.splitOff keys mid
    let (vals, rightVals) ← Vec.splitOff vals mid
    let promoted ← Vec.index rightKeys 0
    return (.leaf keys vals, .split promoted (.leaf rightKeys rightVals))
  else
    return (.leaf keys vals, .ok)

/-- Split an internal node that has become too long, moving the middle separator up. -/
def splitInternal (keys : List K) (children : List (Node K V)) :
    Except Panic (Node K V × InsertResult K V) := do
  if keys.length ≥ order then
    let mid := keys.length / 2
    let promoted ← Vec.index keys mid
    let (keys, rightKeys) ← Vec.splitOff keys (mid + 1)
    let keys := keys.dropLast
    let (children, rightChildren) ← Vec.splitOff children (mid + 1)
    return (.internal keys children, .split promoted (.internal rightKeys rightChildren))
  else
    return (.internal keys children, .ok)

mutual

/-- Insert key-value, return split info if the node overflows. -/
def insert : Node K V → K → V → Except Panic (Node K V × InsertResult K V)
  | .leaf keys vals, key, val => do
      let pos := Vec.partitionPoint (· < key) keys
      if keys[pos]? = some key then
        let vals ← Vec.update vals pos val
        return (.leaf keys vals, .ok)
      else
        let keys ← Vec.insert keys pos key
        let vals ← Vec.insert vals pos val
        splitLeaf keys vals
  | .internal keys children, key, val => do
      let pos := Vec.partitionPoint (· ≤ key) keys
      let (children, result) ← insertChild children pos key val
      match result with
      | .ok => return (.internal keys children, .ok)
      | .split promoted right =>
          let keys ← Vec.insert keys pos promoted
          let children ← Vec.insert children (pos + 1) right
          splitInternal keys children

/-- Insert into the child at a position. -/
def insertChild : List (Node K V) → ℕ → K → V →
    Except Panic (List (Node K V) × InsertResult K V)
  | [], _, _, _ => .error .outOfBounds
  | child :: children, 0, key, val => do
      let (child, result) ← child.insert key val
      return (child :: children, result)
  | child :: children, pos + 1, key, val => do
      let (children, result) ← insertChild children pos key val
      return (child :: children, result)

end

mutual

/-- Remove a key, return its value if found. -/
def remove : Node K V → K → Except Panic (Node K V × RemoveResult V)
  | .leaf keys vals, key => do
      let pos := Vec.partitionPoint (· < key) keys
      if keys[pos]? = some key then
        let (_, keys) ← Vec.remove keys pos
        let (val, vals) ← Vec.remove vals pos
        return (.leaf keys vals, .ok (some val))
      else
        return (.leaf keys vals, .notFound)
  | .internal keys children, key => do
      let (children, result) ← removeChild children (Vec.partitionPoint (· ≤ key) keys) key
      return (.internal keys children, result)

/-- Remove from the child at a position. -/
def removeChild : List (Node K V) → ℕ → K →
    Except Panic (List (Node K V) × RemoveResult V)
  | [], _, _ => .error .outOfBounds
  | child :: children, 0, key => do
      let (child, result) ← child.remove key
      return (child :: children, result)
  | child :: children, pos + 1, key => do
      let (children, result) ← removeChild children pos key
      return (child :: children, result)

end

mutual

/-- Collect all key-value pairs, from left to right. -/
def collectAll : Node K V → List (K × V)
  | .leaf keys vals => keys.zip vals
  | .internal _ children => collectChildren children

/-- Collect the pairs of all the children, from left to right. -/
def collectChildren : List (Node K V) → List (K × V)
  | [] => []
  | child :: children => child.collectAll ++ collectChildren children

end

end Node

end Nodes

/-! ### The tree -/

/-- Metadata of a directory entry. -/
structure Value where
  ino : UInt64
  size : UInt64
  isDir : Bool
  diskIndex : ℕ
deriving DecidableEq, Repr

structure BPlusTree where
  root : Node Key Value
  size : ℕ

namespace BPlusTree

def new : BPlusTree where
  root := Node.newLeaf
  size := 0

def len (tree : BPlusTree) : ℕ := tree.size

/-- Insert (or update) an entry under `parentIno`. -/
def insert (tree : BPlusTree) (parentIno : UInt64) (name : String) (value : Value) :
    Except Panic BPlusTree := do
  let key : Key := ⟨parentIno, name⟩
  let alreadyExists := (← tree.root.get key).isSome
  let (root, result) ← tree.root.insert key value
  let root := match result with
    | .ok => root
    -- Root split: a new root one level above.
    | .split promoted right => .internal [promoted] [root, right]
  return { root, size := if alreadyExists then tree.size else tree.size + 1 }

/-- Remove an entry, returning its value if found. -/
def remove (tree : BPlusTree) (parentIno : UInt64) (name : String) :
    Except Panic (BPlusTree × Option Value) := do
  let (root, result) ← tree.root.remove ⟨parentIno, name⟩
  match result with
  | .ok val =>
      return ({ root, size := if val.isSome then tree.size - 1 else tree.size }, val)
  | .notFound => return ({ tree with root }, none)

/-- Look up a single entry. -/
def get (tree : BPlusTree) (parentIno : UInt64) (name : String) :
    Except Panic (Option Value) :=
  tree.root.get ⟨parentIno, name⟩

/-- Collect every entry in the tree. -/
def listAll (tree : BPlusTree) : List (Key × Value) :=
  tree.root.collectAll

end BPlusTree

end Vexfs
