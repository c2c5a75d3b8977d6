import Vexfs.Ai.Persist
import Vexfs.Collections.Vec

/-!
# The neural prefetcher

A small network learns which file is opened next.  Its output has one neuron for every file it
has seen, so its second layer grows with its vocabulary.  The weights are the bit patterns of
32-bit floats, and arithmetic on them is a parameter.  No call of the prefetcher leaves the
bounds of an array (`exists_run`), and a prefetcher is read back from its bytes, apart from its
history (`fromBytes_calls`).
-/

namespace Vexfs

open Bytes

/-! ### Floats -/

/-- The bit pattern of a 32-bit float. -/
abbrev F32 : Type := UInt32

/-- The operations on 32-bit floats. -/
class FloatOps where
  add : F32 → F32 → F32
  sub : F32 → F32 → F32
  mul : F32 → F32 → F32
  div : F32 → F32 → F32
  max : F32 → F32 → F32
  gt : F32 → F32 → Bool
  exp : F32 → F32
  sin : F32 → F32
  sqrt : F32 → F32
  ofNat : ℕ → F32

/-- The operations of the machine. -/
@[reducible]
def FloatOps.machine : FloatOps where
  add x y := (Float32.ofBits x + Float32.ofBits y).toBits
  sub x y := (Float32.ofBits x - Float32.ofBits y).toBits
  mul x y := (Float32.ofBits x * Float32.ofBits y).toBits
  div x y := (Float32.ofBits x / Float32.ofBits y).toBits
  max x y :=
    if Float32.ofBits x < Float32.ofBits y || (Float32.ofBits x).isNaN then y else x
  gt x y := Float32.ofBits y < Float32.ofBits x
  exp x := (Float32.ofBits x).exp.toBits
  sin x := (Float32.ofBits x).sin.toBits
  sqrt x := (Float32.ofBits x).sqrt.toBits
  ofNat n := (Float32.ofNat n).toBits

namespace F32

/-- The pattern of 1.0. -/
def one : F32 := 0x3F800000

/-- The pattern of 2.0. -/
def two : F32 := 0x40000000

def negInfinity : F32 := 0xFF800000

def pi : F32 := 0x40490FDB

/-- The learning rate, the pattern of 0.05. -/
def lr : F32 := 0x3D4CCCCD

end F32

section

variable [FloatOps]

open FloatOps

def relu (x : F32) : F32 := FloatOps.max x 0

def reluGrad (x : F32) : F32 := if gt x 0 then F32.one else 0

def softmax (v : List F32) : List F32 :=
  let greatest := v.foldl FloatOps.max F32.negInfinity
  let exps := v.map fun x => exp (sub x greatest)
  let sum := exps.foldl add 0
  exps.map fun e => div e sum

/-- Add the products of the elements of two arrays to a number, from the left. -/
def addProducts {n : ℕ} (s : F32) (w v : List.Vector F32 n) : F32 :=
  (List.finRange n).foldl (fun s j => add s (mul (w.get j) (v.get j))) s

/-- Subtract the multiple by `c` of an array. -/
def subMultiple {n : ℕ} (w : List.Vector F32 n) (c : F32) (v : List.Vector F32 n) :
    List.Vector F32 n :=
  .ofFn fun j => sub (w.get j) (mul c (v.get j))

end

/-! ### The prefetcher -/

def inputSize : ℕ := 8

def hiddenSize : ℕ := 32

structure NeuralPrefetcher where
  w1 : List.Vector (List.Vector F32 inputSize) hiddenSize
  b1 : List.Vector F32 hiddenSize
  w2 : List (List.Vector F32 hiddenSize)
  b2 : List F32
  inoToIdx : FiniteMap UInt64 ℕ
  idxToIno : List UInt64
  idxToName : List String
  history : List UInt64
  totalAccesses : UInt64
  correctPredictions : UInt64

/-- A call of `record_access`. -/
structure AccessCall where
  ino : UInt64
  name : String
deriving DecidableEq, Repr

namespace NeuralPrefetcher

section

variable [FloatOps]

open FloatOps

def new : NeuralPrefetcher where
  w1 := .ofFn fun i => .ofFn fun j =>
    mul (sin (mul (mul (FloatOps.ofNat (i * inputSize + j + 1)) F32.pi) 0x3E315DF6))
      (sqrt (div F32.two (FloatOps.ofNat inputSize)))
  b1 := .replicate hiddenSize 0
  w2 := []
  b2 := []
  inoToIdx := .empty
  idxToIno := []
  idxToName := []
  history := []
  totalAccesses := 0
  correctPredictions := 0

/-- The weights of a new output neuron. -/
def newWeights (idx : ℕ) : List.Vector F32 hiddenSize :=
  .ofFn fun k => mul (sin (mul (FloatOps.ofNat (idx * hiddenSize + k + 1)) 0x3E983904))
    (sqrt (div F32.two (FloatOps.ofNat hiddenSize)))

/-- The index of a file, which is put at the end of the vocabulary if it is new. -/
def register (n : NeuralPrefetcher) (ino : UInt64) (name : String) : ℕ × NeuralPrefetcher :=
  match n.inoToIdx.get ino with
  | some idx => (idx, n)
  | none =>
      let idx := n.idxToIno.length
      (idx, { n with
        inoToIdx := n.inoToIdx.insert ino idx
        idxToIno := n.idxToIno ++ [ino]
        idxToName := n.idxToName ++ [name]
        w2 := n.w2 ++ [newWeights idx]
        b2 := n.b2 ++ [0] })

def encodeHistory (n : NeuralPrefetcher) : List.Vector F32 inputSize :=
  let vocab := FloatOps.ofNat (Nat.max n.idxToIno.length 1)
  .ofFn fun i =>
    ((n.history.reverse[i.val]?.bind n.inoToIdx.get).map fun idx =>
      div (FloatOps.ofNat idx) vocab).getD 0

/-- What the hidden neurons sum up. -/
def preHidden (n : NeuralPrefetcher) (input : List.Vector F32 inputSize) :
    List.Vector F32 hiddenSize :=
  .ofFn fun i => addProducts (n.b1.get i) (n.w1.get i) input

/-- The activations of the hidden neurons, and the probabilities of the files. -/
def forward (n : NeuralPrefetcher) (input : List.Vector F32 inputSize) :
    Except Panic (List.Vector F32 hiddenSize × List F32) := do
  let hidden := (n.preHidden input).map relu
  let vocab := n.w2.length
  if vocab = 0 then pure (hidden, [])
  else
    let logits ← (List.range vocab).mapM fun i => do
      let b ← Vec.index n.b2 i
      let row ← Vec.index n.w2 i
      pure (addProducts b row hidden)
    pure (hidden, softmax logits)

/-- Move one output neuron against its gradient. -/
def moveOutput (dLogits : List F32) (hidden : List.Vector F32 hiddenSize)
    (layer : List F32 × List (List.Vector F32 hiddenSize)) (i : ℕ) :
    Except Panic (List F32 × List (List.Vector F32 hiddenSize)) := do
  let d ← Vec.index dLogits i
  let b ← Vec.index layer.1 i
  let b2 ← Vec.update layer.1 i (sub b (mul F32.lr d))
  let row ← Vec.index layer.2 i
  let w2 ← Vec.update layer.2 i (subMultiple row (mul F32.lr d) hidden)
  pure (b2, w2)

/-- Move the weights against the gradient, which is given for the output neurons. -/
def descend (n : NeuralPrefetcher) (input : List.Vector F32 inputSize)
    (hidden : List.Vector F32 hiddenSize) (dLogits : List F32) :
    Except Panic NeuralPrefetcher := do
  let vocab := n.w2.length
  let layer ← (List.range vocab).foldlM (moveOutput dLogits hidden) (n.b2, n.w2)
  let outputs ← (List.range vocab).mapM fun i => do
    let d ← Vec.index dLogits i
    let row ← Vec.index layer.2 i
    pure (d, row)
  let dHidden : List.Vector F32 hiddenSize := .ofFn fun j =>
    outputs.foldl (fun s o => add s (mul o.1 (o.2.get j))) 0
  let preHidden := n.preHidden input
  let grad : List.Vector F32 hiddenSize := .ofFn fun i =>
    mul (dHidden.get i) (reluGrad (preHidden.get i))
  pure { n with
    b1 := .ofFn fun i => sub (n.b1.get i) (mul F32.lr (grad.get i))
    w1 := .ofFn fun i => subMultiple (n.w1.get i) (mul F32.lr (grad.get i)) input
    b2 := layer.1
    w2 := layer.2 }

/-- One step of gradient descent. -/
def trainStep (n : NeuralPrefetcher) (input : List.Vector F32 inputSize) (targetIdx : ℕ) :
    Except Panic NeuralPrefetcher := do
  if n.w2.length < 2 then pure n
  else
    let (hidden, probs) ← n.forward input
    let target ← Vec.index probs targetIdx
    let dLogits ← Vec.update probs targetIdx (sub target F32.one)
    n.descend input hidden dLogits

def recordAccess (n : NeuralPrefetcher) (c : AccessCall) : Except Panic NeuralPrefetcher := do
  let (targetIdx, n) := n.register c.ino c.name
  let n ← if 2 ≤ n.history.length ∧ 2 ≤ n.w2.length then
      n.trainStep n.encodeHistory targetIdx
    else pure n
  let history := n.history ++ [c.ino]
  pure { n with
    history := if inputSize < history.length then history.tail else history
    totalAccesses := n.totalAccesses + 1 }

/-- The prefetcher after some calls. -/
def run (n : NeuralPrefetcher) (calls : List AccessCall) : Except Panic NeuralPrefetcher :=
  calls.foldlM recordAccess n

end

/-! ### Bytes -/

/-- The number, the length of the name and the name of a file. -/
def fileBytes (ino : UInt64) (name : String) : List UInt8 :=
  u64ToLe ino ++ (u32ToLe (UInt32.ofNat (utf8 name).length) ++ utf8 name)

/-- The weights of a neuron, and its bias. -/
def neuronBytes {n : ℕ} (row : List.Vector F32 n) (b : F32) : List UInt8 :=
  row.toList.flatMap u32ToLe ++ u32ToLe b

/-- The bytes of a prefetcher.  The arrays of the vocabulary and of the second layer are looked
up at every index of the vocabulary. -/
def toBytes (n : NeuralPrefetcher) : Except Panic (List UInt8) := do
  let vocab ← (List.range n.idxToIno.length).mapM fun i => do
    let ino ← Vec.index n.idxToIno i
    let name ← Vec.index n.idxToName i
    pure (fileBytes ino name)
  let layer2 ← (List.range n.idxToIno.length).mapM fun i => do
    let row ← Vec.index n.w2 i
    let b ← Vec.index n.b2 i
    pure (neuronBytes row b)
  pure (u64ToLe n.totalAccesses ++ (u64ToLe n.correctPredictions ++
    (u32ToLe (UInt32.ofNat n.idxToIno.length) ++ (vocab.flatten ++
    ((List.finRange hiddenSize).flatMap (fun i => neuronBytes (n.w1.get i) (n.b1.get i)) ++
    layer2.flatten)))))

/-- The vocabulary as it is read, of which `len` files have been. -/
structure Vocabulary where
  len : ℕ
  idxToIno : List UInt64
  idxToName : List String
  inoToIdx : FiniteMap UInt64 ℕ

def readFile (v : Vocabulary) : Reader Vocabulary := do
  let ino ← readU64
  let nLen ← readU32
  let name ← readExact nLen.toNat
  pure {
    len := v.len + 1
    idxToIno := v.idxToIno ++ [ino]
    idxToName := v.idxToName ++ [fromUtf8Lossy name]
    inoToIdx := v.inoToIdx.insert ino v.len }

def readNeuron (n : ℕ) : Reader (List.Vector F32 n × F32) := do
  let row ← readArray readU32 n
  let b ← readU32
  pure (row, b)

def readOutput (layer : List (List.Vector F32 hiddenSize) × List F32) :
    Reader (List (List.Vector F32 hiddenSize) × List F32) := do
  let neuron ← readNeuron hiddenSize
  pure (layer.1 ++ [neuron.1], layer.2 ++ [neuron.2])

def readPrefetcher : Reader NeuralPrefetcher := do
  let totalAccesses ← readU64
  let correctPredictions ← readU64
  let vocabLen ← readU32
  let vocab ← loop vocabLen.toNat readFile ⟨0, [], [], .empty⟩
  let layer1 ← readArray (readNeuron inputSize) hiddenSize
  let layer2 ← loop vocabLen.toNat readOutput ([], [])
  pure {
    w1 := layer1.map Prod.fst
    b1 := layer1.map Prod.snd
    w2 := layer2.1
    b2 := layer2.2
    inoToIdx := vocab.inoToIdx
    idxToIno := vocab.idxToIno
    idxToName := vocab.idxToName
    history := []
    totalAccesses
    correctPredictions }

def fromBytes (data : List UInt8) : Option NeuralPrefetcher :=
  if data.length < 16 then none else (readPrefetcher data).map Prod.fst

/-! ### The vocabulary -/

/-- The map gives exactly the position of each file in the list. -/
def Inverse (inoToIdx : FiniteMap UInt64 ℕ) (idxToIno : List UInt64) : Prop :=
  ∀ ino idx, inoToIdx.get ino = some idx ↔ idxToIno[idx]? = some ino

theorem Inverse.empty :
  Inverse .empty []
  := by
  intro ino idx
  rw [FiniteMap.get_empty, List.getElem?_nil]
  constructor
  · rintro ⟨⟩
  · rintro ⟨⟩

theorem Inverse.notMem {m : FiniteMap UInt64 ℕ} {inos : List UInt64} (h : Inverse m inos)
    {ino : UInt64} (hnone : m.get ino = none) :
  ino ∉ inos
  := by
  intro hmem
  obtain ⟨idx, hidx⟩ := List.mem_iff_getElem?.mp hmem
  rw [(h ino idx).mpr hidx] at hnone
  cases hnone

/-- No file is in the list twice. -/
theorem Inverse.nodup {m : FiniteMap UInt64 ℕ} {inos : List UInt64} (h : Inverse m inos) :
  inos.Nodup
  := by
  rw [List.nodup_iff_getElem?_ne_getElem?]
  intro i j hij hj heq
  have hsome := List.getElem?_eq_getElem hj
  have hget := (h _ _).mpr hsome
  rw [(h _ _).mpr (heq.trans hsome)] at hget
  exact absurd (Option.some.inj hget) (Nat.ne_of_lt hij)

/-- A new file goes to the end of the list. -/
theorem Inverse.insert {m : FiniteMap UInt64 ℕ} {inos : List UInt64} (h : Inverse m inos)
    {ino : UInt64} (hnew : ino ∉ inos) :
  Inverse (m.insert ino inos.length) (inos ++ [ino])
  := by
  intro ino' idx
  rw [FiniteMap.get_insert]
  split
  · next heq =>
    subst heq
    constructor
    · rintro hidx
      rw [← Option.some.inj hidx, List.getElem?_concat_length]
    · intro hidx
      obtain hlt | hge := Nat.lt_or_ge idx inos.length
      · rw [List.getElem?_append_left hlt] at hidx
        exact absurd (List.mem_of_getElem? hidx) hnew
      · obtain ⟨hidx, -⟩ := List.getElem?_eq_some_iff.mp hidx
        rw [List.length_append, List.length_singleton] at hidx
        rw [show idx = inos.length by omega]
  · next hne =>
    rw [h ino' idx]
    obtain hlt | hge := Nat.lt_or_ge idx inos.length
    · rw [List.getElem?_append_left hlt]
    · rw [List.getElem?_append_right hge, List.getElem?_eq_none hge]
      constructor
      · rintro ⟨⟩
      · intro hidx
        exact absurd (List.mem_singleton.mp (List.mem_of_getElem? hidx)) hne

/-- The list determines the map. -/
theorem Inverse.unique {m m' : FiniteMap UInt64 ℕ} {inos : List UInt64} (h : Inverse m inos)
    (h' : Inverse m' inos) :
  m = m'
  := by
  apply FiniteMap.ext
  intro ino
  apply Option.ext
  intro idx
  exact (h ino idx).trans (h' ino idx).symm

/-- What calls keep: the vocabulary is one, and every file has a name and an output neuron. -/
structure Consistent (n : NeuralPrefetcher) : Prop where
  inverse : Inverse n.inoToIdx n.idxToIno
  length_idxToName : n.idxToName.length = n.idxToIno.length
  length_w2 : n.w2.length = n.idxToIno.length
  length_b2 : n.b2.length = n.idxToIno.length

section

variable [FloatOps]

theorem Consistent.new :
  (new).Consistent
  := ⟨Inverse.empty, rfl, rfl, rfl⟩

theorem Consistent.register {n : NeuralPrefetcher} (h : n.Consistent) (ino : UInt64)
    (name : String) :
  (n.register ino name).2.Consistent
    ∧ (n.register ino name).1 < (n.register ino name).2.w2.length
  := by
  rw [NeuralPrefetcher.register]
  cases hget : n.inoToIdx.get ino with
  | some idx =>
      obtain ⟨hlt, -⟩ := List.getElem?_eq_some_iff.mp ((h.inverse ino idx).mp hget)
      exact ⟨h, h.length_w2 ▸ hlt⟩
  | none =>
      have hname := h.length_idxToName
      have hw2 := h.length_w2
      have hb2 := h.length_b2
      refine ⟨⟨h.inverse.insert (h.inverse.notMem hget), ?_, ?_, ?_⟩, ?_⟩
      · simp only [List.length_append, List.length_singleton, hname]
      · simp only [List.length_append, List.length_singleton, hw2]
      · simp only [List.length_append, List.length_singleton, hb2]
      · simp only [List.length_append, List.length_singleton, hw2, Nat.lt_succ_self]

/-! ### Training -/

theorem length_softmax (v : List F32) :
  (softmax v).length = v.length
  := by
  rw [softmax]
  simp only [List.length_map]

/-- There is one probability for each output neuron. -/
theorem forward_ok {n : NeuralPrefetcher} (h : n.b2.length = n.w2.length)
    (input : List.Vector F32 inputSize) :
  ∃ hidden probs, n.forward input = .ok (hidden, probs) ∧ probs.length = n.w2.length
  := by
  rw [forward]
  split
  · next hzero => exact ⟨_, [], rfl, hzero.symm⟩
  · have hzip : (n.w2.zip n.b2).length = n.w2.length := by
      rw [List.length_zip, h, Nat.min_self]
    have hlogits := Vec.mapM_range (l := n.w2.zip n.b2)
      (g := fun o => addProducts o.2 o.1 ((n.preHidden input).map relu))
      (f := fun i => do
        let b ← Vec.index n.b2 i
        let row ← Vec.index n.w2 i
        pure (addProducts b row ((n.preHidden input).map relu)))
      fun i hi => by
        rw [Vec.index_ok (by omega), Vec.index_ok (by omega), List.getElem_zip]
        rfl
    rw [hzip] at hlogits
    rw [hlogits]
    refine ⟨_, _, rfl, ?_⟩
    rw [length_softmax, List.length_map, hzip]

/-- Moving an output neuron keeps the number of the neurons. -/
theorem moveOutput_ok {dLogits : List F32} (hidden : List.Vector F32 hiddenSize) {vocab i : ℕ}
    (hd : dLogits.length = vocab) (hi : i < vocab)
    {layer : List F32 × List (List.Vector F32 hiddenSize)}
    (h : layer.1.length = vocab ∧ layer.2.length = vocab) :
  ∃ layer', moveOutput dLogits hidden layer i = .ok layer'
    ∧ layer'.1.length = vocab ∧ layer'.2.length = vocab
  := by
  rw [moveOutput, Vec.index_ok (by omega), Vec.index_ok (by omega), Vec.index_ok (by omega)]
  simp only [Vec.update_of_lt (show i < layer.1.length by omega),
    Vec.update_of_lt (show i < layer.2.length by omega)]
  refine ⟨_, rfl, ?_, ?_⟩
  · exact List.length_set.trans h.1
  · exact List.length_set.trans h.2

/-- Moving the weights keeps the vocabulary and the number of the neurons. -/
theorem Consistent.descend {n : NeuralPrefetcher} (h : n.Consistent)
    (input : List.Vector F32 inputSize) (hidden : List.Vector F32 hiddenSize)
    {dLogits : List F32} (hd : dLogits.length = n.w2.length) :
  ∃ n', n.descend input hidden dLogits = .ok n' ∧ n'.Consistent
  := by
  obtain ⟨⟨b2, w2⟩, hmoved, hb2, hw2⟩ := Vec.foldlM_ok
    (l := List.range n.w2.length) (s := (n.b2, n.w2))
    (P := fun layer => layer.1.length = n.w2.length ∧ layer.2.length = n.w2.length)
    (fun layer hlayer i hi => moveOutput_ok hidden hd (List.mem_range.mp hi) hlayer)
    ⟨h.length_b2.trans h.length_w2.symm, rfl⟩
  dsimp only at hb2 hw2
  have hzip : (dLogits.zip w2).length = n.w2.length := by
    rw [List.length_zip, hd, hw2, Nat.min_self]
  have houtputs := Vec.mapM_range (l := dLogits.zip w2) (g := fun o => o)
    (f := fun i => do
      let d ← Vec.index dLogits i
      let row ← Vec.index w2 i
      pure (d, row))
    fun i hi => by
      rw [Vec.index_ok (by omega), Vec.index_ok (by omega), List.getElem_zip]
      rfl
  rw [hzip] at houtputs
  refine ⟨_, Vec.bind_eq_ok.mpr ⟨_, hmoved, Vec.bind_eq_ok.mpr ⟨_, houtputs, rfl⟩⟩, ?_⟩
  exact ⟨h.inverse, h.length_idxToName, hw2.trans h.length_w2, hb2.trans h.length_w2⟩

theorem Consistent.trainStep {n : NeuralPrefetcher} (h : n.Consistent)
    (input : List.Vector F32 inputSize) {targetIdx : ℕ} (ht : targetIdx < n.w2.length) :
  ∃ n', n.trainStep input targetIdx = .ok n' ∧ n'.Consistent
  := by
  rw [NeuralPrefetcher.trainStep]
  split
  · exact ⟨n, rfl, h⟩
  · obtain ⟨hidden, probs, hforward, hprobs⟩ :=
      forward_ok (h.length_b2.trans h.length_w2.symm) input
    rw [← hprobs] at ht
    have hd : (probs.set targetIdx (FloatOps.sub probs[targetIdx] F32.one)).length
        = n.w2.length := List.length_set.trans hprobs
    obtain ⟨n', hdescend, hn'⟩ := h.descend input hidden hd
    refine ⟨n', ?_, hn'⟩
    apply Vec.bind_eq_ok.mpr ⟨_, hforward, _⟩
    apply Vec.bind_eq_ok.mpr ⟨_, Vec.index_ok ht, _⟩
    exact Vec.bind_eq_ok.mpr ⟨_, Vec.update_of_lt ht _, hdescend⟩

/-- No call leaves the bounds of an array. -/
theorem Consistent.recordAccess {n : NeuralPrefetcher} (h : n.Consistent) (c : AccessCall) :
  ∃ n', n.recordAccess c = .ok n' ∧ n'.Consistent
  := by
  obtain ⟨hregister, hidx⟩ := h.register c.ino c.name
  rw [NeuralPrefetcher.recordAccess]
  generalize n.register c.ino c.name = registered at hregister hidx ⊢
  obtain ⟨targetIdx, n'⟩ := registered
  dsimp only at hregister hidx ⊢
  split
  · obtain ⟨n'', htrain, hn''⟩ := hregister.trainStep n'.encodeHistory hidx
    exact ⟨_, Vec.bind_eq_ok.mpr ⟨n'', htrain, rfl⟩, ⟨hn''.inverse, hn''.length_idxToName,
      hn''.length_w2, hn''.length_b2⟩⟩
  · exact ⟨_, rfl, ⟨hregister.inverse, hregister.length_idxToName, hregister.length_w2,
      hregister.length_b2⟩⟩

/-- Every sequence of calls goes through. -/
theorem exists_run (calls : List AccessCall) :
  ∃ n, (new).run calls = .ok n ∧ n.Consistent
  := by
  apply Vec.foldlM_ok _ Consistent.new
  intro n h c _
  exact h.recordAccess c

end

/-! ### Round trips -/

theorem reads_file (v : Vocabulary) {ino : UInt64} {name : String}
    (h : (utf8 name).length < 2 ^ 32) :
  Reads (readFile v) (fileBytes ino name)
    ⟨v.len + 1, v.idxToIno ++ [ino], v.idxToName ++ [name], v.inoToIdx.insert ino v.len⟩
  := by
  apply Reads.bind (Reads.u64 _)
  apply Reads.bind (Reads.u32 _)
  have hlen := UInt32.toNat_ofNat_of_lt' h
  have hread := (Reads.exact hlen.symm).map fun name => (⟨v.len + 1, v.idxToIno ++ [ino],
    v.idxToName ++ [fromUtf8Lossy name], v.inoToIdx.insert ino v.len⟩ : Vocabulary)
  rw [utf8, fromUtf8Lossy_encode] at hread
  exact hread

theorem reads_neuron {n : ℕ} (row : List.Vector F32 n) (b : F32) :
  Reads (readNeuron n) (neuronBytes row b) (row, b)
  := by
  apply Reads.bind (Reads.array row fun c _ => Reads.u32 c)
  exact (Reads.u32 b).map fun b => (row, b)

theorem reads_output (layer : List (List.Vector F32 hiddenSize) × List F32)
    (o : List.Vector F32 hiddenSize × F32) :
  Reads (readOutput layer) (neuronBytes o.1 o.2) (layer.1 ++ [o.1], layer.2 ++ [o.2])
  := (reads_neuron o.1 o.2).map fun neuron : List.Vector F32 hiddenSize × F32 =>
    (layer.1 ++ [neuron.1], layer.2 ++ [neuron.2])

/-- The vocabulary after one more file was read. -/
def Vocabulary.next (v : Vocabulary) (f : UInt64 × String) : Vocabulary :=
  ⟨v.len + 1, v.idxToIno ++ [f.1], v.idxToName ++ [f.2], v.inoToIdx.insert f.1 v.len⟩

/-- Files that are all different are read into a vocabulary. -/
theorem Vocabulary.foldl_next {files : List (UInt64 × String)} {v : Vocabulary}
    (hlen : v.len = v.idxToIno.length) (h : Inverse v.inoToIdx v.idxToIno)
    (hnodup : (v.idxToIno ++ files.map Prod.fst).Nodup) :
  (files.foldl Vocabulary.next v).idxToIno = v.idxToIno ++ files.map Prod.fst
    ∧ (files.foldl Vocabulary.next v).idxToName = v.idxToName ++ files.map Prod.snd
    ∧ Inverse (files.foldl Vocabulary.next v).inoToIdx (v.idxToIno ++ files.map Prod.fst)
  := by
  induction files generalizing v with
  | nil => simp only [List.foldl_nil, List.map_nil, List.append_nil, h, and_self]
  | cons f files ih =>
      have hnew : f.1 ∉ v.idxToIno := fun hmem =>
        (List.nodup_append.mp hnodup).2.2 f.1 hmem f.1 List.mem_cons_self rfl
      have hinverse : Inverse (v.next f).inoToIdx (v.next f).idxToIno := by
        rw [Vocabulary.next, hlen]
        exact h.insert hnew
      have hlen' : (v.next f).len = (v.next f).idxToIno.length := by
        rw [Vocabulary.next, List.length_append, List.length_singleton, hlen]
      have hnodup' : ((v.next f).idxToIno ++ files.map Prod.fst).Nodup := by
        rw [Vocabulary.next, List.append_assoc]
        exact hnodup
      obtain ⟨hinos, hnames, hmap⟩ := ih hlen' hinverse hnodup'
      rw [Vocabulary.next, List.append_assoc] at hinos hnames hmap
      exact ⟨hinos, hnames, hmap⟩

/-- Neurons are put behind those that were read. -/
theorem foldl_outputs (outputs : List (List.Vector F32 hiddenSize × F32))
    (layer : List (List.Vector F32 hiddenSize) × List F32) :
  outputs.foldl (fun layer o => (layer.1 ++ [o.1], layer.2 ++ [o.2])) layer
    = (layer.1 ++ outputs.map Prod.fst, layer.2 ++ outputs.map Prod.snd)
  := by
  induction outputs generalizing layer with
  | nil => simp only [List.foldl_nil, List.map_nil, List.append_nil]
  | cons o outputs ih =>
      rw [List.foldl_cons, ih]
      simp only [List.map_cons, List.append_assoc, List.singleton_append]

/-- The bytes of a prefetcher whose arrays fit together. -/
theorem Consistent.toBytes_eq {n : NeuralPrefetcher} (h : n.Consistent) :
  n.toBytes = .ok (u64ToLe n.totalAccesses ++ (u64ToLe n.correctPredictions ++
    (u32ToLe (UInt32.ofNat n.idxToIno.length) ++
    ((n.idxToIno.zip n.idxToName).flatMap (fun f => fileBytes f.1 f.2) ++
    ((List.finRange hiddenSize).flatMap (fun i => neuronBytes (n.w1.get i) (n.b1.get i)) ++
    (n.w2.zip n.b2).flatMap fun o => neuronBytes o.1 o.2)))))
  := by
  have hvocab := Vec.mapM_range_zip rfl h.length_idxToName fileBytes
  have hlayer2 := Vec.mapM_range_zip h.length_w2 h.length_b2 neuronBytes
  apply Vec.bind_eq_ok.mpr ⟨_, hvocab, _⟩
  apply Vec.bind_eq_ok.mpr ⟨_, hlayer2, _⟩
  rw [← List.flatMap_def, ← List.flatMap_def]
  rfl

/-- The neurons of the first layer, each with its bias. -/
theorem reads_layer1 (n : NeuralPrefetcher) :
  ∃ layer1 : List.Vector (List.Vector F32 inputSize × F32) hiddenSize,
    Reads (readArray (readNeuron inputSize) hiddenSize)
      ((List.finRange hiddenSize).flatMap fun i => neuronBytes (n.w1.get i) (n.b1.get i)) layer1
    ∧ layer1.map Prod.fst = n.w1 ∧ layer1.map Prod.snd = n.b1
  := by
  refine ⟨.ofFn fun i => (n.w1.get i, n.b1.get i), ?_, ?_, ?_⟩
  · have hreads := Reads.array (.ofFn fun i : Fin hiddenSize => (n.w1.get i, n.b1.get i))
      (fun o _ => reads_neuron o.1 o.2)
    rw [List.Vector.toList_ofFn, List.ofFn_eq_map, List.flatMap_map] at hreads
    exact hreads
  · apply List.Vector.ext
    intro i
    rw [List.Vector.get_map, List.Vector.get_ofFn]
  · apply List.Vector.ext
    intro i
    rw [List.Vector.get_map, List.Vector.get_ofFn]

/-- The vocabulary is read back. -/
theorem Consistent.reads_vocab {n : NeuralPrefetcher} (h : n.Consistent)
    (hnames : ∀ name ∈ n.idxToName, (utf8 name).length < 2 ^ 32) :
  ∃ v : Vocabulary, Reads (loop n.idxToIno.length readFile ⟨0, [], [], .empty⟩)
      ((n.idxToIno.zip n.idxToName).flatMap fun f => fileBytes f.1 f.2) v
    ∧ v.idxToIno = n.idxToIno ∧ v.idxToName = n.idxToName ∧ v.inoToIdx = n.inoToIdx
  := by
  have hname := h.length_idxToName
  have hinos : (n.idxToIno.zip n.idxToName).map Prod.fst = n.idxToIno :=
    List.map_fst_zip (Nat.le_of_eq hname.symm)
  have hzip : (n.idxToIno.zip n.idxToName).map Prod.snd = n.idxToName :=
    List.map_snd_zip (Nat.le_of_eq hname)
  have hlength : (n.idxToIno.zip n.idxToName).length = n.idxToIno.length := by
    rw [List.length_zip, hname, Nat.min_self]
  have hfold := Vocabulary.foldl_next (v := ⟨0, [], [], .empty⟩) rfl Inverse.empty
    (hinos.symm ▸ h.inverse.nodup)
  obtain ⟨hidxToIno, hidxToName, hinverse⟩ := hfold
  refine ⟨_, Reads.loop hlength (fun v f hf => reads_file v
    (hnames f.2 (List.of_mem_zip hf).2)) _, hidxToIno.trans hinos, hidxToName.trans hzip, ?_⟩
  rw [List.nil_append, hinos] at hinverse
  exact hinverse.unique h.inverse

/-- The second layer is read back. -/
theorem Consistent.reads_layer2 {n : NeuralPrefetcher} (h : n.Consistent) :
  Reads (loop n.idxToIno.length readOutput ([], []))
    ((n.w2.zip n.b2).flatMap fun o => neuronBytes o.1 o.2) (n.w2, n.b2)
  := by
  have hlayer : n.b2.length = n.w2.length := h.length_b2.trans h.length_w2.symm
  have hlength : (n.w2.zip n.b2).length = n.idxToIno.length := by
    rw [List.length_zip, hlayer, Nat.min_self, h.length_w2]
  have hreads := Reads.loop hlength (fun layer o _ => reads_output layer o) ([], [])
  rw [foldl_outputs, List.map_fst_zip (Nat.le_of_eq hlayer.symm),
    List.map_snd_zip (Nat.le_of_eq hlayer)] at hreads
  exact hreads

/-- A prefetcher whose arrays fit together is read back, without its history. -/
theorem Consistent.reads {n : NeuralPrefetcher} (h : n.Consistent)
    (hvocab : n.idxToIno.length < 2 ^ 32)
    (hnames : ∀ name ∈ n.idxToName, (utf8 name).length < 2 ^ 32) :
  Reads readPrefetcher
    (u64ToLe n.totalAccesses ++ (u64ToLe n.correctPredictions ++
      (u32ToLe (UInt32.ofNat n.idxToIno.length) ++
      ((n.idxToIno.zip n.idxToName).flatMap (fun f => fileBytes f.1 f.2) ++
      ((List.finRange hiddenSize).flatMap (fun i => neuronBytes (n.w1.get i) (n.b1.get i)) ++
      (n.w2.zip n.b2).flatMap fun o => neuronBytes o.1 o.2)))))
    { n with history := [] }
  := by
  obtain ⟨v, hv, hinos, hnames, hmap⟩ := h.reads_vocab hnames
  obtain ⟨layer1, hlayer1, hw1, hb1⟩ := reads_layer1 n
  apply Reads.bind (Reads.u64 _)
  apply Reads.bind (Reads.u64 _)
  apply Reads.bind (Reads.u32 _)
  rw [UInt32.toNat_ofNat_of_lt' hvocab]
  apply Reads.bind hv
  apply Reads.bind hlayer1
  rw [hw1, hb1, hinos, hnames, hmap]
  exact h.reads_layer2.map fun layer2 => { n with w2 := layer2.1, b2 := layer2.2, history := [] }

/-- A prefetcher that is reached by calls has a vocabulary in which every file has a name and
an output neuron; if the vocabulary and its names are short enough, it is read back from its
bytes, without its history. -/
theorem fromBytes_calls [FloatOps] {calls : List AccessCall} {n : NeuralPrefetcher}
    (hrun : (new).run calls = .ok n) (hvocab : n.idxToIno.length < 2 ^ 32)
    (hnames : ∀ name ∈ n.idxToName, (utf8 name).length < 2 ^ 32) :
  n.Consistent ∧ ∃ bytes, n.toBytes = .ok bytes ∧ fromBytes bytes = some { n with history := [] }
  := by
  obtain ⟨n', hrun', h⟩ := exists_run calls
  obtain rfl : n = n' := Except.ok.inj (hrun.symm.trans hrun')
  refine ⟨h, _, h.toBytes_eq, ?_⟩
  rw [fromBytes, if_neg, (h.reads hvocab hnames).eq]
  · rfl
  · rw [List.length_append, List.length_append, length_u64ToLe, length_u64ToLe]
    omega

/-- A prefetcher that has seen two files is read back. -/
theorem fromBytes_calls_two_files :
  ∃ n bytes, @run .machine (@new .machine) [⟨2, "main.rs"⟩, ⟨3, "auth.rs"⟩] = .ok n
    ∧ n.Consistent ∧ n.toBytes = .ok bytes ∧ fromBytes bytes = some { n with history := [] }
  := by
  obtain ⟨n, hrun, -⟩ := @exists_run .machine [⟨2, "main.rs"⟩, ⟨3, "auth.rs"⟩]
  have hn := hrun
  cases hn
  obtain ⟨h, bytes, hbytes, hread⟩ := @fromBytes_calls .machine _ _ hrun (by decide) (by decide)
  exact ⟨_, bytes, rfl, h, hbytes, hread⟩

/-! ### Names that are too long -/

/-- The names of what is read are those of the vocabulary. -/
theorem idxToName_of_read {a b : UInt64} {len : UInt32} {bytes rest rest' : List UInt8}
    {v : Vocabulary} {n : NeuralPrefetcher}
    (hv : Reads (loop len.toNat readFile ⟨0, [], [], .empty⟩) bytes v)
    (h : readPrefetcher (u64ToLe a ++ (u64ToLe b ++ (u32ToLe len ++ (bytes ++ rest))))
      = some (n, rest')) :
  n.idxToName = v.idxToName
  := by
  rw [readPrefetcher, (Reads.u64 a).bind_append, (Reads.u64 b).bind_append,
    (Reads.u32 len).bind_append, hv.bind_append] at h
  obtain ⟨layer1, -, h⟩ := Option.bind_eq_some_iff.mp h
  obtain ⟨layer2, -, h⟩ := Option.bind_eq_some_iff.mp h
  cases h
  rfl

/-- A name of `2 ^ 32` bytes is written with the length 0, and read as the empty name. -/
theorem reads_long_name {name : String} (h : (utf8 name).length = 2 ^ 32) (ino : UInt64) :
  ∃ v, Reads (loop 1 readFile ⟨0, [], [], .empty⟩)
      (u64ToLe ino ++ u32ToLe (UInt32.ofNat (utf8 name).length)) v ∧ v.idxToName = [""]
  := by
  have hlen : (UInt32.ofNat (utf8 name).length).toNat = 0 := by
    rw [h]
    rfl
  have hfile (v : Vocabulary) : Reads (readFile v)
      (u64ToLe ino ++ u32ToLe (UInt32.ofNat (utf8 name).length)) (v.next (ino, "")) := by
    apply Reads.bind (Reads.u64 ino)
    rw [← List.append_nil (u32ToLe _)]
    apply Reads.bind (Reads.u32 _)
    rw [hlen]
    have hnil : ([] : List UInt8).length = 0 := rfl
    exact (Reads.exact hnil).map fun name => (⟨v.len + 1, v.idxToIno ++ [ino],
      v.idxToName ++ [fromUtf8Lossy name], v.inoToIdx.insert ino v.len⟩ : Vocabulary)
  have hloop := Reads.loop (n := 1) (rfl : [()].length = 1) (fun v _ _ => hfile v)
    ⟨0, [], [], .empty⟩
  rw [List.flatMap_singleton] at hloop
  exact ⟨_, hloop, rfl⟩

/-- A prefetcher whose first file has such a name is not read back. -/
theorem fromBytes_ne_of_long_name [FloatOps] {name : String}
    (hname : (utf8 name).length = 2 ^ 32) {n : NeuralPrefetcher} {bytes : List UInt8}
    (hrun : (new).run [⟨2, name⟩] = .ok n) (hbytes : n.toBytes = .ok bytes) :
  fromBytes bytes ≠ some { n with history := [] }
  := by
  obtain ⟨n', hrun', h⟩ := exists_run [⟨2, name⟩]
  obtain rfl : n' = n := Except.ok.inj (hrun'.symm.trans hrun)
  have hvocab : n'.idxToIno = [2] ∧ n'.idxToName = [name] := by
    cases hrun
    exact ⟨rfl, rfl⟩
  obtain ⟨v, hv, hempty⟩ := reads_long_name hname 2
  intro heq
  rw [h.toBytes_eq, hvocab.1, hvocab.2] at hbytes
  cases hbytes
  rw [fromBytes] at heq
  split at heq
  · cases heq
  · obtain ⟨⟨n'', rest⟩, hread, hn''⟩ := Option.map_eq_some_iff.mp heq
    have hlist : [(2 : UInt64)].zip [name] = [(2, name)] := rfl
    rw [hlist, List.flatMap_singleton, fileBytes, ← List.append_assoc (u64ToLe 2),
      List.append_assoc _ (utf8 name)] at hread
    change Reads (loop (UInt32.ofNat [(2 : UInt64)].length).toNat _ _) _ _ at hv
    have hnames := idxToName_of_read hv hread
    rw [hempty] at hnames
    change n'' = _ at hn''
    rw [hn''] at hnames
    change n'.idxToName = _ at hnames
    rw [hvocab.2] at hnames
    rw [List.cons.inj hnames |>.1] at hname
    exact absurd hname (by decide)

/-- A name of as many bytes as one likes. -/
def longName (length : ℕ) : String := String.ofList (List.replicate length 'a')

theorem length_utf8_longName (length : ℕ) :
  (utf8 (longName length)).length = length
  := by
  have hletter : (String.utf8EncodeChar 'a').length = 1 := rfl
  rw [utf8, longName, String.toList_ofList, List.length_flatMap, List.map_replicate,
    List.sum_replicate, hletter, smul_eq_mul, Nat.mul_one]

/-- Without a bound on the lengths of the names, prefetchers are not always read back. -/
theorem not_fromBytes_calls :
  ¬ ∀ (ops : FloatOps) (calls : List AccessCall) (n : NeuralPrefetcher),
    (@new ops).run calls = .ok n → n.idxToIno.length < 2 ^ 32 →
    n.Consistent ∧ ∃ bytes, n.toBytes = .ok bytes ∧ fromBytes bytes = some { n with history := [] }
  := by
  intro hall
  obtain ⟨n, hrun, -⟩ := @exists_run .machine [⟨2, longName (2 ^ 32)⟩]
  have hvocab : n.idxToIno = [2] := by
    cases hrun
    rfl
  obtain ⟨-, bytes, hbytes, hread⟩ := hall .machine _ n hrun (by rw [hvocab]; decide)
  exact @fromBytes_ne_of_long_name .machine _ (length_utf8_longName _) _ _ hrun hbytes hread

end NeuralPrefetcher

end Vexfs
