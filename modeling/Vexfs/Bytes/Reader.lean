import Vexfs.Bytes.LittleEndian

/-!
# Readers

A reader takes bytes from the front of a list, or fails.  `Reads r bytes a` says that `r` takes
the bytes `bytes`, whatever comes behind them, and makes `a` of them.  A format round-trips if
its reader reads what its writer writes, and that is shown along the reader: `Reads.bind` cuts
the bytes where the first part ends, and `Reads.loop` where the items of a loop do.
-/

namespace Bytes

/-- What takes bytes from the front of a list. -/
abbrev Reader : Type → Type := StateT (List UInt8) Option

/-- Take the next `n` bytes. -/
def readExact (n : ℕ) : Reader (List UInt8) :=
  fun bytes => if n ≤ bytes.length then some (bytes.take n, bytes.drop n) else none

def readU8 : Reader UInt8 := do
  let bytes ← readExact 1
  pure (bytes.headD 0)

def readU32 : Reader UInt32 := do
  let bytes ← readExact 4
  pure (leToU32 bytes)

def readU64 : Reader UInt64 := do
  let bytes ← readExact 8
  pure (leToU64 bytes)

/-- Take a step `n` times. -/
def loop {σ : Type} : ℕ → (σ → Reader σ) → σ → Reader σ
  | 0, _, s => pure s
  | n + 1, step, s => do
      let s ← step s
      loop n step s

/-- Read an array. -/
def readArray {α : Type} (read : Reader α) : (n : ℕ) → Reader (List.Vector α n)
  | 0 => pure .nil
  | n + 1 => do
      let a ← read
      let as ← readArray read n
      pure (a ::ᵥ as)

/-- The reader takes the bytes, whatever follows, and makes `a` of them. -/
def Reads {α : Type} (r : Reader α) (bytes : List UInt8) (a : α) : Prop :=
  ∀ rest, r (bytes ++ rest) = some (a, rest)

namespace Reads

variable {α β σ ι : Type}

theorem pure (a : α) :
  Reads (pure a) [] a
  := fun _ => rfl

/-- What comes first is read first. -/
theorem bind_append {r : Reader α} {bytes : List UInt8} {a : α} (h : Reads r bytes a)
    (f : α → Reader β) (rest : List UInt8) :
  (r >>= f) (bytes ++ rest) = f a rest
  := by
  show (r (bytes ++ rest)).bind (fun p => f p.1 p.2) = _
  rw [h]
  rfl

theorem bind {r : Reader α} {f : α → Reader β} {bytes bytes' : List UInt8} {a : α} {b : β}
    (h : Reads r bytes a) (h' : Reads (f a) bytes' b) :
  Reads (r >>= f) (bytes ++ bytes') b
  := by
  intro rest
  rw [List.append_assoc, h.bind_append]
  exact h' rest

/-- What is made of what was read. -/
theorem map {r : Reader α} {bytes : List UInt8} {a : α} (f : α → β) (h : Reads r bytes a) :
  Reads (do let a ← r; Pure.pure (f a)) bytes (f a)
  := by
  have hbind : Reads (do let a ← r; Pure.pure (f a)) (bytes ++ []) (f a) :=
    h.bind (Reads.pure (f a))
  rw [List.append_nil] at hbind
  exact hbind

/-- Nothing has to follow. -/
theorem eq {r : Reader α} {bytes : List UInt8} {a : α} (h : Reads r bytes a) :
  r bytes = some (a, [])
  := by
  have hnil := h []
  rw [List.append_nil] at hnil
  exact hnil

theorem exact {n : ℕ} {bytes : List UInt8} (h : bytes.length = n) :
  Reads (readExact n) bytes bytes
  := by
  intro rest
  rw [readExact, if_pos (by rw [List.length_append]; omega), List.take_left' h,
    List.drop_left' h]

theorem u8 (v : UInt8) :
  Reads readU8 [v] v
  := by
  have h : [v].length = 1 := rfl
  exact (exact h).map fun bytes => bytes.headD 0

theorem u32 (v : UInt32) :
  Reads readU32 (u32ToLe v) v
  := by
  have h := (exact (length_u32ToLe v)).map leToU32
  rw [leToU32_u32ToLe] at h
  exact h

theorem u64 (v : UInt64) :
  Reads readU64 (u64ToLe v) v
  := by
  have h := (exact (length_u64ToLe v)).map leToU64
  rw [leToU64_u64ToLe] at h
  exact h

/-- A loop reads one item after the other, if a step reads an item. -/
theorem loop {items : List ι} {n : ℕ} {step : σ → Reader σ} {write : ι → List UInt8}
    {next : σ → ι → σ} (hn : items.length = n)
    (hstep : ∀ s, ∀ i ∈ items, Reads (step s) (write i) (next s i)) (s : σ) :
  Reads (Bytes.loop n step s) (items.flatMap write) (items.foldl next s)
  := by
  induction items generalizing n s with
  | nil =>
      subst hn
      exact Reads.pure s
  | cons i items ih =>
      subst hn
      rw [List.length_cons, List.flatMap_cons, List.foldl_cons]
      apply Reads.bind (hstep s i List.mem_cons_self)
      exact ih rfl (fun s i hi => hstep s i (List.mem_cons_of_mem _ hi)) _

/-- An array is read if its elements are. -/
theorem array {read : Reader α} {write : α → List UInt8} {n : ℕ} (v : List.Vector α n)
    (h : ∀ a ∈ v.toList, Reads read (write a) a) :
  Reads (readArray read n) (v.toList.flatMap write) v
  := by
  induction n with
  | zero =>
      obtain rfl := v.eq_nil
      exact Reads.pure _
  | succ n ih =>
      obtain ⟨a, as, rfl⟩ := v.exists_eq_cons
      rw [List.Vector.toList_cons, List.flatMap_cons]
      rw [List.Vector.toList_cons, List.forall_mem_cons] at h
      exact h.1.bind ((ih as h.2).map fun as => a ::ᵥ as)

end Reads

end Bytes
