import Vexfs.Storage.Image

/-!
# Redo logs

A redo log is a list of writes that a recovery replays, in order, over the image a crash
left.  `Settled S ws img` says that the replay of `ws` changes no byte of `img` in `S`.  A
write that is first appended to the log and then made in place keeps the log settled
(`Settled.redo`), whatever the earlier entries overlap; a write that bypasses the log keeps
it settled where no entry of the log puts a byte (`Settled.write_unlogged`).

A replay that was interrupted can be started over (`byte_writeAll_of_isPrefix`).

A logged write may be split into pieces (`writesFrom`), none longer than a bound
(`chunks`): their replay leaves the bytes the write puts.
-/

namespace Storage

/-! ### Pieces of a write -/

/-- The writes of the given pieces, one after the other, from position `o` on. -/
def writesFrom : Nat → List (List UInt8) → List FileWrite
  | _, [] => []
  | o, c :: cs => ⟨o, c⟩ :: writesFrom (o + c.length) cs

/-- The pieces of a write leave what the whole write puts. -/
theorem written_writesFrom (o : Nat) (cs : List (List UInt8)) (i : Nat) :
  written (writesFrom o cs) i = (FileWrite.mk o cs.flatten).byteAt i
  := by
  induction cs generalizing o with
  | nil => simp [writesFrom, FileWrite.byteAt_nil]
  | cons c cs ih => rw [writesFrom, written, ih, List.flatten_cons, FileWrite.byteAt_append]

/-- A list cut into pieces of length `n`, the last one possibly shorter. -/
def chunks {α : Type} (n : Nat) (l : List α) : List (List α) :=
  if _h : n = 0 ∨ l = [] then [] else l.take n :: chunks n (l.drop n)
termination_by l.length
decreasing_by
  obtain ⟨hn, hl⟩ := not_or.mp _h
  have hpos := List.length_pos_iff.mpr hl
  rw [List.length_drop]
  omega

theorem chunks_nil {α : Type} (n : Nat) :
  chunks n ([] : List α) = []
  := by
  rw [chunks, dif_pos (Or.inr rfl)]

theorem chunks_of_ne_nil {α : Type} {n : Nat} {l : List α} (hn : 0 < n) (hl : l ≠ []) :
  chunks n l = l.take n :: chunks n (l.drop n)
  := by
  rw [chunks, dif_neg (by simp [hl]; omega)]

/-- The pieces put together again. -/
theorem flatten_chunks {α : Type} {n : Nat} (hn : 0 < n) (l : List α) :
  (chunks n l).flatten = l
  := by
  induction l using chunks.induct n with
  | case1 l h =>
      obtain h | rfl := h
      · omega
      · rw [chunks_nil, List.flatten_nil]
  | case2 l h ih =>
      rw [chunks_of_ne_nil hn (not_or.mp h).2, List.flatten_cons, ih, List.take_append_drop]

theorem length_le_of_mem_chunks {α : Type} {n : Nat} {l c : List α} (h : c ∈ chunks n l) :
  c.length ≤ n
  := by
  induction l using chunks.induct n with
  | case1 l hl =>
      rw [chunks, dif_pos hl] at h
      cases h
  | case2 l hl ih =>
      rw [chunks, dif_neg hl] at h
      obtain rfl | h := List.mem_cons.mp h
      · apply List.length_take_le
      · apply ih h

/-- The number of pieces is the length divided by `n`, rounded up. -/
theorem length_chunks {α : Type} {n : Nat} (hn : 0 < n) (l : List α) :
  (chunks n l).length = (l.length + n - 1) / n
  := by
  induction l using chunks.induct n with
  | case1 l h =>
      obtain h | rfl := h
      · omega
      · rw [chunks_nil]
        symm
        apply Nat.div_eq_of_lt
        simp
        omega
  | case2 l h ih =>
      have hl := List.length_pos_iff.mpr (not_or.mp h).2
      rw [chunks_of_ne_nil hn (not_or.mp h).2, List.length_cons, ih, List.length_drop]
      obtain hle | hlt := Nat.lt_or_ge l.length n
      · have h0 : l.length - n + n - 1 = n - 1 := by omega
        have h1 : l.length + n - 1 = l.length - 1 + n := by omega
        rw [h0, h1, Nat.add_div_right _ hn, Nat.div_eq_of_lt (by omega),
          Nat.div_eq_of_lt (by omega)]
      · have h1 : l.length + n - 1 = l.length - n + n - 1 + n := by omega
        rw [h1, Nat.add_div_right _ hn]

/-! ### Interrupted replays -/

/-- A log that is replayed after some first ones of its writes leaves what one replay
leaves. -/
theorem byte_writeAll_of_isPrefix {us ws : List FileWrite} (h : us <+: ws) (img : Image) (i : Nat) :
  ((img.writeAll us).writeAll ws).byte i = (img.writeAll ws).byte i
  := by
  obtain ⟨vs, rfl⟩ := h
  rw [Image.byte_writeAll, Image.byte_writeAll, Image.byte_writeAll, written_append]
  cases written vs i with
  | some b => rfl
  | none => cases written us i <;> rfl

/-! ### Settled logs -/

/-- Replaying `ws` over `img` changes no byte in `S`. -/
def Settled (S : Set Nat) (ws : List FileWrite) (img : Image) : Prop :=
  ∀ i ∈ S, ∀ b, written ws i = some b → img.byte i = b

namespace Settled

variable {S : Set Nat} {ws vs : List FileWrite} {img img' : Image} {w : FileWrite}

theorem nil (S : Set Nat) (img : Image) :
  Settled S [] img
  := by
  intro i _ b hb
  simp at hb

theorem iff_eqOn :
  Settled S ws img ↔ Set.EqOn (img.writeAll ws).byte img.byte S
  := by
  constructor
  · intro h i hi
    rw [Image.byte_writeAll]
    cases hw : written ws i with
    | none => rfl
    | some b => rw [Option.getD_some, h i hi b hw]
  · intro h i hi b hb
    rw [← h hi, Image.byte_writeAll, hb, Option.getD_some]

theorem eqOn (h : Settled S ws img) :
  Set.EqOn (img.writeAll ws).byte img.byte S
  := iff_eqOn.mp h

theorem mono {T : Set Nat} (hTS : T ⊆ S) (h : Settled S ws img) :
  Settled T ws img
  := fun i hi => h i (hTS hi)

theorem congr (heq : Set.EqOn img'.byte img.byte S) (h : Settled S ws img) :
  Settled S ws img'
  := by
  intro i hi b hb
  rw [heq hi, h i hi b hb]

/-- Logged and then made in place, a write leaves the log settled. -/
theorem redo (hvs : ∀ i ∈ S, written vs i = w.byteAt i) (h : Settled S ws img) :
  Settled S (ws ++ vs) (img.write w)
  := by
  intro i hi b hb
  rw [written_append, hvs i hi] at hb
  rw [Image.byte_write]
  cases hw : w.byteAt i with
  | none =>
      rw [hw, Option.none_or] at hb
      rw [Option.getD_none, h i hi b hb]
  | some c =>
      rw [hw, Option.some_or] at hb
      rw [Option.getD_some, Option.some.inj hb]

/-- Before the write is made in place, the replay makes it. -/
theorem eqOn_redo (hvs : ∀ i ∈ S, written vs i = w.byteAt i) (h : Settled S ws img) :
  Set.EqOn (img.writeAll (ws ++ vs)).byte (img.write w).byte S
  := by
  intro i hi
  rw [Image.byte_writeAll, written_append, hvs i hi, Image.byte_write]
  cases hw : w.byteAt i with
  | none =>
      rw [Option.none_or, ← Image.byte_writeAll, h.eqOn hi, Option.getD_none]
  | some c => rfl

/-- A write past the log keeps it settled where the log has nothing, or the same byte. -/
theorem write_unlogged
    (hw : ∀ i ∈ S, ∀ b, written ws i = some b → ∀ c, w.byteAt i = some c → c = b)
    (h : Settled S ws img) :
  Settled S ws (img.write w)
  := by
  intro i hi b hb
  rw [Image.byte_write]
  cases hc : w.byteAt i with
  | none => rw [Option.getD_none, h i hi b hb]
  | some c => rw [Option.getD_some, hw i hi b hb c hc]

end Settled

end Storage
