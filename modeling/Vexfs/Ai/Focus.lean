import Vexfs.Ai.Memory

/-!
# The focus of a session

The focus of a session is meant to be the file that was opened most often.  It is computed from
the list of the files of the session, which has every file once, so whichever file comes last
in the table of counts becomes the focus.  That is a most opened file in every order of the
table exactly when all files were opened equally often (`isFocus_iff`).
-/

namespace Vexfs

namespace MemoryEngine

/-! ### Sessions -/

/-- The inode that a call opens. -/
def Call.opened : Call → Option UInt64
  | .recordAccess ino _ _ _ => some ino
  | .recordWrite _ => none
  | .recordRead _ => none
  | .closeSession _ _ _ => none

/-- A call within a session. -/
def Call.InSession : Call → Prop
  | .closeSession _ _ _ => False
  | _ => True

/-- The inodes that some calls open, as often as they open them. -/
def openings (calls : List Call) : List UInt64 := calls.filterMap Call.opened

/-- The focus that is stored when the session is closed. -/
def storedFocus (e : MemoryEngine) (order : Arrangement UInt64) (ts now : UInt64) :
    Option String :=
  (e.closeSession order ts now).sessions.getLast?.bind Session.focusFile

/-- A focus is the name of a file that was opened most often, and only a session without files
has none. -/
structure IsFocus (e : MemoryEngine) (opened : List UInt64) (focus : Option String) : Prop where
  none_of : focus = none → opened = []
  most : ∀ name, focus = some name → ∃ ino ∈ opened, e.names.get ino = some name
    ∧ ∀ ino', opened.count ino' ≤ opened.count ino

/-- The archived session is the last one. -/
theorem storedFocus_eq (e : MemoryEngine) (order : Arrangement UInt64) (ts now : UInt64) :
  e.storedFocus order ts now = e.focusOf order
  := by
  have hlast (sessions : List Session) (s : Session) :
      (if maxSessions < (sessions ++ [s]).length then (sessions ++ [s]).tail
        else sessions ++ [s]).getLast? = some s := by
    split
    · next hlt =>
      cases sessions with
      | nil =>
          have hone : maxSessions < 1 := hlt
          exact absurd hone (by decide)
      | cons s' sessions => exact List.getLast?_concat
    · exact List.getLast?_concat
  rw [storedFocus, closeSession]
  dsimp only
  rw [hlast]
  rfl

/-! ### The files of a session -/

/-- What calls of a session do to its files: each opened file is there once, and has a name. -/
structure Lists (e : MemoryEngine) (opened : List UInt64) : Prop where
  nodup : (e.currentSession.filesTouched.map Prod.fst).Nodup
  mem_iff : ∀ ino, ino ∈ e.currentSession.filesTouched.map Prod.fst ↔ ino ∈ opened
  named : ∀ ino ∈ opened, (e.names.get ino).isSome

theorem mem_touchFile {s : Session} {ino ino' : UInt64} {name : String} :
  ino' ∈ (touchFile s ino name).filesTouched.map Prod.fst
    ↔ ino' = ino ∨ ino' ∈ s.filesTouched.map Prod.fst
  := by
  rw [touchFile]
  split
  · next hany =>
    obtain ⟨f, hf, heq⟩ := List.any_eq_true.mp hany
    have hmem : ino ∈ s.filesTouched.map Prod.fst :=
      List.mem_map.mpr ⟨f, hf, of_decide_eq_true heq⟩
    constructor
    · exact Or.inr
    · rintro (rfl | h)
      · exact hmem
      · exact h
  · dsimp only
    rw [List.map_append, List.mem_append, or_comm, List.map_singleton, List.mem_singleton]

theorem nodup_touchFile {s : Session} (h : (s.filesTouched.map Prod.fst).Nodup) (ino : UInt64)
    (name : String) :
  ((touchFile s ino name).filesTouched.map Prod.fst).Nodup
  := by
  rw [touchFile]
  split
  · exact h
  · next hany =>
    dsimp only
    rw [List.map_append, List.map_singleton]
    apply List.Nodup.append h (List.nodup_singleton _)
    rw [List.disjoint_singleton]
    intro hmem
    obtain ⟨f, hf, heq⟩ := List.mem_map.mp hmem
    exact hany (List.any_eq_true.mpr ⟨f, hf, decide_eq_true heq⟩)

/-- The calls of a session list its files. -/
theorem Lists.run {e : MemoryEngine} {opened : List UInt64} (h : e.Lists opened)
    {calls : List Call} (hcalls : ∀ c ∈ calls, c.InSession) :
  (e.run calls).Lists (opened ++ openings calls)
  := by
  induction calls generalizing e opened with
  | nil =>
      rw [openings, List.filterMap_nil, List.append_nil]
      exact h
  | cons c calls ih =>
      rw [List.forall_mem_cons] at hcalls
      obtain ⟨hc, hcalls⟩ := hcalls
      cases c with
      | recordAccess ino name ts now =>
          have hstep : (e.recordAccess ino name ts now).Lists (opened ++ [ino]) := by
            constructor
            · exact nodup_touchFile h.nodup ino name
            · intro ino'
              change ino' ∈ (touchFile e.currentSession ino name).filesTouched.map _ ↔ _
              rw [mem_touchFile, h.mem_iff, List.mem_append, List.mem_singleton, or_comm]
            · intro ino' hino'
              change ((e.names.insert ino name).get ino').isSome
              rw [FiniteMap.get_insert]
              split
              · rfl
              · next hne =>
                obtain hold | hnew := List.mem_append.mp hino'
                · exact h.named ino' hold
                · exact absurd (List.mem_singleton.mp hnew) hne
          have hrest := ih hstep hcalls
          rw [List.append_assoc] at hrest
          exact hrest
      | recordWrite ino => exact ih ⟨h.nodup, h.mem_iff, h.named⟩ hcalls
      | recordRead ino => exact ih ⟨h.nodup, h.mem_iff, h.named⟩ hcalls
      | closeSession order ts now => exact absurd hc id

/-- A session that starts has no files. -/
theorem Lists.start {e : MemoryEngine} (h : e.currentSession.filesTouched = []) :
  e.Lists []
  := by
  constructor
  · rw [h]
    exact List.nodup_nil
  · intro ino
    rw [h]
    exact Iff.rfl
  · intro ino hino
    cases hino

/-! ### Counts -/

/-- Every file on a list without repetitions is counted once. -/
theorem get_frequencies {files : List (UInt64 × String)} (h : (files.map Prod.fst).Nodup)
    (ino : UInt64) :
  (frequencies files).get ino = if ino ∈ files.map Prod.fst then some 1 else none
  := by
  have hfold (m : FiniteMap UInt64 UInt32) (hm : ∀ f ∈ files, m.get f.1 = none) :
      (files.foldl (fun m f => m.insert f.1 ((m.get f.1).getD 0 + 1)) m).get ino
        = if ino ∈ files.map Prod.fst then some 1 else m.get ino := by
    induction files generalizing m with
    | nil => rfl
    | cons f files ih =>
        rw [List.map_cons, List.nodup_cons] at h
        rw [List.foldl_cons, ih h.2, hm f List.mem_cons_self, List.map_cons, FiniteMap.get_insert]
        · by_cases hf : ino = f.1
          · rw [if_neg (by rw [hf]; exact h.1), if_pos hf,
              if_pos (by rw [hf]; exact List.mem_cons_self)]
            rfl
          · rw [if_neg hf]
            exact (if_congr (List.mem_cons.trans (or_iff_right hf)) rfl rfl).symm
        · intro f' hf'
          have hne : f'.1 ≠ f.1 := fun heq => h.1 (heq ▸ List.mem_map_of_mem hf')
          rw [FiniteMap.get_insert_of_ne _ hne]
          exact hm f' (List.mem_cons_of_mem _ hf')
  exact hfold .empty fun f _ => rfl

/-- Among equal counts a later one is taken. -/
theorem foldl_best {ps : List (UInt64 × UInt32)} (h : ∀ p ∈ ps, p.2 = 1)
    {best : UInt64 × UInt32} (hbest : best.2 = 1) :
  ps.foldl (fun best p => if best.2 ≤ p.2 then p else best) best = ps.getLast?.getD best
  := by
  induction ps generalizing best with
  | nil => rfl
  | cons p ps ih =>
      rw [List.forall_mem_cons] at h
      have hle : best.2 ≤ p.2 := by
        rw [hbest, h.1]
        exact UInt32.le_refl 1
      rw [List.foldl_cons, if_pos hle, ih h.2 h.1, List.getLast?_cons, Option.getD_some]

theorem maxByCount_eq_getLast? {ps : List (UInt64 × UInt32)} (h : ∀ p ∈ ps, p.2 = 1) :
  maxByCount ps = ps.getLast?
  := by
  cases ps with
  | nil => rfl
  | cons p ps =>
      rw [List.forall_mem_cons] at h
      rw [maxByCount, List.getLast?_cons, foldl_best h.2 h.1]

/-! ### The focus -/

/-- The focus is the file that comes last in the table of counts. -/
theorem Lists.focusOf_eq {e : MemoryEngine} {opened : List UInt64} (h : e.Lists opened)
    (order : Arrangement UInt64) :
  e.focusOf order
    = (order.arrange (frequencies e.currentSession.filesTouched).keys).getLast?.bind e.names.get
  := by
  have hone : ∀ p ∈ (frequencies e.currentSession.filesTouched).iter order, p.2 = 1 := by
    rintro ⟨ino, count⟩ hp
    have hget := FiniteMap.mem_iter.mp hp
    rw [get_frequencies h.nodup] at hget
    split at hget
    · exact (Option.some.inj hget).symm
    · cases hget
  rw [focusOf, maxByCount_eq_getLast? hone, ← FiniteMap.keys_iter, List.getLast?_map,
    Option.bind_map]
  rfl

theorem Lists.mem_keys {e : MemoryEngine} {opened : List UInt64} (h : e.Lists opened)
    {ino : UInt64} :
  ino ∈ (frequencies e.currentSession.filesTouched).keys ↔ ino ∈ opened
  := by
  rw [FiniteMap.mem_keys, get_frequencies h.nodup, ← h.mem_iff]
  split
  · next hmem => simp [hmem]
  · next hmem => simp [hmem]

/-- The order of the list, but with one element at the end. -/
def lastOrder (x : UInt64) : Arrangement UInt64 where
  arrange keys := keys.filter (fun k => !decide (k = x)) ++ keys.filter (fun k => decide (k = x))
  perm keys := List.perm_append_comm.trans (List.filter_append_perm _ keys)

theorem getLast?_lastOrder {x : UInt64} {keys : List UInt64} (h : x ∈ keys) :
  ((lastOrder x).arrange keys).getLast? = some x
  := by
  have hne : keys.filter (fun k => decide (k = x)) ≠ [] :=
    List.ne_nil_of_mem (List.mem_filter.mpr ⟨h, decide_eq_true rfl⟩)
  have hlast := List.getLast_mem hne
  rw [List.mem_filter, decide_eq_true_iff] at hlast
  rw [lastOrder]
  dsimp only
  rw [List.getLast?_append, List.getLast?_eq_some_getLast hne, hlast.2, Option.some_or]

/-- In a session after which different files have different names, a most opened file becomes
the focus in every order of the table exactly when all files were opened equally often. -/
theorem isFocus_iff {e : MemoryEngine} (hstart : e.currentSession.filesTouched = [])
    {calls : List Call} (hcalls : ∀ c ∈ calls, c.InSession)
    (hnames : ∀ i j name, (e.run calls).names.get i = some name →
      (e.run calls).names.get j = some name → i = j) (ts now : UInt64) :
  (∀ order, IsFocus (e.run calls) (openings calls) ((e.run calls).storedFocus order ts now))
    ↔ ∀ i ∈ openings calls, ∀ j ∈ openings calls,
      (openings calls).count i = (openings calls).count j
  := by
  have h : (e.run calls).Lists (openings calls) := (Lists.start hstart).run hcalls
  have hfocus (order : Arrangement UInt64) : (e.run calls).storedFocus order ts now
      = (order.arrange (frequencies (e.run calls).currentSession.filesTouched).keys).getLast?.bind
        (e.run calls).names.get := (storedFocus_eq _ _ _ _).trans (h.focusOf_eq order)
  constructor
  · intro hall
    -- a file that comes last is the focus, so no file was opened more often
    have hle (i j : UInt64) (hi : i ∈ openings calls) :
        (openings calls).count j ≤ (openings calls).count i := by
      obtain ⟨name, hname⟩ := Option.isSome_iff_exists.mp (h.named i hi)
      have hlast := hfocus (lastOrder i)
      rw [getLast?_lastOrder (h.mem_keys.mpr hi), Option.bind_some, hname] at hlast
      obtain ⟨i', -, hname', hmost⟩ := (hall (lastOrder i)).most name hlast
      obtain rfl := hnames i' i name hname' hname
      exact hmost j
    exact fun i hi j hj => Nat.le_antisymm (hle j i hj) (hle i j hi)
  · intro hsame order
    rw [hfocus]
    cases hlast : (order.arrange
        (frequencies (e.run calls).currentSession.filesTouched).keys).getLast? with
    | none =>
        constructor
        · intro _
          rw [List.getLast?_eq_none_iff] at hlast
          apply List.eq_nil_iff_forall_not_mem.mpr
          intro ino hino
          have hmem := order.mem_arrange.mpr (h.mem_keys.mpr hino)
          rw [hlast] at hmem
          cases hmem
        · intro name hname
          cases hname
    | some i =>
        have hi : i ∈ openings calls :=
          h.mem_keys.mp (order.mem_arrange.mp (List.mem_of_getLast? hlast))
        constructor
        · intro hnone
          have hnamed := h.named i hi
          rw [Option.bind_some] at hnone
          rw [hnone] at hnamed
          cases hnamed
        · intro name hname
          refine ⟨i, hi, hname, ?_⟩
          intro j
          by_cases hj : j ∈ openings calls
          · exact (hsame j hj i hi).le
          · rw [List.count_eq_zero_of_not_mem hj]
            exact Nat.zero_le _

/-- The names of two files. -/
theorem names_two {i j : UInt64} {name : String}
    (hi : ((FiniteMap.empty.insert 2 "a").insert 3 "b").get i = some name)
    (hj : ((FiniteMap.empty.insert 2 "a").insert 3 "b").get j = some name) :
  (i = 2 ∧ name = "a" ∨ i = 3 ∧ name = "b") ∧ i = j
  := by
  have hcases (k : UInt64) (hk : ((FiniteMap.empty.insert 2 "a").insert 3 "b").get k = some name) :
      k = 2 ∧ name = "a" ∨ k = 3 ∧ name = "b" := by
    rw [FiniteMap.get_insert, FiniteMap.get_insert] at hk
    split at hk
    · next h3 => exact Or.inr ⟨h3, (Option.some.inj hk).symm⟩
    · split at hk
      · next h2 => exact Or.inl ⟨h2, (Option.some.inj hk).symm⟩
      · cases hk
  use hcases i hi
  obtain ⟨rfl, rfl⟩ | ⟨rfl, rfl⟩ := hcases i hi
  · obtain ⟨rfl, -⟩ | ⟨-, hname⟩ := hcases j hj
    · rfl
    · exact absurd hname (by decide)
  · obtain ⟨-, hname⟩ | ⟨rfl, -⟩ := hcases j hj
    · exact absurd hname (by decide)
    · rfl

/-- Two files that were opened once each. -/
theorem isFocus_two_files :
  let calls : List Call := [.recordAccess 2 "a" 86400 86400, .recordAccess 3 "b" 86400 86400]
  ∀ order, IsFocus ((new 1 2 3).run calls) (openings calls)
    (((new 1 2 3).run calls).storedFocus order 90000 90000)
  := by
  intro calls
  have hopenings : openings calls = [2, 3] := rfl
  apply (isFocus_iff rfl _ _ 90000 90000).mpr
  · have hnodup : [(2 : UInt64), 3].Nodup := by decide
    rw [hopenings]
    intro i hi j hj
    rw [List.count_eq_one_of_mem hnodup hi, List.count_eq_one_of_mem hnodup hj]
  · simp [calls, Call.InSession]
  · exact fun i j name hi hj => (names_two hi hj).2

/-- A file that was opened twice is not the focus when another file comes last. -/
theorem not_isFocus :
  ¬ ∀ (e : MemoryEngine) (calls : List Call) (order : Arrangement UInt64) (ts now : UInt64),
    e.currentSession.filesTouched = [] → (∀ c ∈ calls, c.InSession) →
    (∀ i j name, (e.run calls).names.get i = some name →
      (e.run calls).names.get j = some name → i = j) →
    IsFocus (e.run calls) (openings calls) ((e.run calls).storedFocus order ts now)
  := by
  intro h
  let calls : List Call := [.recordAccess 2 "a" 86400 86400, .recordAccess 2 "a" 86400 86400,
    .recordAccess 3 "b" 86400 86400]
  have hnames : ((new 1 2 3).run calls).names = (FiniteMap.empty.insert 2 "a").insert 3 "b" := by
    apply FiniteMap.ext
    intro k
    change (((FiniteMap.empty.insert 2 "a").insert 2 "a").insert 3 "b").get k = _
    rw [FiniteMap.insert_insert]
  have hfocus := h (new 1 2 3) calls .id 90000 90000 rfl (by simp [calls, Call.InSession])
    (by rw [hnames]; exact fun i j name hi hj => (names_two hi hj).2)
  have hstored : ((new 1 2 3).run calls).storedFocus .id 90000 90000 = some "b" := by
    rw [storedFocus_eq]
    rfl
  obtain ⟨ino, -, hname, hmost⟩ := hfocus.most "b" hstored
  rw [hnames] at hname
  have hcount := hmost 2
  obtain ⟨-, hb⟩ | ⟨rfl, -⟩ := (names_two hname hname).1
  · exact absurd hb (by decide)
  · exact absurd hcount (by decide)

end MemoryEngine

end Vexfs
