import Vexfs.Fuse.Session

/-!
# States of a session

The log of a session leads from the mounted file system to the state of the session
(`Reachable.leads`): each piece is performed in the state that the one before left.

An entry is added in a session only when it gets the next inode number, which does not
overflow (`Call.Numbered`).  So what every piece keeps, where it adds no entry past the last
number, holds in every state that a session goes through: `Reachable.invariant` is the rule for
what is said of the states of the log.
-/

namespace Vexfs

/-- A piece that adds an entry. -/
def Call.Adds : Call → Prop
  | .addEntry _ _ _ => True
  | _ => False

/-- The requests that make a file. -/
def Request.MakesFile : Request → Prop
  | .create _ _ | .mkdir _ _ => True
  | _ => False

theorem Call.Stays.not_adds {c : Call} (h : c.Stays) :
  ¬ c.Adds
  := by
  cases c <;> first | exact h.elim | exact id

variable [Crc32] [Zstd]

omit [Zstd] in
/-- A piece that adds an entry finds no free inode, or there is a next inode number. -/
def Call.Numbered (fs : VexFS) : Call → Prop
  | .addEntry _ _ _ => fs.disk.allocInode.1 = none ∨ fs.nextInode + 1 ≠ 0
  | _ => True

omit [Zstd] in
theorem Call.numbered_of_not_adds {c : Call} (fs : VexFS) (h : ¬ c.Adds) :
  c.Numbered fs
  := by
  cases c <;> first | exact absurd trivial h | trivial

namespace Session

variable {s s' : Session} {env : Env} {reply : Reply} {parent newparent : UInt64}
  {name newname : String}

/-- What is new in the log adds no entry past the last number. -/
def AddsNumbered (s s' : Session) : Prop :=
  ∀ e ∈ s'.log, e ∈ s.log ∨ e.2.Numbered e.1

theorem Performs.addsNumbered (h : Performs (fun c => ¬ c.Adds) s s') :
  AddsNumbered s s'
  := by
  intro e he
  obtain he | hnot := h.mem_log he
  · exact Or.inl he
  · exact Or.inr (Call.numbered_of_not_adds e.1 hnot)

theorem AddsNumbered.of_stays (h : Stays s s') :
  AddsNumbered s s'
  := (h.mono fun _ hc => hc.not_adds).addsNumbered

omit [Zstd] in
theorem AddsNumbered.trans {s'' : Session} (h : AddsNumbered s s') (h' : AddsNumbered s' s'') :
  AddsNumbered s s''
  := by
  intro e he
  obtain he | hnumbered := h' e he
  · exact h e he
  · exact Or.inr hnumbered

theorem AddsNumbered.perform {c : Call} (hc : c.Numbered s.fs) :
  AddsNumbered s (s.perform c)
  := by
  intro e he
  obtain he | he := List.mem_append.mp he
  · exact Or.inl he
  · obtain rfl := List.mem_singleton.mp he
    exact Or.inr hc

omit [Zstd] in
theorem AddsNumbered.refl (s : Session) :
  AddsNumbered s s
  := fun _ he => Or.inl he

theorem create_numbered (h : s.create env parent name = .ok (reply, s')) :
  AddsNumbered s s'
  := by
  unfold create at h
  split at h
  · cases h
    exact .refl s
  split at h
  · cases h
    exact .refl s
  split at h
  · next hnone =>
    cases h
    exact .perform (Or.inl hnone)
  split at h
  · cases h
  · next hmax =>
    cases h
    have hadd : AddsNumbered s (s.perform (.addEntry parent name false)) := .perform (Or.inr hmax)
    apply hadd.trans
    apply AddsNumbered.of_stays
    exact (Performs.refl.cacheInsert _ _).stays.perform trivial

theorem mkdir_numbered (h : s.mkdir env parent name = .ok (reply, s')) :
  AddsNumbered s s'
  := by
  unfold mkdir at h
  split at h
  · cases h
    exact .refl s
  split at h
  · cases h
    exact .refl s
  split at h
  · next hnone =>
    cases h
    exact .perform (Or.inl hnone)
  split at h
  · cases h
  · next hmax =>
    cases h
    have hadd : AddsNumbered s (s.perform (.addEntry parent name true)) := .perform (Or.inr hmax)
    apply hadd.trans
    apply AddsNumbered.of_stays
    exact (Performs.refl.perform trivial).perform trivial

/-! The other operations add no entry. -/

theorem unlink_not_adds (s : Session) (parent : UInt64) (name : String) :
  Performs (fun c => ¬ c.Adds) s (s.unlink parent name).2
  := by
  unfold unlink
  split
  · exact Performs.refl.perform id
  · split <;> exact Performs.refl.perform id

theorem rmdir_not_adds (s : Session) (parent : UInt64) (name : String) :
  Performs (fun c => ¬ c.Adds) s (s.rmdir parent name).2
  := by
  unfold rmdir
  split
  · exact .refl
  split
  · exact .refl
  split
  · exact .refl
  · split <;> exact Performs.refl.perform id

theorem rename_not_adds (s : Session) (parent : UInt64) (name : String) (newparent : UInt64)
    (newname : String) :
  Performs (fun c => ¬ c.Adds) s (s.rename env parent name newparent newname).2
  := by
  unfold rename
  split
  · exact .refl
  split
  · exact .refl
  · exact Performs.refl.perform id

theorem Performs.not_adds (h : Stays s s') :
  Performs (fun c => ¬ c.Adds) s s'
  := h.mono fun _ hc => hc.not_adds

/-- An operation that makes no file adds no entry. -/
theorem request_not_adds {request : Request} (hmakes : ¬ request.MakesFile)
    (h : s.exec env request = .ok (reply, s')) :
  Performs (fun c => ¬ c.Adds) (s.perform (.request request)) s'
  := by
  unfold exec at h
  cases request with
  | create parent name => exact absurd trivial hmakes
  | mkdir parent name => exact absurd trivial hmakes
  | write ino offset data => exact (write_stays h).not_adds
  | setattr ino size => exact (setattr_stays h).not_adds
  | unlink parent name =>
      rw [← snd_of_ok h]
      exact unlink_not_adds _ parent name
  | rmdir parent name =>
      rw [← snd_of_ok h]
      exact rmdir_not_adds _ parent name
  | rename parent name newparent newname =>
      rw [← snd_of_ok h]
      exact rename_not_adds _ parent name newparent newname
  | read ino offset size =>
      rw [← snd_of_ok h]
      exact (read_stores _ ino offset size).stays.not_adds
  | flush ino =>
      cases h
      exact (Performs.refl.flushFile ino).stays.not_adds
  | fsync ino =>
      cases h
      exact (Performs.refl.flushFile ino).stays.not_adds
  | release ino =>
      cases h
      exact .refl
  | destroy =>
      cases h
      exact (Performs.refl.persistAll _).stays.not_adds

/-- No operation adds an entry past the last number. -/
theorem exec_numbered {request : Request} (h : s.exec env request = .ok (reply, s')) :
  AddsNumbered s s'
  := by
  apply (AddsNumbered.perform (c := .request request) trivial).trans
  cases request with
  | create parent name => exact create_numbered h
  | mkdir parent name => exact mkdir_numbered h
  | _ => exact (request_not_adds id h).addsNumbered

end Session

/-! ### The log as a run -/

/-- The pieces of a log lead from one state to another. -/
def Leads (fs : VexFS) : List (VexFS × Call) → VexFS → Prop
  | [], fs' => fs' = fs
  | e :: log, fs' => e.1 = fs ∧ Leads (e.2.run fs) log fs'

namespace Leads

variable {fs fs' fs'' : VexFS} {log log' : List (VexFS × Call)}

theorem append_iff :
  Leads fs (log ++ log') fs'' ↔ ∃ fs', Leads fs log fs' ∧ Leads fs' log' fs''
  := by
  induction log generalizing fs with
  | nil =>
      constructor
      · exact fun h => ⟨fs, rfl, h⟩
      · rintro ⟨_, rfl, h⟩
        exact h
  | cons e log ih =>
      constructor
      · rintro ⟨he, h⟩
        obtain ⟨fs', hlog, hlog'⟩ := ih.mp h
        exact ⟨fs', ⟨he, hlog⟩, hlog'⟩
      · rintro ⟨fs', ⟨he, hlog⟩, hlog'⟩
        exact ⟨he, ih.mpr ⟨fs', hlog, hlog'⟩⟩

/-- The state a piece of a log is performed in is the one that the pieces before lead to. -/
theorem before {e : VexFS × Call} (h : Leads fs (log ++ e :: log') fs'') :
  Leads fs log e.1 ∧ Leads (e.2.run e.1) log' fs''
  := by
  obtain ⟨fs', hlog, he, hlog'⟩ := append_iff.mp h
  rw [he]
  exact ⟨hlog, hlog'⟩

variable {I : VexFS → Prop}

/-- What every piece of a log keeps holds in all states that it leads through. -/
theorem holds (hstep : ∀ e ∈ log, I e.1 → I (e.2.run e.1)) (h : Leads fs log fs') (hI : I fs) :
  I fs' ∧ ∀ e ∈ log, I e.1
  := by
  induction log generalizing fs with
  | nil =>
      obtain rfl := h
      exact ⟨hI, List.forall_mem_nil _⟩
  | cons e log ih =>
      obtain ⟨rfl, hlog⟩ := h
      obtain ⟨hfs', hall⟩ := ih (fun e' he' => hstep e' (List.mem_cons_of_mem _ he')) hlog
        (hstep e List.mem_cons_self hI)
      exact ⟨hfs', List.forall_mem_cons.mpr ⟨hI, hall⟩⟩

end Leads

/-- What a session adds to the log of another leads from the state of the other to its own. -/
theorem Session.Performs.leads {P : Call → Prop} {s s' : Session} (h : Performs P s s') :
  ∃ log, s'.log = s.log ++ log ∧ Leads s.fs log s'.fs
  := by
  induction h with
  | refl => exact ⟨[], (List.append_nil _).symm, rfl⟩
  | @perform s' c _ _ ih =>
      obtain ⟨log, hlog, hleads⟩ := ih
      use log ++ [(s'.fs, c)]
      constructor
      · show s'.log ++ [(s'.fs, c)] = _
        rw [hlog, List.append_assoc]
      · exact Leads.append_iff.mpr ⟨s'.fs, hleads, rfl, rfl⟩

namespace Reachable

variable {start : VexFS} {s : Session}

theorem leads (h : Reachable start s) :
  Leads start s.log s.fs
  := by
  induction h with
  | start => exact rfl
  | exec env request _ hexec ih =>
      obtain ⟨log, hlog, hleads⟩ := (Session.exec_performs hexec).leads
      rw [hlog]
      exact Leads.append_iff.mpr ⟨_, ih, hleads⟩

theorem numbered (h : Reachable start s) :
  ∀ e ∈ s.log, e.2.Numbered e.1
  := by
  induction h with
  | start => exact fun e he => by cases he
  | exec env request _ hexec ih =>
      intro e he
      obtain he | hnumbered := Session.exec_numbered hexec e he
      · exact ih e he
      · exact hnumbered

variable {Good : VexFS → Call → Prop} {I : VexFS → Prop}

/-- What holds of the mounted file system, and is kept by every piece that is performed where
`Good` allows it, holds in every state that a session which performs its pieces so goes
through. -/
theorem holds_through (hstart : I start) (hstep : ∀ fs c, Good fs c → I fs → I (c.run fs))
    (h : Reachable start s) (hgood : ∀ e ∈ s.log, Good e.1 e.2) :
  I s.fs ∧ ∀ e ∈ s.log, I e.1
  := h.leads.holds (fun e he => hstep e.1 e.2 (hgood e he)) hstart

/-- What every piece keeps, where it adds no entry past the last number, holds in every state
of a session. -/
theorem invariant (hstart : I start) (hstep : ∀ fs c, Call.Numbered fs c → I fs → I (c.run fs))
    (h : Reachable start s) :
  I s.fs ∧ ∀ e ∈ s.log, I e.1
  := holds_through hstart hstep h h.numbered

end Reachable

end Vexfs
