import Vexfs.Bytes.ByteFile
import Vexfs.Fuse.SlotOwners

/-!
# What files contain

The operations of a session define what each file contains: a file is made empty, and then
written to and truncated (`Defines`).  Nothing of the cache, the write buffer or the disk
enters into it.  As long as no insertion into the cache evicts anything, the contents of every
regular file are in the cache, and they are the ones that were defined (`Resident`).  So a read
replies with what was written last (`reads_latest`), whatever was flushed in between.
-/

namespace Vexfs

open Storage

/-! ### Contents and what changes them -/

/-- What the files contain, by their numbers. -/
abbrev Contents := UInt64 → Option ByteFile

/-- What an operation does to the contents of files. -/
inductive Effect where
  | none
  | create (ino : UInt64)
  | remove (ino : UInt64)
  | write (ino : UInt64) (offset : ℕ) (data : List UInt8)
  | truncate (ino : UInt64) (size : ℕ)

/-- The contents after an effect. -/
def Effect.apply (m : Contents) : Effect → Contents
  | .none => m
  | .create ino => Function.update m ino (some .empty)
  | .remove ino => Function.update m ino Option.none
  | .write ino offset data => Function.update m ino ((m ino).map fun f => f.write offset data)
  | .truncate ino size => Function.update m ino ((m ino).map fun f => f.truncate size)

/-- What a request does to the contents of files, by its reply. -/
def Request.effect (fs : VexFS) : Request → Reply → Effect
  | .create _ _, .entry attr => .create attr.ino
  | .unlink parent name, .ok | .rmdir parent name, .ok =>
      match fs.target parent name with
      | none => .none
      | some (val, _) => .remove val.ino
  | .write ino offset data, .written _ =>
      if ino = searchIno ∨ ino = askIno then .none
      else .write ino offset.toUInt64.toNat data
  | .setattr ino (some size), .attr _ => .truncate ino size.toNat
  | _, _ => .none

variable [Crc32] [Zstd]

/-- The contents that the operations of a session define, when no file was there before. -/
inductive Defines (start : VexFS) : Session → Contents → Prop where
  | start : Defines start ⟨start, []⟩ fun _ => none
  | exec {s s' : Session} {m : Contents} {reply : Reply} (env : Env) (request : Request)
      (h : Defines start s m) (hexec : s.exec env request = .ok (reply, s')) :
      Defines start s' ((request.effect s.fs reply).apply m)

theorem Defines.reachable {start : VexFS} {s : Session} {m : Contents} (h : Defines start s m) :
  Reachable start s
  := by
  induction h with
  | start => exact .start
  | exec env request _ hexec ih => exact .exec env request ih hexec

/-! ### Pieces that leave the contents alone -/

/-- The pieces that leave the cached contents and the attributes of files alone. -/
def Call.KeepsContents : Call → Prop
  | .cachePut _ _ | .setSize _ _ | .addEntry _ _ _ | .unlink _ _ | .rmdir _ _ => False
  | _ => True

/-- Two states have the same cached contents and the same files with the same attributes. -/
structure SameContents (fs fs' : VexFS) : Prop where
  cached : fs'.cache.contents = fs.cache.contents
  attr : ∀ ino, (fs'.files.get ino).map VexFile.attr = (fs.files.get ino).map VexFile.attr

namespace SameContents

omit [Crc32] [Zstd]

variable {fs fs' fs'' : VexFS}

theorem refl (fs : VexFS) :
  SameContents fs fs
  := ⟨rfl, fun _ => rfl⟩

theorem trans (h : SameContents fs fs') (h' : SameContents fs' fs'') :
  SameContents fs fs''
  := ⟨h'.cached.trans h.cached, fun ino => (h'.attr ino).trans (h.attr ino)⟩

end SameContents

variable {fs : VexFS} {c : Call}

/-- A piece leaves the cached contents alone, if it is one that does. -/
theorem Call.contents_run (h : c.KeepsContents) (fs : VexFS) :
  (c.run fs).cache.contents = fs.cache.contents
  := by
  have hpersist : ∀ p ino, c = .persistBuffered p ino ∨ c = .persistCached p ino
      ∨ c = .persistRecovered p ino → (c.run fs).cache.contents = fs.cache.contents := by
    intro p ino hc
    obtain rfl | rfl | rfl := hc
    · rw [run, VexFS.persistBuffered]
      split <;> rfl
    · rw [run, VexFS.persistCached]
      split
      · rfl
      split
      · next cache hget =>
        show cache.contents = _
        rw [← FileCache.contents_get fs.cache ino, hget]
      · next data cache hget =>
        show cache.contents = _
        rw [← FileCache.contents_get fs.cache ino, hget]
    · rw [run, VexFS.persistRecovered]
      split
      · rfl
      split <;> rfl
  cases c with
  | cachePut ino data => exact h.elim
  | setSize ino size => exact h.elim
  | addEntry parent name isDir => exact h.elim
  | unlink parent name => exact h.elim
  | rmdir parent name => exact h.elim
  | persistBuffered p ino => exact hpersist p ino (Or.inl rfl)
  | persistCached p ino => exact hpersist p ino (Or.inr (Or.inl rfl))
  | persistRecovered p ino => exact hpersist p ino (Or.inr (Or.inr rfl))
  | cacheGet ino => exact FileCache.contents_get fs.cache ino
  | drainEvicted => exact FileCache.contents_drainEvicted fs.cache
  | stage ino now =>
      rw [run, VexFS.stage]
      split
      · rfl
      split
      · split
        · next cache hget =>
          show cache.contents = _
          rw [← FileCache.contents_get fs.cache ino, hget]
        · next data cache hget =>
          show cache.contents = _
          rw [← FileCache.contents_get fs.cache ino, hget]
      · rfl
  | takeSnapshot ino data takenAt recordedAt =>
      rw [run, VexFS.takeSnapshot]
      split
      · rfl
      dsimp only
      split <;> rfl
  | maybeGcSnapshots order =>
      rw [run, VexFS.maybeGcSnapshots]
      split <;> rfl
  | writeNewInode ino createdAt modifiedAt =>
      rw [run, VexFS.writeNewInode]
      split <;> rfl
  | rename parent name newparent newname now =>
      rw [run, VexFS.rename]
      split <;> rfl
  | _ => rfl

omit [Crc32] in
/-- A piece that is not a change of size leaves the attributes of a file alone. -/
theorem Call.fileAfter_attr (h : c.KeepsContents) (fs : VexFS) (ino : UInt64) (f : VexFile) :
  (c.fileAfter fs ino f).attr = f.attr
  := by
  unfold fileAfter
  split
  · split <;> rfl
  · split <;> rfl
  · exact h.elim
  · split <;> rfl
  · split
    · split <;> rfl
    · rfl

/-- A piece leaves the contents alone, if it is one that does. -/
theorem sameContents_run (h : c.KeepsContents) (fs : VexFS) :
  SameContents fs (c.run fs)
  := by
  have hadds : ¬ c.Adds := by
    cases c <;> first | exact h.elim | exact id
  use Call.contents_run h fs
  intro ino
  cases hf' : (c.run fs).files.get ino with
  | some f' =>
      obtain ⟨f, hf, rfl⟩ | ⟨parent, name, isDir, i, rfl, -⟩ := Call.get_files_run hf'
      · rw [hf, Option.map_some, Option.map_some, Call.fileAfter_attr h]
      · exact h.elim
  | none =>
      cases hf : fs.files.get ino with
      | none => rfl
      | some f =>
          have hstays : ((c.run fs).files.get ino).isSome := by
            apply VexFS.OwnedBut.isSome_run hadds (hf ▸ rfl)
            rintro parent name (rfl | rfl)
            · exact h.elim
            · exact h.elim
          rw [hf'] at hstays
          cases hstays

/-! ### Flushing and inserting -/

namespace Session

variable {s s' : Session} {env : Env}

theorem Performs.sameContents (h : Performs Call.KeepsContents s s') :
  SameContents s.fs s'.fs
  := by
  induction h with
  | refl => exact .refl _
  | perform _ hc ih => exact ih.trans (sameContents_run hc _)

theorem persistAll_keepsContents (s : Session) (env : Env) (inos : List UInt64) :
  Performs Call.KeepsContents s (s.persistAll env inos)
  := Performs.refl.foldl (fun _ _ => Performs.refl.perform trivial) inos

theorem flushFile_keepsContents (s : Session) (env : Env) (ino : UInt64) :
  Performs Call.KeepsContents s (s.flushFile env ino)
  := by
  unfold flushFile
  split
  · exact .refl
  split
  · dsimp only
    have hstage : Performs Call.KeepsContents s (s.perform (.stage ino env.bufferedAt)) :=
      Performs.refl.perform trivial
    split
    · exact hstage.trans (persistAll_keepsContents _ env _)
    · exact hstage
  · exact .refl

theorem preEvictionFlush_keepsContents (s : Session) (env : Env) :
  Performs Call.KeepsContents s (s.preEvictionFlush env)
  := by
  unfold preEvictionFlush
  split
  · exact .refl
  split
  · exact .refl
  split
  · exact .refl
  split
  · dsimp only
    split <;> exact (Performs.refl.perform trivial).perform trivial
  · exact .refl

theorem flushEvicted_keepsContents (s : Session) (env : Env) (ino : UInt64) :
  Performs Call.KeepsContents s (s.flushEvicted env ino)
  := by
  unfold flushEvicted
  split
  · exact .refl
  split
  · dsimp only
    split
    · exact (Performs.refl.perform trivial).perform trivial
    split
    · exact (Performs.refl.perform trivial).perform trivial
    · exact Performs.refl.perform trivial
  · exact .refl

end Session

omit [Crc32] [Zstd] in
/-- No insertion of a log evicts anything. -/
def EvictsNothing (log : List (VexFS × Call)) : Prop :=
  ∀ fs ino data, (fs, Call.cachePut ino data) ∈ log →
    (fs.cache.insert ino data).evicted = fs.cache.evicted

namespace Session

variable {s s' : Session} {env : Env}

/-- An insertion that evicts nothing changes the contents of its own file. -/
theorem cacheInsert_contents (env : Env) (ino : UInt64) (data : List UInt8)
    (hnothing : EvictsNothing (s.cacheInsert env ino data).log) :
  (∀ key, (s.cacheInsert env ino data).fs.cache.contents key
      = if key = ino then some data else s.fs.cache.contents key)
    ∧ ∀ key, ((s.cacheInsert env ino data).fs.files.get key).map VexFile.attr
      = (s.fs.files.get key).map VexFile.attr
  := by
  let before := s.preEvictionFlush env
  let put := before.perform (.cachePut ino data)
  have hbefore : SameContents s.fs before.fs := (preEvictionFlush_keepsContents s env).sameContents
  have hafter : Performs Call.KeepsContents put (s.cacheInsert env ino data) :=
    (Performs.refl.perform trivial).foldl
      (fun s ino => flushEvicted_keepsContents s env ino) put.fs.cache.evicted
  have hmem : (before.fs, Call.cachePut ino data) ∈ (s.cacheInsert env ino data).log :=
    hafter.log_extends.subset (List.mem_append_right _ List.mem_cons_self)
  obtain ⟨keys, hevicted, -, -, hcontents⟩ := before.fs.cache.insert_cases ino data
  have hkeys : keys = [] := by
    have hsame := hnothing _ _ _ hmem
    rw [hevicted] at hsame
    exact List.append_right_eq_self.mp hsame
  constructor
  · intro key
    rw [hafter.sameContents.cached]
    show (before.fs.cache.insert ino data).contents key = _
    rw [hcontents, hkeys, if_neg List.not_mem_nil, hbefore.cached]
  · intro key
    rw [hafter.sameContents.attr]
    exact hbefore.attr key

end Session

/-! ### Resident contents -/

/-- The contents of all regular files are in the cache, and are those that were defined; the
sizes of the files are those of their contents. -/
structure Resident (fs : VexFS) (m : Contents) : Prop where
  regular : ∀ ino f, fs.files.get ino = some f → f.attr.kind = .regularFile →
    ∃ l, fs.cache.contents ino = some l ∧ m ino = some (.ofList l)
      ∧ f.attr.size.toNat = l.length ∧ l.length ≤ Session.maxCapacity
  other : ∀ ino, (∀ f, fs.files.get ino = some f → f.attr.kind ≠ .regularFile) → m ino = none

namespace Resident

omit [Crc32] [Zstd]

variable {fs fs' : VexFS} {m : Contents} {ino : UInt64}

/-- What counts are the attributes, and the cached contents of regular files. -/
theorem congr (hcached : ∀ ino f, fs.files.get ino = some f → f.attr.kind = .regularFile →
      fs'.cache.contents ino = fs.cache.contents ino)
    (hattrs : ∀ ino, (fs'.files.get ino).map VexFile.attr = (fs.files.get ino).map VexFile.attr)
    (h : Resident fs m) :
  Resident fs' m
  := by
  constructor
  · intro ino f' hf' hkind
    have hattr := (hattrs ino).symm
    rw [hf'] at hattr
    obtain ⟨f, hf, heq⟩ := Option.map_eq_some_iff.mp hattr
    rw [← heq] at hkind ⊢
    rw [hcached ino f hf hkind]
    exact h.regular ino f hf hkind
  · intro ino hother
    apply h.other
    intro f hf hkind
    have hattr := hattrs ino
    rw [hf] at hattr
    obtain ⟨f', hf', heq⟩ := Option.map_eq_some_iff.mp hattr
    exact hother f' hf' (heq ▸ hkind)

theorem same (hsame : SameContents fs fs') (h : Resident fs m) :
  Resident fs' m
  := h.congr (fun ino _ _ _ => congrFun hsame.cached ino) hsame.attr

/-- A file is added, without contents. -/
theorem created (hcached : ∀ key, fs'.cache.contents key
      = if key = ino then some [] else fs.cache.contents key)
    (hattrs : ∀ key, (fs'.files.get key).map VexFile.attr = if key = ino then
      some (makeAttr ino 0 false) else (fs.files.get key).map VexFile.attr)
    (h : Resident fs m) :
  Resident fs' (Function.update m ino (some .empty))
  := by
  constructor
  · intro key f' hf' hkind
    have hattr := hattrs key
    rw [hf', Option.map_some] at hattr
    by_cases hkey : key = ino
    · rw [if_pos hkey] at hattr
      refine ⟨[], ?_, ?_, ?_, Nat.zero_le _⟩
      · rw [hcached, if_pos hkey]
      · rw [hkey, Function.update_self, ByteFile.ofList_nil]
      · rw [Option.some.inj hattr]
        rfl
    · rw [if_neg hkey] at hattr
      obtain ⟨f, hf, heq⟩ := Option.map_eq_some_iff.mp hattr.symm
      rw [← heq] at hkind ⊢
      rw [hcached, if_neg hkey, Function.update_of_ne hkey]
      exact h.regular key f hf hkind
  · intro key hother
    have hattr := hattrs key
    by_cases hkey : key = ino
    · rw [if_pos hkey] at hattr
      obtain ⟨f', hf', heq⟩ := Option.map_eq_some_iff.mp hattr
      exact absurd (congrArg FileAttr.kind heq) (hother f' hf')
    · rw [Function.update_of_ne hkey]
      apply h.other
      intro f hf hkind
      rw [if_neg hkey, hf] at hattr
      obtain ⟨f', hf', heq⟩ := Option.map_eq_some_iff.mp hattr
      exact hother f' hf' (heq ▸ hkind)

/-- A directory is added under a number that no file has. -/
theorem madeDir (hcached : fs'.cache.contents = fs.cache.contents)
    (hattrs : ∀ key, (fs'.files.get key).map VexFile.attr = if key = ino then
      some (makeAttr ino 0 true) else (fs.files.get key).map VexFile.attr)
    (hfree : fs.files.get ino = none) (h : Resident fs m) :
  Resident fs' m
  := by
  constructor
  · intro key f' hf' hkind
    have hattr := hattrs key
    rw [hf', Option.map_some] at hattr
    split at hattr
    · rw [Option.some.inj hattr] at hkind
      cases hkind
    · obtain ⟨f, hf, heq⟩ := Option.map_eq_some_iff.mp hattr.symm
      rw [← heq] at hkind ⊢
      rw [hcached]
      exact h.regular key f hf hkind
  · intro key hother
    apply h.other
    intro f hf hkind
    have hattr := hattrs key
    have hkey : key ≠ ino := fun heq => by cases (heq ▸ hf).symm.trans hfree
    rw [if_neg hkey, hf] at hattr
    obtain ⟨f', hf', heq⟩ := Option.map_eq_some_iff.mp hattr
    exact hother f' hf' (heq ▸ hkind)

/-- A file is removed. -/
theorem removed (hcached : ∀ key, key ≠ ino → fs'.cache.contents key = fs.cache.contents key)
    (hfiles : fs'.files = fs.files.erase ino) (h : Resident fs m) :
  Resident fs' (Function.update m ino none)
  := by
  constructor
  · intro key f hf hkind
    rw [hfiles, FiniteMap.get_erase] at hf
    split at hf
    · cases hf
    next hkey =>
    rw [hcached key hkey, Function.update_of_ne hkey]
    exact h.regular key f hf hkind
  · intro key hother
    by_cases hkey : key = ino
    · rw [hkey, Function.update_self]
    · rw [Function.update_of_ne hkey]
      apply h.other
      intro f hf
      apply hother
      rw [hfiles, FiniteMap.get_erase, if_neg hkey]
      exact hf

/-- A file that is in the cache under its new contents and has their size. -/
theorem change {l : List UInt8} {g : ByteFile → ByteFile} {size : UInt64}
    (hcached : ∀ key, fs'.cache.contents key
      = if key = ino then some l else fs.cache.contents key)
    (hattr : ∀ key, (fs'.files.get key).map VexFile.attr = if key = ino then
      (fs.files.get key).map fun f => { f.attr with size }
      else (fs.files.get key).map VexFile.attr)
    (hnew : ∀ old, fs.cache.contents ino = some old → old.length ≤ Session.maxCapacity →
      size.toNat = l.length ∧ l.length ≤ Session.maxCapacity ∧ g (.ofList old) = .ofList l)
    (h : Resident fs m) :
  Resident fs' (Function.update m ino ((m ino).map g))
  := by
  constructor
  · intro key f' hf' hkind
    have hback := (hattr key).symm
    rw [hf'] at hback
    by_cases hkey : key = ino
    · subst hkey
      rw [if_pos rfl] at hback
      obtain ⟨f, hf, heq⟩ := Option.map_eq_some_iff.mp hback
      have hkind' : f.attr.kind = .regularFile := by
        rw [← hkind, ← heq]
      obtain ⟨old, hold, hm, -, hshort⟩ := h.regular key f hf hkind'
      obtain ⟨hsize, hcapacity, hg⟩ := hnew old hold hshort
      refine ⟨l, ?_, ?_, ?_, hcapacity⟩
      · rw [hcached, if_pos rfl]
      · rw [Function.update_self, hm, Option.map_some]
        exact congrArg some hg
      · rw [← heq]
        exact hsize
    · rw [if_neg hkey] at hback
      obtain ⟨f, hf, heq⟩ := Option.map_eq_some_iff.mp hback
      rw [← heq] at hkind ⊢
      rw [hcached, if_neg hkey, Function.update_of_ne hkey]
      exact h.regular key f hf hkind
  · intro key hother
    have hnone : m key = none := by
      apply h.other
      intro f hf hkind
      have hthere := hattr key
      rw [hf] at hthere
      split at hthere
      · obtain ⟨f', hf', heq⟩ := Option.map_eq_some_iff.mp hthere
        exact hother f' hf' (heq ▸ hkind)
      · obtain ⟨f', hf', heq⟩ := Option.map_eq_some_iff.mp hthere
        exact hother f' hf' (heq ▸ hkind)
    by_cases hkey : key = ino
    · rw [hkey, Function.update_self, ← hkey, hnone, Option.map_none]
    · rw [Function.update_of_ne hkey, hnone]

end Resident

/-! ### Bytes -/

namespace Session

omit [Crc32] [Zstd]

theorem length_resize (l : List UInt8) (n : ℕ) :
  (resize l n).length = n
  := by
  simp only [resize, Bytes.zeros, List.length_append, List.length_take, List.length_replicate]
  omega

theorem getD_resize (l : List UInt8) (n i : ℕ) :
  (resize l n).getD i 0 = if i < n then l.getD i 0 else 0
  := by
  by_cases hi : i < n
  · rw [if_pos hi, resize, Bytes.zeros]
    by_cases hl : i < l.length
    · rw [List.getD_append _ _ _ _ (by simp; omega)]
      simp [List.getD_eq_getElem?_getD, hi]
    · rw [List.getD_append_right _ _ _ _ (by simp; omega), List.getD_eq_default l _ (by omega)]
      simp only [List.getD_eq_getElem?_getD, List.getElem?_replicate]
      split <;> rfl
  · rw [if_neg hi, List.getD_eq_default _ _ (by rw [length_resize]; omega)]

theorem ofList_resize (l : List UInt8) (n : ℕ) :
  ByteFile.ofList (resize l n) = (ByteFile.ofList l).truncate n
  := by
  apply ByteFile.ext
  · exact length_resize l n
  · funext i
    exact getD_resize l n i

theorem length_overwrite (l : List UInt8) (offset : ℕ) (data : List UInt8) :
  (overwrite l offset data).length = max l.length (offset + data.length)
  := by
  unfold overwrite
  dsimp only
  split
  · rw [List.length_append, List.length_append, List.length_take, List.length_drop, length_resize]
    omega
  · rw [List.length_append, List.length_append, List.length_take, List.length_drop]
    omega

theorem ofList_overwrite (l : List UInt8) (offset : ℕ) (data : List UInt8) :
  ByteFile.ofList (overwrite l offset data) = (ByteFile.ofList l).write offset data
  := by
  apply ByteFile.ext
  · exact length_overwrite l offset data
  · funext i
    -- filling up with zeros changes no byte
    have hfilled : overwrite l offset data = (if l.length < offset + data.length then
        resize l (offset + data.length) else l).take offset ++ data
        ++ (if l.length < offset + data.length then
          resize l (offset + data.length) else l).drop (offset + data.length) := rfl
    generalize hl' : (if l.length < offset + data.length then
        resize l (offset + data.length) else l) = l' at hfilled
    have hlength : offset + data.length ≤ l'.length := by
      rw [← hl']
      split
      · rw [length_resize]
      · omega
    have hbyte : ∀ j, l'.getD j 0 = if j < offset + data.length ∨ l.length ≥ offset + data.length
        then l.getD j 0 else 0 := by
      intro j
      rw [← hl']
      split
      · next hshort =>
        rw [getD_resize]
        simp only [Nat.not_le.mpr hshort, or_false]
      · next hlong =>
        rw [if_pos (Or.inr (by omega))]
    show (overwrite l offset data).getD i 0
      = if offset ≤ i ∧ i < offset + data.length then data.getD (i - offset) 0 else l.getD i 0
    rw [hfilled]
    have htake : (l'.take offset).length = offset := by
      rw [List.length_take]
      omega
    by_cases hlow : i < offset
    · rw [if_neg (by omega), List.append_assoc, List.getD_append _ _ _ _ (by omega)]
      have hi := hbyte i
      rw [if_pos (Or.inl (by omega))] at hi
      rw [← hi]
      simp [List.getD_eq_getElem?_getD, hlow]
    by_cases hmid : i < offset + data.length
    · rw [if_pos ⟨by omega, hmid⟩, List.append_assoc, List.getD_append_right _ _ _ _ (by omega),
        htake, List.getD_append _ _ _ _ (by omega)]
    · rw [if_neg (by omega), List.getD_append_right _ _ _ _ (by simp; omega)]
      have hi := hbyte i
      have hsum : offset + data.length + (i - (l'.take offset ++ data).length) = i := by
        rw [List.length_append, htake]
        omega
      rw [List.getD_eq_getElem?_getD, List.getElem?_drop, hsum, ← List.getD_eq_getElem?_getD, hi]
      split
      · rfl
      · next hnot => exact (List.getD_eq_default l 0 (by omega)).symm

/-- A read returns the bytes of its interval. -/
theorem sliceOf_eq (l : List UInt8) (offset : Int64) (size : UInt32) :
  sliceOf l offset size = (ByteFile.ofList l).read offset.toUInt64.toNat size.toNat
  := by
  rw [ByteFile.read_ofList]
  unfold sliceOf
  dsimp only
  obtain hle | hlt := Nat.le_total l.length offset.toUInt64.toNat
  · rw [List.drop_eq_nil_of_le, List.drop_eq_nil_of_le]
    · rw [List.length_take]
      omega
    · rw [List.length_take]
      omega
  · have hstart : min offset.toUInt64.toNat l.length = offset.toUInt64.toNat := by omega
    rw [hstart, ← List.take_eq_take_min]

end Session

/-! ### Operations -/

namespace Resident

variable {s s₀ s' : Session} {env : Env} {reply : Reply} {m : Contents} {ino : UInt64}

/-- A file gets new contents and their size. -/
theorem insert {l : List UInt8} {g : ByteFile → ByteFile} {size : UInt64}
    (hbefore : SameContents s₀.fs s.fs)
    (hafter : SameContents (s.perform (.setSize ino size)).fs s'.fs)
    (hnothing : EvictsNothing (s'.cacheInsert env ino l).log)
    (hnew : ∀ old, s₀.fs.cache.contents ino = some old → old.length ≤ Session.maxCapacity →
      size.toNat = l.length ∧ l.length ≤ Session.maxCapacity ∧ g (.ofList old) = .ofList l)
    (h : Resident s₀.fs m) :
  Resident (s'.cacheInsert env ino l).fs (Function.update m ino ((m ino).map g))
  := by
  obtain ⟨hcontents, hattrs⟩ := Session.cacheInsert_contents env ino l hnothing
  apply h.change _ _ hnew
  · intro key
    rw [hcontents, hafter.cached]
    show (if key = ino then _ else s.fs.cache.contents key) = _
    rw [hbefore.cached]
  · intro key
    rw [hattrs, hafter.attr]
    show ((s.fs.files.modify ino fun f => { f with attr := { f.attr with size }, dirty := true
      }).get key).map VexFile.attr = _
    have hsame := hbefore.attr key
    rw [FiniteMap.get_modify]
    split
    · next hkey =>
      subst hkey
      rw [Option.map_map]
      have hcomp := congrArg (Option.map fun a : FileAttr => { a with size }) hsame
      rw [Option.map_map, Option.map_map] at hcomp
      exact hcomp
    · exact hsame

/-- Operations that only flush. -/
theorem keeps (hkeeps : Session.Performs Call.KeepsContents s s') (h : Resident s.fs m) :
  Resident s'.fs m
  := h.same hkeeps.sameContents

theorem write {offset : Int64} {data : List UInt8}
    (hexec : s.write env ino offset data = .ok (reply, s')) (hnothing : EvictsNothing s'.log)
    (h : Resident s.fs m) :
  Resident s'.fs (((Request.write ino offset data).effect s.fs reply).apply m)
  := by
  unfold Session.write at hexec
  dsimp only at hexec
  split at hexec
  · next hvirtual =>
    cases hexec
    rw [Request.effect, if_pos hvirtual]
    exact h
  split at hexec
  · cases hexec
    exact h
  split at hexec
  · cases hexec
  split at hexec
  · cases hexec
  next hvirtual _ f hf _ hcapacity =>
  cases hexec
  rw [Request.effect, if_neg hvirtual]
  let content := Session.overwrite ((s.fs.cache.contents ino).getD []) offset.toUInt64.toNat data
  have hnew : ∀ old, s.fs.cache.contents ino = some old → old.length ≤ Session.maxCapacity →
      (UInt64.ofNat content.length).toNat = content.length
        ∧ content.length ≤ Session.maxCapacity
        ∧ (ByteFile.ofList old).write offset.toUInt64.toNat data = .ofList content := by
    intro old hold hshort
    have hcontent : content = Session.overwrite old offset.toUInt64.toNat data := by
      show Session.overwrite ((s.fs.cache.contents ino).getD []) _ _ = _
      rw [hold]
      rfl
    have hlength : content.length ≤ Session.maxCapacity := by
      rw [hcontent, Session.length_overwrite]
      exact max_le hshort (by omega)
    refine ⟨?_, hlength, ?_⟩
    · apply UInt64.toNat_ofNat_of_lt'
      exact hlength.trans_lt (by decide)
    · rw [hcontent, Session.ofList_overwrite]
  let looked := s.perform (.cacheGet ino)
  let before := if offset = 0 ∧ (s.fs.cache.contents ino).getD [] ≠ [] then
    looked.perform (.takeSnapshot ino ((s.fs.cache.contents ino).getD []) env.takenAt
      env.recordedAt) else looked
  have hlooked : Session.Performs Call.KeepsContents s looked :=
    Session.Performs.refl.perform trivial
  have hbefore : Session.Performs Call.KeepsContents s before := by
    show Session.Performs Call.KeepsContents s (ite _ _ _)
    split
    · exact hlooked.perform trivial
    · exact hlooked
  let sized := before.perform (.setSize ino (UInt64.ofNat content.length))
  have hafter : Session.Performs Call.KeepsContents sized
      (if offset = 0 ∧ (s.fs.cache.contents ino).getD [] ≠ [] then
        sized.perform (.maybeGcSnapshots env.snapshotOrder) else sized) := by
    split
    · exact Session.Performs.refl.perform trivial
    · exact .refl
  exact h.insert hbefore.sameContents hafter.sameContents hnothing hnew

theorem setattr {size : Option UInt64} (hexec : s.setattr env ino size = .ok (reply, s'))
    (hnothing : EvictsNothing s'.log) (h : Resident s.fs m) :
  Resident s'.fs (((Request.setattr ino size).effect s.fs reply).apply m)
  := by
  unfold Session.setattr at hexec
  split at hexec
  · cases hexec
    cases size <;> exact h
  split at hexec
  · cases hexec
    cases size <;> exact h
  next f hf =>
  split at hexec
  · cases hexec
    exact h
  next size _ =>
  split at hexec
  · next hsize =>
    cases hexec
    have hsame : (m ino).map (fun b => b.truncate size.toNat) = m ino := by
      by_cases hkind : f.attr.kind = .regularFile
      · obtain ⟨l, -, hm, hlength, -⟩ := h.regular ino f hf hkind
        rw [hm, Option.map_some, hsize, hlength]
        exact congrArg some (ByteFile.truncate_size (.ofList l))
      · have hnone : m ino = none := h.other ino fun f' hf' => by
          rw [hf] at hf'
          exact Option.some.inj hf' ▸ hkind
        rw [hnone, Option.map_none]
    show Resident s.fs (Function.update m ino ((m ino).map fun b => b.truncate size.toNat))
    rw [hsame, Function.update_eq_self]
    exact h
  dsimp only at hexec
  split at hexec
  · cases hexec
  split at hexec
  · cases hexec
  next hcapacity =>
  cases hexec
  let content := Session.resize ((s.fs.cache.contents ino).getD []) size.toNat
  have hnew : ∀ old, s.fs.cache.contents ino = some old → old.length ≤ Session.maxCapacity →
      size.toNat = content.length ∧ content.length ≤ Session.maxCapacity
        ∧ (ByteFile.ofList old).truncate size.toNat = .ofList content := by
    intro old hold _
    have hlength : content.length = size.toNat := Session.length_resize _ _
    refine ⟨hlength.symm, ?_, ?_⟩
    · rw [hlength]
      exact Nat.not_lt.mp hcapacity
    · rw [← Session.ofList_resize]
      show _ = ByteFile.ofList (Session.resize ((s.fs.cache.contents ino).getD []) size.toNat)
      rw [hold]
      rfl
  let before := (s.perform (.cacheGet ino)).perform
    (.takeSnapshot ino ((s.fs.cache.contents ino).getD []) env.takenAt env.recordedAt)
  have hbefore : Session.Performs Call.KeepsContents s before :=
    (Session.Performs.refl.perform trivial).perform trivial
  let sized := before.perform (.setSize ino size)
  have hafter : Session.Performs Call.KeepsContents sized
      (sized.perform (.maybeGcSnapshots env.snapshotOrder)) :=
    Session.Performs.refl.perform trivial
  exact h.insert hbefore.sameContents hafter.sameContents hnothing hnew

omit [Zstd] in
/-- The files and their attributes when an entry was added. -/
theorem attr_addEntry {fs : VexFS} {i : ℕ} (halloc : fs.disk.allocInode.1 = some i)
    (parent : UInt64) (name : String) (isDir : Bool) :
  (fs.addEntry parent name isDir).cache = fs.cache
    ∧ ∀ key, ((fs.addEntry parent name isDir).files.get key).map VexFile.attr
      = if key = fs.nextInode then some (makeAttr fs.nextInode 0 isDir)
        else (fs.files.get key).map VexFile.attr
  := by
  have hboth : fs.disk.allocInode = (some i, fs.disk.allocInode.2) := Prod.ext halloc rfl
  rw [VexFS.addEntry_of_some hboth]
  use rfl
  intro key
  dsimp only
  rw [FiniteMap.get_insert]
  split <;> rfl

theorem create {parent : UInt64} {name : String}
    (hexec : s.create env parent name = .ok (reply, s')) (hnothing : EvictsNothing s'.log)
    (h : Resident s.fs m) :
  Resident s'.fs (((Request.create parent name).effect s.fs reply).apply m)
  := by
  unfold Session.create at hexec
  split at hexec
  · cases hexec
    exact h
  split at hexec
  · cases hexec
    exact h
  split at hexec
  · next halloc =>
    cases hexec
    apply h.same
    show SameContents s.fs (s.fs.addEntry parent name false)
    rw [VexFS.Tree.addEntry_of_none halloc]
    exact ⟨rfl, fun _ => rfl⟩
  next i halloc =>
  split at hexec
  · cases hexec
  cases hexec
  obtain ⟨hcache, hattrs⟩ := attr_addEntry halloc parent name false
  let inserted := (s.perform (.addEntry parent name false)).cacheInsert env s.fs.nextInode []
  have hwritten : Session.Performs Call.KeepsContents inserted (inserted.perform
      (.writeNewInode s.fs.nextInode env.createdAt env.modifiedAt)) :=
    Session.Performs.refl.perform trivial
  have hinserted : EvictsNothing inserted.log := fun fs ino data hmem =>
    hnothing fs ino data (hwritten.log_extends.subset hmem)
  obtain ⟨hcontents, hsame⟩ := Session.cacheInsert_contents env s.fs.nextInode [] hinserted
  apply (h.created _ _).keeps hwritten
  · intro key
    rw [hcontents]
    show (if key = s.fs.nextInode then _ else (s.fs.addEntry parent name false).cache.contents key)
      = if key = s.fs.nextInode then _ else _
    rw [hcache]
  · intro key
    rw [hsame]
    exact hattrs key

theorem mkdir {parent : UInt64} {name : String} (hbelow : s.fs.FilesBelow)
    (hexec : s.mkdir env parent name = .ok (reply, s')) (h : Resident s.fs m) :
  Resident s'.fs (((Request.mkdir parent name).effect s.fs reply).apply m)
  := by
  have heffect : (Request.mkdir parent name).effect s.fs reply = .none := by
    cases reply <;> rfl
  rw [heffect]
  unfold Session.mkdir at hexec
  split at hexec
  · cases hexec
    exact h
  split at hexec
  · cases hexec
    exact h
  split at hexec
  · next halloc =>
    cases hexec
    apply h.same
    show SameContents s.fs (s.fs.addEntry parent name true)
    rw [VexFS.Tree.addEntry_of_none halloc]
    exact ⟨rfl, fun _ => rfl⟩
  next i halloc =>
  split at hexec
  · cases hexec
  cases hexec
  obtain ⟨hcache, hattrs⟩ := attr_addEntry halloc parent name true
  have hfree : s.fs.files.get s.fs.nextInode = none := by
    apply Option.eq_none_iff_forall_ne_some.mpr
    intro f hf
    exact lt_irrefl _ (hbelow _ (Option.isSome_of_eq_some hf))
  have hadded : Resident (s.perform (.addEntry parent name true)).fs m :=
    h.madeDir (congrArg FileCache.contents hcache) hattrs hfree
  exact hadded.keeps ((Session.Performs.refl.perform trivial).perform trivial)

omit [Zstd] in
/-- Removing an entry without a file changes nothing but the index. -/
theorem sameContents_unlink {fs : VexFS} {parent : UInt64} {name : String}
    (h : fs.target parent name = none) :
  SameContents fs (fs.unlink parent name) ∧ SameContents fs (fs.rmdir parent name)
  := by
  have hfiles := fs.files_unlink parent name
  have hfiles' := fs.files_rmdir parent name
  rw [h, Option.map_none, Option.getD_none] at hfiles hfiles'
  rw [VexFS.target, Index.get_eq, ← Index.fst_remove] at h
  constructor
  · refine ⟨?_, fun ino => by rw [hfiles]⟩
    rw [VexFS.unlink]
    split
    · rfl
    · next val index hremove =>
      rw [hremove] at h
      rw [Option.map_eq_none_iff.mp h]
  · refine ⟨?_, fun ino => by rw [hfiles']⟩
    rw [VexFS.rmdir]
    split
    · rfl
    · split <;> rfl

omit [Zstd] in
/-- Removing a file takes at most its own contents out of the cache. -/
theorem contents_unlink {fs : VexFS} {parent : UInt64} {name : String} {val : Value}
    {f : VexFile} (h : fs.target parent name = some (val, f)) {key : UInt64}
    (hne : key ≠ val.ino) :
  (fs.unlink parent name).cache.contents key = fs.cache.contents key
    ∧ (fs.rmdir parent name).cache.contents key = fs.cache.contents key
  := by
  obtain ⟨hval, hf⟩ := VexFS.get_of_target h
  rw [Index.get_eq, ← Index.fst_remove] at hval
  constructor
  · rw [VexFS.unlink]
    split
    · rfl
    next val' index hremove =>
    rw [hremove] at hval
    obtain rfl := Option.some.inj hval
    rw [hf]
    dsimp only
    rw [FileCache.contents_remove, if_neg hne]
  · rw [VexFS.rmdir]
    split
    · rfl
    · split <;> rfl

theorem unlink (parent : UInt64) (name : String) (h : Resident s.fs m) :
  let result := s.unlink parent name
  Resident result.2.fs (((Request.unlink parent name).effect s.fs result.1).apply m)
  := by
  intro result
  cases htarget : s.fs.target parent name with
  | none =>
      have hfs : result.2.fs = s.fs.unlink parent name := by
        show (s.unlink parent name).2.fs = _
        unfold Session.unlink
        split
        · rfl
        · split <;> rfl
      have heffect : (Request.unlink parent name).effect s.fs result.1 = .none := by
        cases result.1 <;> try rfl
        rw [Request.effect, htarget]
      rw [hfs, heffect]
      exact h.same (sameContents_unlink htarget).1
  | some t =>
      obtain ⟨val, f⟩ := t
      obtain ⟨hval, hf⟩ := VexFS.get_of_target htarget
      have hresult : result = (.ok, s.perform (.unlink parent name)) := by
        show s.unlink parent name = _
        unfold Session.unlink
        rw [hval]
        dsimp only
        rw [hf]
        rfl
      rw [hresult, Request.effect, htarget]
      apply h.removed (fun key hne => (contents_unlink htarget hne).1)
      show (s.fs.unlink parent name).files = _
      rw [VexFS.files_unlink, htarget]
      rfl

theorem rmdir (parent : UInt64) (name : String) (h : Resident s.fs m) :
  let result := s.rmdir parent name
  Resident result.2.fs (((Request.rmdir parent name).effect s.fs result.1).apply m)
  := by
  intro result
  have hkept : ∀ errno, result = (.error errno, s) →
      Resident result.2.fs (((Request.rmdir parent name).effect s.fs result.1).apply m) := by
    intro errno hresult
    rw [hresult]
    exact h
  cases htarget : s.fs.target parent name with
  | none =>
      have hfs : SameContents s.fs result.2.fs := by
        show SameContents s.fs (s.rmdir parent name).2.fs
        unfold Session.rmdir
        split
        · exact .refl _
        split
        · exact .refl _
        split
        · exact .refl _
        · split <;> exact (sameContents_unlink htarget).2
      have heffect : (Request.rmdir parent name).effect s.fs result.1 = .none := by
        cases result.1 <;> try rfl
        rw [Request.effect, htarget]
      rw [heffect]
      exact h.same hfs
  | some t =>
      obtain ⟨val, f⟩ := t
      obtain ⟨hval, hf⟩ := VexFS.get_of_target htarget
      by_cases hdir : val.isDir = true
      · by_cases hempty : s.fs.index.listDir val.ino = []
        · have hresult : result = (.ok, s.perform (.rmdir parent name)) := by
            show s.rmdir parent name = _
            unfold Session.rmdir
            rw [hval]
            dsimp only
            rw [hdir, hf, if_neg (by simp), if_neg (not_not.mpr hempty)]
            rfl
          rw [hresult, Request.effect, htarget]
          apply h.removed (fun key hne => (contents_unlink htarget hne).2)
          show (s.fs.rmdir parent name).files = _
          rw [VexFS.files_rmdir, htarget]
          rfl
        · apply hkept .enotempty
          show s.rmdir parent name = _
          unfold Session.rmdir
          rw [hval]
          dsimp only
          rw [hdir, if_neg (by simp), if_pos hempty]
      · apply hkept .enotdir
        show s.rmdir parent name = _
        unfold Session.rmdir
        rw [hval]
        dsimp only
        rw [if_pos (by simpa using hdir)]

theorem rename (env : Env) (parent : UInt64) (name : String) (newparent : UInt64)
    (newname : String) (h : Resident s.fs m) :
  let result := s.rename env parent name newparent newname
  Resident result.2.fs
    (((Request.rename parent name newparent newname).effect s.fs result.1).apply m)
  := by
  intro result
  have heffect : (Request.rename parent name newparent newname).effect s.fs result.1 = .none := by
    cases result.1 <;> rfl
  rw [heffect]
  apply h.keeps
  show Session.Performs Call.KeepsContents s (s.rename env parent name newparent newname).2
  unfold Session.rename
  split
  · exact .refl
  split
  · exact .refl
  · exact Session.Performs.refl.perform trivial

theorem read (s : Session) (env : Env) (ino : UInt64) (offset : Int64) (size : UInt32) :
  let result := s.read env ino offset size
  EvictsNothing result.2.log → Resident s.fs m →
    Resident result.2.fs (((Request.read ino offset size).effect s.fs result.1).apply m)
  := by
  intro result hnothing h
  have heffect : (Request.read ino offset size).effect s.fs result.1 = .none := by
    cases result.1 <;> rfl
  rw [heffect]
  show Resident (s.read env ino offset size).2.fs m
  change EvictsNothing (s.read env ino offset size).2.log at hnothing
  unfold Session.read at hnothing ⊢
  split at hnothing
  · next hvirtual =>
    rw [if_pos hvirtual]
    exact h
  next hvirtual =>
  rw [if_neg hvirtual]
  split at hnothing
  · next hf =>
    exact h
  next f hf =>
  have hlooked : Resident (s.perform (.cacheGet ino)).fs m :=
    h.keeps (Session.Performs.refl.perform trivial)
  split at hnothing
  · next data hcached => exact hlooked
  next hcached =>
  -- only a directory is not in the cache
  have hdir : ∀ f, s.fs.files.get ino = some f → f.attr.kind ≠ .regularFile := by
    intro f hf hkind
    obtain ⟨l, hl, -⟩ := h.regular ino f hf hkind
    cases hcached.symm.trans hl
  obtain ⟨hcontents, hattrs⟩ := Session.cacheInsert_contents env ino _ hnothing
  apply h.congr
  · intro key g hg hkind
    have hne : key ≠ ino := by
      rintro rfl
      exact hdir g hg hkind
    rw [hcontents, if_neg hne]
    exact congrFun (FileCache.contents_get s.fs.cache ino) key
  · exact hattrs

end Resident

/-! ### Sessions -/

/-- Every operation keeps the contents resident that it defines. -/
theorem Resident.exec {s s' : Session} {env : Env} {request : Request} {reply : Reply}
    {m : Contents} (hbelow : s.fs.FilesBelow) (hexec : s.exec env request = .ok (reply, s'))
    (hnothing : EvictsNothing s'.log) (h : Resident s.fs m) :
  Resident s'.fs ((request.effect s.fs reply).apply m)
  := by
  let t := s.perform (.request request)
  have ht : Resident t.fs m := h
  cases request with
  | create parent name =>
      have hcreate : t.create env parent name = .ok (reply, s') := hexec
      exact Resident.create (s := t) hcreate hnothing ht
  | mkdir parent name =>
      have hmkdir : t.mkdir env parent name = .ok (reply, s') := hexec
      exact Resident.mkdir (s := t) hbelow hmkdir ht
  | write ino offset data =>
      have hwrite : t.write env ino offset data = .ok (reply, s') := hexec
      exact Resident.write (s := t) hwrite hnothing ht
  | setattr ino size =>
      have hsetattr : t.setattr env ino size = .ok (reply, s') := hexec
      exact Resident.setattr (s := t) hsetattr hnothing ht
  | unlink parent name =>
      have hunlink : t.unlink parent name = (reply, s') := Except.ok.inj hexec
      have hafter := Resident.unlink parent name (s := t) ht
      rw [hunlink] at hafter
      exact hafter
  | rmdir parent name =>
      have hrmdir : t.rmdir parent name = (reply, s') := Except.ok.inj hexec
      have hafter := Resident.rmdir parent name (s := t) ht
      rw [hrmdir] at hafter
      exact hafter
  | rename parent name newparent newname =>
      have hrename : t.rename env parent name newparent newname = (reply, s') :=
        Except.ok.inj hexec
      have hafter := Resident.rename env parent name newparent newname (s := t) ht
      rw [hrename] at hafter
      exact hafter
  | read ino offset size =>
      have hread : t.read env ino offset size = (reply, s') := Except.ok.inj hexec
      have hafter := Resident.read t env ino offset size (m := m)
      rw [hread] at hafter
      exact hafter hnothing ht
  | flush ino =>
      obtain ⟨rfl, rfl⟩ := Prod.mk.inj (Except.ok.inj hexec)
      exact ht.keeps (Session.flushFile_keepsContents t env ino)
  | fsync ino =>
      obtain ⟨rfl, rfl⟩ := Prod.mk.inj (Except.ok.inj hexec)
      exact ht.keeps (Session.flushFile_keepsContents t env ino)
  | release ino =>
      obtain ⟨rfl, rfl⟩ := Prod.mk.inj (Except.ok.inj hexec)
      exact ht
  | destroy =>
      obtain ⟨rfl, rfl⟩ := Prod.mk.inj (Except.ok.inj hexec)
      exact ht.keeps (Session.persistAll_keepsContents t env _)

/-- In a session in which nothing was evicted, the contents that the operations define are in the
cache. -/
theorem Defines.resident {start : VexFS} {s : Session} {m : Contents} (h : Defines start s m)
    (hfiles : ∀ ino, start.files.get ino = none) (hnothing : EvictsNothing s.log) :
  s.fs.FilesBelow ∧ Resident s.fs m
  := by
  induction h with
  | start =>
      constructor
      · intro ino hsome
        rw [hfiles] at hsome
        cases hsome
      · constructor
        · intro ino f hf hkind
          cases (hfiles ino).symm.trans hf
        · exact fun _ _ => rfl
  | exec env request hdefines hexec ih =>
      have hbefore : EvictsNothing _ := fun fs ino data hmem =>
        hnothing fs ino data ((Session.log_extends_exec hexec).subset
          (List.mem_append_left _ hmem))
      obtain ⟨hbelow, hresident⟩ := ih hbefore
      exact ⟨hbelow.exec hexec, hresident.exec hbelow hexec hnothing⟩

/-- A read of a file whose contents are resident replies with the bytes of its interval. -/
theorem Resident.exec_read {s s' : Session} {m : Contents} {env : Env} {ino : UInt64}
    {offset : Int64} {size : UInt32} {reply : Reply} {content : ByteFile}
    (h : Resident s.fs m) (hcontent : m ino = some content) (hvirtual : ¬ isVirtual ino)
    (hexec : s.exec env (.read ino offset size) = .ok (reply, s')) :
  reply = .data (content.read offset.toUInt64.toNat size.toNat)
  := by
  have hregular : ∃ f, s.fs.files.get ino = some f ∧ f.attr.kind = .regularFile := by
    by_contra hnone
    have hother := h.other ino fun f hf hkind => hnone ⟨f, hf, hkind⟩
    cases hother.symm.trans hcontent
  obtain ⟨f, hf, hkind⟩ := hregular
  obtain ⟨l, hcached, hdefined, -⟩ := h.regular ino f hf hkind
  obtain rfl := Option.some.inj (hdefined.symm.trans hcontent)
  let t := s.perform (.request (.read ino offset size))
  have hread : t.read env ino offset size = (reply, s') := Except.ok.inj hexec
  have hf' : t.fs.files.get ino = some f := hf
  have hcached' : t.fs.cache.contents ino = some l := hcached
  unfold Session.read at hread
  rw [if_neg hvirtual, hf'] at hread
  dsimp only at hread
  rw [hcached'] at hread
  dsimp only at hread
  rw [← (Prod.mk.inj hread).1, Session.sliceOf_eq]

/-- In every session of a fresh disk in which no insertion into the cache evicted anything, a
read of a regular file replies with the bytes of its interval as the operations before defined
them: as created, written to and truncated since. -/
theorem reads_latest {image : Image} {sizeBytes time : UInt64} {s s' : Session} {m : Contents}
    {env : Env} {ino : UInt64} {offset : Int64} {size : UInt32} {reply : Reply}
    {content : ByteFile}
    (h : Defines (VexFS.new (DiskManager.format image sizeBytes time)) s m)
    (hnothing : EvictsNothing s.log) (hvirtual : ¬ isVirtual ino)
    (hcontent : m ino = some content)
    (hexec : s.exec env (.read ino offset size) = .ok (reply, s')) :
  reply = .data (content.read offset.toUInt64.toNat size.toNat)
  := (h.resident (fun _ => rfl) hnothing).2.exec_read hcontent hvirtual hexec

/-! ### Reading back -/

omit [Crc32] [Zstd] in
/-- The effects on a file. -/
def Effect.Concerns (ino : UInt64) : Effect → Prop
  | .none => False
  | .create i | .remove i | .write i _ _ | .truncate i _ => i = ino

omit [Crc32] [Zstd] in
theorem Effect.apply_of_not_concerns {ino : UInt64} {e : Effect} (h : ¬ e.Concerns ino)
    (m : Contents) :
  e.apply m ino = m ino
  := by
  cases e with
  | none => rfl
  | create i => exact Function.update_of_ne (Ne.symm h) _ _
  | remove i => exact Function.update_of_ne (Ne.symm h) _ _
  | write i offset data => exact Function.update_of_ne (Ne.symm h) _ _
  | truncate i size => exact Function.update_of_ne (Ne.symm h) _ _

/-- The sessions that go on from one by operations without an effect on a file. -/
inductive RunsApart (ino : UInt64) (s : Session) : Session → Prop where
  | refl : RunsApart ino s s
  | exec {s' s'' : Session} {reply : Reply} (env : Env) (request : Request)
      (h : RunsApart ino s s') (hexec : s'.exec env request = .ok (reply, s''))
      (hapart : ¬ (request.effect s'.fs reply).Concerns ino) : RunsApart ino s s''

/-- They leave what is defined for the file. -/
theorem Defines.runsApart {start : VexFS} {s s' : Session} {m : Contents} {ino : UInt64}
    (h : Defines start s m) (hruns : RunsApart ino s s') :
  ∃ m', Defines start s' m' ∧ m' ino = m ino
  := by
  induction hruns with
  | refl => exact ⟨m, h, rfl⟩
  | exec env request _ hexec hapart ih =>
      obtain ⟨m', hdefines, heq⟩ := ih
      exact ⟨_, hdefines.exec env request hexec,
        (Effect.apply_of_not_concerns hapart m').trans heq⟩

theorem RunsApart.log_extends {s s' : Session} {ino : UInt64} (h : RunsApart ino s s') :
  s.log <+: s'.log
  := by
  induction h with
  | refl => exact List.prefix_refl _
  | exec env request _ hexec _ ih =>
      exact ih.trans ((List.prefix_append _ _).trans (Session.log_extends_exec hexec))

/-- The operations of every session define contents. -/
theorem Reachable.defines {start : VexFS} {s : Session} (h : Reachable start s) :
  ∃ m, Defines start s m
  := by
  induction h with
  | start => exact ⟨_, .start⟩
  | exec env request _ hexec ih =>
      obtain ⟨m, hm⟩ := ih
      exact ⟨_, hm.exec env request hexec⟩

/-- In every session of a fresh disk, what was written to a regular file is read back, after any
operations that do not write to the file, truncate or remove it, as long as no insertion into
the cache evicted anything. -/
theorem reads_back {image : Image} {sizeBytes time : UInt64} {s s₁ s₂ s₃ : Session}
    {env env' : Env} {ino : UInt64} {f : VexFile} {offset : Int64} {data : List UInt8}
    {n : UInt32} {reply : Reply} (h : FreshSession image sizeBytes time s)
    (hf : s.fs.files.get ino = some f) (hkind : f.attr.kind = .regularFile)
    (hvirtual : ¬ isVirtual ino) (hlength : data.length < 2 ^ 32)
    (hwrite : s.exec env (.write ino offset data) = .ok (.written n, s₁))
    (hruns : RunsApart ino s₁ s₂) (hnothing : EvictsNothing s₂.log)
    (hread : s₂.exec env' (.read ino offset (UInt32.ofNat data.length)) = .ok (reply, s₃)) :
  reply = .data data
  := by
  obtain ⟨m, hm⟩ := h.reachable.defines
  have hbefore : EvictsNothing s.log := fun fs ino data hmem =>
    hnothing fs ino data (hruns.log_extends.subset ((Session.log_extends_exec hwrite).subset
      (List.mem_append_left _ hmem)))
  obtain ⟨l, -, hcontent, -⟩ := (hm.resident (fun _ => rfl) hbefore).2.regular ino f hf hkind
  have hm₁ := hm.exec env _ hwrite
  obtain ⟨m₂, hm₂, heq⟩ := hm₁.runsApart hruns
  have hnot : ¬ (ino = searchIno ∨ ino = askIno) := by
    rintro (rfl | rfl)
    · exact hvirtual (by decide)
    · exact hvirtual (by decide)
  rw [Request.effect, if_neg hnot, Effect.apply, Function.update_self, hcontent] at heq
  have hreply := (hm₂.resident (fun _ => rfl) hnothing).2.exec_read heq hvirtual hread
  have hsize : (UInt32.ofNat data.length).toNat = data.length := UInt32.toNat_ofNat_of_lt' hlength
  rw [hreply, hsize, ByteFile.read_write]

omit [Crc32] [Zstd] in
/-- Quiet pieces evict nothing. -/
theorem EvictsNothing.of_quiet {log : List (VexFS × Call)} (h : ∀ e ∈ log, e.2.Quiet e.1) :
  EvictsNothing log
  := fun _ _ _ hmem => (h _ hmem).evicts _ _ rfl

/-- In some session a file was made, three bytes were written to it, and it was flushed. -/
theorem exists_writtenFile :
  ∃ s s₁ s₂ f, FreshSession Image.empty 0 0 s ∧ s.fs.files.get 2 = some f
    ∧ f.attr.kind = .regularFile
    ∧ s.exec Env.still (.write 2 0 [7, 8, 9]) = .ok (.written 3, s₁)
    ∧ RunsApart 2 s₁ s₂ ∧ EvictsNothing s₂.log
  := by
  obtain ⟨s, i, hfirst, -, -, -, -, hquiet⟩ := exists_quietFirstFile
  have hexec₁ := Session.exec_write_of_empty Env.still (by decide) (by decide) hfirst.file
    hfirst.contents (hfirst.room.mono (Nat.zero_le _)) [7, 8, 9] (by decide)
  let s₁ := s.wrote 2 [7, 8, 9]
  have hcached₁ : s₁.fs.cache.contents 2 = some [7, 8, 9] := by
    rw [Session.contents_wrote hfirst.contents, if_pos rfl]
  obtain ⟨s₂, hexec₂, -, hlog₂, -⟩ := Session.exec_flush_of_dirty (s := s₁)
    (Session.files_wrote hfirst.file [7, 8, 9]) rfl hcached₁ hfirst.buffer
  refine ⟨s, s₁, s₂, firstFile i, hfirst.fresh, hfirst.file, rfl, hexec₁,
    .exec _ _ .refl hexec₂ id, .of_quiet ?_⟩
  have hroom : ((s.perform (.request (.write 2 0 [7, 8, 9]))).fs.cache.get 2).2.Room
      (([7, 8, 9] : List UInt8).length + 4093) := hfirst.room.get 2
  rw [hlog₂]
  simp only [s₁, Session.wrote, List.forall_mem_append, List.forall_mem_singleton,
    Session.forall_log_perform]
  exact ⟨⟨⟨⟨⟨⟨⟨hquiet, .of_kept id id⟩, .of_kept id id⟩, .of_kept id id⟩,
    .cachePut_of_room hroom 2⟩, .of_kept id id⟩, .of_kept id id⟩, .of_kept id id⟩

omit [Crc32] [Zstd] in
/-- Three bytes are read back after a flush. -/
theorem reads_back_three_bytes :
  let _ := Crc32.ieee
  let _ := Zstd.refusing
  ∃ s s₁ s₂ s₃, FreshSession Image.empty 0 0 s
    ∧ s.exec Env.still (.write 2 0 [7, 8, 9]) = .ok (.written 3, s₁) ∧ RunsApart 2 s₁ s₂
    ∧ s₂.exec Env.still (.read 2 0 3) = .ok (.data [7, 8, 9], s₃)
  := by
  intro _ _
  obtain ⟨s, s₁, s₂, f, hfresh, hf, hkind, hwrite, hruns, hnothing⟩ := exists_writtenFile
  obtain ⟨reply, s₃, hexec⟩ : ∃ reply s₃, s₂.exec Env.still (.read 2 0 3) = .ok (reply, s₃) :=
    ⟨_, _, rfl⟩
  have hreply := reads_back hfresh hf hkind (by decide) (by decide) hwrite hruns hnothing hexec
  exact ⟨s, s₁, s₂, s₃, hfresh, hwrite, hruns, hreply ▸ hexec⟩

omit [Crc32] [Zstd] in
/-- The contents of the file are those of the write. -/
theorem reads_latest_three_bytes :
  let _ := Crc32.ieee
  let _ := Zstd.refusing
  ∃ s s' m content,
    Defines (VexFS.new (DiskManager.format Image.empty 0 0)) s m ∧ m 2 = some content
    ∧ content.byte 1 = 8
    ∧ s.exec Env.still (.read 2 1 1) = .ok (.data (content.read 1 1), s')
  := by
  intro _ _
  obtain ⟨s, s₁, s₂, f, hfresh, hf, hkind, hwrite, hruns, hnothing⟩ := exists_writtenFile
  obtain ⟨m, hm⟩ := hfresh.reachable.defines
  have hbefore : EvictsNothing s.log := fun fs ino data hmem =>
    hnothing fs ino data (hruns.log_extends.subset ((Session.log_extends_exec hwrite).subset
      (List.mem_append_left _ hmem)))
  obtain ⟨l, -, hcontent, -⟩ := (hm.resident (fun _ => rfl) hbefore).2.regular 2 f hf hkind
  have hm₁ := hm.exec Env.still _ hwrite
  obtain ⟨m₂, hm₂, heq⟩ := hm₁.runsApart hruns
  rw [Request.effect, if_neg (by decide), Effect.apply, Function.update_self, hcontent] at heq
  obtain ⟨reply, s₃, hexec⟩ : ∃ reply s₃, s₂.exec Env.still (.read 2 1 1) = .ok (reply, s₃) :=
    ⟨_, _, rfl⟩
  have hreply := reads_latest hm₂ hnothing (by decide) heq hexec
  exact ⟨s₂, s₃, m₂, _, hm₂, heq, rfl, hreply ▸ hexec⟩

end Vexfs
