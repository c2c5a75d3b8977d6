import Vexfs.Fuse.Persisting

/-!
# What eviction saves

An insertion into the cache evicts entries, and some of their files are dirty.  Before it, the
eviction candidate of a full cache is persisted; after it, so are the other files that were
evicted, from the write buffer or from what the disk holds.  The latest contents of a file are
passed on in this way only when they wait in the buffer, or the file is the candidate, or the
disk has them already (`eviction_saves_iff`).
-/

namespace Vexfs

variable [Crc32] [Zstd]

/-! ### The latest contents -/

omit [Crc32] [Zstd] in
/-- Whether the write that waits for a file has its latest contents after a piece: it does when
the piece stages the file, and no more when the piece changes its contents, and with them its
size. -/
def Call.tracks (fs : VexFS) (ino : UInt64) (current : Bool) : Call → Bool
  | .stage ino' _ => current || (ino' == ino && (fs.files.get ino).any VexFile.dirty
      && (fs.cache.contents ino).isSome)
  | .setSize ino' _ => current && ino' != ino
  | _ => current

namespace Session

omit [Crc32] [Zstd] in
/-- Whether the write that waits for a file has its latest contents. -/
def waitsLatest (s : Session) (ino : UInt64) : Bool :=
  s.log.foldl (fun current e => e.2.tracks e.1 ino current) false

omit [Crc32] [Zstd] in
/-- The latest contents of a file: those in the cache, unless newer ones wait in the buffer. -/
def latest (s : Session) (ino : UInt64) : Option (List UInt8) :=
  match s.fs.writeBuffer.get ino with
  | none => s.fs.cache.contents ino
  | some w => if s.waitsLatest ino then some w.data else s.fs.cache.contents ino

end Session

/-! ### What is passed on -/

omit [Crc32] in
/-- In a log, some bytes are passed to `persist_to_disk` for a file before the file counts as
clean. -/
def PassesIn (k : UInt64) (bytes : List UInt8) : List (VexFS × Call) → Prop
  | [] => False
  | e :: log => (∃ pc, e.2.persistCall e.1 = some pc ∧ pc.ino = k ∧ pc.data = bytes)
      ∨ e.2 ≠ .clean k ∧ PassesIn k bytes log

omit [Crc32] in
/-- A piece does not persist a file and does not make it clean. -/
def Skips (k : UInt64) (e : VexFS × Call) : Prop :=
  e.2 ≠ .clean k ∧ ∀ pc, e.2.persistCall e.1 = some pc → pc.ino ≠ k

omit [Crc32] in
/-- In what one session adds to the log of another, some bytes are passed on for a file before
the file counts as clean. -/
def Session.Passes (s s' : Session) (k : UInt64) (bytes : List UInt8) : Prop :=
  PassesIn k bytes (s'.log.drop s.log.length)

omit [Crc32] in
theorem Session.passes_iff {s s' : Session} {k : UInt64} {bytes : List UInt8}
    {log : List (VexFS × Call)} (h : s'.log = s.log ++ log) :
  s.Passes s' k bytes ↔ PassesIn k bytes log
  := by
  rw [Passes, h, List.drop_left]

namespace PassesIn

omit [Crc32]

variable {k : UInt64} {bytes : List UInt8} {log log' : List (VexFS × Call)}
  {e : VexFS × Call} {pc : PersistCall}

theorem append_of_skips (hskips : ∀ e ∈ log, Skips k e) :
  PassesIn k bytes (log ++ log') ↔ PassesIn k bytes log'
  := by
  induction log with
  | nil => rfl
  | cons e log ih =>
      obtain ⟨⟨hclean, hnot⟩, hlog⟩ := List.forall_mem_cons.mp hskips
      rw [List.cons_append, PassesIn, ih hlog]
      constructor
      · rintro (⟨pc, hcall, hino, -⟩ | ⟨-, h⟩)
        · exact absurd hino (hnot pc hcall)
        · exact h
      · exact fun h => Or.inr ⟨hclean, h⟩

/-- Nothing is passed on before a file counts as clean when it does so first. -/
theorem not_clean (fs : VexFS) :
  ¬ PassesIn k bytes ((fs, .clean k) :: log)
  := by
  rintro (⟨pc, hcall, -⟩ | ⟨hne, -⟩)
  · cases hcall
  · exact hne rfl

/-- A file that is persisted and then counts as clean. -/
theorem persist_clean (hcall : e.2.persistCall e.1 = some pc) (hino : pc.ino = k) (fs : VexFS) :
  PassesIn k bytes (e :: (fs, .clean k) :: log) ↔ pc.data = bytes
  := by
  constructor
  · rintro (⟨pc', hcall', -, hdata⟩ | ⟨-, h⟩)
    · rw [hcall] at hcall'
      obtain rfl := Option.some.inj hcall'
      exact hdata
    · exact absurd h (not_clean fs)
  · exact fun hdata => Or.inl ⟨pc, hcall, hino, hdata⟩

/-- A file that is not persisted and then counts as clean. -/
theorem not_persist_clean (hcall : e.2.persistCall e.1 = none) (fs : VexFS) :
  ¬ PassesIn k bytes (e :: (fs, .clean k) :: log)
  := by
  rintro (⟨pc, hcall', -⟩ | ⟨-, h⟩)
  · rw [hcall] at hcall'
    cases hcall'
  · exact not_clean fs h

end PassesIn

/-! ### Pieces on other files -/

/-- The pieces around an insertion into the cache that are not on a file. -/
def Call.Spares (k : UInt64) : Call → Prop
  | .cachePut _ _ | .drainEvicted => True
  | .persistBuffered _ ino | .persistCached _ ino | .persistRecovered _ ino => ino ≠ k
  | .clean ino => ino ≠ k
  | _ => False

namespace Call.Spares

variable {fs : VexFS} {c : Call} {k : UInt64}

omit [Crc32] in
theorem skips (h : c.Spares k) (fs : VexFS) :
  Skips k (fs, c)
  := by
  constructor
  · rintro rfl
    exact h rfl
  · intro pc hcall
    obtain ⟨rfl, -⟩ | ⟨rfl, -⟩ | ⟨rfl, -⟩ := PersistCall.origin hcall <;> exact h

theorem get_files (h : c.Spares k) :
  (c.run fs).files.get k = fs.files.get k
  := by
  cases hcall : c.persistCall fs with
  | some pc =>
      rw [(PersistCall.run_eq hcall).2, PersistCall.files_run, FiniteMap.get_modify,
        if_neg ((h.skips fs).2 pc hcall).symm]
  | none =>
      cases c with
      | cachePut ino data => rfl
      | drainEvicted => rfl
      | clean ino =>
          show (fs.files.modify ino _).get k = _
          rw [FiniteMap.get_modify, if_neg (Ne.symm h)]
      | persistBuffered p ino => rw [PersistCall.files_of_none (Or.inl rfl) hcall]
      | persistCached p ino => rw [PersistCall.files_of_none (Or.inr (Or.inl rfl)) hcall]
      | persistRecovered p ino => rw [PersistCall.files_of_none (Or.inr (Or.inr rfl)) hcall]
      | _ => exact h.elim

theorem get_writeBuffer (h : c.Spares k) :
  (c.run fs).writeBuffer.get k = fs.writeBuffer.get k
  := by
  cases c with
  | cachePut ino data => rfl
  | drainEvicted => rfl
  | clean ino => rfl
  | persistBuffered p ino =>
      rw [Call.run, VexFS.persistBuffered]
      split
      · rfl
      · next w buffer htake =>
        have hget := WriteBuffer.get_take fs.writeBuffer ino k
        rw [if_neg (Ne.symm h), htake] at hget
        exact hget
  | persistCached p ino =>
      rw [Call.run, VexFS.persistCached]
      split
      · rfl
      split <;> rfl
  | persistRecovered p ino =>
      rw [Call.run, VexFS.persistRecovered]
      split
      · rfl
      split <;> rfl
  | _ => exact h.elim

end Call.Spares

/-- One session continues another without a piece on a file. -/
structure Spared (k : UInt64) (s s' : Session) : Prop where
  log : ∃ log, s'.log = s.log ++ log ∧ ∀ e ∈ log, Skips k e
  files : s'.fs.files.get k = s.fs.files.get k
  buffer : s'.fs.writeBuffer.get k = s.fs.writeBuffer.get k

namespace Spared

variable {s s' : Session} {env : Env} {k : UInt64}

omit [Crc32] in
theorem refl (s : Session) :
  Spared k s s
  := ⟨⟨[], (List.append_nil _).symm, List.forall_mem_nil _⟩, rfl, rfl⟩

theorem perform {c : Call} (h : Spared k s s') (hc : c.Spares k) :
  Spared k s (s'.perform c)
  := by
  obtain ⟨⟨log, hlog, hskips⟩, hfiles, hbuffer⟩ := h
  refine ⟨⟨log ++ [(s'.fs, c)], ?_, ?_⟩, hc.get_files.trans hfiles,
    hc.get_writeBuffer.trans hbuffer⟩
  · show s'.log ++ [(s'.fs, c)] = _
    rw [hlog, List.append_assoc]
  · intro e he
    obtain he | he := List.mem_append.mp he
    · exact hskips e he
    · obtain rfl := List.mem_singleton.mp he
      exact hc.skips s'.fs

theorem preEvictionFlush (h : Spared k s s')
    (hne : s'.fs.cache.peekEvictionCandidate ≠ some k) :
  Spared k s (s'.preEvictionFlush env)
  := by
  unfold Session.preEvictionFlush
  split
  · exact h
  split
  · exact h
  next candidate hpeek =>
  have hother : candidate ≠ k := fun heq => hne (heq ▸ hpeek)
  split
  · exact h
  split
  · apply Spared.perform (c := .clean candidate) _ hother
    split <;> exact h.perform hother
  · exact h

theorem flushEvicted {ino : UInt64} (h : Spared k s s') (hne : ino ≠ k) :
  Spared k s (s'.flushEvicted env ino)
  := by
  unfold Session.flushEvicted
  split
  · exact h
  split
  · apply Spared.perform (c := .clean ino) _ hne
    split
    · exact h.perform hne
    · split
      · exact h.perform hne
      · exact h
  · exact h

theorem foldl_flushEvicted {inos : List UInt64} (h : Spared k s s') (hne : ∀ ino ∈ inos, ino ≠ k) :
  Spared k s (inos.foldl (fun s ino => s.flushEvicted env ino) s')
  := by
  induction inos generalizing s' with
  | nil => exact h
  | cons ino inos ih =>
      obtain ⟨hino, hinos⟩ := List.forall_mem_cons.mp hne
      exact ih (h.flushEvicted hino) hinos

end Spared

/-! ### Evicted files -/

namespace Session

variable {s : Session} {env : Env} {ino k : UInt64} {data : List UInt8} {f : VexFile}

/-- Flushing before an eviction only looks at the cache. -/
theorem cache_preEvictionFlush (s : Session) (env : Env) :
  (s.preEvictionFlush env).fs.cache = s.fs.cache
    ∨ ∃ ino, (s.preEvictionFlush env).fs.cache = (s.fs.cache.get ino).2
  := by
  unfold preEvictionFlush
  split
  · exact Or.inl rfl
  split
  · exact Or.inl rfl
  next candidate _ =>
  split
  · exact Or.inl rfl
  next f hf =>
  split
  · dsimp only [fs_perform, Call.run, VexFS.clean]
    split
    · left
      rw [fs_perform, Call.run, VexFS.persistBuffered]
      split <;> rfl
    · right
      use candidate
      rw [fs_perform, Call.run, VexFS.persistCached, hf]
      dsimp only
      split
      · next cache heq => rw [heq]
      · next bytes cache heq =>
        rw [heq]
        rfl
  · exact Or.inl rfl

theorem contents_preEvictionFlush (s : Session) (env : Env) :
  (s.preEvictionFlush env).fs.cache.contents = s.fs.cache.contents
  := by
  obtain heq | ⟨ino, heq⟩ := s.cache_preEvictionFlush env
  · rw [heq]
  · rw [heq, FileCache.contents_get]

theorem maxBytes_preEvictionFlush (s : Session) (env : Env) :
  (s.preEvictionFlush env).fs.cache.maxBytes = s.fs.cache.maxBytes
  := by
  obtain heq | ⟨ino, heq⟩ := s.cache_preEvictionFlush env
  · rw [heq]
  · rw [heq, FileCache.maxBytes_get]

/-- The file loses its cached contents when others are inserted. -/
structure Evicts (s : Session) (env : Env) (ino : UInt64) (data : List UInt8) (k : UInt64) :
    Prop where
  cached : (s.fs.cache.contents k).isSome
  lost : ((s.preEvictionFlush env).fs.cache.insert ino data).contents k = none

/-- The session once contents are inserted, before the evicted files are flushed. -/
def inserted (s : Session) (env : Env) (ino : UInt64) (data : List UInt8) : Session :=
  (s.preEvictionFlush env).perform (.cachePut ino data)

/-- The session when it is a file's turn to be flushed after an insertion: the files that were
evicted before it are flushed. -/
def turn (s : Session) (env : Env) (ino : UInt64) (data : List UInt8) (k : UInt64) : Session :=
  let inserted := s.inserted env ino data
  (inserted.fs.cache.evicted.takeWhile fun j => j ≠ k).foldl
    (fun s j => s.flushEvicted env j) (inserted.perform .drainEvicted)

theorem Evicts.mem_evicted (h : s.Evicts env ino data k) :
  k ∈ (s.inserted env ino data).fs.cache.evicted
  := by
  obtain ⟨keys, hevicted, -, -, hcontents⟩ :=
    (s.preEvictionFlush env).fs.cache.insert_cases ino data
  have hlost := h.lost
  have hcached := h.cached
  rw [← contents_preEvictionFlush s env] at hcached
  rw [hcontents] at hlost
  show k ∈ ((s.preEvictionFlush env).fs.cache.insert ino data).evicted
  rw [hevicted]
  split at hlost
  · cases hlost
  split at hlost
  · next hmem => exact List.mem_append_right _ hmem
  · rw [hlost] at hcached
    cases hcached

omit [Crc32] [Zstd] in
/-- A list up to the first place of a key. -/
theorem exists_rest {k : UInt64} {keys : List UInt64} (h : k ∈ keys) :
  ∃ rest, keys = keys.takeWhile (fun j => j ≠ k) ++ k :: rest
  := by
  induction keys with
  | nil => cases h
  | cons key keys ih =>
      by_cases heq : key = k
      · use keys
        rw [List.takeWhile_cons_of_neg (by simpa using heq), heq, List.nil_append]
      · obtain ⟨rest, hrest⟩ := ih (List.mem_of_ne_of_mem (Ne.symm heq) h)
        use rest
        rw [List.takeWhile_cons_of_pos (by simpa using heq), List.cons_append, ← hrest]

/-- After an insertion every evicted file has its turn. -/
theorem Evicts.cacheInsert_eq (h : s.Evicts env ino data k) :
  ∃ rest : List UInt64, s.cacheInsert env ino data = rest.foldl (fun s j => s.flushEvicted env j)
    ((s.turn env ino data k).flushEvicted env k)
  := by
  obtain ⟨rest, hrest⟩ := exists_rest h.mem_evicted
  use rest
  show (s.inserted env ino data).fs.cache.evicted.foldl _ _ = _
  rw [hrest, List.foldl_append]
  rfl

/-- Nothing happens to a file that is not the candidate until its turn. -/
theorem spared_turn (hne : s.fs.cache.peekEvictionCandidate ≠ some k) :
  Spared k s (s.turn env ino data k)
  := by
  have hinserted : Spared k s (s.inserted env ino data) :=
    ((Spared.refl s).preEvictionFlush hne).perform (c := .cachePut ino data) trivial
  apply (hinserted.perform (c := .drainEvicted) trivial).foldl_flushEvicted
  intro j hj
  simpa using List.mem_takeWhile_imp hj

/-! ### What is passed on for an evicted file -/

variable {s' : Session} {bytes : List UInt8} {c : Call} {pc : PersistCall}

/-- The file is persisted and then counts as clean. -/
theorem passes_of_persist (hcall : c.persistCall s.fs = some pc) (hino : pc.ino = k)
    (hextends : ((s.perform c).perform (.clean k)).log <+: s'.log) :
  s.Passes s' k bytes ↔ pc.data = bytes
  := by
  obtain ⟨log, hlog⟩ := hextends
  have hs' : s'.log = s.log ++ ((s.fs, c) :: ((s.perform c).fs, .clean k) :: log) := by
    rw [← hlog]
    show s.log ++ [(s.fs, c)] ++ [_] ++ log = _
    rw [List.append_assoc, List.append_assoc]
    rfl
  rw [passes_iff hs', PassesIn.persist_clean hcall hino]

/-- A call for the file is not made, and the file counts as clean. -/
theorem not_passes_of_none (hcall : c.persistCall s.fs = none)
    (hextends : ((s.perform c).perform (.clean k)).log <+: s'.log) :
  ¬ s.Passes s' k bytes
  := by
  obtain ⟨log, hlog⟩ := hextends
  have hs' : s'.log = s.log ++ ((s.fs, c) :: ((s.perform c).fs, .clean k) :: log) := by
    rw [← hlog]
    show s.log ++ [(s.fs, c)] ++ [_] ++ log = _
    rw [List.append_assoc, List.append_assoc]
    rfl
  rw [passes_iff hs']
  exact PassesIn.not_persist_clean hcall _

/-- The file counts as clean at once. -/
theorem not_passes_of_clean (hextends : (s.perform (.clean k)).log <+: s'.log) :
  ¬ s.Passes s' k bytes
  := by
  obtain ⟨log, hlog⟩ := hextends
  have hs' : s'.log = s.log ++ ((s.fs, .clean k) :: log) := by
    rw [← hlog]
    show s.log ++ [_] ++ log = _
    rw [List.append_assoc]
    rfl
  rw [passes_iff hs']
  exact PassesIn.not_clean _

/-- A write that waits is persisted, and the file counts as clean. -/
theorem passes_of_waiting {w : PendingWrite} {p : Persistence}
    (hw : s.fs.writeBuffer.get k = some w)
    (hextends : ((s.perform (.persistBuffered p k)).perform (.clean k)).log <+: s'.log) :
  s.Passes s' k bytes ↔ w.data = bytes
  := by
  have hcall : (Call.persistBuffered p k).persistCall s.fs
      = some ⟨p, k, w.name, w.data, w.diskIndex⟩ := by
    dsimp only [Call.persistCall]
    rw [hw]
    rfl
  exact passes_of_persist hcall rfl hextends

/-- What the disk gives back for a file is persisted, if it gives back something, and the file
counts as clean. -/
theorem passes_of_recovered {p : Persistence} (hf : s.fs.files.get k = some f)
    (hextends : ((s.perform (.persistRecovered p k)).perform (.clean k)).log <+: s'.log) :
  s.Passes s' k bytes ↔ ∃ raw,
    s.fs.disk.readFileData f.dataOffset f.attr.size.toNat = .ok raw ∧ decompress raw = bytes
  := by
  cases hread : s.fs.disk.readFileData f.dataOffset f.attr.size.toNat with
  | error e =>
      have hcall : (Call.persistRecovered p k).persistCall s.fs = none := by
        dsimp only [Call.persistCall]
        rw [hf]
        dsimp only
        rw [hread]
      apply iff_of_false (not_passes_of_none hcall hextends)
      rintro ⟨raw, hraw, -⟩
      cases hraw
  | ok raw =>
      have hcall : (Call.persistRecovered p k).persistCall s.fs
          = some ⟨p, k, f.name, decompress raw, f.diskIndex⟩ := by
        dsimp only [Call.persistCall]
        rw [hf]
        dsimp only
        rw [hread]
      rw [passes_of_persist hcall rfl hextends]
      constructor
      · exact fun hbytes => ⟨raw, rfl, hbytes⟩
      · rintro ⟨raw', hraw, hbytes⟩
        obtain rfl := Except.ok.inj hraw
        exact hbytes

omit [Crc32] in
/-- Pieces that are not on a file pass nothing on for it. -/
theorem passes_of_spared {t : Session} (h : Spared k s t) (hextends : t.log <+: s'.log) :
  s.Passes s' k bytes ↔ t.Passes s' k bytes
  := by
  obtain ⟨log, hlog, hskips⟩ := h.log
  obtain ⟨log', hlog'⟩ := hextends
  have hs' : s'.log = s.log ++ (log ++ log') := by
    rw [← hlog', hlog, List.append_assoc]
  rw [passes_iff hs', passes_iff hlog'.symm, PassesIn.append_of_skips hskips]

/-- The latest contents of an evicted file are passed on: they wait in the buffer, or nothing
does and the file is the candidate of a full cache, or the disk gives them back at the file's
turn. -/
def Saves (s : Session) (env : Env) (ino : UInt64) (data : List UInt8) (k : UInt64)
    (f : VexFile) : Prop :=
  match s.fs.writeBuffer.get k with
  | some w => s.latest k = some w.data
  | none => s.fs.cache.peekEvictionCandidate = some k
      ∨ 0 < f.dataOffset ∧ 0 < f.attr.size ∧ ∃ raw,
        (s.turn env ino data k).fs.disk.readFileData f.dataOffset f.attr.size.toNat = .ok raw
          ∧ s.latest k = some (decompress raw)

/-- The candidate of a full cache is persisted from the buffer or from the cache. -/
theorem preEvictionFlush_of_candidate (env : Env) (hf : s.fs.files.get k = some f)
    (hdirty : f.dirty = true) (hpeek : s.fs.cache.peekEvictionCandidate = some k) :
  s.preEvictionFlush env = (s.perform (if (s.fs.writeBuffer.get k).isSome then
    .persistBuffered (env.persistence k) k else .persistCached (env.persistence k) k)).perform
      (.clean k)
  := by
  have hfull : ¬ s.fs.cache.usedBytes < s.fs.cache.maxBytes := by
    intro hlt
    have hnone : s.fs.cache.peekEvictionCandidate = none := if_pos hlt
    rw [hnone] at hpeek
    cases hpeek
  unfold preEvictionFlush
  rw [if_neg hfull, hpeek]
  dsimp only
  rw [hf]
  dsimp only
  rw [if_pos hdirty]
  split <;> rfl

/-- A dirty file is persisted at its turn from the buffer or from the disk. -/
theorem flushEvicted_of_dirty (env : Env) (hf : s.fs.files.get k = some f)
    (hdirty : f.dirty = true) :
  s.flushEvicted env k = (if (s.fs.writeBuffer.get k).isSome then
      s.perform (.persistBuffered (env.persistence k) k)
    else if 0 < f.dataOffset ∧ 0 < f.attr.size then
      s.perform (.persistRecovered (env.persistence k) k)
    else s).perform (.clean k)
  := by
  unfold flushEvicted
  rw [hf]
  dsimp only
  rw [if_pos hdirty]

/-- What is done after the flush of the candidate, or after the turn of a file, adds to the
log. -/
theorem log_extends_flushEvicted (s : Session) (env : Env) (inos : List UInt64) :
  s.log <+: (inos.foldl (fun s j => s.flushEvicted env j) s).log
  := (Performs.refl.foldl (fun _ _ => Performs.refl.flushEvicted _) inos).log_extends

theorem log_extends_cacheInsert (s : Session) (env : Env) (ino : UInt64) (data : List UInt8) :
  (s.preEvictionFlush env).log <+: (s.cacheInsert env ino data).log
  := by
  have hput : (s.preEvictionFlush env).log <+: ((s.inserted env ino data).perform
      .drainEvicted).log := by
    show _ <+: (s.preEvictionFlush env).log ++ [_] ++ [_]
    rw [List.append_assoc]
    exact List.prefix_append _ _
  exact hput.trans (log_extends_flushEvicted _ env _)

/-- Nothing happens to an evicted file that is not the candidate until its turn, when it is
flushed. -/
theorem Evicts.log_extends_turn (h : s.Evicts env ino data k)
    (hne : s.fs.cache.peekEvictionCandidate ≠ some k) :
  Spared k s (s.turn env ino data k)
    ∧ (s.turn env ino data k).log <+: (s.cacheInsert env ino data).log
    ∧ ((s.turn env ino data k).flushEvicted env k).log <+: (s.cacheInsert env ino data).log
  := by
  obtain ⟨rest, heq⟩ := h.cacheInsert_eq
  have hflushed : ((s.turn env ino data k).flushEvicted env k).log
      <+: (s.cacheInsert env ino data).log := by
    rw [heq]
    exact log_extends_flushEvicted _ env rest
  exact ⟨spared_turn hne, (Performs.refl.flushEvicted k).log_extends.trans hflushed, hflushed⟩

/-- If a write of an evicted file waits, that is what is passed on. -/
theorem passes_cacheInsert_of_waiting {w : PendingWrite} (env : Env)
    (hf : s.fs.files.get k = some f) (hdirty : f.dirty = true)
    (hevicts : s.Evicts env ino data k) (hw : s.fs.writeBuffer.get k = some w) :
  s.Passes (s.cacheInsert env ino data) k bytes ↔ w.data = bytes
  := by
  by_cases hpeek : s.fs.cache.peekEvictionCandidate = some k
  · have hextends := log_extends_cacheInsert s env ino data
    rw [preEvictionFlush_of_candidate env hf hdirty hpeek, hw, Option.isSome_some, if_pos rfl]
      at hextends
    exact passes_of_waiting hw hextends
  · obtain ⟨hspared, hturn, hextends⟩ := hevicts.log_extends_turn hpeek
    rw [flushEvicted_of_dirty env (hspared.files.trans hf) hdirty, hspared.buffer, hw,
      Option.isSome_some, if_pos rfl] at hextends
    rw [passes_of_spared hspared hturn]
    exact passes_of_waiting (hspared.buffer.trans hw) hextends

/-- If no write of an evicted file waits, its cached contents are passed on when it is the
candidate, and otherwise what the disk gives back at its turn. -/
theorem passes_cacheInsert_of_not_waiting {v : List UInt8} (env : Env)
    (hf : s.fs.files.get k = some f) (hdirty : f.dirty = true)
    (hevicts : s.Evicts env ino data k) (hw : s.fs.writeBuffer.get k = none)
    (hv : s.fs.cache.contents k = some v) :
  s.Passes (s.cacheInsert env ino data) k v
    ↔ s.fs.cache.peekEvictionCandidate = some k
      ∨ 0 < f.dataOffset ∧ 0 < f.attr.size ∧ ∃ raw,
        (s.turn env ino data k).fs.disk.readFileData f.dataOffset f.attr.size.toNat = .ok raw
          ∧ decompress raw = v
  := by
  by_cases hpeek : s.fs.cache.peekEvictionCandidate = some k
  · have hextends := log_extends_cacheInsert s env ino data
    rw [preEvictionFlush_of_candidate env hf hdirty hpeek, hw, Option.isSome_none,
      if_neg Bool.false_ne_true] at hextends
    have hcall : (Call.persistCached (env.persistence k) k).persistCall s.fs
        = some ⟨env.persistence k, k, f.name, v, f.diskIndex⟩ := by
      dsimp only [Call.persistCall]
      rw [hf, hv]
    exact iff_of_true ((passes_of_persist hcall rfl hextends).mpr rfl) (Or.inl hpeek)
  · obtain ⟨hspared, hturn, hextends⟩ := hevicts.log_extends_turn hpeek
    have hf' := hspared.files.trans hf
    rw [flushEvicted_of_dirty env hf' hdirty, hspared.buffer, hw, Option.isSome_none,
      if_neg Bool.false_ne_true] at hextends
    rw [passes_of_spared hspared hturn, or_iff_right hpeek]
    split at hextends
    · next hplace =>
      rw [passes_of_recovered hf' hextends]
      exact ⟨fun hread => ⟨hplace.1, hplace.2, hread⟩, fun hread => hread.2.2⟩
    · next hplace =>
      apply iff_of_false (not_passes_of_clean hextends)
      exact fun hread => hplace ⟨hread.1, hread.2.1⟩

end Session

/-- For every session and every insertion into the cache: the latest contents of a dirty file
that is evicted are passed on before the file counts as clean exactly when they wait in the
buffer, or nothing does and the file is the candidate of a full cache, or what the disk gives
back at the file's turn is the same. -/
theorem eviction_saves_iff (s : Session) (env : Env) (ino : UInt64) (data : List UInt8)
    {k : UInt64} {f : VexFile} (hf : s.fs.files.get k = some f) (hdirty : f.dirty = true)
    (hevicts : s.Evicts env ino data k) :
  (∃ bytes, s.latest k = some bytes ∧ s.Passes (s.cacheInsert env ino data) k bytes)
    ↔ s.Saves env ino data k f
  := by
  cases hw : s.fs.writeBuffer.get k with
  | some w =>
      rw [Session.Saves, hw]
      constructor
      · rintro ⟨bytes, hlatest, hpasses⟩
        have hbytes := (Session.passes_cacheInsert_of_waiting env hf hdirty hevicts hw).mp hpasses
        exact hlatest.trans (congrArg some hbytes.symm)
      · intro hlatest
        use w.data, hlatest
        exact (Session.passes_cacheInsert_of_waiting env hf hdirty hevicts hw).mpr rfl
  | none =>
      obtain ⟨v, hv⟩ := Option.isSome_iff_exists.mp hevicts.cached
      have hlatest : s.latest k = some v := by rw [Session.latest, hw, hv]
      have hpasses := Session.passes_cacheInsert_of_not_waiting env hf hdirty hevicts hw hv
      rw [Session.Saves, hw]
      constructor
      · rintro ⟨bytes, hbytes, hpass⟩
        obtain rfl := Option.some.inj (hlatest.symm.trans hbytes)
        obtain hpeek | ⟨hoffset, hsize, raw, hread, hraw⟩ := hpasses.mp hpass
        · exact Or.inl hpeek
        · exact Or.inr ⟨hoffset, hsize, raw, hread, by rw [hlatest, hraw]⟩
      · intro hsaves
        use v, hlatest
        apply hpasses.mpr
        obtain hpeek | ⟨hoffset, hsize, raw, hread, hraw⟩ := hsaves
        · exact Or.inl hpeek
        · exact Or.inr ⟨hoffset, hsize, raw, hread, Option.some.inj (hraw.symm.trans hlatest)⟩

/-! ### A file larger than the cache -/

namespace Session

variable {s : Session} {ino : UInt64}

omit [Zstd] in
theorem waitsLatest_perform [Zstd] (s : Session) (c : Call) (ino : UInt64) :
  (s.perform c).waitsLatest ino = c.tracks s.fs ino (s.waitsLatest ino)
  := List.foldl_append ..

/-- Contents that are larger than the cache are evicted when others are inserted. -/
theorem evicts_of_large {k : UInt64} {old data : List UInt8} (env : Env)
    (hnew : s.fs.cache.contents ino = none) (hold : s.fs.cache.contents k = some old)
    (hlarge : s.fs.cache.maxBytes < old.length) (hfits : data.length ≤ s.fs.cache.maxBytes) :
  s.Evicts env ino data k
  := by
  have hcontents := contents_preEvictionFlush s env
  have hmax := maxBytes_preEvictionFlush s env
  use by rw [hold]; rfl
  rw [← hcontents] at hnew hold
  rw [← hmax] at hlarge hfits
  exact FileCache.contents_insert_of_large hnew hold hlarge hfits

end Session

omit [Crc32] [Zstd] in
/-- Contents that are larger than the cache. -/
def largeContents : List UInt8 := List.replicate (cacheMaxBytes + 1) 0

omit [Crc32] [Zstd] in
theorem length_largeContents :
  largeContents.length = cacheMaxBytes + 1
  := List.length_replicate

omit [Crc32] [Zstd] in
theorem length_largeContents_le :
  largeContents.length ≤ Session.maxCapacity
  := by
  rw [length_largeContents]
  decide

/-- A session after an empty file, whose cache has room, was written to: its contents are larger
than the cache now. -/
theorem Session.exec_write_large {s : Session} {f : VexFile} (hf : s.fs.files.get 2 = some f)
    (hcached : s.fs.cache.contents 2 = some []) (hroom : s.fs.cache.Room 0)
    (hmax : s.fs.cache.maxBytes = cacheMaxBytes)
    (hothers : ∀ ino, ino ≠ 2 → s.fs.cache.contents ino = none) :
  ∃ s' reply, s.exec Env.still (.write 2 0 largeContents) = .ok (reply, s')
    ∧ s'.fs.writeBuffer = s.fs.writeBuffer ∧ s'.fs.index = s.fs.index
    ∧ s'.fs.files.get 2 = some { f with
      attr := { f.attr with size := UInt64.ofNat largeContents.length }, dirty := true }
    ∧ s'.fs.cache.contents 2 = some largeContents
    ∧ (∀ ino, ino ≠ 2 → s'.fs.cache.contents ino = none)
    ∧ s'.fs.cache.maxBytes = cacheMaxBytes ∧ s'.waitsLatest 2 = false
  := by
  have hexec := exec_write_of_empty Env.still (by decide) (by decide) hf hcached hroom
    largeContents length_largeContents_le
  have hcontents := contents_wrote hcached largeContents
  refine ⟨_, _, hexec, rfl, rfl, files_wrote hf largeContents, ?_, ?_, ?_, ?_⟩
  · rw [hcontents, if_pos rfl]
  · intro ino hne
    rw [hcontents, if_neg hne]
    exact hothers ino hne
  · show ((s.fs.cache.get 2).2.insert 2 largeContents).maxBytes = _
    rw [FileCache.maxBytes_insert, FileCache.maxBytes_get, hmax]
  · rw [wrote, waitsLatest_perform, waitsLatest_perform, waitsLatest_perform]
    exact Bool.and_false _

omit [Crc32] [Zstd] in
/-- A large file that is flushed and then renamed is saved when it is evicted: its contents wait
in the buffer. -/
theorem eviction_saves_flushed_file :
  let _ := Crc32.ieee
  let _ := Zstd.refusing
  ∃ dm s f, MountedSession dm s ∧ s.fs.files.get 2 = some f ∧ f.dirty = true
    ∧ s.Evicts Env.still 3 [] 2
    ∧ ∃ bytes, s.latest 2 = some bytes ∧ s.Passes (s.cacheInsert Env.still 3 []) 2 bytes
  := by
  intro _ _
  obtain ⟨s, i, hfirst, hmax, hothers, -⟩ := exists_firstFile
  obtain ⟨s₁, _, hexec₁, hbuffer₁, hindex₁, hf₁, hcached₁, hothers₁, hmax₁, -⟩ :=
    Session.exec_write_large hfirst.file hfirst.contents (hfirst.room.mono (Nat.zero_le _)) hmax
      hothers
  obtain ⟨s₂, hexec₂, hfs₂, -⟩ :=
    Session.exec_flush_of_dirty hf₁ rfl hcached₁ (hbuffer₁.trans hfirst.buffer)
  have hval₂ : s₂.fs.index.get rootIno "a" = some ⟨2, 0, false, i⟩ := by
    rw [hfs₂]
    show s₁.fs.index.get rootIno "a" = _
    rw [hindex₁, hfirst.entry]
  obtain ⟨s₃, hexec₃, hs₃⟩ := Session.exec_rename_root Env.still hval₂ "b"
  have hframe : s₃.fs.cache = s₂.fs.cache ∧ s₃.fs.writeBuffer = s₂.fs.writeBuffer := by
    rw [hs₃, VexFS.rename]
    split <;> exact ⟨rfl, rfl⟩
  have hw : s₃.fs.writeBuffer.get 2 = some ⟨largeContents, i, "a", 0⟩ := by
    rw [hframe.2, hfs₂]
    exact FiniteMap.get_insert_self _ _ _
  have hcontents : s₃.fs.cache.contents = s₁.fs.cache.contents := by
    rw [hframe.1, hfs₂]
    exact s₁.fs.cache.contents_get 2
  have hf₃ : s₃.fs.files.get 2 = some { firstFile i with
      name := "b"
      attr := { (firstFile i).attr with size := UInt64.ofNat largeContents.length }
      parentIno := rootIno
      dirty := true } := by
    rw [hs₃, (VexFS.files_rename hval₂ rootIno "b" _).1, FiniteMap.get_modify, if_pos rfl, hfs₂]
    dsimp only
    rw [FiniteMap.get_insert_self]
    rfl
  have hevicts : s₃.Evicts Env.still 3 [] 2 := by
    have hmax₃ : s₃.fs.cache.maxBytes = cacheMaxBytes := by
      rw [hframe.1, hfs₂]
      exact (s₁.fs.cache.maxBytes_get 2).trans hmax₁
    have hlarge : s₃.fs.cache.maxBytes < largeContents.length := by
      rw [hmax₃, length_largeContents]
      exact Nat.lt_succ_self _
    apply Session.evicts_of_large _ _ _ hlarge
    · exact Nat.zero_le _
    · rw [hcontents, hothers₁ 3 (by decide)]
    · rw [hcontents, hcached₁]
  obtain ⟨start, hload, hreach⟩ := hfirst.fresh
  refine ⟨_, s₃, _, ⟨start, hload, .exec _ _ (.exec _ _ (.exec _ _ hreach hexec₁) hexec₂) hexec₃⟩,
    hf₃, rfl, hevicts, ?_⟩
  apply (eviction_saves_iff s₃ Env.still 3 [] hf₃ rfl hevicts).mpr
  rw [Session.Saves, hw]
  dsimp only
  rw [Session.latest, hw]
  dsimp only
  rw [hcontents, hcached₁, ite_self]

omit [Crc32] [Zstd] in
/-- A file that is flushed while it is empty and then written to is evicted with its new
contents, and its old ones are persisted. -/
theorem not_eviction_saves :
  let _ := Crc32.ieee
  let _ := Zstd.refusing
  ¬ ∀ dm s env ino data k f, MountedSession dm s → s.fs.files.get k = some f → f.dirty = true →
      s.Evicts env ino data k →
      ∃ bytes, s.latest k = some bytes ∧ s.Passes (s.cacheInsert env ino data) k bytes
  := by
  intro _ _ h
  obtain ⟨s, i, hfirst, hmax, hothers, -⟩ := exists_firstFile
  obtain ⟨s₁, hexec₁, hfs₁⟩ := hfirst.exec_flush
  have hf₁ : s₁.fs.files.get 2 = some { firstFile i with dirty := false } := by
    rw [hfs₁]
    exact FiniteMap.get_insert_self _ _ _
  have hcontents₁ : s₁.fs.cache.contents = s.fs.cache.contents := by
    rw [hfs₁]
    exact s.fs.cache.contents_get 2
  have hroom₁ : s₁.fs.cache.Room 0 := by
    rw [hfs₁]
    exact (hfirst.room.get 2).mono (Nat.zero_le _)
  have hmax₁ : s₁.fs.cache.maxBytes = cacheMaxBytes := by
    rw [hfs₁]
    exact (s.fs.cache.maxBytes_get 2).trans hmax
  obtain ⟨s₂, _, hexec₂, hbuffer₂, -, hf₂, hcached₂, hothers₂, hmax₂, hwaits₂⟩ :=
    Session.exec_write_large hf₁ (by rw [hcontents₁, hfirst.contents]) hroom₁ hmax₁
      (by rw [hcontents₁]; exact hothers)
  have hw : s₂.fs.writeBuffer.get 2 = some ⟨[], i, "a", 0⟩ := by
    rw [hbuffer₂, hfs₁]
    exact FiniteMap.get_insert_self _ _ _
  have hevicts : s₂.Evicts Env.still 3 [] 2 := by
    apply Session.evicts_of_large _ (hothers₂ 3 (by decide)) hcached₂
    · rw [hmax₂, length_largeContents]
      exact Nat.lt_succ_self _
    · exact Nat.zero_le _
  obtain ⟨start, hload, hreach⟩ := hfirst.fresh
  obtain ⟨bytes, hlatest, hpasses⟩ := h _ s₂ Env.still 3 [] 2 _
    ⟨start, hload, .exec _ _ (.exec _ _ hreach hexec₁) hexec₂⟩ hf₂ rfl hevicts
  have hold : [] = bytes :=
    (Session.passes_cacheInsert_of_waiting Env.still hf₂ rfl hevicts hw).mp hpasses
  have hnew : s₂.latest 2 = some largeContents := by
    rw [Session.latest, hw]
    dsimp only
    rw [hwaits₂, if_neg Bool.false_ne_true, hcached₂]
  rw [hnew, ← hold] at hlatest
  have hnil : largeContents = [] := Option.some.inj hlatest
  have hlength := length_largeContents
  rw [hnil] at hlength
  cases hlength

end Vexfs
