import Vexfs.Fuse.Persisting

/-!
# The size that is recorded

A file that is persisted has three sizes: that of its contents, which its record gets, that of
the bytes that are stored, for which space is taken, and the one in memory, which is that of
its contents now.  What looks for the stored bytes goes by the record or by the size in memory,
and so does what frees them.  They find and free what was stored exactly when it was stored as
it is and the size has not changed since (`stored_size_iff`).
-/

namespace Vexfs

variable [Crc32] [Zstd]

namespace PersistCall

variable {fs : VexFS} {c : Call} {pc : PersistCall}

omit [Crc32] in
/-- The contents are stored compressed. -/
def Compressed (pc : PersistCall) : Prop :=
  pc.p.isCold pc.name = true ∧ 512 ≤ pc.data.length
    ∧ (compress pc.data).length < pc.data.length

omit [Crc32] in
/-- Contents that are not compressed are stored as they are. -/
theorem bytes_of_not_compressed (h : ¬ pc.Compressed) :
  pc.bytes = pc.data
  := by
  unfold bytes Persistence.dataToWrite
  split
  · next hcold =>
    dsimp only
    exact if_neg fun hshorter => h ⟨hcold.1, hcold.2, hshorter⟩
  · rfl

omit [Crc32] in
/-- Compressed contents are stored in fewer bytes. -/
theorem length_bytes_of_compressed (h : pc.Compressed) :
  pc.bytes.length < pc.data.length
  := by
  obtain ⟨hcold, hlong, hshorter⟩ := h
  unfold bytes Persistence.dataToWrite
  rw [if_pos ⟨hcold, hlong⟩]
  dsimp only
  rw [if_pos hshorter]
  exact hshorter

omit [Crc32] in
theorem length_bytes_le (pc : PersistCall) :
  pc.bytes.length ≤ pc.data.length
  := by
  by_cases h : pc.Compressed
  · exact (length_bytes_of_compressed h).le
  · rw [bytes_of_not_compressed h]

omit [Crc32] in
/-- A file that is persisted has a number below the next one. -/
theorem ino_lt (h : fs.Slotted) (hcall : c.persistCall fs = some pc) :
  pc.ino < fs.nextInode
  := by
  obtain ⟨-, w, hw, -⟩ | ⟨-, f, hf, -⟩ | ⟨-, f, raw, hf, -⟩ := origin hcall
  · exact h.below pc.ino w hw
  · exact h.files pc.ino (hf ▸ rfl)
  · exact h.files pc.ino (hf ▸ rfl)

end PersistCall

/-! ### The last time a file was persisted -/

/-- A state that a session was in, and the log up to then. -/
def Session.At (s : Session) (log : List (VexFS × Call)) (now : VexFS) : Prop :=
  (log = s.log ∧ now = s.fs) ∨ ∃ c, log ++ [(now, c)] <+: s.log

/-- A file was persisted in a state, and not again in the rest of a log. -/
def LastPersist (log : List (VexFS × Call)) (fs : VexFS) (pc : PersistCall) : Prop :=
  ∃ before c after, log = before ++ (fs, c) :: after ∧ c.persistCall fs = some pc
    ∧ ∀ e ∈ after, ∀ pc', e.2.persistCall e.1 = some pc' → pc'.ino ≠ pc.ino

/-- The log up to a state leads there. -/
theorem Reachable.leads_at {start : VexFS} {s : Session} {log : List (VexFS × Call)}
    {now : VexFS} (h : Reachable start s) (hat : s.At log now) :
  Leads start log now ∧ ∀ e ∈ log, e ∈ s.log
  := by
  obtain ⟨rfl, rfl⟩ | ⟨c, rest, hlog⟩ := hat
  · exact ⟨h.leads, fun e he => he⟩
  · have hleads := h.leads
    rw [← hlog, List.append_assoc] at hleads
    constructor
    · exact hleads.before.1
    · intro e he
      rw [← hlog]
      exact List.mem_append_left _ (List.mem_append_left _ he)

omit [Crc32] in
/-- A file stays where it is on disk unless it is persisted. -/
theorem Call.fileAfter_dataOffset {fs : VexFS} {c : Call} {ino : UInt64}
    (h : ∀ pc, c.persistCall fs = some pc → pc.ino ≠ ino) (f : VexFile) :
  (c.fileAfter fs ino f).dataOffset = f.dataOffset
  := by
  unfold fileAfter
  split
  · split <;> rfl
  · split <;> rfl
  · split <;> rfl
  · split <;> rfl
  · split
    · next pc hcall => rw [if_neg (h pc hcall).symm]
    · rfl

/-- A file that was persisted is where its bytes were stored until it is persisted again. -/
theorem MountedSession.dataOffset_eq {dm : DiskManager} {s : Session}
    (h : MountedSession dm s) {log : List (VexFS × Call)} {now fs : VexFS} {pc : PersistCall}
    {f : VexFile} (hat : s.At log now) (hlast : LastPersist log fs pc)
    (hf : now.files.get pc.ino = some f) :
  f.dataOffset = (pc.placed fs).1
  := by
  obtain ⟨start, hload, hreach⟩ := h
  obtain ⟨hleads, hmem⟩ := hreach.leads_at hat
  obtain ⟨before, c, after, rfl, hcall, hnot⟩ := hlast
  have hslotted : ∀ e ∈ s.log, e.1.Slotted :=
    (hreach.invariant (.load hload) fun _ _ hnumbered hslotted => hslotted.run hnumbered).2
  have hnumbered : ∀ e ∈ before ++ (fs, c) :: after, e.2.Numbered e.1 :=
    fun e he => hreach.numbered e (hmem e he)
  have hpiece : (fs, c) ∈ before ++ (fs, c) :: after :=
    List.mem_append_right _ List.mem_cons_self
  have hlt : pc.ino < (c.run fs).nextInode :=
    (PersistCall.ino_lt (hslotted _ (hmem _ hpiece)) hcall).trans_le
      (Call.nextInode_le_run (hnumbered _ hpiece))
  have hstored : ∀ f, (c.run fs).files.get pc.ino = some f →
      f.dataOffset = (pc.placed fs).1 := by
    intro f hf
    rw [(PersistCall.run_eq hcall).2, PersistCall.files_run] at hf
    obtain ⟨f₀, -, rfl⟩ := FiniteMap.get_of_get_modify hf
    rw [if_pos rfl]
  have hnow := hleads.before.2.holds (I := fun fs' => pc.ino < fs'.nextInode
    ∧ ∀ f, fs'.files.get pc.ino = some f → f.dataOffset = (pc.placed fs).1) ?_ ⟨hlt, hstored⟩
  · exact hnow.1.2 f hf
  · rintro e he ⟨hbelow, hplaced⟩
    have he' : e ∈ before ++ (fs, c) :: after :=
      List.mem_append_right _ (List.mem_cons_of_mem _ he)
    use hbelow.trans_le (Call.nextInode_le_run (hnumbered e he'))
    intro f' hf'
    obtain ⟨f₀, hf₀, rfl⟩ | ⟨_, _, _, _, -, hino, -⟩ := Call.get_files_run hf'
    · rw [Call.fileAfter_dataOffset (hnot e he)]
      exact hplaced f₀ hf₀
    · exact absurd hbelow (hino ▸ lt_irrefl _)

/-! ### What is read and what is freed -/

/-- What a persisted file is found by leads to the bytes that were stored for it. -/
structure RecordsStored (fs : VexFS) (pc : PersistCall) (now : VexFS) (f : VexFile) : Prop where
  /-- A mount, a search and a comparison read as many bytes as the record says, where it says
  they are. -/
  recorded : (pc.record fs).dataOffset = (pc.placed fs).1
    ∧ (pc.record fs).size.toNat = pc.bytes.length
  /-- A read of a file that is not cached goes by the file in memory. -/
  read : f.dataOffset = (pc.placed fs).1 ∧ f.attr.size.toNat = pc.bytes.length
  /-- Removing the file and persisting it again free no other extent. -/
  freed : ∀ offset length, now.oldExtent pc.ino = some (offset, length) →
    offset = (pc.placed fs).1 ∧ length.toNat = pc.bytes.length

/-- In every session of a mounted disk, and at every moment of it, what a file is found by leads
to the bytes that were stored for it when it was persisted last, exactly when they were stored
as they are and its size is still that of the contents that were persisted.  A vector has at
most `maxCapacity` bytes. -/
theorem stored_size_iff {dm : DiskManager} {s : Session} (h : MountedSession dm s)
    {log : List (VexFS × Call)} {now fs : VexFS} {pc : PersistCall} {f : VexFile}
    (hat : s.At log now) (hlast : LastPersist log fs pc)
    (hf : now.files.get pc.ino = some f) (hvec : pc.data.length ≤ Session.maxCapacity) :
  RecordsStored fs pc now f ↔ ¬ pc.Compressed ∧ f.attr.size.toNat = pc.data.length
  := by
  have hplace := h.dataOffset_eq hat hlast hf
  have hrecord : (pc.record fs).size.toNat = pc.data.length := by
    show (UInt64.ofNat pc.data.length).toNat = pc.data.length
    apply UInt64.toNat_ofNat_of_lt'
    exact hvec.trans_lt (by decide)
  constructor
  · intro hstored
    have hlength : pc.bytes.length = pc.data.length := hstored.recorded.2.symm.trans hrecord
    constructor
    · exact fun hcompressed => (PersistCall.length_bytes_of_compressed hcompressed).ne hlength
    · exact hstored.read.2.trans hlength
  · rintro ⟨hraw, hsize⟩
    have hbytes := PersistCall.bytes_of_not_compressed hraw
    have hread : f.attr.size.toNat = pc.bytes.length := by rw [hbytes, hsize]
    refine ⟨⟨rfl, by rw [hrecord, hbytes]⟩, ⟨hplace, hread⟩, ?_⟩
    intro offset length hextent
    rw [VexFS.oldExtent, hf, Option.bind_some] at hextent
    split at hextent
    · obtain ⟨rfl, rfl⟩ := Prod.mk.inj (Option.some.inj hextent)
      exact ⟨hplace, hread⟩
    · cases hextent

/-! ### A write after a flush -/

/-- Unmounting is the last time the file of the one write that waits is persisted. -/
theorem Session.lastPersist_destroy {s : Session} {ino now : UInt64} {name : String}
    {data : List UInt8} {i : ℕ} {f : VexFile} (env : Env)
    (hbuffer : s.fs.writeBuffer = (WriteBuffer.new 32 5).write ino name data i now)
    (hf : s.fs.files.get ino = some f) :
  ∃ s' pc, s.exec env .destroy = .ok (.ok, s') ∧ LastPersist s'.log s.fs pc
    ∧ pc = ⟨env.persistence ino, ino, name, data, i⟩
    ∧ s'.fs.files.get ino = some { f with dataOffset := (pc.placed s.fs).1 }
  := by
  obtain ⟨s', c, hexec, hfs, hlog, hcall, -⟩ := exec_destroy_of_write env hbuffer
  refine ⟨s', _, hexec, ⟨_, c, [], hlog, hcall, List.forall_mem_nil _⟩, rfl, ?_⟩
  rw [hfs, (PersistCall.run_eq hcall).2, PersistCall.files_run, FiniteMap.get_modify, if_pos rfl,
    hf]
  rfl

omit [Crc32] [Zstd] in
/-- Nothing is stored for an empty file, and nothing is read or freed. -/
theorem stored_size_first_file :
  let _ := Crc32.ieee
  let _ := Zstd.refusing
  ∃ dm s fs pc f, MountedSession dm s ∧ LastPersist s.log fs pc
    ∧ s.fs.files.get pc.ino = some f ∧ RecordsStored fs pc s.fs f
  := by
  intro _ _
  obtain ⟨s, i, hfirst, -⟩ := exists_firstFile
  obtain ⟨s₁, hexec₁, hfs₁⟩ := hfirst.exec_flush
  have hf₁ : s₁.fs.files.get 2 = some { firstFile i with dirty := false } := by
    rw [hfs₁]
    exact FiniteMap.get_insert_self _ _ _
  obtain ⟨s₂, pc, hexec₂, hlast, rfl, hf₂⟩ :=
    Session.lastPersist_destroy (i := i) Env.still (by rw [hfs₁]) hf₁
  obtain ⟨start, hload, hreach⟩ := hfirst.fresh
  have hmounted : MountedSession (DiskManager.format Storage.Image.empty 0 0) s₂ :=
    ⟨start, hload, .exec _ _ (.exec _ _ hreach hexec₁) hexec₂⟩
  refine ⟨_, _, _, _, _, hmounted, hlast, hf₂, ?_⟩
  apply (stored_size_iff hmounted (Or.inl ⟨rfl, rfl⟩) hlast hf₂ (Nat.zero_le _)).mpr
  exact ⟨fun hcompressed => absurd hcompressed.2.1 (show ¬ 512 ≤ 0 by decide), rfl⟩

omit [Crc32] [Zstd] in
/-- A file that is flushed, written to and persisted from the buffer has its new size and its
old contents. -/
theorem not_stored_size :
  let _ := Crc32.ieee
  let _ := Zstd.refusing
  ¬ ∀ dm s fs pc f, MountedSession dm s → LastPersist s.log fs pc →
      s.fs.files.get pc.ino = some f → RecordsStored fs pc s.fs f
  := by
  intro _ _ h
  obtain ⟨s, i, hfirst, -⟩ := exists_firstFile
  obtain ⟨s₁, hexec₁, hfs₁⟩ := hfirst.exec_flush
  have hf₁ : s₁.fs.files.get 2 = some { firstFile i with dirty := false } := by
    rw [hfs₁]
    exact FiniteMap.get_insert_self _ _ _
  have hcached₁ : s₁.fs.cache.contents 2 = some [] := by
    rw [hfs₁]
    show (s.fs.cache.get 2).2.contents 2 = some []
    rw [FileCache.contents_get, hfirst.contents]
  have hroom₁ : s₁.fs.cache.Room 0 := by
    rw [hfs₁]
    exact (hfirst.room.get 2).mono (Nat.zero_le _)
  have hexec₂ := Session.exec_write_of_empty Env.still (by decide) (by decide) hf₁ hcached₁ hroom₁
    [7] (by decide)
  let s₂ := s₁.wrote 2 [7]
  have hbuffer₂ : s₂.fs.writeBuffer = (WriteBuffer.new 32 5).write 2 "a" [] i 0 := by
    show s₁.fs.writeBuffer = _
    rw [hfs₁]
  have hf₂ : s₂.fs.files.get 2
      = some { firstFile i with attr := { (firstFile i).attr with size := 1 }, dirty := true } :=
    Session.files_wrote hf₁ [7]
  obtain ⟨s₃, pc, hexec₃, hlast, rfl, hf₃⟩ :=
    Session.lastPersist_destroy (s := s₂) Env.still hbuffer₂ hf₂
  obtain ⟨start, hload, hreach⟩ := hfirst.fresh
  have hstored := h _ _ _ _ _
    ⟨start, hload, .exec _ _ (.exec _ _ (.exec _ _ hreach hexec₁) hexec₂) hexec₃⟩ hlast hf₃
  have hle := PersistCall.length_bytes_le ⟨Env.still.persistence 2, 2, "a", [], i⟩
  rw [← hstored.read.2] at hle
  exact absurd hle (show ¬ (1 : UInt64).toNat ≤ 0 by decide)

end Vexfs
