import Vexfs.Fuse.Mounted

/-!
# Names on disk

A name is stored in a field of 200 bytes, of which it gets 199, and is read back only when
all of its characters are ASCII letters, digits, dots, underscores, hyphens or spaces.  A
record is loaded only when its name starts with a graphic character.  `Storable` says which
names pass all of these, and `name_survives_iff` that these are the names that survive.
-/

namespace Vexfs

open Bytes Storage

/-! ### Names -/

/-- The names the kernel passes on: those of 1 to 255 bytes without a slash or a zero. -/
structure Accepted (name : String) : Prop where
  ne_empty : name ≠ ""
  length_le : (utf8 name).length ≤ 255
  chars : ∀ c ∈ name.toList, c ≠ '/' ∧ c ≠ Char.ofNat 0

/-- The names that fit into the field and have only characters that are read back, the first
of them not a space. -/
structure Storable (name : String) : Prop where
  length_le : (utf8 name).length ≤ 199
  chars : ∀ c ∈ name.toList, InodeRaw.nameChar c = true
  first : name.toList.head? ≠ some ' '

namespace InodeRaw

/-- The characters that are read back lie between the space and the tilde. -/
theorem toNat_nameChar {c : Char} (h : nameChar c = true) :
  32 ≤ c.toNat ∧ c.toNat ≤ 126
  := by
  simp only [nameChar, Bool.or_eq_true, beq_iff_eq, Char.isAlphanum, Char.isAlpha,
    Char.isUpper, Char.isLower, Char.isDigit, Bool.and_eq_true, decide_eq_true_eq,
    UInt32.le_iff_toNat_le, ge_iff_le] at h
  change ((((((65 ≤ c.toNat ∧ c.toNat ≤ 90) ∨ (97 ≤ c.toNat ∧ c.toNat ≤ 122)) ∨
    (48 ≤ c.toNat ∧ c.toNat ≤ 57)) ∨ c = '.') ∨ c = '_') ∨ c = '-') ∨ c = ' ' at h
  rcases h with ((((((h | h) | h) | rfl) | rfl) | rfl) | rfl)
  · omega
  · omega
  · omega
  · decide
  · decide
  · decide
  · decide

end InodeRaw

/-! ### ASCII strings as bytes -/

/-- The byte of an ASCII character. -/
def asciiByte (c : Char) : UInt8 := UInt8.ofNat c.toNat

theorem toNat_asciiByte {c : Char} (h : c.toNat < 128) :
  (asciiByte c).toNat = c.toNat
  := UInt8.toNat_ofNat_of_lt' (h.trans (by decide))

theorem utf8EncodeChar_ascii {c : Char} (h : c.toNat < 128) :
  String.utf8EncodeChar c = [asciiByte c]
  := by
  have hle : c.val.toNat ≤ 127 := Nat.le_of_lt_succ h
  unfold String.utf8EncodeChar
  rw [if_pos hle]
  rfl

/-- An ASCII string has one byte for each character. -/
theorem utf8_ascii {s : String} (h : ∀ c ∈ s.toList, c.toNat < 128) :
  utf8 s = s.toList.map asciiByte
  := by
  unfold utf8
  generalize s.toList = l at h
  induction l with
  | nil => rfl
  | cons c cs ih =>
      rw [List.flatMap_cons, utf8EncodeChar_ascii (h c List.mem_cons_self),
        ih fun c' hc' => h c' (List.mem_cons_of_mem c hc'), List.map_cons, List.singleton_append]

/-- The characters of ASCII bytes have these bytes. -/
theorem toNat_charOfByte {b : UInt8} (h : b < 128) :
  (Char.ofNat b.toNat).toNat = b.toNat
  := by
  have hlt : b.toNat < 128 := h
  rw [Char.toNat_ofNat, if_pos (Or.inl (by omega))]

theorem charOfByte_asciiByte {c : Char} (h : c.toNat < 128) :
  Char.ofNat (asciiByte c).toNat = c
  := by rw [toNat_asciiByte h, Char.ofNat_toNat]

/-! ### The field of a name -/

namespace InodeRaw

/-- The bytes of a field up to the first zero are those of the name up to the first zero. -/
theorem takeWhile_encodeName (name : String) :
  (encodeName name).1.takeWhile (· != 0) = ((utf8 name).take 199).takeWhile (· != 0)
  := by
  have hlen : ((utf8 name).take 199).length ≤ 199 := List.length_take_le _ _
  have hzeros : ∀ n, (zeros n).takeWhile (· != 0) = [] := by
    intro n
    cases n <;> rfl
  have htake : ∀ k, ((zeros 200).take k).takeWhile (· != 0) = [] := by
    intro k
    rw [zeros, List.take_replicate]
    exact hzeros _
  show (((utf8 name).take 199 ++ zeros 200).take 200).takeWhile (· != 0) = _
  rw [List.take_append, List.take_of_length_le (hlen.trans (by decide)), List.takeWhile_append,
    htake, List.append_nil]
  split
  · next heq => exact ((List.takeWhile_prefix _).eq_of_length heq).symm
  · rfl

/-- The bytes of a field that are read as its name. -/
def nameBytes (name : String) : List UInt8 := ((utf8 name).take 199).takeWhile (· != 0)

theorem length_nameBytes_le (name : String) :
  (nameBytes name).length ≤ 199
  := ((List.takeWhile_prefix _).length_le).trans (List.length_take_le _ _)

/-- The name that is read, when it is not empty. -/
theorem decodeName_encodeName_iff {name read : String} (hne : read ≠ "") :
  decodeName (encodeName name).1 = read ↔ (∀ b ∈ nameBytes name, b < 128)
    ∧ (∀ c ∈ read.toList, nameChar c = true)
    ∧ read.toList = (nameBytes name).map fun b => Char.ofNat b.toNat
  := by
  unfold decodeName
  dsimp only
  rw [takeWhile_encodeName]
  show (if _ then String.ofList ((nameBytes name).map _) else "") = read ↔ _
  constructor
  · intro h
    split at h
    · next hall =>
      subst h
      simp only [Bool.and_eq_true, List.all_eq_true, decide_eq_true_eq] at hall
      rw [String.toList_ofList]
      exact ⟨hall.1, hall.2, rfl⟩
    · exact absurd h.symm hne
  · rintro ⟨hbytes, hchars, heq⟩
    rw [if_pos]
    · rw [← heq, String.ofList_toList]
    · simp only [Bool.and_eq_true, List.all_eq_true, decide_eq_true_eq]
      exact ⟨hbytes, heq ▸ hchars⟩

/-- The first byte of a field is the first one of the name, or zero. -/
theorem headD_encodeName (name : String) :
  (encodeName name).1.headD 0 = ((utf8 name).take 199).headD 0
  := by
  show (((utf8 name).take 199 ++ zeros 200).take 200).headD 0 = _
  cases (utf8 name).take 199 with
  | nil => rfl
  | cons b bs => rfl

/-- A used record with a name is valid when the first byte of the name can be printed and is
no space. -/
theorem isValid_setName_iff (name : String) {inode : InodeRaw} (hused : inode.isUsed ≠ 0) :
  (inode.setName name).isValid = true
    ↔ 33 ≤ ((utf8 name).take 199).headD 0 ∧ ((utf8 name).take 199).headD 0 ≤ 126
  := by
  rw [← headD_encodeName]
  have hused' : (inode.isUsed != 0) = true := bne_iff_ne.mpr hused
  simp only [isValid, setName, hused', Bool.true_and, Bool.and_eq_true, bne_iff_ne]
  constructor
  · rintro ⟨-, hlo, hhi⟩
    exact ⟨of_decide_eq_true hlo, of_decide_eq_true hhi⟩
  · rintro ⟨hlo, hhi⟩
    refine ⟨?_, decide_eq_true hlo, decide_eq_true hhi⟩
    intro hzero
    rw [hzero] at hlo
    exact absurd hlo (by decide)

end InodeRaw

/-! ### Names that are kept -/

namespace Storable

open InodeRaw

variable {name : String}

/-- The characters of a storable name are the printable ones of ASCII. -/
theorem toNat_char {c : Char} (h : Storable name) (hc : c ∈ name.toList) :
  32 ≤ c.toNat ∧ c.toNat ≤ 126
  := toNat_nameChar (h.chars c hc)

theorem toNat_byte {c : Char} (h : Storable name) (hc : c ∈ name.toList) :
  (asciiByte c).toNat = c.toNat
  := by
  apply toNat_asciiByte
  have hle := (h.toNat_char hc).2
  omega

/-- A storable name is kept whole in the field, one byte for each character. -/
theorem take_utf8 (h : Storable name) :
  (utf8 name).take 199 = name.toList.map asciiByte
  := by
  rw [List.take_of_length_le h.length_le]
  apply utf8_ascii
  intro c hc
  have hle := (h.toNat_char hc).2
  omega

theorem nameBytes_eq (h : Storable name) :
  nameBytes name = name.toList.map asciiByte
  := by
  rw [nameBytes, h.take_utf8, List.takeWhile_eq_self_iff]
  intro b hb
  obtain ⟨c, hc, rfl⟩ := List.mem_map.mp hb
  rw [bne_iff_ne]
  intro hzero
  have hnat := h.toNat_byte hc
  rw [hzero] at hnat
  have hle := (h.toNat_char hc).1
  have h0 : (0 : UInt8).toNat = 0 := rfl
  omega

end Storable

namespace InodeRaw

/-- A used record is valid and has its name exactly when the name is storable. -/
theorem name_round_trip_iff {name : String} (hne : name ≠ "") {inode : InodeRaw}
    (hused : inode.isUsed ≠ 0) :
  ((inode.setName name).isValid = true ∧ (inode.setName name).getName = name) ↔ Storable name
  := by
  have hget : (inode.setName name).getName = decodeName (encodeName name).1 := rfl
  rw [hget, decodeName_encodeName_iff hne, isValid_setName_iff name hused]
  obtain ⟨c, cs, hcons⟩ : ∃ c cs, name.toList = c :: cs := by
    cases hlist : name.toList with
    | nil => exact absurd (String.toList_eq_nil_iff.mp hlist) hne
    | cons c cs => exact ⟨c, cs, rfl⟩
  constructor
  · rintro ⟨⟨hlo, -⟩, hbytes, hchars, heq⟩
    have hascii : utf8 name = name.toList.map asciiByte := utf8_ascii fun c hc => by
      have := (toNat_nameChar (hchars c hc)).2
      omega
    constructor
    · rw [hascii, List.length_map, heq, List.length_map]
      exact length_nameBytes_le name
    · exact hchars
    · rw [hcons, List.head?_cons]
      intro hspace
      obtain rfl := Option.some.inj hspace
      have hhead : ((' ' :: cs).map asciiByte |>.take 199).headD 0 = 32 := rfl
      rw [hascii, hcons, hhead] at hlo
      exact absurd hlo (by decide)
  · intro h
    refine ⟨?_, ?_, h.chars, ?_⟩
    · have hc : c ∈ name.toList := by
        rw [hcons]
        exact List.mem_cons_self
      have hfirst : c.toNat ≠ 32 := by
        intro h32
        apply h.first
        rw [hcons, List.head?_cons]
        apply congrArg some
        exact Char.toNat_inj.mp h32
      have hb := h.toNat_byte hc
      have hr := h.toNat_char hc
      rw [h.take_utf8, hcons, List.map_cons, List.headD_cons]
      constructor
      · show 33 ≤ (asciiByte c).toNat
        omega
      · show (asciiByte c).toNat ≤ 126
        omega
    · intro b hb
      rw [h.nameBytes_eq] at hb
      obtain ⟨c, hc, rfl⟩ := List.mem_map.mp hb
      show (asciiByte c).toNat < 128
      have hb := h.toNat_byte hc
      have hr := h.toNat_char hc
      omega
    · rw [h.nameBytes_eq, List.map_map]
      apply Eq.trans (List.map_id _).symm
      apply List.map_congr_left
      intro c hc
      have hr := h.toNat_char hc
      exact (charOfByte_asciiByte (c := c) (by omega)).symm

end InodeRaw

/-! ### Loading -/

variable [Crc32] [Zstd]

/-- Whether the name of an inode is there after encoding, decoding and loading it. -/
def NameSurvives (inode : InodeRaw) (name : String) : Prop :=
  ∃ inode', InodeRaw.fromBytes (inode.setName name).toBytes = .ok inode'
    ∧ inode'.isValid = true ∧ inode'.getName = name
    ∧ ∀ (fs fs' : VexFS) (i : ℕ), fs.disk.readInode i = .ok inode' →
      fs.loadInodes [i] = .ok fs' → ∃ f, fs'.files.get inode.ino = some f ∧ f.name = name

/-- A valid inode with a name is loaded under its name. -/
theorem VexFS.name_loadInodes {fs fs' : VexFS} {i : ℕ} {inode : InodeRaw}
    (hread : fs.disk.readInode i = .ok inode) (hvalid : inode.isValid = true)
    (hname : inode.getName ≠ "") (hload : fs.loadInodes [i] = .ok fs') :
  ∃ f, fs'.files.get inode.ino = some f ∧ f.name = inode.getName
  := by
  rw [loadInodes, hread] at hload
  dsimp only at hload
  rw [if_pos ⟨hvalid, hname⟩] at hload
  unfold loadInode at hload
  dsimp only at hload
  split at hload
  · cases hload
  · obtain rfl := Except.ok.inj hload
    exact ⟨_, FiniteMap.get_insert_self _ _ _, rfl⟩

/-- A name that the kernel passes on survives exactly when it is storable. -/
theorem name_survives_iff {name : String} (haccepted : Accepted name) {inode : InodeRaw}
    (hused : inode.isUsed ≠ 0) :
  NameSurvives inode name ↔ Storable name
  := by
  rw [← InodeRaw.name_round_trip_iff haccepted.ne_empty hused]
  constructor
  · rintro ⟨inode', hdecode, hvalid, hname, -⟩
    rw [InodeRaw.fromBytes_toBytes] at hdecode
    obtain rfl := Except.ok.inj hdecode
    exact ⟨hvalid, hname⟩
  · rintro ⟨hvalid, hname⟩
    refine ⟨inode.setName name, InodeRaw.fromBytes_toBytes _, hvalid, hname, ?_⟩
    intro fs fs' i hread hload
    have hne : (inode.setName name).getName ≠ "" := hname.symm ▸ haccepted.ne_empty
    obtain ⟨f, hf, hf'⟩ := VexFS.name_loadInodes hread hvalid hne hload
    exact ⟨f, hf, hf'.trans hname⟩

omit [Crc32] [Zstd] in
theorem storable_notes :
  Storable "notes 1.txt"
  := ⟨by decide, List.all_eq_true.mp (by decide), by decide⟩

omit [Crc32] [Zstd] in
/-- An ordinary name survives. -/
theorem name_survives_notes :
  let _ := Crc32.ieee
  let _ := Zstd.refusing
  NameSurvives { InodeRaw.empty with isUsed := 1 } "notes 1.txt"
  := by
  intro _ _
  have haccepted : Accepted "notes 1.txt" := ⟨by decide, by decide, by simp⟩
  exact (name_survives_iff haccepted (by decide)).mpr storable_notes

omit [Crc32] [Zstd] in
/-- A name with a plus sign does not survive. -/
theorem not_name_survives :
  let _ := Crc32.ieee
  let _ := Zstd.refusing
  ¬ ∀ name, Accepted name → ∀ inode : InodeRaw, inode.isUsed ≠ 0 → NameSurvives inode name
  := by
  intro _ _ h
  have haccepted : Accepted "c++" := ⟨by decide, by decide, by simp⟩
  obtain ⟨inode', hdecode, -, hname, -⟩ :=
    h "c++" haccepted { InodeRaw.empty with isUsed := 1 } (by decide)
  rw [InodeRaw.fromBytes_toBytes] at hdecode
  obtain rfl := Except.ok.inj hdecode
  have hstorable := (InodeRaw.decodeName_encodeName_iff (by decide)).mp hname
  exact absurd (hstorable.2.1 '+' (by decide)) (by decide)

end Vexfs
