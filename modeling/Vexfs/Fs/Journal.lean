import Vexfs.Fs.Disk
import Vexfs.Storage.Redo

/-!
# The write-ahead journal

The journal is a region of the image that starts with a header and goes on with 512 slots
of 512 bytes.  An entry records a write of at most 490 bytes at an offset of the image, or
the commit of a transaction.  Entries are appended slot by slot; a longer write is split
over several entries of one transaction.  `Journal.open` reads the slots up to the first one
that is free or does not decode, and gives the write entries of the transactions that have a
commit entry among those read.
-/

namespace Vexfs

open Bytes Storage

/-! ### Layout -/

/-- Where the journal starts: after the superblock, the inode table and the snapshot
table. -/
def journalOffset : Nat := 4096 + 1024 * 256 + 256 * 512

def journalHeaderSize : Nat := 64

def journalEntrySize : Nat := 512

def maxJournalEntries : Nat := 512

def journalMagic : UInt64 := 0x4A524E4C00000001

def journalRegionSize : Nat := journalHeaderSize + maxJournalEntries * journalEntrySize

def journalPayloadSize : Nat := 490

/-- Where slot `i` of the journal starts. -/
def slotOffset (i : Nat) : Nat := journalOffset + journalHeaderSize + i * journalEntrySize

def entryFree : UInt8 := 0
def entryWriteInode : UInt8 := 1
def entryWriteData : UInt8 := 2
def entryCommit : UInt8 := 4

def stateFree : UInt8 := 0
def stateWritten : UInt8 := 1

/-! ### The header -/

structure JournalHeader where
  magic : UInt64
  version : UInt32
  nextTxId : UInt32
  entryCount : UInt32
deriving DecidableEq, Repr

namespace JournalHeader

def new : JournalHeader where
  magic := journalMagic
  version := 1
  nextTxId := 1
  entryCount := 0

/-- The 20 bytes the checksum of the header covers. -/
def body (h : JournalHeader) : List UInt8 :=
  u64ToLe h.magic ++ (u32ToLe h.version ++ (u32ToLe h.nextTxId ++ u32ToLe h.entryCount))

@[simp]
theorem length_body (h : JournalHeader) :
  h.body.length = 20
  := by
  simp [body]

def isValid (h : JournalHeader) : Bool := h.magic == journalMagic

variable [Crc32]

def toBytes (h : JournalHeader) : List UInt8 :=
  h.body ++ (u32ToLe (crc32 h.body) ++ zeros 40)

def fromBytes (b : List UInt8) : DiskResult JournalHeader := do
  let stored := leToU32 (field b 20 24)
  verifyCrc32 (b.take 20) stored
  return {
    magic := leToU64 (field b 0 8)
    version := leToU32 (field b 8 12)
    nextTxId := leToU32 (field b 12 16)
    entryCount := leToU32 (field b 16 20) }

@[simp]
theorem length_toBytes (h : JournalHeader) :
  h.toBytes.length = journalHeaderSize
  := by
  simp [toBytes, journalHeaderSize]

/-- Decoding an encoded header gives it back. -/
theorem fromBytes_toBytes (h : JournalHeader) :
  fromBytes h.toBytes = .ok h
  := by
  have hbody : h.toBytes.take 20 = h.body := by
    rw [toBytes, List.take_append_of_le_length (by simp), List.take_of_length_le (by simp)]
  have hcrc : field h.toBytes 20 24 = u32ToLe (crc32 h.body) := by
    rw [toBytes, field_append_right (by simp), length_body]
    apply field_head (length_u32ToLe _)
  simp only [fromBytes, hbody, hcrc, leToU32_u32ToLe, verifyCrc32_crc32]
  simp (disch := simp) only [toBytes, body, List.append_assoc, field_append_right, field_head,
    length_u64ToLe, length_u32ToLe, Nat.reduceSub, leToU64_u64ToLe, leToU32_u32ToLe]
  rfl

end JournalHeader

/-! ### Entries -/

structure JournalEntry where
  entryType : UInt8
  state : UInt8
  txId : UInt32
  payloadLen : UInt32
  diskOffset : UInt64
  payload : Block 490
deriving DecidableEq, Repr

namespace JournalEntry

def empty : JournalEntry where
  entryType := entryFree
  state := stateFree
  txId := 0
  payloadLen := 0
  diskOffset := 0
  payload := Block.zeros 490

/-- The 18 bytes of an entry before its checksum. -/
def head (e : JournalEntry) : List UInt8 :=
  [e.entryType] ++ ([e.state] ++ (u32ToLe e.txId ++ (u32ToLe e.payloadLen
    ++ (u32ToLe e.diskOffset.toUInt32 ++ u32ToLe (e.diskOffset >>> 32).toUInt32))))

@[simp]
theorem length_head (e : JournalEntry) :
  e.head.length = 18
  := by
  simp [head]

/-- The number of payload bytes the checksum covers. -/
def coveredLen (payloadLen : UInt32) : Nat := min payloadLen.toNat journalPayloadSize

def isFree (e : JournalEntry) : Bool := e.entryType == entryFree

/-- The two halves of a 64-bit offset put together again. -/
theorem offset_halves (v : UInt64) :
  (v >>> 32).toUInt32.toUInt64 <<< 32 ||| v.toUInt32.toUInt64 = v
  := by
  have hlo := Nat.mod_lt v.toNat (show 0 < 2 ^ 32 by decide)
  have hv := v.toNat_lt
  have hhi : (v >>> 32).toUInt32.toUInt64.toNat = v.toNat / 2 ^ 32 := by
    simp [UInt64.toNat_shiftRight, Nat.shiftRight_eq_div_pow]
    omega
  have hl : v.toUInt32.toUInt64.toNat = v.toNat % 2 ^ 32 := by
    simp
  have hshift : (v.toNat / 2 ^ 32) <<< ((32 : UInt64).toNat % 64)
      = 2 ^ 32 * (v.toNat / 2 ^ 32) := by
    rw [Nat.shiftLeft_eq]
    simp [Nat.mul_comm]
  apply UInt64.toNat_inj.mp
  rw [UInt64.toNat_or, UInt64.toNat_shiftLeft, hhi, hl, hshift, Nat.mod_eq_of_lt (by omega),
    ← Nat.two_pow_add_eq_or_of_lt hlo]
  omega

variable [Crc32]

def toBytes (e : JournalEntry) : List UInt8 :=
  e.head ++ (u32ToLe (crc32 (e.head ++ e.payload.1.take (coveredLen e.payloadLen)))
    ++ e.payload.1)

def fromBytes (b : List UInt8) : DiskResult JournalEntry := do
  let entryType := (field b 0 1).headD 0
  let payloadLen := leToU32 (field b 6 10)
  let offsetLo := (leToU32 (field b 10 14)).toUInt64
  let offsetHi := (leToU32 (field b 14 18)).toUInt64
  let stored := leToU32 (field b 18 22)
  if entryType ≠ entryFree then
    verifyCrc32 (b.take 18 ++ field b 22 (22 + coveredLen payloadLen)) stored
  return {
    entryType
    state := (field b 1 2).headD 0
    txId := leToU32 (field b 2 6)
    payloadLen
    diskOffset := offsetHi <<< 32 ||| offsetLo
    payload := Block.ofList 490 (field b 22 512) }

@[simp]
theorem length_toBytes (e : JournalEntry) :
  e.toBytes.length = journalEntrySize
  := by
  simp [toBytes, e.payload.2, journalEntrySize]

/-- Decoding an encoded entry gives it back. -/
theorem fromBytes_toBytes (e : JournalEntry) :
  fromBytes e.toBytes = .ok e
  := by
  have hhead : e.toBytes.take 18 = e.head := by
    rw [toBytes, List.take_append_of_le_length (by simp), List.take_of_length_le (by simp)]
  have hpayload : ∀ n ≤ 490, field e.toBytes 22 (22 + n) = e.payload.1.take n := by
    intro n hn
    have hsub : 22 + n - 18 - 4 = n := by omega
    rw [toBytes, field_append_right (by simp), field_append_right (by simp)]
    simp [field, hsub]
  have hlen : field e.toBytes 6 10 = u32ToLe e.payloadLen := by
    simp (disch := simp) only [toBytes, head, List.append_assoc, field_append_right,
      field_head, List.length_singleton, length_u32ToLe, Nat.reduceSub]
  have hcrc : field e.toBytes 18 22
      = u32ToLe (crc32 (e.head ++ e.payload.1.take (coveredLen e.payloadLen))) := by
    rw [toBytes, field_append_right (by simp), length_head]
    apply field_head (length_u32ToLe _)
  have hall : field e.toBytes 22 512 = e.payload.1 := by
    rw [hpayload 490 (Nat.le_refl _), List.take_of_length_le (Nat.le_of_eq e.payload.2)]
  have hcovered : coveredLen e.payloadLen ≤ 490 := Nat.min_le_right _ _
  simp only [fromBytes, hhead, hlen, leToU32_u32ToLe, hcrc, hall, hpayload _ hcovered,
    verifyCrc32_crc32]
  simp (disch := simp) only [toBytes, head, List.append_assoc, field_append_right, field_head,
    List.length_singleton, length_u32ToLe, Nat.reduceSub, List.headD_cons, leToU32_u32ToLe,
    Block.ofList_val, offset_halves]
  split <;> rfl

/-- A slot whose first byte is zero decodes to a free entry. -/
theorem exists_free_of_headD {b : List UInt8} (h : (field b 0 1).headD 0 = entryFree) :
  ∃ e, fromBytes b = .ok e ∧ e.isFree = true
  := by
  simp only [fromBytes, h]
  rw [if_neg (by simp)]
  exact ⟨_, rfl, by simp [isFree]⟩

end JournalEntry

/-! ### The journal -/

/-- The journal in memory: its header and the slot of the next entry. -/
structure Journal where
  header : JournalHeader
  nextSlot : Nat
deriving DecidableEq, Repr

/-- The writes that zero the first `n` slots of the journal, in order. -/
def zeroSlots (n : Nat) : List FileWrite :=
  (List.range n).map fun i => ⟨slotOffset i, zeros journalEntrySize⟩

namespace Journal

variable [Crc32]

/-- A new journal on a freshly formatted image. -/
def format (file : File) : Journal × File :=
  let header := JournalHeader.new
  let file := file.write journalOffset header.toBytes
  (⟨header, 0⟩, file.append (zeroSlots maxJournalEntries))

/-- The entries of the `n` slots from slot `i` on, up to the first slot that is free or
does not decode. -/
def readEntries (file : File) : Nat → Nat → DiskResult (List JournalEntry)
  | 0, _ => .ok []
  | n + 1, i =>
      match readBytes file (slotOffset i) journalEntrySize with
      | .error e => .error e
      | .ok buf =>
          match JournalEntry.fromBytes buf with
          | .ok entry =>
              if entry.isFree then .ok []
              else
                match readEntries file n (i + 1) with
                | .error e => .error e
                | .ok entries => .ok (entry :: entries)
          | .error _ => .ok []

/-- The transactions with a commit entry among the given ones. -/
def committedTxs (entries : List JournalEntry) : List UInt32 :=
  (entries.filter fun e => e.entryType == entryCommit && e.state == stateWritten).map
    JournalEntry.txId

/-- The write entries of the committed transactions, in the order of their slots. -/
def toReplay (entries : List JournalEntry) : List JournalEntry :=
  entries.filter fun e =>
    (committedTxs entries).contains e.txId && e.state == stateWritten
      && (e.entryType == entryWriteInode || e.entryType == entryWriteData)

/-- Open the journal of an image: the journal and the entries to replay.  The next slot is
the one after the last entry read. -/
def «open» (file : File) : DiskResult (Journal × List JournalEntry) := do
  let hdrBuf ← readBytes file journalOffset journalHeaderSize
  match JournalHeader.fromBytes hdrBuf with
  | .ok header =>
      if header.isValid then
        let entries ← readEntries file maxJournalEntries 0
        return (⟨header, entries.length⟩, toReplay entries)
      else
        return (⟨JournalHeader.new, 0⟩, [])
  | .error _ => return (⟨JournalHeader.new, 0⟩, [])

/-- Begin a transaction. -/
def begin (journal : Journal) : UInt32 × Journal :=
  let id := journal.header.nextTxId
  (id, { journal with header := { journal.header with nextTxId := id + 1 } })

/-- Append an entry to the next slot and update the header on disk. -/
def writeEntry (journal : Journal) (file : File) (entry : JournalEntry) :
    DiskResult Unit × Journal × File :=
  if maxJournalEntries ≤ journal.nextSlot then
    (.error (.io .other "journal full — checkpoint required"), journal, file)
  else
    let file := file.write (slotOffset journal.nextSlot) entry.toBytes
    let nextSlot := journal.nextSlot + 1
    let header := { journal.header with entryCount := UInt32.ofNat nextSlot }
    (.ok (), ⟨header, nextSlot⟩, file.write journalOffset header.toBytes)

/-- The entry of a write of at most 490 bytes. -/
def writeOf (entryType : UInt8) (txId : UInt32) (diskOffset : UInt64) (bytes : List UInt8) :
    JournalEntry where
  entryType
  state := stateWritten
  txId
  payloadLen := UInt32.ofNat bytes.length
  diskOffset
  payload := Block.ofList 490 bytes

/-- Append the entry of an inode write at an absolute offset. -/
def logInodeWriteAt (journal : Journal) (file : File) (txId : UInt32) (diskOffset : UInt64)
    (bytes : List UInt8) : DiskResult Unit × Journal × File :=
  if journalPayloadSize < bytes.length then
    (.error (.panic "inode_bytes too large for journal payload"), journal, file)
  else
    journal.writeEntry file (writeOf entryWriteInode txId diskOffset bytes)

/-- Append the entry of one chunk of a data write. -/
def logDataWriteChunk (journal : Journal) (file : File) (txId : UInt32) (diskOffset : UInt64)
    (chunk : List UInt8) : DiskResult Unit × Journal × File :=
  journal.writeEntry file (writeOf entryWriteData txId diskOffset chunk)

/-- Append the entries of the chunks of a data write, each at the offset where the one
before ends. -/
def logDataWriteChunks (journal : Journal) (file : File) (txId : UInt32) (offset : UInt64) :
    List (List UInt8) → DiskResult Unit × Journal × File
  | [] => (.ok (), journal, file)
  | chunk :: rest =>
      match journal.logDataWriteChunk file txId offset chunk with
      | (.error e, journal, file) => (.error e, journal, file)
      | (.ok (), journal, file) =>
          journal.logDataWriteChunks file txId (offset + UInt64.ofNat chunk.length) rest

/-- Append the entries of a data write of any length, when the slots left hold them and a
commit entry. -/
def logDataWriteAll (journal : Journal) (file : File) (txId : UInt32) (diskOffset : UInt64)
    (data : List UInt8) : DiskResult Nat × Journal × File :=
  if data = [] then (.ok 0, journal, file)
  else
    let chunksNeeded := (data.length + journalPayloadSize - 1) / journalPayloadSize
    let slotsAvailable := maxJournalEntries - journal.nextSlot
    -- one slot stays reserved for the commit entry
    if slotsAvailable < chunksNeeded + 1 then
      (.error (.io .other ("journal full: need " ++ toString (chunksNeeded + 1)
        ++ " slots for data + commit, only " ++ toString slotsAvailable ++ " free")),
        journal, file)
    else
      let pieces := chunks journalPayloadSize data
      match journal.logDataWriteChunks file txId diskOffset pieces with
      | (.error e, journal, file) => (.error e, journal, file)
      | (.ok (), journal, file) => (.ok pieces.length, journal, file)

/-- The commit entry of a transaction. -/
def commitOf (txId : UInt32) : JournalEntry :=
  { JournalEntry.empty with entryType := entryCommit, state := stateWritten, txId }

/-- Commit a transaction. -/
def commit (journal : Journal) (file : File) (txId : UInt32) :
    DiskResult Unit × Journal × File :=
  journal.writeEntry file (commitOf txId)

/-- Clear the journal: the header with no entries, then every slot zeroed. -/
def clear (journal : Journal) (file : File) : Journal × File :=
  let header := { journal.header with entryCount := 0 }
  let file := file.write journalOffset header.toBytes
  (⟨header, 0⟩, file.append (zeroSlots maxJournalEntries))

omit [Crc32] in
/-- Whether the journal is nearly full. -/
def needsCheckpoint (journal : Journal) : Bool :=
  maxJournalEntries - 16 ≤ journal.nextSlot

end Journal

end Vexfs
