import RocketDb.Util.Crc32c
import RocketDb.Util.Env

/-! # The log format (`wal/log_format.h`, `wal/log_writer.cc`, `wal/log_reader.cc`)

A log is a sequence of blocks of 32 KiB. A record is stored as one or more **physical records**, each inside
one block: a checksum, a length, a type and a fragment. A block's last bytes are padding if no header fits.
Buffers are taken to be aligned, which does not matter for checksums (`Crc32c.extend_eq`).

* **`Writer.addRecord`** — cuts a record into fragments and appends them.
* **`Reader.readRecord`** — puts the fragments together again and reports damage. -/

namespace RocketDb

namespace Log

/-- The types of physical records. -/
inductive RecordType where
  | kZeroType
  | kFullType
  | kFirstType
  | kMiddleType
  | kLastType
  deriving DecidableEq, Repr

/-- The number of a record type. -/
def RecordType.toNat : RecordType → ℕ
  | .kZeroType => 0
  | .kFullType => 1
  | .kFirstType => 2
  | .kMiddleType => 3
  | .kLastType => 4

/-- `kMaxRecordType`. -/
def kMaxRecordType : ℕ := RecordType.kLastType.toNat

/-- The size of a block. -/
def kBlockSize : ℕ := 32768

/-- The size of a header: checksum, length and type. -/
def kHeaderSize : ℕ := 4 + 2 + 1

/-! ## The writer -/

/-- `log::Writer`. -/
structure Writer where
  dest : WritableFile
  /-- The current offset in the block. -/
  blockOffset : ℕ
  deriving DecidableEq, Repr

/-- A writer on an empty file. -/
def Writer.new (dest : WritableFile) : Writer := ⟨dest, 0⟩

/-- A writer on a file of the given length. -/
def Writer.reuse (dest : WritableFile) (destLength : ℕ) : Writer := ⟨dest, destLength % kBlockSize⟩

/-- `type_crc_`: the checksum of a type. -/
def typeCrc (t : RecordType) : UInt32 := Crc32c.value 0 [UInt8.ofNat t.toNat]

/-- The header of a physical record. -/
def header (t : RecordType) (fragment : Slice) : Slice :=
  encodeFixed32 (Crc32c.mask (Crc32c.extend 0 (typeCrc t) fragment)) ++
    [UInt8.ofNat (fragment.length % 256), UInt8.ofNat (fragment.length / 256), UInt8.ofNat t.toNat]

/-- `EmitPhysicalRecord`. The offset advances even if the file fails. -/
def Writer.emitPhysicalRecord (w : Writer) (t : RecordType) (fragment : Slice) : Writer × Status :=
  let blockOffset := w.blockOffset + kHeaderSize + fragment.length
  match w.dest.append (header t fragment) with
  | (dest, .error c m) => (⟨dest, blockOffset⟩, .error c m)
  | (dest, .ok) =>
    match dest.append fragment with
    | (dest, .error c m) => (⟨dest, blockOffset⟩, .error c m)
    | (dest, .ok) => (⟨dest.flush.1, blockOffset⟩, dest.flush.2)

/-- The part of an iteration of `AddRecord` that switches to a new block. -/
def Writer.switchBlock (w : Writer) : Writer :=
  let leftover := kBlockSize - w.blockOffset
  if leftover < kHeaderSize then
    ⟨if 0 < leftover then (w.dest.append (List.replicate leftover 0)).1 else w.dest, 0⟩
  else w

/-- The type of a fragment. -/
def fragmentType (first last : Bool) : RecordType :=
  if first && last then .kFullType
  else if first then .kFirstType
  else if last then .kLastType
  else .kMiddleType

/-- The loop of `AddRecord`. -/
def Writer.addLoop : ℕ → Writer → Slice → Bool → Option (Writer × Status)
  | 0, _, _, _ => none
  | fuel + 1, w, left, first =>
    let w := w.switchBlock
    let avail := kBlockSize - w.blockOffset - kHeaderSize
    let fragmentLength := if left.length < avail then left.length else avail
    let last := left.length == fragmentLength
    let (w, s) := w.emitPhysicalRecord (fragmentType first last) (left.take fragmentLength)
    let left := left.drop fragmentLength
    if s.isOk && !left.isEmpty then w.addLoop fuel left false else some (w, s)

/-- **`AddRecord`**. -/
def Writer.addRecord (w : Writer) (record : Slice) : Option (Writer × Status) :=
  w.addLoop (record.length + 2) record true

/-- Calls of `AddRecord` that all return OK. -/
def Writer.addAll (w : Writer) : List Slice → Option Writer
  | [] => some w
  | record :: records =>
    match w.addRecord record with
    | some (w, .ok) => w.addAll records
    | _ => none

/-! ## The reader -/

/-- `log::Reader`, with what its reporter was told. -/
structure Reader where
  file : SequentialFile
  checksum : Bool
  /-- The part of the block in memory that has not been parsed. -/
  buffer : Slice
  eof : Bool
  lastRecordOffset : UInt64
  endOfBufferOffset : UInt64
  initialOffset : UInt64
  resyncing : Bool
  /-- The calls of `Reporter::Corruption`. -/
  reports : List (ℕ × Status)
  deriving DecidableEq, Repr

/-- The constructor. -/
def Reader.new (file : SequentialFile) (checksum : Bool) (initialOffset : UInt64) : Reader :=
  ⟨file, checksum, [], false, 0, 0, initialOffset, decide (0 < initialOffset), []⟩

/-- The end of the file, as a record type. -/
def kEof : ℕ := kMaxRecordType + 1

/-- An invalid physical record, as a record type. -/
def kBadRecord : ℕ := kMaxRecordType + 2

/-- `ReportDrop`. -/
def Reader.reportDrop (r : Reader) (bytes : ℕ) (reason : Status) : Reader :=
  if r.initialOffset ≤ r.endOfBufferOffset - UInt64.ofNat r.buffer.length - UInt64.ofNat bytes then
    { r with reports := r.reports ++ [(bytes, reason)] }
  else r

/-- `ReportCorruption`. -/
def Reader.reportCorruption (r : Reader) (bytes : ℕ) (reason : Slice) : Reader :=
  r.reportDrop bytes (.corruption reason [])

/-- `SkipToInitialBlock`. -/
def Reader.skipToInitialBlock (r : Reader) : Reader × Bool :=
  let offsetInBlock := r.initialOffset.toNat % kBlockSize
  let start := r.initialOffset.toNat - offsetInBlock
  let start := if kBlockSize - 6 < offsetInBlock then start + kBlockSize else start
  let r := { r with endOfBufferOffset := UInt64.ofNat start }
  if 0 < start then
    let (file, status) := r.file.skip start
    let r := { r with file := file }
    if status.isOk then (r, true) else (r.reportDrop start status, false)
  else (r, true)

/-- The part of `ReadPhysicalRecord` that reads blocks until a header is in memory, or the end of the
file is reached. -/
def Reader.fill (r : Reader) : Reader × Bool :=
  if r.buffer.length < kHeaderSize then
    if r.eof then ({ r with buffer := [] }, false)
    else
      let (file, status, bytes) := r.file.read kBlockSize
      let r := { r with
        file := file, buffer := bytes
        endOfBufferOffset := r.endOfBufferOffset + UInt64.ofNat bytes.length }
      if status.isOk then
        let r := { r with eof := decide (bytes.length < kBlockSize) }
        -- back at the start of the loop: a block without a header is the last one
        if bytes.length < kHeaderSize then ({ r with buffer := [] }, false) else (r, true)
      else
        (({ r with buffer := [], eof := true } : Reader).reportDrop kBlockSize status, false)
  else (r, true)

/-- A header byte as an `unsigned int`: `char` is signed. -/
def typeOfByte (b : UInt8) : ℕ := if b.toNat < 128 then b.toNat else 2 ^ 32 - 256 + b.toNat

/-- The part of `ReadPhysicalRecord` that parses the physical record at the start of the buffer. -/
def Reader.parsePhysicalRecord (r : Reader) : Reader × ℕ × Slice :=
  let a := (r.buffer.getD 4 0).toNat
  let b := (r.buffer.getD 5 0).toNat
  let type := typeOfByte (r.buffer.getD 6 0)
  let length := a ||| b <<< 8
  let dropSize := r.buffer.length
  if dropSize < kHeaderSize + length then
    let r := { r with buffer := [] }
    if r.eof then (r, kEof, [])
    else (r.reportCorruption dropSize (ascii "bad record length"), kBadRecord, [])
  else if type = RecordType.kZeroType.toNat ∧ length = 0 then ({ r with buffer := [] }, kBadRecord, [])
  else if r.checksum ∧ Crc32c.value 0 ((r.buffer.drop 6).take (1 + length)) ≠
      Crc32c.unmask (decodeFixed32 r.buffer) then
    let r := { r with buffer := [] }
    (r.reportCorruption dropSize (ascii "checksum mismatch"), kBadRecord, [])
  else
    let result := (r.buffer.drop kHeaderSize).take length
    let r := { r with buffer := r.buffer.drop (kHeaderSize + length) }
    if r.endOfBufferOffset - UInt64.ofNat r.buffer.length - UInt64.ofNat kHeaderSize -
        UInt64.ofNat length < r.initialOffset then (r, kBadRecord, [])
    else (r, type, result)

/-- `ReadPhysicalRecord`. -/
def Reader.readPhysicalRecord (r : Reader) : Reader × ℕ × Slice :=
  match r.fill with
  | (r, false) => (r, kEof, [])
  | (r, true) => r.parsePhysicalRecord

/-- The local variables of `ReadRecord`. -/
structure ReadState where
  scratch : Slice
  inFragmentedRecord : Bool
  prospectiveRecordOffset : UInt64
  deriving DecidableEq, Repr

/-- A record that was being put together has no end. -/
def Reader.reportPartial (r : Reader) (st : ReadState) (reason : Slice) : Reader :=
  if st.inFragmentedRecord ∧ st.scratch ≠ [] then r.reportCorruption st.scratch.length reason else r

/-- What `ReadRecord` does with a physical record: return a result, or go on. -/
def Reader.handle (r : Reader) (st : ReadState) (type : ℕ) (fragment : Slice) :
    (Reader × Option Slice) ⊕ (Reader × ReadState) :=
  let offset := r.endOfBufferOffset - UInt64.ofNat r.buffer.length - UInt64.ofNat kHeaderSize -
    UInt64.ofNat fragment.length
  if type = RecordType.kFullType.toNat then
    let r := r.reportPartial st (ascii "partial record without end(1)")
    .inl ({ r with lastRecordOffset := offset }, some fragment)
  else if type = RecordType.kFirstType.toNat then
    .inr (r.reportPartial st (ascii "partial record without end(2)"), ⟨fragment, true, offset⟩)
  else if type = RecordType.kMiddleType.toNat then
    if st.inFragmentedRecord then .inr (r, { st with scratch := st.scratch ++ fragment })
    else
      .inr (r.reportCorruption fragment.length (ascii "missing start of fragmented record(1)"), st)
  else if type = RecordType.kLastType.toNat then
    if st.inFragmentedRecord then
      .inl ({ r with lastRecordOffset := st.prospectiveRecordOffset }, some (st.scratch ++ fragment))
    else
      .inr (r.reportCorruption fragment.length (ascii "missing start of fragmented record(2)"), st)
  else if type = kEof then .inl (r, none)
  else if type = kBadRecord then
    if st.inFragmentedRecord then
      .inr (r.reportCorruption st.scratch.length (ascii "error in middle of record"),
        { st with scratch := [], inFragmentedRecord := false })
    else .inr (r, st)
  else
    let dropped := fragment.length + if st.inFragmentedRecord then st.scratch.length else 0
    .inr (r.reportCorruption dropped (ascii ("unknow record type " ++ toString type)),
      { st with scratch := [], inFragmentedRecord := false })

/-- The loop of `ReadRecord`. -/
def Reader.readLoop : ℕ → Reader → ReadState → Option (Reader × Option Slice)
  | 0, _, _ => none
  | fuel + 1, r, st =>
    let (r, type, fragment) := r.readPhysicalRecord
    if r.resyncing ∧ type = RecordType.kMiddleType.toNat then r.readLoop fuel st
    else if r.resyncing ∧ type = RecordType.kLastType.toNat then
      ({ r with resyncing := false } : Reader).readLoop fuel st
    else
      match ({ r with resyncing := false } : Reader).handle st type fragment with
      | .inl result => some result
      | .inr (r, st) => r.readLoop fuel st

/-- **`ReadRecord`**: the next record, or none at the end of the input. -/
def Reader.readRecord (r : Reader) : Option (Reader × Option Slice) :=
  let (r, ok) := if r.lastRecordOffset < r.initialOffset then r.skipToInitialBlock else (r, true)
  if ok then r.readLoop (r.file.contents.length + r.buffer.length + 2) ⟨[], false, 0⟩
  else some (r, none)

/-- All records, as a loop of calls until the first that returns false. -/
def Reader.readAll : ℕ → Reader → Option (List Slice × Reader)
  | 0, _ => none
  | fuel + 1, r =>
    match r.readRecord with
    | none => none
    | some (r, none) => some ([], r)
    | some (r, some record) => (r.readAll fuel).map fun (records, r) => (record :: records, r)

end Log

end RocketDb
