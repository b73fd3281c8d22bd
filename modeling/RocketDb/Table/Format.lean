import RocketDb.Util.Crc32c
import RocketDb.Util.Env

/-! # Handles and the reading of blocks (`table/format.cc`, `util/env_posix.cc`)

A table file is a sequence of blocks, each followed by a type byte and a checksum; a **`BlockHandle`** points
to one.

* **`readBlock`** — `ReadBlock` over a memory-mapped file, with the parts of the mapping that were read or
  handed on, so that reads outside the file can be spoken of.
* **`readBlock_confined_iff`** — for which handles nothing outside the file is read. -/

namespace RocketDb

open List

/-! ## Handles -/

/-- `BlockHandle`: the extent of a block in the file, without its trailer. -/
structure BlockHandle where
  offset : UInt64
  size : UInt64
  deriving DecidableEq, Repr

/-- `BlockHandle::EncodeTo`. -/
def BlockHandle.encode (h : BlockHandle) : Slice := putVarint64 h.offset ++ putVarint64 h.size

/-- `BlockHandle::DecodeFrom`: the handle and what follows it. -/
def BlockHandle.decodeFrom (input : Slice) : Except Status (BlockHandle × Slice) :=
  match getVarint64 input with
  | none => .error (.corruption (ascii "bad block handle") [])
  | some (offset, input) =>
    match getVarint64 input with
    | none => .error (.corruption (ascii "bad block handle") [])
    | some (size, input) => .ok (⟨offset, size⟩, input)

/-- `kBlockTrailerSize`: a type byte and a checksum. -/
def kBlockTrailerSize : UInt64 := 5

theorem BlockHandle.decodeFrom_encode (h : BlockHandle) (rest : Slice) :
    BlockHandle.decodeFrom (h.encode ++ rest) = .ok (h, rest) := by
  rw [decodeFrom, encode, append_assoc, getVarint64_putVarint64]
  dsimp only
  rw [getVarint64_putVarint64]

/-! ## Compression -/

/-- `CompressionType`. -/
inductive CompressionType where
  | kNoCompression
  | kSnappyCompression
  | kZstdCompression
  deriving DecidableEq, Repr

/-- The byte of a compression type. -/
def CompressionType.toByte : CompressionType → UInt8
  | .kNoCompression => 0
  | .kSnappyCompression => 1
  | .kZstdCompression => 2

/-- The functions of a compression library (`port/port_stdcxx.h`); each fails where the library is not
built in. -/
structure Compressor where
  /-- `Snappy_Compress`, `Zstd_Compress`. -/
  compress : Slice → Option Slice
  /-- `Snappy_GetUncompressedLength`, `Zstd_GetUncompressedLength`. -/
  getUncompressedLength : Slice → Option ℕ
  /-- `Snappy_Uncompress`, `Zstd_Uncompress`. -/
  uncompress : Slice → Option Slice
  /-- What was compressed is got back. -/
  uncompress_compress : ∀ raw out, raw ≠ [] → compress raw = some out →
    getUncompressedLength out = some raw.length ∧ uncompress out = some raw

/-- The compression libraries. -/
structure Port where
  snappy : Compressor
  zstd : Compressor

/-- A library that is not built in. -/
def Compressor.absent : Compressor where
  compress _ := none
  getUncompressedLength _ := none
  uncompress _ := none
  uncompress_compress _ _ _ h := by cases h

/-- A port without compression libraries. -/
def Port.plain : Port := ⟨.absent, .absent⟩

/-! ## Memory-mapped files -/

/-- `PosixMmapReadableFile`. -/
structure MmapReadableFile where
  filename : Slice
  /-- The bytes at and after `mmap_base_`: the first `length` are those of the file. -/
  mem : ℕ → UInt8
  length : UInt64

/-- A `Slice` of the mapping: where it starts and how long it is. -/
structure Extent where
  ptr : ℕ
  size : ℕ
  deriving DecidableEq, Repr

/-- The extent contains the position. -/
def Extent.Has (x : Extent) (p : ℕ) : Prop := x.ptr ≤ p ∧ p < x.ptr + x.size

/-- The bytes of an extent. -/
def MmapReadableFile.bytesAt (file : MmapReadableFile) (x : Extent) : Slice :=
  (List.range x.size).map fun i => file.mem (x.ptr + i)

/-- `PosixMmapReadableFile::Read`. The sum is one of 64-bit numbers. -/
def MmapReadableFile.read (file : MmapReadableFile) (offset n : UInt64) : Except Status Extent :=
  if file.length < offset + n then
    .error (.make .kIOError file.filename (ascii "Invalid argument"))
  else .ok ⟨offset.toNat, n.toNat⟩

/-! ## Reading a block -/

/-- `BlockContents`. -/
structure BlockContents where
  data : Slice
  cachable : Bool
  heapAllocated : Bool
  deriving DecidableEq, Repr

/-- What `ReadBlock` returns, and the parts of the mapping that it read or handed on. -/
structure BlockRead where
  result : Except Status BlockContents
  touched : List Extent

/-- The status that `ReadBlock` returns. -/
def BlockRead.status (r : BlockRead) : Status :=
  match r.result with
  | .error s => s
  | .ok _ => .ok

/-- Uncompress the contents of a block. -/
def uncompressBlock (lib : Compressor) (libName data : Slice) : Except Status BlockContents :=
  match lib.getUncompressedLength data with
  | none =>
    .error (.corruption (ascii "corrupted " ++ libName ++ ascii " compressed block length") [])
  | some _ =>
    match lib.uncompress data with
    | none =>
      .error (.corruption (ascii "corrupted " ++ libName ++ ascii " compressed block contents") [])
    | some ubuf => .ok ⟨ubuf, true, true⟩

/-- The switch of `ReadBlock` on the type byte. The mapping is not owned by the block. -/
def blockOfType (port : Port) (type : UInt8) (data : Slice) : Except Status BlockContents :=
  if type = CompressionType.kNoCompression.toByte then .ok ⟨data, false, false⟩
  else if type = CompressionType.kSnappyCompression.toByte then
    uncompressBlock port.snappy (ascii "snappy") data
  else if type = CompressionType.kZstdCompression.toByte then
    uncompressBlock port.zstd (ascii "zstd") data
  else .error (.corruption (ascii "bad block type") [])

/-- **`ReadBlock`** over a memory-mapped file. -/
def readBlock (port : Port) (file : MmapReadableFile) (verifyChecksums : Bool) (handle : BlockHandle) :
    BlockRead :=
  let n := handle.size
  match file.read handle.offset (n + kBlockTrailerSize) with
  | .error s => ⟨.error s, []⟩
  | .ok contents =>
    if contents.size ≠ (n + kBlockTrailerSize).toNat then
      ⟨.error (.corruption (ascii "truncated block read") []), [contents]⟩
    else
      let data := contents.ptr
      let stored : Extent := ⟨data + n.toNat + 1, 4⟩
      let summed : Extent := ⟨data, (n + 1).toNat⟩
      if verifyChecksums = true ∧ Crc32c.value data (file.bytesAt summed) ≠
          Crc32c.unmask (decodeFixed32 (file.bytesAt stored)) then
        ⟨.error (.corruption (ascii "block checksum mismatch") []), [contents, stored, summed]⟩
      else
        let block : Extent := ⟨data, n.toNat⟩
        ⟨blockOfType port (file.mem (data + n.toNat)) (file.bytesAt block),
          [contents, ⟨data + n.toNat, 1⟩, block] ++
            if verifyChecksums then [stored, summed] else []⟩

/-! ## Which handles are confined to the file -/

/-- The end of a block with its trailer, as an unbounded number. -/
def BlockHandle.stop (h : BlockHandle) : ℕ := h.offset.toNat + h.size.toNat + kBlockTrailerSize.toNat

/-- The read failed, or it touched exactly the block with its trailer, inside the file. -/
def BlockRead.Confined (length : UInt64) (handle : BlockHandle) (r : BlockRead) : Prop :=
  r.status.isOk = false ∨
    (∀ p, (∃ x ∈ r.touched, x.Has p) ↔ handle.offset.toNat ≤ p ∧ p < handle.stop) ∧
      handle.stop ≤ length.toNat

variable {port : Port} {file : MmapReadableFile} {verify : Bool} {handle : BlockHandle}

theorem read_eq (file : MmapReadableFile) (h : BlockHandle) :
    file.read h.offset (h.size + kBlockTrailerSize) =
      if file.length.toNat < h.stop % 2 ^ 64 then
        .error (.make .kIOError file.filename (ascii "Invalid argument"))
      else .ok ⟨h.offset.toNat, (h.size + kBlockTrailerSize).toNat⟩ := by
  grind [UInt64.toNat_add, BlockHandle.stop, MmapReadableFile.read, UInt64.lt_iff_toNat_lt]

theorem readBlock_of_le (hle : handle.stop % 2 ^ 64 ≤ file.length.toNat) :
    readBlock port file verify handle =
      let data := handle.offset.toNat
      let n := handle.size
      let contents : Extent := ⟨data, (n + kBlockTrailerSize).toNat⟩
      let stored : Extent := ⟨data + n.toNat + 1, 4⟩
      let summed : Extent := ⟨data, (n + 1).toNat⟩
      if verify = true ∧ Crc32c.value data (file.bytesAt summed) ≠
          Crc32c.unmask (decodeFixed32 (file.bytesAt stored)) then
        ⟨.error (.corruption (ascii "block checksum mismatch") []), [contents, stored, summed]⟩
      else
        ⟨blockOfType port (file.mem (data + n.toNat)) (file.bytesAt ⟨data, n.toNat⟩),
          [contents, ⟨data + n.toNat, 1⟩, ⟨data, n.toNat⟩] ++
            if verify then [stored, summed] else []⟩ := by
  rw [readBlock, read_eq, if_neg (not_lt.mpr hle)]
  simp

theorem readBlock_of_lt (hlt : file.length.toNat < handle.stop % 2 ^ 64) :
    (readBlock port file verify handle).status.isOk = false := by
  rw [readBlock, read_eq, if_pos hlt]
  rfl

theorem touched_readBlock (hstop : handle.stop < 2 ^ 64)
    (hok : (readBlock port file verify handle).status.isOk = true) (p : ℕ) :
    (∃ x ∈ (readBlock port file verify handle).touched, x.Has p) ↔
      handle.offset.toNat ≤ p ∧ p < handle.stop := by
  have hle : handle.stop % 2 ^ 64 ≤ file.length.toNat := by
    grind [readBlock_of_lt]
  have hstop' : handle.offset.toNat + handle.size.toNat + 5 < 2 ^ 64 := hstop
  have htotal : (handle.size + kBlockTrailerSize).toNat = handle.size.toNat + 5 := by
    rw [UInt64.toNat_add]
    change (handle.size.toNat + 5) % 2 ^ 64 = _
    omega
  have hsummed : (handle.size + 1).toNat = handle.size.toNat + 1 := by
    grind [UInt64.toNat_add]
  have hend : handle.stop = handle.offset.toNat + (handle.size.toNat + 5) := Nat.add_assoc _ _ _
  rw [readBlock_of_le hle]
  simp only [htotal, hsummed]
  split_ifs with hcrc hv
  · simp only [mem_cons, not_mem_nil, or_false, exists_eq_or_imp, exists_eq_left, Extent.Has, hend]
    omega
  · simp only [mem_append, mem_cons, not_mem_nil, or_false, or_assoc,
      exists_eq_or_imp, exists_eq_left, Extent.Has, hend]
    omega
  · simp only [append_nil, mem_cons, not_mem_nil, or_false,
      exists_eq_or_imp, exists_eq_left, Extent.Has, hend]
    omega

/-- A memory of zeros in which the checksum fits, wherever the handle points. -/
def zeroBlock (handle : BlockHandle) (p : ℕ) : UInt8 :=
  let start := handle.offset.toNat + handle.size.toNat + 1
  let crc := Crc32c.mask (Crc32c.value handle.offset.toNat (List.replicate (handle.size + 1).toNat 0))
  if start ≤ p then (encodeFixed32 crc).getD (p - start) 0 else 0

theorem readBlock_zeroBlock (port : Port) (filename : Slice) (length : UInt64) (verify : Bool)
    (hle : handle.stop % 2 ^ 64 ≤ length.toNat) :
    (readBlock port ⟨filename, zeroBlock handle, length⟩ verify handle).status = .ok := by
  let file : MmapReadableFile := ⟨filename, zeroBlock handle, length⟩
  have hsize : (handle.size + 1).toNat ≤ handle.size.toNat + 1 := by
    rw [UInt64.toNat_add]
    exact Nat.mod_le _ _
  -- the summed bytes and the type byte lie before the stored checksum
  have hzero : ∀ p ≤ handle.offset.toNat + handle.size.toNat, zeroBlock handle p = 0 := by
    intro p hp
    rw [zeroBlock]
    exact if_neg (by omega)
  have hsummed : file.bytesAt ⟨handle.offset.toNat, (handle.size + 1).toNat⟩ =
      List.replicate (handle.size + 1).toNat 0 := by
    rw [eq_replicate_iff]
    grind [MmapReadableFile.bytesAt]
  have hstored : file.bytesAt ⟨handle.offset.toNat + handle.size.toNat + 1, 4⟩ =
      encodeFixed32 (Crc32c.mask (Crc32c.value handle.offset.toNat
        (List.replicate (handle.size + 1).toNat 0))) := by
    simp [MmapReadableFile.bytesAt, file, zeroBlock, range_succ, encodeFixed32]
  have hdec : decodeFixed32 (file.bytesAt ⟨handle.offset.toNat + handle.size.toNat + 1, 4⟩) =
      Crc32c.mask (Crc32c.value handle.offset.toNat
        (List.replicate (handle.size + 1).toNat 0)) := by
    rw [hstored, ← append_nil (encodeFixed32 _)]
    exact decodeFixed32_encodeFixed32 _ []
  change (readBlock port file verify handle).status = .ok
  rw [readBlock_of_le hle]
  simp only [hsummed, hdec, Crc32c.unmask_mask]
  have htype : file.mem (handle.offset.toNat + handle.size.toNat) = 0 := hzero _ le_rfl
  rw [if_neg (by simp), htype]
  rfl

/-- **`ReadBlock` stays inside the file** exactly for the handles whose end does not wrap around 64 bits,
or whose wrapped end still lies beyond the file, so that the read is refused. -/
theorem readBlock_confined_iff (port : Port) (length : UInt64) (verify : Bool) (handle : BlockHandle) :
    (∀ filename mem,
        (readBlock port ⟨filename, mem, length⟩ verify handle).Confined length handle) ↔
      handle.stop < 2 ^ 64 ∨ length.toNat < handle.stop % 2 ^ 64 := by
  constructor
  · intro h
    by_contra hwrap
    obtain ⟨hstop, hle⟩ := not_or.mp hwrap
    have hok := readBlock_zeroBlock port [] length verify (not_lt.mp hle)
    rcases h [] (zeroBlock handle) with hbad | ⟨-, hend⟩
    · rw [hok] at hbad
      cases hbad
    · exact absurd (hend.trans_lt length.toNat_lt) hstop
  · rintro (hstop | hlt) filename mem
    · rw [BlockRead.Confined, or_iff_not_imp_left, Bool.not_eq_false]
      intro hok
      refine ⟨touched_readBlock hstop hok, ?_⟩
      grind [readBlock_of_lt]
    · exact Or.inl (readBlock_of_lt hlt)

/-- A handle that starts ten bytes before the end of the address space. -/
def wrappingHandle : BlockHandle := ⟨0xfffffffffffffff6, 5⟩

/-- The bytes of the handle decode, and the block it points to is read from outside of a file of 100
bytes. -/
theorem readBlock_wraps :
    BlockHandle.decodeFrom
        [0xf6, 0xff, 0xff, 0xff, 0xff, 0xff, 0xff, 0xff, 0xff, 0x01, 0x05] =
      .ok (wrappingHandle, []) ∧
      ¬ (readBlock .plain ⟨[], fun _ => 0, 100⟩ false wrappingHandle).Confined 100 wrappingHandle := by
  refine ⟨BlockHandle.decodeFrom_encode wrappingHandle [], ?_⟩
  rintro (hbad | ⟨-, hend⟩)
  · exact absurd hbad (by decide)
  · exact absurd hend (by decide)

end RocketDb
