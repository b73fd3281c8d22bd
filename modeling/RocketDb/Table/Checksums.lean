import RocketDb.Table.Format
import RocketDb.Wal.Physical

/-! # Checksums of logs and tables (`util/crc32c.cc`, `wal/log_writer.cc`, `table/table_builder.cc`)

The writers compute a checksum in pieces, in whatever buffers they lie; the readers over one range.
**`checksum_agrees`**: these are the same, because `Extend` is the computation byte by byte. -/

namespace RocketDb

/-- What `TableBuilder::WriteRawBlock` appends to the file: the contents of the block and its trailer. The
contents and the trailer are separate buffers. -/
def rawBlock (contentsAddr trailerAddr : ℕ) (blockContents : Slice) (type : CompressionType) : Slice :=
  let crc := Crc32c.value contentsAddr blockContents
  let crc := Crc32c.extend trailerAddr crc [type.toByte]
  blockContents ++ type.toByte :: encodeFixed32 (Crc32c.mask crc)

/-- The check of `ReadBlock` on the `n` bytes of a block and its trailer. -/
def BlockCrcOk (addr n : ℕ) (data : Slice) : Prop :=
  Crc32c.value addr (data.take (n + 1)) = Crc32c.unmask (decodeFixed32 (data.drop (n + 1)))

theorem blockCrcOk_rawBlock (addr contentsAddr trailerAddr : ℕ) (blockContents : Slice)
    (type : CompressionType) (rest : Slice) :
    BlockCrcOk addr blockContents.length (rawBlock contentsAddr trailerAddr blockContents type ++ rest) := by
  have hsplit : rawBlock contentsAddr trailerAddr blockContents type ++ rest =
      (blockContents ++ [type.toByte]) ++ (encodeFixed32 (Crc32c.mask (Crc32c.extend trailerAddr
        (Crc32c.value contentsAddr blockContents) [type.toByte])) ++ rest) := by
    simp [rawBlock]
  grind [BlockCrcOk, decodeFixed32_encodeFixed32, Crc32c.unmask_mask, Crc32c.value,
    Crc32c.extend_append]

/-- **Checksums agree**: `Extend` is the computation byte by byte at every address, extending in pieces is
extending by the whole, masking and unmasking are inverse, and what the log writer and the table builder
store is what the readers compute. -/
theorem checksum_agrees (addr addr₁ addr₂ : ℕ) (crc : UInt32) (x y : Slice) :
    Crc32c.extend addr crc x =
        x.foldl Crc32c.step1 (crc ^^^ Crc32c.kCRC32Xor) ^^^ Crc32c.kCRC32Xor ∧
      Crc32c.extend addr₁ (Crc32c.extend addr crc x) y = Crc32c.extend addr₂ crc (x ++ y) ∧
      Crc32c.mask (Crc32c.unmask crc) = crc ∧ Crc32c.unmask (Crc32c.mask crc) = crc ∧
      (∀ t rest, x.length ≤ 0xffff → Log.CrcOk (Log.header t x ++ (x ++ rest))) ∧
      ∀ type rest, BlockCrcOk addr x.length (rawBlock addr₁ addr₂ x type ++ rest) :=
  ⟨Crc32c.extend_eq addr crc x, Crc32c.extend_append addr₁ addr addr₂ crc x y, Crc32c.mask_unmask crc,
    Crc32c.unmask_mask crc, fun t rest hlen => Log.crcOk_header t (by omega) rest,
    fun type rest => blockCrcOk_rawBlock addr addr₁ addr₂ x type rest⟩

/-- A full record of three bytes. -/
theorem checksum_agrees_full : (ascii "abc").length ≤ 0xffff ∧
    Log.CrcOk (Log.header .kFullType (ascii "abc") ++ (ascii "abc" ++ [])) :=
  have h := (checksum_agrees 0 1 2 0 (ascii "abc") []).2.2.2.2.1
  ⟨by decide, h .kFullType [] (by decide)⟩

end RocketDb
