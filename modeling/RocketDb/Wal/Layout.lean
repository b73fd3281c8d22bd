import RocketDb.Wal.Log

/-! # The layout of a log

`lo` is the number of bytes **left over** in the current block; a physical record that would start with fewer
than `kHeaderSize` of them starts in the next block, after as many bytes of padding.

* **`piece`** — a physical record with the padding before it.
* **`Writer.LeftOver`** — where a writer is in its block. -/

namespace RocketDb

namespace Log

/-! ## Pieces -/

/-- The padding before a physical record. -/
def padding (lo : ℕ) : ℕ := if lo < kHeaderSize then lo else 0

/-- The bytes from the header of the next physical record to the end of its block. -/
def room (lo : ℕ) : ℕ := if lo < kHeaderSize then kBlockSize else lo

/-- A physical record with the padding before it. -/
def piece (lo : ℕ) (t : RecordType) (fragment : Slice) : Slice :=
  List.replicate (padding lo) 0 ++ header t fragment ++ fragment

@[simp] theorem length_header (t : RecordType) (fragment : Slice) :
    (header t fragment).length = kHeaderSize := rfl

@[simp] theorem length_piece (lo : ℕ) (t : RecordType) (fragment : Slice) :
    (piece lo t fragment).length = padding lo + kHeaderSize + fragment.length := by
  simp [piece, Nat.add_assoc]

theorem kHeaderSize_le_room (lo : ℕ) : kHeaderSize ≤ room lo := by
  rw [room]
  split
  · decide
  · omega

theorem room_le {lo : ℕ} (h : lo ≤ kBlockSize) : room lo ≤ kBlockSize := by
  rw [room]
  split <;> omega

/-! ## The writer -/

/-- The writer has no faults ahead and `lo` bytes left over in its block. A new writer has its block
before it, which is the same as being at the end of one. -/
structure Writer.LeftOver (w : Writer) (lo : ℕ) : Prop where
  faults : w.dest.faults = []
  offset : w.blockOffset + lo = kBlockSize ∨ w.blockOffset = 0 ∧ lo = 0

variable {w : Writer} {lo : ℕ}

theorem Writer.switchBlock_spec (h : w.LeftOver lo) :
    w.switchBlock.dest.contents = w.dest.contents ++ List.replicate (padding lo) 0 ∧
      w.switchBlock.dest.faults = [] ∧ w.switchBlock.blockOffset + room lo = kBlockSize := by
  have hB : kBlockSize = 32768 := rfl
  have hH : kHeaderSize = 7 := rfl
  rw [switchBlock, padding, room]
  rcases h.offset with hoff | ⟨hoff, rfl⟩
  · have hleft : kBlockSize - w.blockOffset = lo := by omega
    simp only [hleft]
    by_cases hlo : lo < kHeaderSize
    · by_cases hpos : 0 < lo
      · simp [hlo, hpos, WritableFile.append, h.faults]
      · grind [LeftOver]
    · simp [hlo, h.faults, hoff]
  · simp [hoff, hB, hH, h.faults]

theorem Writer.emitPhysicalRecord_spec (hfaults : w.dest.faults = []) (t : RecordType)
    (fragment : Slice) :
    ∃ w', w.emitPhysicalRecord t fragment = (w', .ok) ∧ w'.dest.faults = [] ∧
      w'.dest.contents = w.dest.contents ++ header t fragment ++ fragment ∧
      w'.blockOffset = w.blockOffset + kHeaderSize + fragment.length := by
  simp [emitPhysicalRecord, WritableFile.append, WritableFile.flush, hfaults]

end Log

end RocketDb
