import RocketDb.Wal.Layout

/-! # The next physical record

What the reader meets next depends on the bytes that remain to be read alone, whatever they are: the ones in
its buffer, up to the end of the block, and the ones in the file.

* **`Reader.Over r R lo`** — the bytes `R` are before the reader, and the first `lo` of them end its block.
* **`nextPhysical`** — the physical record it meets next, and the bytes after it.
* **`next_piece`** — a physical record that was written is met. -/

namespace RocketDb

open List

namespace Log

/-- **The reader has the bytes `R` before it**, of which the first `lo` end its block. It checks
checksums and reads from the start of the file. -/
structure Reader.Over (r : Reader) (R : Slice) (lo : ℕ) : Prop where
  buffer : r.buffer = R.take lo
  file : r.file = ⟨R.drop lo, []⟩
  eof : r.eof = decide (R.length < lo)
  le : lo ≤ kBlockSize
  checksum : r.checksum = true
  initialOffset : r.initialOffset = 0
  resyncing : r.resyncing = false

variable {r : Reader} {R : Slice} {lo n : ℕ} {t : RecordType} {fragment : Slice}

theorem Reader.Over.new (contents : Slice) : (Reader.new ⟨contents, []⟩ true 0).Over contents 0 :=
  ⟨rfl, rfl, rfl, Nat.zero_le _, rfl, rfl, rfl⟩

theorem Reader.Over.setReports (h : r.Over R lo) (offset : UInt64) (reports : List (ℕ × Status)) :
    ({ r with lastRecordOffset := offset, reports := reports } : Reader).Over R lo :=
  ⟨h.buffer, h.file, h.eof, h.le, h.checksum, h.initialOffset, h.resyncing⟩

theorem Reader.Over.length_buffer (h : r.Over R lo) : r.buffer.length = min lo R.length := by
  rw [h.buffer, length_take]

/-! ## Refilling the buffer -/

/-- With a header ahead, the reader skips what is left of the block if that is less than a header. -/
theorem Reader.Over.fill_kept (h : r.Over R lo) (hlen : padding lo + kHeaderSize ≤ R.length) :
    ∃ r', r.fill = (r', true) ∧ r'.Over (R.drop (padding lo)) (room lo) ∧ r'.reports = r.reports := by
  have hbuf := h.length_buffer
  have hB : kBlockSize = 32768 := rfl
  have hH : kHeaderSize = 7 := rfl
  rw [fill]
  by_cases hlo : lo < kHeaderSize
  · have hpad : padding lo = lo := if_pos hlo
    have hroom : room lo = kBlockSize := if_pos hlo
    rw [hpad] at hlen ⊢
    -- the file is longer than the block, so another block is read
    have heof : r.eof = false := by
      rw [h.eof]
      exact decide_eq_false (by omega)
    grind [SequentialFile.read, Over, Status.isOk]
  · grind [padding, room]

theorem Reader.Over.fill_torn (h : r.Over R lo) (hlen : R.length < padding lo + kHeaderSize) :
    ∃ r', r.fill = (r', false) ∧ r'.reports = r.reports := by
  have hbuf := h.length_buffer
  have hB : kBlockSize = 32768 := rfl
  have hH : kHeaderSize = 7 := rfl
  have hpad : padding lo ≤ lo := by rw [padding]; split <;> omega
  have hsmall : r.buffer.length < kHeaderSize := by
    grind [padding]
  rw [fill, if_pos hsmall]
  grind [SequentialFile.read, Over, Status.isOk]

/-! ## Parsing the bytes at hand -/

/-- The length in a header. -/
def lengthAt (R : Slice) : ℕ := (R.getD 4 0).toNat ||| (R.getD 5 0).toNat <<< 8

/-- The type in a header. -/
def typeAt (R : Slice) : ℕ := typeOfByte (R.getD 6 0)

/-- The checksum in a header is that of the type and the fragment. -/
def CrcOk (R : Slice) : Prop :=
  Crc32c.value 0 ((R.drop 6).take (1 + lengthAt R)) = Crc32c.unmask (decodeFixed32 R)

instance (R : Slice) : Decidable (CrcOk R) :=
  inferInstanceAs (Decidable (Crc32c.value 0 ((R.drop 6).take (1 + lengthAt R)) =
    Crc32c.unmask (decodeFixed32 R)))

theorem getD_take {i : ℕ} (h : i < n) (R : Slice) : (R.take n).getD i 0 = R.getD i 0 := by
  grind

theorem lengthAt_take (h : 7 ≤ n) (R : Slice) : lengthAt (R.take n) = lengthAt R := by
  grind [lengthAt]

theorem typeAt_take (h : 7 ≤ n) (R : Slice) : typeAt (R.take n) = typeAt R := by
  rw [typeAt, typeAt, getD_take (by omega)]

theorem crcOk_take (h : 7 + lengthAt R ≤ n) : CrcOk (R.take n) ↔ CrcOk R := by
  have hcrc : decodeFixed32 (R.take n) = decodeFixed32 R := by
    grind [decodeFixed32]
  have hbody : ((R.take n).drop 6).take (1 + lengthAt R) = (R.drop 6).take (1 + lengthAt R) := by
    rw [drop_take, take_take, Nat.min_eq_left (by omega)]
  rw [CrcOk, CrcOk, lengthAt_take (by omega), hbody, hcrc]

theorem Reader.reportCorruption_eq (h : r.initialOffset = 0) (bytes : ℕ) (reason : Slice) :
    r.reportCorruption bytes reason =
      { r with reports := r.reports ++ [(bytes, .corruption reason [])] } := by
  grind [reportCorruption, reportDrop]

/-- The buffer is given up: what follows is the next block, or the end of the file. -/
theorem Reader.Over.clearBuffer (h : r.Over R lo) :
    ({ r with buffer := [] } : Reader).Over (R.drop lo) (lo - R.length) := by
  have hle := h.le
  refine ⟨?_, ?_, ?_, by omega, h.checksum, h.initialOffset, h.resyncing⟩
  · rcases Nat.lt_or_ge R.length lo with hlt | hge
    · simp [drop_of_length_le hlt.le]
    · simp [Nat.sub_eq_zero_of_le hge]
  · rcases Nat.lt_or_ge R.length lo with hlt | hge
    · simp [h.file, drop_of_length_le hlt.le]
    · simp [h.file, Nat.sub_eq_zero_of_le hge]
  · rw [h.eof]
    refine decide_eq_decide.mpr ?_
    rw [length_drop]
    omega

variable (h : r.Over R lo) (hheader : kHeaderSize ≤ lo ∧ kHeaderSize ≤ R.length)
include h hheader

/-- The parser in terms of the bytes that remain. -/
theorem Reader.Over.parse_eq :
    r.parsePhysicalRecord =
      if min lo R.length < kHeaderSize + lengthAt R then
        if R.length < lo then ({ r with buffer := [] }, kEof, [])
        else
          (({ r with buffer := [] } : Reader).reportCorruption lo (ascii "bad record length"),
            kBadRecord, [])
      else if typeAt R = RecordType.kZeroType.toNat ∧ lengthAt R = 0 then
        ({ r with buffer := [] }, kBadRecord, [])
      else if ¬ CrcOk R then
        (({ r with buffer := [] } : Reader).reportCorruption (min lo R.length)
          (ascii "checksum mismatch"), kBadRecord, [])
      else
        ({ r with buffer := (R.take lo).drop (kHeaderSize + lengthAt R) }, typeAt R,
          (R.drop kHeaderSize).take (lengthAt R)) := by
  have hH : kHeaderSize = 7 := rfl
  have hlength : (r.buffer.getD 4 0).toNat ||| (r.buffer.getD 5 0).toNat <<< 8 = lengthAt R := by
    rw [h.buffer]
    exact lengthAt_take (by omega) R
  have htype : typeOfByte (r.buffer.getD 6 0) = typeAt R := by
    rw [h.buffer]
    exact typeAt_take (by omega) R
  rw [parsePhysicalRecord, hlength, htype, h.length_buffer]
  simp only [h.eof, h.checksum, h.initialOffset, UInt64.not_lt_zero, if_false, true_and, decide_eq_true_eq]
  by_cases hlong : min lo R.length < kHeaderSize + lengthAt R
  · grind
  · rw [if_neg hlong, if_neg hlong]
    by_cases hzero : typeAt R = RecordType.kZeroType.toNat ∧ lengthAt R = 0
    · rw [if_pos hzero, if_pos hzero]
    · rw [if_neg hzero, if_neg hzero]
      have hcrc : Crc32c.value 0 ((r.buffer.drop 6).take (1 + lengthAt R)) =
          Crc32c.unmask (decodeFixed32 r.buffer) ↔ CrcOk R := by
        rw [← crcOk_take (show 7 + lengthAt R ≤ lo by omega), CrcOk, h.buffer, lengthAt_take (by omega)]
      have hresult : (r.buffer.drop kHeaderSize).take (lengthAt R) =
          (R.drop kHeaderSize).take (lengthAt R) := by
        rw [h.buffer, drop_take, take_take, Nat.min_eq_left (by omega)]
      simp only [ne_eq, hcrc, hresult]
      simp only [h.buffer]

omit h hheader

/-! ## Physical records that were written -/

theorem header_fields (t : RecordType) (hlen : fragment.length < 2 ^ 16) (rest : Slice) :
    lengthAt (header t fragment ++ rest) = fragment.length ∧
      typeAt (header t fragment ++ rest) = t.toNat ∧
      Crc32c.unmask (decodeFixed32 (header t fragment ++ rest)) =
        Crc32c.value 0 (UInt8.ofNat t.toNat :: fragment) := by
  refine ⟨?_, ?_, ?_⟩
  · change (UInt8.ofNat (fragment.length % 256)).toNat |||
      (UInt8.ofNat (fragment.length / 256)).toNat <<< 8 = _
    grind [or_shiftLeft, UInt8.toNat_ofNat']
  · change typeOfByte (UInt8.ofNat t.toNat) = _
    cases t <;> rfl
  · rw [header, append_assoc, decodeFixed32_encodeFixed32, Crc32c.unmask_mask, typeCrc,
      Crc32c.value, Crc32c.extend_append 0 0 0]
    rfl

/-- The checksum of a header that was written is right. -/
theorem crcOk_header (t : RecordType) (hlen : fragment.length < 2 ^ 16) (rest : Slice) :
    CrcOk (header t fragment ++ (fragment ++ rest)) := by
  obtain ⟨hlength, -, hcrc⟩ := header_fields t hlen (fragment ++ rest)
  rw [CrcOk, hlength, hcrc, Nat.add_comm]
  change Crc32c.value 0 ((UInt8.ofNat t.toNat :: (fragment ++ rest)).take (fragment.length + 1)) = _
  rw [take_succ_cons, take_left]

/-! ## The next physical record -/

/-- A physical record as the reader meets it: a fragment, a place where something is given up, or a
fragment of a type that no writer uses. -/
inductive Physical where
  | fragment (t : RecordType) (data : Slice)
  | bad (reported : Bool)
  | unknown (type : ℕ) (data : Slice)
  deriving DecidableEq, Repr

/-- The type that `ReadPhysicalRecord` returns for it. -/
def Physical.type : Physical → ℕ
  | .fragment t _ => t.toNat
  | .bad _ => kBadRecord
  | .unknown type _ => type

/-- `ReadPhysicalRecord` hands over `data` with it; with a bad record this is not looked at. -/
def Physical.Hands (data : Slice) : Physical → Prop
  | .fragment _ d => data = d
  | .bad _ => True
  | .unknown _ d => data = d

/-- `ReadPhysicalRecord` has reported a corruption. -/
def Physical.reported : Physical → Bool
  | .bad reported => reported
  | _ => false

/-- A type that `ReadRecord` does not know. -/
def UnknownType (type : ℕ) : Prop := type = 0 ∨ kBadRecord < type

/-- Physical records that `ReadPhysicalRecord` can return. -/
def Physical.Possible : Physical → Prop
  | .fragment t _ => t ≠ .kZeroType
  | .bad _ => True
  | .unknown type _ => UnknownType type

/-- The physical record of a type. The types `kEof` and `kBadRecord` are not told apart from what the
reader itself means by them. -/
def Physical.ofType (type : ℕ) (data : Slice) : Option Physical :=
  match type with
  | 1 => some (.fragment .kFullType data)
  | 2 => some (.fragment .kFirstType data)
  | 3 => some (.fragment .kMiddleType data)
  | 4 => some (.fragment .kLastType data)
  | 5 => none
  | 6 => some (.bad false)
  | type => some (.unknown type data)

/-- What the bytes from a header on are taken for, with `lo` of them in the block: the physical record,
the bytes after it and how many of them are left over in the block; none if they end the file. -/
def parseHeader (R : Slice) (lo : ℕ) : Option (Physical × Slice × ℕ) :=
  if min lo R.length < kHeaderSize + lengthAt R then
    if R.length < lo then none else some (.bad true, R.drop lo, lo - R.length)
  else if typeAt R = 0 ∧ lengthAt R = 0 then some (.bad false, R.drop lo, lo - R.length)
  else if CrcOk R then
    (Physical.ofType (typeAt R) ((R.drop kHeaderSize).take (lengthAt R))).map fun e =>
      (e, R.drop (kHeaderSize + lengthAt R), lo - kHeaderSize - lengthAt R)
  else some (.bad true, R.drop lo, lo - R.length)

/-- **The physical record that is met next.** -/
def nextPhysical (R : Slice) (lo : ℕ) : Option (Physical × Slice × ℕ) :=
  if R.length < padding lo + kHeaderSize then none
  else parseHeader (R.drop (padding lo)) (room lo)

theorem Physical.ofType_eq (type : ℕ) (data : Slice) :
    (type = kEof ∧ Physical.ofType type data = none) ∨
      ∃ e, Physical.ofType type data = some e ∧ e.type = type ∧ e.Hands data ∧ e.Possible ∧
        e.reported = false := by
  match type with
  | 1 => exact Or.inr ⟨_, rfl, rfl, rfl, by simp [Possible], rfl⟩
  | 2 => exact Or.inr ⟨_, rfl, rfl, rfl, by simp [Possible], rfl⟩
  | 3 => exact Or.inr ⟨_, rfl, rfl, rfl, by simp [Possible], rfl⟩
  | 4 => exact Or.inr ⟨_, rfl, rfl, rfl, by simp [Possible], rfl⟩
  | 5 => exact Or.inl ⟨rfl, rfl⟩
  | 6 => exact Or.inr ⟨_, rfl, rfl, trivial, trivial, rfl⟩
  | 0 => exact Or.inr ⟨_, rfl, rfl, rfl, Or.inl rfl, rfl⟩
  | type + 7 =>
    have hbad : kBadRecord < type + 7 := Nat.lt_of_lt_of_le (by decide) (Nat.le_add_left 7 type)
    exact Or.inr ⟨_, rfl, rfl, rfl, Or.inr hbad, rfl⟩

variable {e : Physical} {R' : Slice} {lo' : ℕ}

/-- A physical record uses up bytes of its block. -/
theorem parseHeader_some (h : parseHeader R lo = some (e, R', lo')) (hlo : kHeaderSize ≤ lo)
    (hR : kHeaderSize ≤ R.length) : e.Possible ∧ R'.length < R.length ∧ lo' ≤ lo := by
  have hH : kHeaderSize = 7 := rfl
  have hdrop : (R.drop lo).length < R.length ∧ lo - R.length ≤ lo := by
    rw [length_drop]
    omega
  rw [parseHeader] at h
  split_ifs at h with hlong hend hzero hcrc
  · cases h
    exact ⟨trivial, hdrop⟩
  · cases h
    exact ⟨trivial, hdrop⟩
  · grind [Physical.ofType_eq]
  · cases h
    exact ⟨trivial, hdrop⟩

/-- What is met is possible, the bytes get fewer, and the block is not longer than a block. -/
theorem nextPhysical_some (h : nextPhysical R lo = some (e, R', lo')) :
    e.Possible ∧ R'.length < R.length ∧ lo' ≤ room lo := by
  rw [nextPhysical] at h
  split_ifs at h with hshort
  obtain ⟨hpossible, hshorter, hle⟩ := parseHeader_some h (kHeaderSize_le_room lo)
    (by rw [length_drop]; omega)
  grind

/-- What `ReadPhysicalRecord` makes of the next physical record. -/
def Reader.Reads (r : Reader) (result : Reader × ℕ × Slice) :
    Option (Physical × Slice × ℕ) → Prop
  | none => ∃ r' data, result = (r', kEof, data) ∧ r'.reports = r.reports
  | some (e, R', lo') => ∃ r' data reports, result = (r', e.type, data) ∧ e.Hands data ∧
      r'.Over R' lo' ∧ r'.reports = r.reports ++ reports ∧ (reports = [] ↔ e.reported = false)

theorem Reader.Reads.congr {r₁ : Reader} {result : Reader × ℕ × Slice}
    {next : Option (Physical × Slice × ℕ)} (h : r₁.Reads result next)
    (hreports : r₁.reports = r.reports) : r.Reads result next := by
  cases next with
  | none =>
    obtain ⟨r', data, hresult, hsame⟩ := h
    exact ⟨r', data, hresult, hsame.trans hreports⟩
  | some next =>
    obtain ⟨r', data, reports, hresult, hhands, h', hsame, hquiet⟩ := h
    exact ⟨r', data, reports, hresult, hhands, h', hreports ▸ hsame, hquiet⟩

theorem Reader.Over.reads_parse (h : r.Over R lo)
    (hheader : kHeaderSize ≤ lo ∧ kHeaderSize ≤ R.length) :
    r.Reads r.parsePhysicalRecord (parseHeader R lo) := by
  have hle := h.le
  have hdrop := h.clearBuffer
  have hreport (bytes : ℕ) (reason : Slice) : r.Reads
      (({ r with buffer := [] } : Reader).reportCorruption bytes reason, kBadRecord, [])
      (some (.bad true, R.drop lo, lo - R.length)) := by
    rw [reportCorruption_eq hdrop.initialOffset]
    exact ⟨_, _, [_], rfl, trivial, hdrop.setReports _ _, rfl, by simp [Physical.reported]⟩
  rw [h.parse_eq hheader, parseHeader]
  by_cases hlong : min lo R.length < kHeaderSize + lengthAt R
  · rw [if_pos hlong, if_pos hlong]
    by_cases hend : R.length < lo
    · rw [if_pos hend, if_pos hend]
      exact ⟨_, _, rfl, rfl⟩
    · rw [if_neg hend, if_neg hend]
      exact hreport _ _
  · rw [if_neg hlong, if_neg hlong, show RecordType.kZeroType.toNat = 0 from rfl]
    by_cases hzero : typeAt R = 0 ∧ lengthAt R = 0
    · rw [if_pos hzero, if_pos hzero]
      exact ⟨_, _, [], rfl, trivial, hdrop, (append_nil _).symm, by simp [Physical.reported]⟩
    · rw [if_neg hzero, if_neg hzero]
      by_cases hcrc : CrcOk R
      · rw [if_neg (not_not.mpr hcrc), if_pos hcrc]
        have hover : ({ r with buffer := (R.take lo).drop (kHeaderSize + lengthAt R) } : Reader).Over
            (R.drop (kHeaderSize + lengthAt R)) (lo - kHeaderSize - lengthAt R) := by
          refine ⟨?_, ?_, ?_, by omega, h.checksum, h.initialOffset, h.resyncing⟩
          · rw [drop_take, Nat.sub_sub]
          · rw [h.file, drop_drop]
            congr 2
            omega
          · rw [h.eof]
            grind
        rcases Physical.ofType_eq (typeAt R) ((R.drop kHeaderSize).take (lengthAt R)) with
          ⟨heof, hnone⟩ | ⟨e, he, htype, hhands, -, hquiet⟩
        · rw [hnone, heof]
          exact ⟨_, _, rfl, rfl⟩
        · rw [he, ← htype]
          exact ⟨_, _, [], rfl, hhands, hover, (append_nil _).symm, by simp [hquiet]⟩
      · rw [if_pos hcrc, if_neg hcrc]
        exact hreport _ _

/-- **`ReadPhysicalRecord` takes the next physical record.** -/
theorem Reader.Over.reads_next (h : r.Over R lo) :
    r.Reads r.readPhysicalRecord (nextPhysical R lo) := by
  rw [nextPhysical]
  by_cases hshort : R.length < padding lo + kHeaderSize
  · rw [if_pos hshort]
    obtain ⟨r', hfill, hreports⟩ := h.fill_torn hshort
    exact ⟨r', [], by rw [readPhysicalRecord, hfill], hreports⟩
  · rw [if_neg hshort]
    obtain ⟨r₁, hfill, h₁, hreports₁⟩ := h.fill_kept (Nat.le_of_not_lt hshort)
    have hreads := h₁.reads_parse ⟨kHeaderSize_le_room lo, by rw [length_drop]; omega⟩
    rw [readPhysicalRecord, hfill]
    exact hreads.congr hreports₁

/-! ## Bytes that were written -/

theorem next_short (h : R.length < padding lo + kHeaderSize) : nextPhysical R lo = none := if_pos h

theorem next_append {pad : Slice} (hpad : pad.length = padding lo) (hR : kHeaderSize ≤ R.length) :
    nextPhysical (pad ++ R) lo = parseHeader R (room lo) := by
  grind [nextPhysical]

theorem parse_piece (ht : t ≠ .kZeroType) (hle : lo ≤ kBlockSize)
    (hlen : kHeaderSize + fragment.length ≤ lo) (R : Slice) :
    parseHeader (header t fragment ++ (fragment ++ R)) lo =
      some (.fragment t fragment, R, lo - kHeaderSize - fragment.length) := by
  have hB : kBlockSize = 32768 := rfl
  have hfits : fragment.length < 2 ^ 16 := by omega
  obtain ⟨hlength, htype, -⟩ := header_fields t hfits (fragment ++ R)
  have hzero : ¬ (t.toNat = 0 ∧ fragment.length = 0) := by
    rintro ⟨hz, -⟩
    cases t <;> first | exact ht rfl | cases hz
  rw [parseHeader, hlength, htype, if_neg (by simp only [length_append, length_header]; omega),
    if_neg hzero, if_pos (crcOk_header t hfits R), drop_left' (length_header t fragment),
    take_left, ← append_assoc,
    drop_left' (by rw [length_append, length_header])]
  cases t with
  | kZeroType => exact absurd rfl ht
  | kFullType => rfl
  | kFirstType => rfl
  | kMiddleType => rfl
  | kLastType => rfl

/-- A fragment that is cut off is not read. -/
theorem parse_torn {n : ℕ} (hle : lo ≤ kBlockSize) (hlen : kHeaderSize + fragment.length ≤ lo)
    (hn : n < fragment.length) : parseHeader (header t fragment ++ fragment.take n) lo = none := by
  have hB : kBlockSize = 32768 := rfl
  grind [header_fields, length_header, parseHeader]

end Log

end RocketDb
