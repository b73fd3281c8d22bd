import RocketDb.Wal.Scan

/-! # A log as a list of physical records

The bytes of a log are those of its physical records, each with the padding before it.

* **`logPieces`** — the physical records of a list of records; `scan_logPieces`: scanning gives the records
  back.
* **`bytesOf`** — their bytes; `yields_bytesOf`: a reader before these bytes meets these physical records.
* **`Writer.addAll_pieces`** — the writer writes them. -/

namespace RocketDb

open List

namespace Log

/-- A physical record: its type and its fragment. -/
abbrev Frag := RecordType × Slice

/-- What is left over of the block after a physical record. -/
def leftAfter (lo : ℕ) (p : Frag) : ℕ := room lo - kHeaderSize - p.2.length

/-- The bytes of physical records. -/
def bytesOf : ℕ → List Frag → Slice
  | _, [] => []
  | lo, p :: ps => piece lo p.1 p.2 ++ bytesOf (leftAfter lo p) ps

/-- What is left over of the block after physical records. -/
def leftOver : ℕ → List Frag → ℕ
  | lo, [] => lo
  | lo, p :: ps => leftOver (leftAfter lo p) ps

/-- Every fragment fits into its block, and has a type. -/
def Fit : ℕ → List Frag → Prop
  | _, [] => True
  | lo, p :: ps => p.1 ≠ .kZeroType ∧ p.2.length ≤ room lo - kHeaderSize ∧ Fit (leftAfter lo p) ps

/-- The physical records as the reader meets them. -/
def met (ps : List Frag) : List Physical := ps.map fun p => .fragment p.1 p.2

/-! ## Putting physical records in a row -/

variable {lo : ℕ} {ps qs : List Frag} {R : Slice} {es : List Physical} {fuel : ℕ} {p : Frag}

theorem bytesOf_append (lo : ℕ) (ps qs : List Frag) :
    bytesOf lo (ps ++ qs) = bytesOf lo ps ++ bytesOf (leftOver lo ps) qs := by
  induction ps generalizing lo with
  | nil => rfl
  | cons p ps ih => rw [cons_append, bytesOf, bytesOf, ih, leftOver, append_assoc]

theorem leftOver_append (lo : ℕ) (ps qs : List Frag) :
    leftOver lo (ps ++ qs) = leftOver (leftOver lo ps) qs := by
  induction ps generalizing lo with
  | nil => rfl
  | cons p ps ih => rw [cons_append, leftOver, ih, leftOver]

theorem fit_append : Fit lo (ps ++ qs) ↔ Fit lo ps ∧ Fit (leftOver lo ps) qs := by
  induction ps generalizing lo with
  | nil => exact (true_and _).symm.to_iff
  | cons p ps ih => rw [cons_append, Fit, Fit, leftOver, ih, and_assoc, and_assoc]

theorem leftOver_le (h : lo ≤ kBlockSize) (ps : List Frag) : leftOver lo ps ≤ kBlockSize := by
  induction ps generalizing lo with
  | nil => exact h
  | cons p ps ih =>
    refine ih ?_
    have := room_le h
    rw [leftAfter]
    omega

theorem leftOver_lt (hlo : lo < kBlockSize) (ps : List Frag) : leftOver lo ps < kBlockSize := by
  induction ps generalizing lo with
  | nil => exact hlo
  | cons p ps ih =>
    refine ih ?_
    grind [kHeaderSize, room_le, leftAfter]

/-- What is written and what is left over fill the rest of a block and whole blocks. -/
theorem length_bytesOf_add_leftOver (hfit : Fit lo ps) :
    ((bytesOf lo ps).length + leftOver lo ps) % kBlockSize = lo % kBlockSize := by
  induction ps generalizing lo with
  | nil => rw [bytesOf, leftOver, length_nil, Nat.zero_add]
  | cons p ps ih =>
    obtain ⟨-, hlen, hfit⟩ := hfit
    have hrest := ih hfit
    grind [kHeaderSize_le_room, leftAfter, padding, room, length_piece, kBlockSize, bytesOf,
      leftOver]

theorem room_of_lt (hlo : lo < kHeaderSize) : room lo = room 0 := by
  grind [room]

/-- What does not fit is padded with zeros. -/
theorem bytesOf_next_block (hlo : lo < kHeaderSize) (hps : ps ≠ []) :
    bytesOf lo ps = List.replicate lo 0 ++ bytesOf 0 ps := by
  cases ps with
  | nil => exact absurd rfl hps
  | cons p ps =>
    grind [piece, padding, bytesOf, leftAfter, room_of_lt]

theorem fit_next_block (hlo : lo < kHeaderSize) : Fit lo ps ↔ Fit 0 ps := by
  cases ps with
  | nil => exact Iff.rfl
  | cons p ps => rw [Fit, Fit, leftAfter, room_of_lt hlo, leftAfter]

@[simp] theorem met_nil : met [] = [] := rfl

@[simp] theorem met_cons (p : Frag) (ps : List Frag) :
    met (p :: ps) = .fragment p.1 p.2 :: met ps := rfl

theorem met_append (ps qs : List Frag) : met (ps ++ qs) = met ps ++ met qs := map_append

/-! ## Reading them -/

/-- **A physical record that was written is met**, whatever stands in the padding before it. -/
theorem next_piece {pad : Slice} (hlo : lo ≤ kBlockSize) (hpad : pad.length = padding lo)
    (ht : p.1 ≠ .kZeroType) (hlen : p.2.length ≤ room lo - kHeaderSize) (R : Slice) :
    nextPhysical (pad ++ (header p.1 p.2 ++ (p.2 ++ R))) lo =
      some (.fragment p.1 p.2, R, leftAfter lo p) := by
  have hroom := kHeaderSize_le_room lo
  rw [next_append hpad (by simp only [length_append, length_header]; omega),
    parse_piece ht (room_le hlo) (by omega)]
  rfl

/-- **A reader before the bytes of physical records meets them.** -/
theorem yields_bytesOf (hlo : lo ≤ kBlockSize) (hfit : Fit lo ps) (h : Yields R (leftOver lo ps) es) :
    Yields (bytesOf lo ps ++ R) lo (met ps ++ es) := by
  induction ps generalizing lo with
  | nil => exact h
  | cons p ps ih =>
    obtain ⟨ht, hlen, hfit⟩ := hfit
    have hbytes : bytesOf lo (p :: ps) ++ R = List.replicate (padding lo) 0 ++
        (header p.1 p.2 ++ (p.2 ++ (bytesOf (leftAfter lo p) ps ++ R))) := by
      rw [bytesOf, piece]
      simp only [append_assoc]
    rw [hbytes]
    exact .cons (next_piece hlo length_replicate ht hlen _)
      (ih (leftOver_le hlo [p]) hfit h)

theorem yields_short (h : R.length < padding lo + kHeaderSize) : Yields R lo [] := .eof (next_short h)

/-- **The reader meets the physical records that were written.** -/
theorem yields_all (hlo : lo ≤ kBlockSize) (hfit : Fit lo ps) : Yields (bytesOf lo ps) lo (met ps) := by
  have := yields_bytesOf hlo hfit (yields_short (R := []) (Nat.add_pos_right _ (by decide)))
  rwa [append_nil, append_nil] at this

/-- A physical record that is cut off is none. -/
theorem next_torn {n : ℕ} (hlen : p.2.length ≤ room lo - kHeaderSize) (hlo : lo ≤ kBlockSize)
    (hn : n < (piece lo p.1 p.2).length) :
    nextPhysical ((piece lo p.1 p.2).take n) lo = none := by
  have hroom := kHeaderSize_le_room lo
  rw [length_piece] at hn
  rcases Nat.lt_or_ge n (padding lo + kHeaderSize) with hheader | hheader
  · exact next_short (by rw [length_take]; omega)
  · have htake : (piece lo p.1 p.2).take n = List.replicate (padding lo) 0 ++
        (header p.1 p.2 ++ p.2.take (n - (padding lo + kHeaderSize))) := by
      grind [piece, take_append, length_header, take_of_length_le]
    rw [htake, next_append length_replicate (by simp), parse_torn (room_le hlo) (by omega)
      (by omega)]

/-! ## The physical records of a record -/

/-- The physical records of what is left of a record. -/
def recordPieces : ℕ → ℕ → Bool → Slice → List Frag
  | 0, _, _, _ => []
  | fuel + 1, lo, first, data =>
    if data.length ≤ room lo - kHeaderSize then [(fragmentType first true, data)]
    else
      (fragmentType first false, data.take (room lo - kHeaderSize)) ::
        recordPieces fuel 0 false (data.drop (room lo - kHeaderSize))

/-- **The physical records of a list of records.** A record has at most two more than bytes. -/
def logPieces : ℕ → List Slice → List Frag
  | _, [] => []
  | lo, data :: records =>
    recordPieces (data.length + 2) lo true data ++
      logPieces (leftOver lo (recordPieces (data.length + 2) lo true data)) records

theorem fragmentType_ne_zero (first last : Bool) : fragmentType first last ≠ .kZeroType := by
  cases first <;> cases last <;> decide

theorem logPieces_ne_nil (lo : ℕ) (data : Slice) (more : List Slice) :
    logPieces lo (data :: more) ≠ [] := by
  rw [logPieces, recordPieces]
  split_ifs <;> exact cons_ne_nil _ _

/-- The fuel that is enough for a record. -/
def Enough (fuel lo : ℕ) (data : Slice) : Prop := data.length + (if lo = 0 then 1 else 2) ≤ fuel

theorem Enough.start (lo : ℕ) (data : Slice) : Enough (data.length + 2) lo data := by
  rw [Enough]
  split <;> omega

theorem Enough.rest {data : Slice} (h : Enough (fuel + 1) lo data)
    (hmore : room lo - kHeaderSize < data.length) :
    Enough fuel 0 (data.drop (room lo - kHeaderSize)) := by
  have hB : kBlockSize = 32768 := rfl
  have hH : kHeaderSize = 7 := rfl
  rw [Enough] at h ⊢
  rw [if_pos rfl, length_drop]
  by_cases hzero : lo = 0
  · have : room lo = kBlockSize := by simp [room, hzero, hH]
    rw [if_pos hzero] at h
    omega
  · rw [if_neg hzero] at h
    omega

/-- The length of the fragment that a round of the loop of `AddRecord` writes. -/
def roundLength (lo : ℕ) (data : Slice) : ℕ :=
  if data.length < room lo - kHeaderSize then data.length else room lo - kHeaderSize

/-- The physical record of a round. -/
def roundPiece (lo : ℕ) (first : Bool) (data : Slice) : Frag :=
  (fragmentType first (data.length == roundLength lo data), data.take (roundLength lo data))

/-- What a round leaves to be written. -/
def roundRest (lo : ℕ) (data : Slice) : Slice := data.drop (roundLength lo data)

/-- **The rounds of the loop of `AddRecord`**: each writes the first physical record of what is left. -/
@[elab_as_elim] theorem round_induction
    {motive : ∀ {lo fuel : ℕ} {data : Slice}, Bool → Enough fuel lo data → Prop}
    (round : ∀ lo fuel data first (h : Enough (fuel + 1) lo data),
      (roundPiece lo first data).2.length ≤ room lo - kHeaderSize →
      recordPieces (fuel + 1) lo first data = roundPiece lo first data ::
        (if (roundRest lo data).isEmpty then []
        else recordPieces fuel (leftAfter lo (roundPiece lo first data)) false (roundRest lo data)) →
      ((roundRest lo data).isEmpty = false → leftAfter lo (roundPiece lo first data) = 0 ∧
        ∃ h : Enough fuel (leftAfter lo (roundPiece lo first data)) (roundRest lo data), motive false h) →
      motive first h) {data : Slice} (first : Bool) (h : Enough fuel lo data) : motive first h := by
  induction fuel generalizing lo first data with
  | zero => rw [Enough] at h; split at h <;> omega
  | succ fuel ih =>
    by_cases hfit : data.length ≤ room lo - kHeaderSize
    · grind [roundLength, roundPiece, recordPieces, roundRest]
    · have hlen : roundLength lo data = room lo - kHeaderSize := by rw [roundLength]; split <;> omega
      have htake : (roundPiece lo first data).2.length = room lo - kHeaderSize := by
        rw [roundPiece, hlen, length_take]
        omega
      have hafter : leftAfter lo (roundPiece lo first data) = 0 := by
        rw [leftAfter, htake, Nat.sub_self]
      have hne : (data.length == room lo - kHeaderSize) = false := by simp; omega
      have hrest := h.rest (not_le.mp hfit)
      grind [recordPieces, roundPiece, roundRest, drop_eq_nil_iff]

/-- Fragments fit into their blocks. -/
theorem fit_recordPieces (first : Bool) {data : Slice} (h : Enough fuel lo data) :
    Fit lo (recordPieces fuel lo first data) := by
  induction first, h using round_induction with
  | round lo fuel data first h hfit hpieces ih =>
    rw [hpieces]
    refine ⟨fragmentType_ne_zero _ _, hfit, ?_⟩
    split_ifs with hrest
    · trivial
    · exact (ih (Bool.eq_false_iff.mpr hrest)).2.2

theorem fit_logPieces (lo : ℕ) (records : List Slice) : Fit lo (logPieces lo records) := by
  induction records generalizing lo with
  | nil => trivial
  | cons data records ih =>
    exact fit_append.mpr ⟨fit_recordPieces true (.start lo data), ih _⟩

/-- The later fragments complete the record. -/
theorem scan_rest {data : Slice} (h : Enough fuel lo data) (scratch : Slice) :
    scan (some scratch) (met (recordPieces fuel lo false data)) = ([scratch ++ data], true) ∧
      after (some scratch) (met (recordPieces fuel lo false data)) = none := by
  induction fuel generalizing lo data scratch with
  | zero => rw [Enough] at h; split at h <;> omega
  | succ fuel ih =>
    rw [recordPieces]
    split_ifs with hfit
    · simp [scan, assemble, fragmentType, Physical.reported]
    · have hmore : room lo - kHeaderSize < data.length := by omega
      have hrest := ih (h.rest hmore) (scratch ++ data.take (room lo - kHeaderSize))
      rw [append_assoc, take_append_drop] at hrest
      simpa [scan, assemble, fragmentType, Physical.reported] using hrest

/-- **Scanning the physical records of a record gives the record**, without a report unless another
record was in progress. -/
theorem scan_record (s : Option Slice) (lo : ℕ) (data : Slice) :
    scan s (met (recordPieces (data.length + 2) lo true data)) = ([data], s.getD [] == []) ∧
      after s (met (recordPieces (data.length + 2) lo true data)) = none := by
  rw [recordPieces]
  split_ifs with hfit
  · simp [scan, assemble, fragmentType, Physical.reported]
  · have hrest := scan_rest ((Enough.start lo data).rest (by omega))
      (data.take (room lo - kHeaderSize))
    rw [take_append_drop] at hrest
    simp [scan, assemble, fragmentType, Physical.reported, hrest]

/-- **The records are put together again.** -/
theorem scan_logPieces (lo : ℕ) (records : List Slice) :
    scan none (met (logPieces lo records)) = (records, true) ∧
      after none (met (logPieces lo records)) = none := by
  induction records generalizing lo with
  | nil => exact ⟨rfl, rfl⟩
  | cons data records ih =>
    grind [scan_record, logPieces, met_append, scan_append, after_append]

theorem logPieces_append (lo : ℕ) (records more : List Slice) :
    logPieces lo (records ++ more) =
      logPieces lo records ++ logPieces (leftOver lo (logPieces lo records)) more := by
  induction records generalizing lo with
  | nil => rfl
  | cons data records ih =>
    rw [cons_append, logPieces, logPieces, ih, append_assoc, leftOver_append]

/-! ## The writer -/

variable {w : Writer}

/-- One round of the loop of `AddRecord`. -/
theorem Writer.addLoop_round (h : w.switchBlock.blockOffset + room lo = kBlockSize) (fuel : ℕ)
    (data : Slice) (first : Bool) :
    w.addLoop (fuel + 1) data first =
      let r := w.switchBlock.emitPhysicalRecord (roundPiece lo first data).1 (roundPiece lo first data).2
      if r.2.isOk && !(roundRest lo data).isEmpty then r.1.addLoop fuel (roundRest lo data) false
      else some r := by
  have havail : kBlockSize - w.switchBlock.blockOffset = room lo := by omega
  simp only [addLoop, havail]
  rfl

theorem add_leftAfter {before offset : ℕ} (hfit : p.2.length ≤ room lo - kHeaderSize)
    (h : before + room lo = kBlockSize) (hoffset : offset = before + kHeaderSize + p.2.length) :
    offset + leftAfter lo p = kBlockSize := by
  have hroom := kHeaderSize_le_room lo
  rw [leftAfter]
  omega

/-- **The loop of `AddRecord` writes the physical records of the record.** -/
theorem Writer.addLoop_pieces (first : Bool) {data : Slice} (h : w.LeftOver lo)
    (hfuel : Enough fuel lo data) :
    ∃ w', w.addLoop fuel data first = some (w', .ok) ∧
      w'.LeftOver (leftOver lo (recordPieces fuel lo first data)) ∧
      w'.dest.contents = w.dest.contents ++ bytesOf lo (recordPieces fuel lo first data) := by
  induction first, hfuel using round_induction generalizing w with
  | round lo fuel data first hfuel hfit hpieces ih =>
    obtain ⟨hcontents, hfaults, hoffset⟩ := switchBlock_spec h
    rw [hpieces, addLoop_round hoffset]
    generalize roundPiece lo first data = p at hfit ih ⊢
    obtain ⟨w', hemit, hfaults', hcontents', hoffset'⟩ := emitPhysicalRecord_spec hfaults p.1 p.2
    have hleft : w'.LeftOver (leftAfter lo p) :=
      ⟨hfaults', Or.inl (add_leftAfter hfit hoffset hoffset')⟩
    have hbytes : w'.dest.contents = w.dest.contents ++ piece lo p.1 p.2 := by
      grind [piece]
    rw [hemit]
    cases hrest : (roundRest lo data).isEmpty with
    | true =>
      refine ⟨w', rfl, hleft, ?_⟩
      rw [hbytes]
      exact congrArg _ (append_nil _).symm
    | false =>
      obtain ⟨-, -, hmore⟩ := ih hrest
      obtain ⟨w'', hloop, hleft', hbytes'⟩ := hmore hleft
      refine ⟨w'', hloop, hleft', ?_⟩
      rw [hbytes', hbytes, append_assoc]
      rfl

/-- `AddRecord` appends the physical records of the record. -/
theorem Writer.addRecord_pieces (h : w.LeftOver lo) (data : Slice) :
    ∃ w', w.addRecord data = some (w', .ok) ∧ w'.LeftOver (leftOver lo (logPieces lo [data])) ∧
      w'.dest.contents = w.dest.contents ++ bytesOf lo (logPieces lo [data]) := by
  have := addLoop_pieces true h (Enough.start lo data)
  rwa [logPieces, logPieces, append_nil]

/-- **The writer appends the physical records of the records**, and every call returns OK. -/
theorem Writer.addAll_pieces (records : List Slice) (h : w.LeftOver lo) :
    ∃ w', w.addAll records = some w' ∧ w'.LeftOver (leftOver lo (logPieces lo records)) ∧
      w'.dest.contents = w.dest.contents ++ bytesOf lo (logPieces lo records) := by
  induction records generalizing w lo with
  | nil => exact ⟨w, rfl, h, (append_nil _).symm⟩
  | cons data records ih =>
    obtain ⟨w₁, hadd, h₁, hbytes₁⟩ := addRecord_pieces h data
    obtain ⟨w', hall, h', hbytes⟩ := ih h₁
    have hsplit := logPieces_append lo [data] records
    grind [addAll, leftOver_append, bytesOf_append]

theorem Writer.leftOver_new (dest : WritableFile) (h : dest.faults = []) :
    (Writer.new dest).LeftOver 0 := ⟨h, Or.inr ⟨rfl, rfl⟩⟩

end Log

end RocketDb
