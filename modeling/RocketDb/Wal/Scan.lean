import RocketDb.Wal.Physical

/-! # From physical records to records

`ReadRecord` puts fragments together and forgets what has no beginning or no end: a small machine whose state
is the record in progress, if any.

* **`scan`** — the records that come out, and whether nothing is reported.
* **`Yields R lo es`** — a reader before the bytes `R` meets the physical records `es`, then the end.
* **`readAll_yields`**, **`readsBack_iff`** — reading is scanning. -/

namespace RocketDb

open List

namespace Log

/-! ## The machine -/

/-- **One step of `ReadRecord`**: the record in progress, the record that is complete, and whether this
happens without a report. -/
def assemble (s : Option Slice) : Physical → Option Slice × Option Slice × Bool
  | .fragment .kFullType data => (none, some data, s.getD [] == [])
  | .fragment .kFirstType data => (some data, none, s.getD [] == [])
  | .fragment .kMiddleType data =>
    match s with
    | none => (none, none, false)
    | some scratch => (some (scratch ++ data), none, true)
  | .fragment .kLastType data =>
    match s with
    | none => (none, none, false)
    | some scratch => (none, some (scratch ++ data), true)
  | .fragment .kZeroType _ => (none, none, false)
  | .bad _ => (none, none, s.isNone)
  | .unknown _ _ => (none, none, false)

/-- **The records of a list of physical records**, and whether nothing is reported. -/
def scan : Option Slice → List Physical → List Slice × Bool
  | _, [] => ([], true)
  | s, e :: es =>
    ((assemble s e).2.1.toList ++ (scan (assemble s e).1 es).1,
      !e.reported && (assemble s e).2.2 && (scan (assemble s e).1 es).2)

/-- The record in progress after physical records. -/
def after (s : Option Slice) (es : List Physical) : Option Slice :=
  es.foldl (fun s e => (assemble s e).1) s

@[simp] theorem after_nil (s : Option Slice) : after s [] = s := rfl

@[simp] theorem after_cons (s : Option Slice) (e : Physical) (es : List Physical) :
    after s (e :: es) = after (assemble s e).1 es := rfl

theorem scan_append (s : Option Slice) (es fs : List Physical) :
    scan s (es ++ fs) =
      ((scan s es).1 ++ (scan (after s es) fs).1, (scan s es).2 && (scan (after s es) fs).2) := by
  induction es generalizing s with
  | nil => rfl
  | cons e es ih =>
    rw [cons_append, scan, scan, ih, append_assoc, Bool.and_assoc (!e.reported && _)]
    rfl

theorem after_append (s : Option Slice) (es fs : List Physical) :
    after s (es ++ fs) = after (after s es) fs := foldl_append

/-! ## The reader steps like the machine -/

/-- The local variables of `ReadRecord` hold the record in progress. -/
def ReadState.Holds (st : ReadState) : Option Slice → Prop
  | none => st.inFragmentedRecord = false
  | some scratch => st.inFragmentedRecord = true ∧ st.scratch = scratch

variable {r : Reader} {st : ReadState} {s : Option Slice} {e : Physical}

/-- The reader went on to `r'`, and reported something unless `quiet`. -/
def Reader.Went (r r' : Reader) (quiet : Bool) : Prop :=
  ∃ offset reports, r' = { r with lastRecordOffset := offset, reports := r.reports ++ reports } ∧
    (reports = [] ↔ quiet = true)

theorem Reader.went_quiet (r : Reader) : r.Went r true :=
  ⟨r.lastRecordOffset, [], by rw [append_nil], by simp⟩

theorem Reader.went_offset (r : Reader) (offset : UInt64) :
    r.Went { r with lastRecordOffset := offset } true :=
  ⟨offset, [], by rw [append_nil], by simp⟩

theorem Reader.went_report (h : r.initialOffset = 0) (bytes : ℕ) (reason : Slice) :
    r.Went (r.reportCorruption bytes reason) false := by
  rw [reportCorruption_eq h]
  exact ⟨r.lastRecordOffset, [_], rfl, by simp⟩

theorem Reader.Went.setOffset {r' : Reader} {quiet : Bool} (h : r.Went r' quiet) (offset : UInt64) :
    r.Went { r' with lastRecordOffset := offset } quiet := by
  obtain ⟨o, reports, rfl, hreports⟩ := h
  exact ⟨offset, reports, rfl, hreports⟩

theorem Reader.went_reportPartial (h : r.initialOffset = 0) (hst : st.Holds s) (reason : Slice) :
    r.Went (r.reportPartial st reason) (s.getD [] == []) := by
  rw [reportPartial]
  cases s with
  | none =>
    rw [if_neg (by rw [show st.inFragmentedRecord = false from hst]; simp)]
    exact r.went_quiet
  | some scratch =>
    obtain ⟨hin, rfl⟩ := hst
    by_cases hempty : st.scratch = []
    · rw [if_neg (by simp [hempty]), show (((some st.scratch).getD [] : Slice) == []) = true by
        simp [hempty]]
      exact r.went_quiet
    · grind [went_report]

/-- **`ReadRecord` handles a physical record as the machine does.** -/
theorem Reader.handle_assemble (h : r.initialOffset = 0) (he : e.Possible) {data : Slice}
    (hdata : e.Hands data) (hst : st.Holds s) :
    ∃ r', r.Went r' (assemble s e).2.2 ∧
      match (assemble s e).2.1 with
      | some record => r.handle st e.type data = .inl (r', some record) ∧ (assemble s e).1 = none
      | none => ∃ st', r.handle st e.type data = .inr (r', st') ∧ st'.Holds (assemble s e).1 := by
  cases e with
  | fragment t d =>
    obtain rfl : data = d := hdata
    cases t with
    | kZeroType => exact absurd rfl he
    | kFullType =>
      refine ⟨_, (went_reportPartial h hst (ascii "partial record without end(1)")).setOffset
        (r.endOfBufferOffset - UInt64.ofNat r.buffer.length - UInt64.ofNat kHeaderSize -
          UInt64.ofNat data.length), ?_, rfl⟩
      simp [handle, Physical.type, RecordType.toNat]
    | kFirstType =>
      refine ⟨_, went_reportPartial h hst (ascii "partial record without end(2)"), ?_⟩
      refine ⟨⟨data, true, r.endOfBufferOffset - UInt64.ofNat r.buffer.length -
        UInt64.ofNat kHeaderSize - UInt64.ofNat data.length⟩, ?_, rfl, rfl⟩
      simp [handle, Physical.type, RecordType.toNat]
    | kMiddleType =>
      cases s with
      | none =>
        have hin : st.inFragmentedRecord = false := hst
        refine ⟨_, went_report h data.length (ascii "missing start of fragmented record(1)"),
          st, ?_, hst⟩
        simp [handle, Physical.type, RecordType.toNat, hin]
      | some scratch =>
        obtain ⟨hin, rfl⟩ := hst
        refine ⟨r, r.went_quiet, { st with scratch := st.scratch ++ data }, ?_, hin, rfl⟩
        simp [handle, Physical.type, RecordType.toNat, hin]
    | kLastType =>
      cases s with
      | none =>
        have hin : st.inFragmentedRecord = false := hst
        refine ⟨_, went_report h data.length (ascii "missing start of fragmented record(2)"),
          st, ?_, hst⟩
        simp [handle, Physical.type, RecordType.toNat, hin]
      | some scratch =>
        obtain ⟨hin, rfl⟩ := hst
        refine ⟨_, r.went_offset st.prospectiveRecordOffset, ?_, rfl⟩
        simp [handle, Physical.type, RecordType.toNat, hin]
  | bad reported =>
    -- a bad record ends the one that was being put together
    cases s with
    | none =>
      have hin : st.inFragmentedRecord = false := hst
      refine ⟨r, r.went_quiet, st, ?_, hst⟩
      simp [handle, Physical.type, RecordType.toNat, kBadRecord, kEof, kMaxRecordType, hin]
    | some scratch =>
      obtain ⟨hin, rfl⟩ := hst
      refine ⟨_, went_report h st.scratch.length (ascii "error in middle of record"),
        { st with scratch := [], inFragmentedRecord := false }, ?_, rfl⟩
      simp [handle, Physical.type, RecordType.toNat, kBadRecord, kEof, kMaxRecordType, hin]
  | unknown type d =>
    obtain rfl : data = d := hdata
    -- none of the cases of the switch applies
    have hknown : ¬ (type = 1 ∨ type = 2 ∨ type = 3 ∨ type = 4 ∨ type = 5 ∨ type = 6) := by
      rcases he with rfl | he
      · decide
      · have : kBadRecord = 6 := rfl
        omega
    simp only [not_or] at hknown
    obtain ⟨h1, h2, h3, h4, h5, h6⟩ := hknown
    refine ⟨_, went_report h (data.length + if st.inFragmentedRecord then st.scratch.length else 0)
      (ascii ("unknow record type " ++ toString type)),
      { st with scratch := [], inFragmentedRecord := false }, ?_, rfl⟩
    simp [handle, Physical.type, RecordType.toNat, kBadRecord, kEof, kMaxRecordType, h1, h2, h3, h4, h5, h6]

/-! ## Runs of the reader -/

/-- **Before the bytes `R`, with `lo` of them in the block, the reader meets the physical records `es`**,
then the end of the file. -/
inductive Yields : Slice → ℕ → List Physical → Prop where
  | eof {R : Slice} {lo : ℕ} (h : nextPhysical R lo = none) : Yields R lo []
  | cons {R R' : Slice} {lo lo' : ℕ} {e : Physical} {es : List Physical}
      (h : nextPhysical R lo = some (e, R', lo')) (rest : Yields R' lo' es) : Yields R lo (e :: es)

variable {R R' : Slice} {lo lo' : ℕ} {es : List Physical}

/-- Whatever the bytes are, the reader gets through them. -/
theorem exists_yields (R : Slice) (lo : ℕ) : ∃ es, Yields R lo es := by
  induction hn : R.length using Nat.strong_induction_on generalizing R lo with
  | _ n ih =>
    cases hnext : nextPhysical R lo with
    | none => exact ⟨[], .eof hnext⟩
    | some next =>
      obtain ⟨e, R', lo'⟩ := next
      obtain ⟨es, hes⟩ := ih R'.length (hn ▸ (nextPhysical_some hnext).2.1) R' lo' rfl
      exact ⟨e :: es, .cons hnext hes⟩

theorem Yields.unique {fs : List Physical} (h : Yields R lo es) (h' : Yields R lo fs) : es = fs := by
  induction h generalizing fs with
  | eof hnone =>
    cases h' with
    | eof _ => rfl
    | cons hsome _ => rw [hnone] at hsome; cases hsome
  | cons hsome _ ih =>
    cases h' with
    | eof hnone => rw [hnone] at hsome; cases hsome
    | cons hsome' rest =>
      rw [hsome] at hsome'
      cases hsome'
      rw [ih rest]

theorem Reader.readLoop_succ {r' : Reader} {type : ℕ} {fragment : Slice} (fuel : ℕ)
    (h : r.readPhysicalRecord = (r', type, fragment)) (hres : r'.resyncing = false) :
    r.readLoop (fuel + 1) st = match r'.handle st type fragment with
      | .inl result => some result
      | .inr (r, st) => r.readLoop fuel st := by
  grind [Reader, readLoop]

theorem Reader.readLoop_eof {r' : Reader} {data : Slice} (fuel : ℕ)
    (h : r.readPhysicalRecord = (r', kEof, data)) :
    r.readLoop (fuel + 1) st = some ({ r' with resyncing := false }, none) := by
  simp [readLoop, h, handle, kEof, kMaxRecordType, RecordType.toNat]

/-- **`ReadRecord` returns the next record of the scan**, or the end. -/
theorem readLoop_yields (h : Yields R lo es) (hr : r.Over R lo) (hst : st.Holds s) {fuel : ℕ}
    (hfuel : R.length < fuel) :
    (∃ r' reports, (scan s es).1 = [] ∧ r.readLoop fuel st = some (r', none) ∧
      r'.reports = r.reports ++ reports ∧ (reports = [] ↔ (scan s es).2 = true)) ∨
    ∃ record es' R' lo' r' reports quiet,
      scan s es = (record :: (scan none es').1, quiet && (scan none es').2) ∧
      r.readLoop fuel st = some (r', some record) ∧ r'.Over R' lo' ∧ Yields R' lo' es' ∧
      r'.reports = r.reports ++ reports ∧ (reports = [] ↔ quiet = true) := by
  -- on the physical records; each takes bytes, so the fuel lasts
  induction h generalizing r st s fuel with
  | eof heof =>
    have hreads := hr.reads_next
    rw [heof] at hreads
    obtain ⟨r', data, hread, hreports⟩ := hreads
    obtain ⟨fuel, rfl⟩ := Nat.exists_eq_succ_of_ne_zero (show fuel ≠ 0 by omega)
    refine Or.inl ⟨_, [], rfl, Reader.readLoop_eof fuel hread, ?_, by simp [scan]⟩
    rw [append_nil]
    exact hreports
  | @cons R R' lo lo' e es hnext hrest ih =>
    obtain ⟨fuel, rfl⟩ := Nat.exists_eq_succ_of_ne_zero (show fuel ≠ 0 by omega)
    obtain ⟨hpossible, hshorter, -⟩ := nextPhysical_some hnext
    have hreads := hr.reads_next
    rw [hnext] at hreads
    obtain ⟨r₁, data, reports₁, hread, hhands, h₁, hreports₁, hquiet₁⟩ := hreads
    obtain ⟨r₂, ⟨offset, reports₂, hr₂, hquiet₂⟩, hhandle⟩ :=
      Reader.handle_assemble h₁.initialOffset hpossible hhands hst
    have h₂ : r₂.Over R' lo' := hr₂ ▸ h₁.setReports _ _
    have hreports₂ : r₂.reports = r.reports ++ (reports₁ ++ reports₂) := by
      rw [hr₂, ← append_assoc, ← hreports₁]
    have hquiet : reports₁ ++ reports₂ = [] ↔ (!e.reported && (assemble s e).2.2) = true := by
      rw [append_eq_nil_iff, hquiet₁, hquiet₂]
      simp
    rw [Reader.readLoop_succ fuel hread h₁.resyncing, scan]
    cases hout : (assemble s e).2.1 with
    | some record =>
      rw [hout] at hhandle
      obtain ⟨hhandle, hstate⟩ := hhandle
      rw [hhandle]
      refine Or.inr ⟨record, es, R', lo', r₂, _, _, ?_, rfl, h₂, hrest, hreports₂, hquiet⟩
      rw [hstate, Option.toList_some, singleton_append]
    | none =>
      rw [hout] at hhandle
      obtain ⟨st', hhandle, hst'⟩ := hhandle
      rw [hhandle]
      have hfuel' : R'.length < fuel := by omega
      rcases ih h₂ hst' hfuel' with ⟨r', reports, hnil, hloop, hreports, hq⟩ |
        ⟨record, es', R'', lo'', r', reports, quiet, hscan, hloop, h', hyields, hreports, hq⟩
      · grind [append_eq_nil_iff]
      · refine Or.inr ⟨record, es', R'', lo'', r', reports₁ ++ reports₂ ++ reports,
          (!e.reported && (assemble s e).2.2) && quiet, ?_, hloop, h', hyields, ?_, ?_⟩
        · grind
        · rw [hreports, hreports₂, append_assoc]
        · grind [append_eq_nil_iff]

theorem Reader.Over.readRecord_eq (h : r.Over R lo) :
    r.readRecord = r.readLoop (R.length + 2) ⟨[], false, 0⟩ := by
  grind [Over, readRecord]

/-- **Reading is scanning**: the records that come back, and whether a corruption is reported. -/
theorem readAll_yields (h : Yields R lo es) (hr : r.Over R lo) {fuel : ℕ}
    (hfuel : (scan none es).1.length < fuel) :
    ∃ r' reports, r.readAll fuel = some ((scan none es).1, r') ∧
      r'.reports = r.reports ++ reports ∧ (reports = [] ↔ (scan none es).2 = true) := by
  induction fuel generalizing r R lo es with
  | zero => omega
  | succ fuel ih =>
    have hst : ReadState.Holds ⟨[], false, 0⟩ none := rfl
    rw [Reader.readAll, hr.readRecord_eq]
    rcases readLoop_yields h hr hst (show R.length < R.length + 2 by omega) with
      ⟨r', reports, hnil, hloop, hreports, hq⟩ |
      ⟨record, es', R', lo', r', reports, quiet, hscan, hloop, h', hyields, hreports, hq⟩
    · grind
    · rw [hscan] at hfuel ⊢
      grind [append_eq_nil_iff]

theorem Reader.readAll_mono {fuel : ℕ} {result : List Slice × Reader}
    (h : r.readAll fuel = some result) (more : ℕ) : r.readAll (fuel + more) = some result := by
  induction fuel generalizing r result with
  | zero => cases h
  | succ fuel ih =>
    rw [Nat.add_right_comm, readAll]
    rw [readAll] at h
    cases hrecord : r.readRecord with
    | none =>
      rw [hrecord] at h
      cases h
    | some next =>
      obtain ⟨r', record⟩ := next
      rw [hrecord] at h
      cases record with
      | none => exact h
      | some record =>
        obtain ⟨rest, hrest, hresult⟩ := Option.map_eq_some_iff.mp h
        simp only [ih hrest, Option.map_some, hresult]

/-- **The file reads back as the records**: the reader with checksums on returns them in order, then the
end, and reports nothing. -/
def ReadsBack (file : Slice) (records : List Slice) : Prop :=
  ∃ fuel r, (Reader.new ⟨file, []⟩ true 0).readAll fuel = some (records, r) ∧ r.reports = []

theorem readsBack_iff {file : Slice} {records : List Slice} (h : Yields file 0 es) :
    ReadsBack file records ↔ scan none es = (records, true) := by
  obtain ⟨r, reports, hread, hreports, hquiet⟩ := readAll_yields h (.new file) (Nat.lt_succ_self _)
  have hnew : r.reports = reports := by rw [hreports]; rfl
  constructor
  · rintro ⟨fuel, r', hread', hreports'⟩
    -- both runs are the run with the larger fuel
    have hsame := (Reader.readAll_mono hread fuel).symm.trans
      (Nat.add_comm fuel _ ▸ Reader.readAll_mono hread' _)
    grind
  · intro hscan
    rw [hscan] at hread hquiet
    exact ⟨_, r, hread, hnew.trans (hquiet.mpr rfl)⟩

end Log

end RocketDb
