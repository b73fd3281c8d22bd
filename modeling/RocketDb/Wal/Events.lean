import RocketDb.Wal.Log

/-! # Reading any file as a log

* **`Reader.events`** — the records that come back, each with the corruptions reported before it, and those
  reported at the end.
* **`Reader.events_isSome`** — every file is read to its end. -/

namespace RocketDb

namespace Log

/-- The outcome of reading a file: the records, each with the corruptions reported while it was looked
for, and the corruptions reported after the last one. -/
structure Events where
  records : List (List Status × Slice)
  trailing : List Status
  deriving DecidableEq, Repr

/-- What was reported between two states of a reader. -/
def newReports (r r' : Reader) : List Status := (r'.reports.drop r.reports.length).map Prod.snd

/-- The outcome of calling `ReadRecord` until it returns false. -/
def Reader.events : ℕ → Reader → Option Events
  | 0, _ => none
  | fuel + 1, r =>
    match r.readRecord with
    | none => none
    | some (r', none) => some ⟨[], newReports r r'⟩
    | some (r', some record) => (r'.events fuel).map fun ev =>
      { ev with records := (newReports r r', record) :: ev.records }

/-! ## The reader comes to an end -/

/-- The bytes that are still before the reader. -/
def Reader.size (r : Reader) : ℕ := r.file.contents.length + r.buffer.length

variable {r r' : Reader} {st st' : ReadState} {type : ℕ} {fragment : Slice}

@[simp] theorem Reader.size_reportDrop (r : Reader) (bytes : ℕ) (reason : Status) :
    (r.reportDrop bytes reason).size = r.size := by
  rw [reportDrop]
  split <;> rfl

@[simp] theorem Reader.size_reportCorruption (r : Reader) (bytes : ℕ) (reason : Slice) :
    (r.reportCorruption bytes reason).size = r.size := r.size_reportDrop _ _

theorem length_read {file file' : SequentialFile} {n : ℕ} {status : Status} {bytes : Slice}
    (h : file.read n = (file', status, bytes)) :
    file'.contents.length + bytes.length ≤ file.contents.length := by
  rw [SequentialFile.read] at h
  split at h
  · cases h
    simp
  · cases h
    simp only [List.length_drop, List.length_take]
    omega

/-- After a refill there is a header, and no more bytes than before. -/
theorem Reader.fill_spec (h : r.fill = (r', true)) : kHeaderSize ≤ r'.buffer.length ∧ r'.size ≤ r.size := by
  rw [fill] at h
  by_cases hbuf : r.buffer.length < kHeaderSize
  · rw [if_pos hbuf] at h
    cases heof : r.eof with
    | true => simp [heof] at h
    | false =>
      cases hread : r.file.read kBlockSize with
      | mk file rest =>
        obtain ⟨status, bytes⟩ := rest
        have hlen := length_read hread
        grind [size]
  · rw [if_neg hbuf] at h
    cases h
    omega

/-- A physical record uses up bytes. -/
theorem Reader.readPhysicalRecord_size (h : r.readPhysicalRecord = (r', type, fragment)) :
    type = kEof ∨ r'.size < r.size := by
  have hH : kHeaderSize = 7 := rfl
  rw [readPhysicalRecord] at h
  grind [fill_spec, size, parsePhysicalRecord, size_reportCorruption]

@[simp] theorem Reader.size_reportPartial (r : Reader) (st : ReadState) (reason : Slice) :
    (r.reportPartial st reason).size = r.size := by
  rw [reportPartial]
  split
  · exact r.size_reportCorruption _ _
  · rfl

@[simp] theorem Reader.size_setOffset (r : Reader) (offset : UInt64) :
    ({ r with lastRecordOffset := offset } : Reader).size = r.size := rfl

@[simp] theorem Reader.size_setResyncing (r : Reader) (b : Bool) :
    ({ r with resyncing := b } : Reader).size = r.size := rfl

/-- A round of `ReadRecord` reads nothing itself. -/
theorem Reader.handle_size (r : Reader) (st : ReadState) (type : ℕ) (fragment : Slice) :
    match r.handle st type fragment with
    | .inl (r', record) => r'.size = r.size ∧ (type = kEof → record = none)
    | .inr (r', _) => r'.size = r.size ∧ type ≠ kEof := by
  by_cases heof : type = kEof
  · subst heof
    simp [handle, kEof, kMaxRecordType, RecordType.toNat]
  · simp only [handle, heof, if_false]
    split_ifs <;> simp [heof]

/-- **The loop of `ReadRecord` ends**, and a record takes at least one byte. -/
theorem Reader.readLoop_total (fuel : ℕ) (r : Reader) (st : ReadState) (hfuel : r.size < fuel) :
    ∃ r' record, r.readLoop fuel st = some (r', record) ∧ (record ≠ none → r'.size < r.size) := by
  induction fuel generalizing r st with
  | zero => omega
  | succ fuel ih =>
    cases hread : r.readPhysicalRecord with
    | mk r₁ rest =>
      obtain ⟨type, fragment⟩ := rest
      have hsize := readPhysicalRecord_size hread
      -- going on from a smaller reader
      have hnext : ∀ (r₂ : Reader) (st₂ : ReadState), r₂.size < r.size → ∃ r' record,
          r₂.readLoop fuel st₂ = some (r', record) ∧ (record ≠ none → r'.size < r.size) := by
        intro r₂ st₂ hlt
        obtain ⟨r', record, hloop, hrecord⟩ := ih r₂ st₂ (by omega)
        grind
      simp only [readLoop, hread]
      by_cases hmiddle : r₁.resyncing ∧ type = RecordType.kMiddleType.toNat
      · rw [if_pos hmiddle]
        exact hnext r₁ st (hsize.resolve_left (hmiddle.2 ▸ by decide))
      rw [if_neg hmiddle]
      by_cases hlast : r₁.resyncing ∧ type = RecordType.kLastType.toNat
      · rw [if_pos hlast]
        exact hnext _ st (hsize.resolve_left (hlast.2 ▸ by decide))
      rw [if_neg hlast]
      have hhandle := handle_size { r₁ with resyncing := false } st type fragment
      cases hr : ({ r₁ with resyncing := false } : Reader).handle st type fragment with
      | inl result =>
        grind [size_setResyncing]
      | inr result =>
        simp_all

theorem Reader.skipToInitialBlock_size (r : Reader) : r.skipToInitialBlock.1.size ≤ r.size := by
  have hskip : ∀ n, (r.file.skip n).1.contents.length ≤ r.file.contents.length := fun n => by
    rw [SequentialFile.skip]
    split
    · exact le_rfl
    · simp
  simp only [skipToInitialBlock]
  generalize (if kBlockSize - 6 < r.initialOffset.toNat % kBlockSize then _ else _) = start
  have hlen := hskip start
  split_ifs
  · exact Nat.add_le_add_right hlen _
  · rw [size_reportDrop]
    exact Nat.add_le_add_right hlen _
  · exact le_rfl

/-- **`ReadRecord` returns**, and a record takes at least one byte. -/
theorem Reader.readRecord_total (r : Reader) :
    ∃ r' record, r.readRecord = some (r', record) ∧ (record ≠ none → r'.size < r.size) := by
  have hskip : (if r.lastRecordOffset < r.initialOffset then r.skipToInitialBlock else (r, true)).1.size ≤
      r.size := by
    split
    · exact r.skipToInitialBlock_size
    · exact le_rfl
  rw [readRecord]
  cases hs : (if r.lastRecordOffset < r.initialOffset then r.skipToInitialBlock else (r, true)) with
  | mk r₁ ok =>
    rw [hs] at hskip
    cases ok with
    | false => exact ⟨r₁, none, rfl, by simp⟩
    | true =>
      obtain ⟨r', record, hloop, hsize⟩ := readLoop_total
        (r₁.file.contents.length + r₁.buffer.length + 2) r₁ ⟨[], false, 0⟩
        (Nat.lt_add_of_pos_right Nat.two_pos)
      grind

/-- **Every file is read to its end.** -/
theorem Reader.events_isSome (fuel : ℕ) (r : Reader) (hfuel : r.size < fuel) :
    ∃ ev, r.events fuel = some ev := by
  induction fuel generalizing r with
  | zero => omega
  | succ fuel ih =>
    obtain ⟨r', record, hread, hsize⟩ := r.readRecord_total
    rw [events, hread]
    cases record with
    | none => exact ⟨_, rfl⟩
    | some record =>
      grind

/-! ## What is reported is an error -/

/-- Everything reported so far is an error. -/
def Reader.ReportsErrors (r : Reader) : Prop := ∀ x ∈ r.reports, x.2.isOk = false

section

variable (h : r.ReportsErrors)

include h

theorem Reader.ReportsErrors.drop (bytes : ℕ) {reason : Status} (hreason : reason.isOk = false) :
    (r.reportDrop bytes reason).ReportsErrors := by
  rw [reportDrop]
  split
  · intro x hx
    rcases List.mem_append.mp hx with hx | hx
    · exact h x hx
    · rw [List.mem_singleton.mp hx]
      exact hreason
  · exact h

theorem Reader.ReportsErrors.corruption (bytes : ℕ) (reason : Slice) :
    (r.reportCorruption bytes reason).ReportsErrors := h.drop bytes rfl

theorem Reader.ReportsErrors.fill : r.fill.1.ReportsErrors := by
  rw [Reader.fill]
  split
  · split
    · exact h
    · simp only
      split
      · split <;> exact h
      · rename_i hstatus
        refine ReportsErrors.drop ?_ _ (Bool.eq_false_iff.mpr hstatus)
        exact h
  · exact h

theorem Reader.ReportsErrors.parse : r.parsePhysicalRecord.1.ReportsErrors := by
  simp only [parsePhysicalRecord]
  split_ifs
  · exact h
  · refine ReportsErrors.corruption ?_ _ _
    exact h
  · exact h
  · refine ReportsErrors.corruption ?_ _ _
    exact h
  · exact h
  · exact h

theorem Reader.ReportsErrors.readPhysicalRecord :
    r.readPhysicalRecord.1.ReportsErrors := by
  have hfill := h.fill
  rw [Reader.readPhysicalRecord]
  cases hr : r.fill with
  | mk r₁ ok =>
    rw [hr] at hfill
    cases ok with
    | false => exact hfill
    | true => exact hfill.parse

/-- Whatever a round reports is an error. -/
theorem Reader.ReportsErrors.handle (st : ReadState) (type : ℕ) (fragment : Slice) :
    match r.handle st type fragment with
    | .inl (r', _) => r'.ReportsErrors
    | .inr (r', _) => r'.ReportsErrors := by
  have hpartial : ∀ reason, (r.reportPartial st reason).ReportsErrors := fun reason => by
    rw [reportPartial]
    split
    · exact h.corruption _ _
    · exact h
  simp only [Reader.handle]
  split_ifs
  all_goals first | exact h | exact hpartial _ | exact h.corruption _ _

end

theorem Reader.ReportsErrors.readLoop (fuel : ℕ) (h : r.ReportsErrors) {record : Option Slice}
    (hloop : r.readLoop fuel st = some (r', record)) : r'.ReportsErrors := by
  induction fuel generalizing r st with
  | zero => cases hloop
  | succ fuel ih =>
    have hread := h.readPhysicalRecord
    cases hr : r.readPhysicalRecord with
    | mk r₁ rest =>
      obtain ⟨type, fragment⟩ := rest
      rw [hr] at hread
      simp only [Reader.readLoop, hr] at hloop
      split_ifs at hloop
      · exact ih hread hloop
      · exact ih (r := { r₁ with resyncing := false }) hread hloop
      · have hhandle := ReportsErrors.handle (r := { r₁ with resyncing := false }) hread st type fragment
        grind

theorem Reader.ReportsErrors.skipToInitialBlock (h : r.ReportsErrors) :
    r.skipToInitialBlock.1.ReportsErrors := by
  simp only [Reader.skipToInitialBlock]
  generalize (if kBlockSize - 6 < r.initialOffset.toNat % kBlockSize then _ else _) = start
  split_ifs with _ hstatus
  · exact h
  · refine ReportsErrors.drop ?_ _ (Bool.eq_false_iff.mpr hstatus)
    exact h
  · exact h

theorem Reader.ReportsErrors.readRecord (h : r.ReportsErrors) {record : Option Slice}
    (hread : r.readRecord = some (r', record)) : r'.ReportsErrors := by
  have hskip : (if r.lastRecordOffset < r.initialOffset then r.skipToInitialBlock
      else (r, true)).1.ReportsErrors := by
    split
    · exact h.skipToInitialBlock
    · exact h
  rw [Reader.readRecord] at hread
  cases hs : (if r.lastRecordOffset < r.initialOffset then r.skipToInitialBlock else (r, true)) with
  | mk r₁ ok =>
    rw [hs] at hread hskip
    cases ok with
    | false =>
      cases hread
      exact hskip
    | true => exact hskip.readLoop _ hread

theorem newReports_errors (h : r'.ReportsErrors) : ∀ s ∈ newReports r r', s.isOk = false := by
  intro s hs
  obtain ⟨x, hx, rfl⟩ := List.mem_map.mp hs
  exact h x (List.mem_of_mem_drop hx)

/-- **Everything reported is an error.** -/
theorem Reader.ReportsErrors.events (fuel : ℕ) (h : r.ReportsErrors) {ev : Events}
    (hev : r.events fuel = some ev) :
    (∀ x ∈ ev.records, ∀ s ∈ x.1, s.isOk = false) ∧ ∀ s ∈ ev.trailing, s.isOk = false := by
  induction fuel generalizing r ev with
  | zero => cases hev
  | succ fuel ih =>
    rw [Reader.events] at hev
    cases hread : r.readRecord with
    | none => simp [hread] at hev
    | some result =>
      obtain ⟨r₁, record⟩ := result
      have h₁ := h.readRecord hread
      cases record with
      | none =>
        grind [newReports_errors]
      | some record =>
        simp only [hread, Option.map_eq_some_iff] at hev
        obtain ⟨ev', hev', rfl⟩ := hev
        obtain ⟨hrecords, htrailing⟩ := ih h₁ hev'
        refine ⟨fun x hx => ?_, htrailing⟩
        grind [newReports_errors]

end Log

end RocketDb
