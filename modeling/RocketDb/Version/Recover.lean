import RocketDb.Version.Edit
import RocketDb.Wal.Events

/-! # Recovery of the version set (`VersionSet::Recover`)

`Recover` applies the records of the MANIFEST that CURRENT names. The status of the whole lives in **one
variable**: the reporter of the log reader sets it unless it already holds an error, and decoding a record
overwrites it.

* **`VersionSet.recover`** — the function; the files are a map from names to contents.
* **`recover_rejects_damage_iff`** — an error is forgotten if a good record follows. -/

namespace RocketDb

open Log

/-! ## The version set -/

/-- The part of `VersionSet` that recovery sets. -/
structure VersionSet where
  nextFileNumber : ℕ
  manifestFileNumber : ℕ
  lastSequence : ℕ
  logNumber : ℕ
  prevLogNumber : ℕ
  current : Version
  compactPointer : ℕ → Option InternalKey

/-- The constructor. -/
def VersionSet.new : VersionSet := ⟨2, 0, 0, 0, 0, .empty, fun _ => none⟩

/-- `MarkFileNumberUsed`. -/
def VersionSet.markFileNumberUsed (vs : VersionSet) (number : ℕ) : VersionSet :=
  if vs.nextFileNumber ≤ number then { vs with nextFileNumber := (number + 1) % 2 ^ 64 } else vs

/-- The local variables of `Recover`. A number that no record has set is `none`. -/
structure Replay where
  status : Status
  logNumber : Option ℕ
  prevLogNumber : Option ℕ
  nextFile : Option ℕ
  lastSequence : Option ℕ
  builder : ℕ → LevelState
  compactPointer : ℕ → Option InternalKey

/-- Before the first record. -/
def Replay.start (vs : VersionSet) : Replay :=
  ⟨.ok, none, none, none, none, emptyBuilder, vs.compactPointer⟩

/-- `LogReporter::Corruption`: the first error stays. -/
def Replay.report (st : Replay) (reason : Status) : Replay :=
  if st.status.isOk then { st with status := reason } else st

/-- The comparator that an edit names is the configured one. -/
def checkComparator (ucmp : Comparator) (edit : VersionEdit) : Status :=
  match edit.comparator with
  | none => .ok
  | some name =>
    if name ≠ ucmp.name then
      .invalidArgument (name ++ ascii " does not match existing comparator ") ucmp.name
    else .ok

/-- The status after a record, from what `DecodeFrom` returned. -/
def recordStatus (ucmp : Comparator) (decoded : Status × VersionEdit) : Status :=
  if decoded.1.isOk then checkComparator ucmp decoded.2 else decoded.1

/-- The part of `Builder::Apply` that sets the compaction pointers. -/
def applyCompactPointers (pointer : ℕ → Option InternalKey) (edit : VersionEdit) :
    ℕ → Option InternalKey :=
  edit.compactPointers.foldl (fun pointer (level, key) => Function.update pointer level (some key)) pointer

/-- The body of the loop for one record, with the edit object's `has_next_file_number_` in memory. Its
numbers are taken even if the record is bad. -/
def Replay.record (ucmp : Comparator) (hasNextFile : Bool) (st : Replay) (record : Slice) : Replay :=
  let decoded := VersionEdit.decodeFrom hasNextFile record
  let edit := decoded.2
  let s := recordStatus ucmp decoded
  { status := s
    logNumber := edit.logNumber.or st.logNumber
    prevLogNumber := edit.prevLogNumber.or st.prevLogNumber
    nextFile := edit.nextFileNumber.or st.nextFile
    lastSequence := edit.lastSequence.or st.lastSequence
    builder := if s.isOk then builderApply ucmp st.builder edit else st.builder
    compactPointer :=
      if s.isOk then applyCompactPointers st.compactPointer edit else st.compactPointer }

/-- The loop over the records. `memory i` is the unset `has_next_file_number_` of the `i`-th edit. -/
def replayLoop (ucmp : Comparator) (memory : ℕ → Bool) : ℕ → ℕ → Reader → Replay → Option Replay
  | 0, _, _, _ => none
  | fuel + 1, i, r, st =>
    match r.readRecord with
    | none => none
    | some (r', none) => some ((newReports r r').foldl Replay.report st)
    | some (r', some record) =>
      let st := (newReports r r').foldl Replay.report st
      replayLoop ucmp memory fuel (i + 1) r' (st.record ucmp (memory i) record)

/-- The numbers that every MANIFEST must set. -/
def Replay.missing (st : Replay) : Status :=
  if st.nextFile = none then .corruption (ascii "no meta-nextfile entry in descriptor") []
  else if st.logNumber = none then .corruption (ascii "no meta-lognumber entry in descriptor") []
  else if st.lastSequence = none then
    .corruption (ascii "no last-sequence-number entry in descriptor") []
  else .ok

/-- The end of `Recover`: check and install. -/
def VersionSet.install (ucmp : Comparator) (vs : VersionSet) (st : Replay) : Status × VersionSet :=
  let vs := { vs with compactPointer := st.compactPointer }
  if st.status.isOk then
    let prevLogNumber := st.prevLogNumber.getD 0
    let logNumber := st.logNumber.getD 0
    let nextFile := st.nextFile.getD 0
    let vs := (vs.markFileNumberUsed prevLogNumber).markFileNumberUsed logNumber
    if st.missing.isOk then
      (.ok, { vs with
        current := builderSaveTo ucmp vs.current st.builder
        manifestFileNumber := nextFile
        nextFileNumber := (nextFile + 1) % 2 ^ 64
        lastSequence := st.lastSequence.getD 0
        logNumber := logNumber
        prevLogNumber := prevLogNumber })
    else (st.missing, vs)
  else (st.status, vs)

/-- The error for a file that is not there. -/
def noSuchFile (name : Slice) : Status := .notFound name (ascii "No such file or directory")

/-- The byte at the end of CURRENT. -/
def newline : UInt8 := 10

/-- **`VersionSet::Recover`** on the files of the database directory. -/
def VersionSet.recover (ucmp : Comparator) (files : Slice → Option Slice) (memory : ℕ → Bool)
    (vs : VersionSet) : Option (Status × VersionSet) :=
  match files (ascii "CURRENT") with
  | none => some (noSuchFile (ascii "CURRENT"), vs)
  | some current =>
    if current.getLast? = some newline then
      match files current.dropLast with
      | none =>
        some (.corruption (ascii "CURRENT points to  a non-existent file")
          (noSuchFile current.dropLast).toSlice, vs)
      | some contents =>
        (replayLoop ucmp memory (contents.length + 1) 0 (Reader.new ⟨contents, []⟩ true 0)
          (.start vs)).map (vs.install ucmp)
    else some (.corruption (ascii "CURRENT file dose not end with newline") [], vs)

/-! ## Recovery as a function of the events -/

/-- The records of the MANIFEST, one after the other. -/
def replayRecords (ucmp : Comparator) (memory : ℕ → Bool) :
    ℕ → Replay → List (List Status × Slice) → Replay
  | _, st, [] => st
  | i, st, x :: records =>
    replayRecords ucmp memory (i + 1)
      ((x.1.foldl Replay.report st).record ucmp (memory i) x.2) records

variable {ucmp : Comparator} {memory : ℕ → Bool} {st : Replay} {vs : VersionSet} {ev : Events}

theorem replayLoop_eq (fuel i : ℕ) {r : Reader} (h : r.events fuel = some ev) :
    replayLoop ucmp memory fuel i r st =
      some (ev.trailing.foldl Replay.report (replayRecords ucmp memory i st ev.records)) := by
  induction fuel generalizing i r st ev with
  | zero => cases h
  | succ fuel ih =>
    rw [Reader.events] at h
    rw [replayLoop]
    cases hread : r.readRecord with
    | none => simp [hread] at h
    | some result =>
      obtain ⟨r', record⟩ := result
      cases record with
      | none =>
        simp only [hread, Option.some.injEq] at h
        subst h
        rfl
      | some record =>
        simp only [hread, Option.map_eq_some_iff] at h
        obtain ⟨ev', hev', rfl⟩ := h
        exact ih (i + 1) hev'

/-! ## The status -/

/-- **A good record**: it can be decoded, and names no comparator but the configured one. -/
def RecordGood (ucmp : Comparator) (record : Slice) : Prop :=
  (recordStatus ucmp (VersionEdit.decodeFrom false record)).isOk = true

instance (ucmp : Comparator) (record : Slice) : Decidable (RecordGood ucmp record) :=
  inferInstanceAs (Decidable (_ = true))

theorem isOk_foldl_report {reports : List Status} (h : ∀ s ∈ reports, s.isOk = false) :
    (reports.foldl Replay.report st).status.isOk = true ↔ st.status.isOk = true ∧ reports = [] := by
  induction reports generalizing st with
  | nil => simp
  | cons s reports ih =>
    grind [Replay.report]

theorem isOk_record (hasNextFile : Bool) (record : Slice) :
    (st.record ucmp hasNextFile record).status.isOk = true ↔ RecordGood ucmp record := by
  obtain ⟨hstatus, hcmp⟩ := VersionEdit.decodeFrom_memory hasNextFile false record
  have heq : recordStatus ucmp (VersionEdit.decodeFrom hasNextFile record) =
      recordStatus ucmp (VersionEdit.decodeFrom false record) := by
    grind [recordStatus, checkComparator]
  rw [RecordGood, ← heq]
  rfl

/-- **Only the last record counts.** -/
theorem isOk_replayRecords (i : ℕ) (records : List (List Status × Slice)) :
    (replayRecords ucmp memory i st records).status.isOk = true ↔
      match records.getLast? with
      | none => st.status.isOk = true
      | some x => RecordGood ucmp x.2 := by
  induction records generalizing i st with
  | nil => rfl
  | cons x records ih =>
    grind [replayRecords, isOk_record]

/-! ## The numbers -/

/-- Some record of the MANIFEST sets a number. -/
def SetsField (memory : ℕ → Bool) (records : List (List Status × Slice))
    (field : VersionEdit → Option ℕ) : Prop :=
  ∃ k x, records[k]? = some x ∧ (field (VersionEdit.decodeFrom (memory k) x.2).2).isSome = true

theorem setsField_cons {x : List Status × Slice} {records : List (List Status × Slice)}
    {field : VersionEdit → Option ℕ} :
    SetsField memory (x :: records) field ↔
      (field (VersionEdit.decodeFrom (memory 0) x.2).2).isSome = true ∨
        SetsField (fun k => memory (k + 1)) records field := by
  constructor
  · rintro ⟨k, y, hk, hy⟩
    cases k with
    | zero =>
      cases hk
      exact Or.inl hy
    | succ k => exact Or.inr ⟨k, y, hk, hy⟩
  · rintro (hx | ⟨k, y, hk, hy⟩)
    · exact ⟨0, x, rfl, hx⟩
    · exact ⟨k + 1, y, hk, hy⟩

theorem foldl_report {get : Replay → Option ℕ} (hreport : ∀ st s, get (Replay.report st s) = get st)
    (reports : List Status) (st : Replay) : get (reports.foldl Replay.report st) = get st := by
  induction reports generalizing st with
  | nil => rfl
  | cons s reports ih => exact (ih _).trans (hreport st s)

theorem isSome_replayRecords {get : Replay → Option ℕ} {field : VersionEdit → Option ℕ}
    (hreport : ∀ st s, get (Replay.report st s) = get st)
    (hrecord : ∀ st b record, get (Replay.record ucmp b st record) =
      (field (VersionEdit.decodeFrom b record).2).or (get st))
    (i : ℕ) (st : Replay) (records : List (List Status × Slice)) :
    (get (replayRecords ucmp memory i st records)).isSome = true ↔
      (get st).isSome = true ∨ SetsField (fun k => memory (i + k)) records field := by
  induction records generalizing i st with
  | nil => simp [replayRecords, SetsField]
  | cons x records ih =>
    rw [replayRecords, setsField_cons]
    refine (ih (i + 1) _).trans ?_
    rw [hrecord, foldl_report hreport, Option.isSome_or, Bool.or_eq_true, or_assoc, or_left_comm]
    simp only [Nat.add_zero, Nat.add_assoc, Nat.add_comm 1]

/-- The MANIFEST sets all the numbers that `Recover` asks for. -/
structure Complete (memory : ℕ → Bool) (ev : Events) : Prop where
  nextFile : SetsField memory ev.records VersionEdit.nextFileNumber
  logNumber : SetsField memory ev.records VersionEdit.logNumber
  lastSequence : SetsField memory ev.records VersionEdit.lastSequence

theorem isOk_missing : st.missing.isOk = true ↔
    st.nextFile.isSome = true ∧ st.logNumber.isSome = true ∧ st.lastSequence.isSome = true := by
  rw [Replay.missing]
  cases st.nextFile <;> cases st.logNumber <;> cases st.lastSequence <;> simp

theorem isOk_missing_replay (vs : VersionSet) (ev : Events) :
    (ev.trailing.foldl Replay.report
      (replayRecords ucmp memory 0 (.start vs) ev.records)).missing.isOk = true ↔
      Complete memory ev := by
  have hget : ∀ {get : Replay → Option ℕ} {field : VersionEdit → Option ℕ},
      (∀ st s, get (Replay.report st s) = get st) →
      (∀ st b record, get (Replay.record ucmp b st record) =
        (field (VersionEdit.decodeFrom b record).2).or (get st)) → get (.start vs) = none →
      ((get (ev.trailing.foldl Replay.report
        (replayRecords ucmp memory 0 (.start vs) ev.records))).isSome = true ↔
          SetsField memory ev.records field) := by
    intro get field hreport hrecord hstart
    rw [foldl_report hreport]
    refine (isSome_replayRecords hreport hrecord 0 _ _).trans ?_
    simp [hstart]
  have hkeep : ∀ (st : Replay) (s : Status), (st.report s).nextFile = st.nextFile ∧
      (st.report s).logNumber = st.logNumber ∧ (st.report s).lastSequence = st.lastSequence := by
    grind [Replay.report]
  rw [isOk_missing, hget (fun st s => (hkeep st s).1) (fun _ _ _ => rfl) rfl,
    hget (fun st s => (hkeep st s).2.1) (fun _ _ _ => rfl) rfl,
    hget (fun st s => (hkeep st s).2.2) (fun _ _ _ => rfl) rfl]
  exact ⟨fun h => ⟨h.1, h.2.1, h.2.2⟩, fun h => ⟨h.1, h.2, h.3⟩⟩

@[simp] theorem VersionSet.current_markFileNumberUsed (vs : VersionSet) (n : ℕ) :
    (vs.markFileNumberUsed n).current = vs.current := by
  rw [markFileNumberUsed]
  split <;> rfl

theorem VersionSet.install_spec (ucmp : Comparator) (vs : VersionSet) (st : Replay) :
    ((vs.install ucmp st).1.isOk = true ↔ st.status.isOk = true ∧ st.missing.isOk = true) ∧
      ((vs.install ucmp st).1.isOk = false → (vs.install ucmp st).2.current = vs.current) := by
  simp only [install]
  by_cases hstatus : st.status.isOk = true
  · by_cases hmissing : st.missing.isOk = true
    · simp [hstatus, hmissing]
    · simp [hstatus, hmissing]
  · simp [hstatus]

/-! ## Damage -/

/-- The reader reported a corruption, or some record is bad. -/
def Damaged (ucmp : Comparator) (ev : Events) : Prop :=
  (∃ x ∈ ev.records, x.1 ≠ [] ∨ ¬ RecordGood ucmp x.2) ∨ ev.trailing ≠ []

instance (ucmp : Comparator) (ev : Events) : Decidable (Damaged ucmp ev) :=
  inferInstanceAs (Decidable (_ ∨ _))

/-- The last thing read is a good record. -/
def EndsGood (ucmp : Comparator) (ev : Events) : Prop :=
  ev.trailing = [] ∧ ∃ x, ev.records.getLast? = some x ∧ RecordGood ucmp x.2

/-- **When a MANIFEST is accepted**: it ends with a good record, and the numbers are there. Otherwise
the version stays. -/
theorem recover_spec (ucmp : Comparator) (memory : ℕ → Bool) (vs : VersionSet)
    {files : Slice → Option Slice} {name contents : Slice}
    (hcurrent : files (ascii "CURRENT") = some (name ++ [newline]))
    (hmanifest : files name = some contents)
    (hev : (Reader.new ⟨contents, []⟩ true 0).events (contents.length + 1) = some ev) :
    ∃ s vs', vs.recover ucmp files memory = some (s, vs') ∧
      (s.isOk = true ↔ EndsGood ucmp ev ∧ Complete memory ev) ∧
      (s.isOk = false → vs'.current = vs.current) := by
  have herr : (Reader.new ⟨contents, []⟩ true 0).ReportsErrors := by
    intro x hx
    cases hx
  obtain ⟨-, htrailing⟩ := herr.events _ hev
  let st := ev.trailing.foldl Replay.report (replayRecords ucmp memory 0 (.start vs) ev.records)
  have hrecover : vs.recover ucmp files memory = some (vs.install ucmp st) := by
    grind [VersionSet.recover, replayLoop_eq]
  obtain ⟨hok, hkeep⟩ := vs.install_spec ucmp st
  refine ⟨(vs.install ucmp st).1, (vs.install ucmp st).2, hrecover, ?_, hkeep⟩
  rw [hok, isOk_missing_replay, isOk_foldl_report htrailing, isOk_replayRecords]
  refine and_congr_left fun hcomplete => ?_
  -- a MANIFEST without records sets no numbers
  obtain ⟨k, y, hk, -⟩ := hcomplete.nextFile
  grind [EndsGood]

/-- **When damage is rejected.** `Recover` rejects a damaged MANIFEST, and leaves the version alone,
exactly if the MANIFEST does not end with a good record or does not set the numbers: a good record wipes
out every error before it. -/
theorem recover_rejects_damage_iff (ucmp : Comparator) (files : Slice → Option Slice)
    (memory : ℕ → Bool) (vs : VersionSet) {name contents : Slice}
    (hcurrent : files (ascii "CURRENT") = some (name ++ [newline]))
    (hmanifest : files name = some contents) :
    ∃ ev, (Reader.new ⟨contents, []⟩ true 0).events (contents.length + 1) = some ev ∧
      ((Damaged ucmp ev → ∃ s vs', vs.recover ucmp files memory = some (s, vs') ∧ s.isOk = false ∧
          vs'.current = vs.current) ↔
        (Damaged ucmp ev → ¬ (EndsGood ucmp ev ∧ Complete memory ev))) := by
  obtain ⟨ev, hev⟩ := Reader.events_isSome (contents.length + 1) (Reader.new ⟨contents, []⟩ true 0)
    (Nat.lt_succ_self _)
  obtain ⟨s, vs', hrecover, hok, hkeep⟩ := recover_spec ucmp memory vs hcurrent hmanifest hev
  grind

/-- The contents of a MANIFEST with the given records. -/
def manifestContents (records : List Slice) : Slice :=
  match (Writer.new ⟨[], 0, []⟩).addAll records with
  | none => []
  | some w => w.dest.contents

/-- The files of a database with the given records in its MANIFEST. -/
def manifestFiles (records : List Slice) (name : Slice) : Option Slice :=
  if name = ascii "CURRENT" then some (ascii "MANIFEST-000002" ++ [newline])
  else if name = ascii "MANIFEST-000002" then some (manifestContents records)
  else none

/-- A record that names another comparator and adds a table. -/
def foreignRecord : Slice :=
  VersionEdit.encodeTo
    { comparator := some (ascii "other")
      newFiles :=
        [(1, ⟨4, 100, .ofParts (ascii "a") 1 .kTypeValue, .ofParts (ascii "b") 2 .kTypeValue⟩)] }

/-- A record with the numbers. -/
def numbersRecord : Slice :=
  VersionEdit.encodeTo
    { logNumber := some 3, prevLogNumber := some 0, nextFileNumber := some 5, lastSequence := some 2 }

/-- **A record of another comparator is forgotten** when the next record is good: recovery returns OK
and installs a version without its table. -/
theorem recover_forgets_foreign_record :
    let contents := manifestContents [foreignRecord, numbersRecord]
    (∃ ev, (Reader.new ⟨contents, []⟩ true 0).events (contents.length + 1) = some ev ∧
      Damaged bytewiseComparator ev) ∧
    ∃ r, VersionSet.new.recover bytewiseComparator (manifestFiles [foreignRecord, numbersRecord])
      (fun _ => false) = some r ∧ r.1 = .ok ∧ r.2.lastSequence = 2 ∧ r.2.current.files 1 = [] := by
  have hdamaged : (((Reader.new ⟨manifestContents [foreignRecord, numbersRecord], []⟩ true 0).events
      ((manifestContents [foreignRecord, numbersRecord]).length + 1)).any fun ev =>
        decide (Damaged bytewiseComparator ev)) = true := by
    decide +kernel
  have haccepted : ((VersionSet.new.recover bytewiseComparator
      (manifestFiles [foreignRecord, numbersRecord]) fun _ => false).any fun r =>
        decide (r.1 = .ok ∧ r.2.lastSequence = 2 ∧ r.2.current.files 1 = [])) = true := by
    decide +kernel
  exact ⟨by simpa [Option.any_eq_true] using hdamaged, by simpa [Option.any_eq_true] using haccepted⟩

/-- With the foreign record at the end, the MANIFEST is damaged and rejected. -/
theorem recover_rejects_damage_at_end :
    let files := manifestFiles [numbersRecord, foreignRecord]
    let contents := manifestContents [numbersRecord, foreignRecord]
    ∃ ev, (Reader.new ⟨contents, []⟩ true 0).events (contents.length + 1) = some ev ∧
      Damaged bytewiseComparator ev ∧
      ∃ s vs, VersionSet.new.recover bytewiseComparator files (fun _ => false) = some (s, vs) ∧
        s.isOk = false ∧ vs.current = VersionSet.new.current := by
  intro files contents
  have hcurrent : files (ascii "CURRENT") = some (ascii "MANIFEST-000002" ++ [newline]) := by decide
  have hmanifest : files (ascii "MANIFEST-000002") = some contents := if_neg (by decide)
  obtain ⟨ev, hev, hiff⟩ := recover_rejects_damage_iff bytewiseComparator files (fun _ => false) .new
    hcurrent hmanifest
  have hends : (((Reader.new ⟨contents, []⟩ true 0).events (contents.length + 1)).any fun ev =>
      decide (Damaged bytewiseComparator ev ∧ ev.trailing = [] ∧
        (ev.records.getLast?.any fun x => decide (¬ RecordGood bytewiseComparator x.2)) = true)) = true := by
    decide +kernel
  rw [hev] at hends
  obtain ⟨hdamaged, -, hlast⟩ := of_decide_eq_true hends
  refine ⟨ev, hev, hdamaged, hiff.mpr (fun _ hgood => ?_) hdamaged⟩
  obtain ⟨-, x, hx, hgood⟩ := hgood.1
  rw [hx] at hlast
  exact of_decide_eq_true hlast hgood

end RocketDb
