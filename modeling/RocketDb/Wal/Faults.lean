import RocketDb.Lib.Transition
import RocketDb.Wal.Pieces

/-! # A log whose file fails

`EmitPhysicalRecord` advances its offset whether or not the bytes reached the file, and `DBImpl::Write` goes
on with the same log after an error, unless it was `Sync` that failed.

* **`Writer.addKeeps`** — the file calls of `AddRecord` that fail have kept all their bytes; then the file
  grows by whole physical records, whatever is returned.
* **`LogState.write`** — the part of `DBImpl::Write` that concerns the log.
* **`acknowledged_read_back`** — under that condition no acknowledged write is lost. -/

namespace RocketDb

open List

/-- The next call on the file keeps all of the given number of bytes, even if it fails. -/
def WritableFile.keeps (file : WritableFile) (bytes : ℕ) : Bool :=
  match file.faults with
  | some (n, _) :: _ => decide (bytes ≤ n)
  | _ => true

theorem WritableFile.append_keeps {file : WritableFile} {data : Slice}
    (h : file.keeps data.length = true) : (file.append data).1.contents = file.contents ++ data := by
  rw [keeps] at h
  rw [append]
  split
  · rename_i n s faults hfaults
    rw [hfaults] at h
    rw [take_of_length_le (of_decide_eq_true h)]
  · rfl

theorem WritableFile.flush_keeps {file : WritableFile}
    (h : file.keeps (file.contents.length - file.flushed) = true) :
    file.flush.1.contents = file.contents := by
  rw [keeps] at h
  rw [flush]
  split
  · rename_i n s faults hfaults
    rw [hfaults] at h
    have := of_decide_eq_true h
    exact take_of_length_le (by omega)
  · rfl

namespace Log

/-! ## One call -/

/-- The file calls of `EmitPhysicalRecord` keep their bytes; the header may fail only before an empty
fragment, which is not appended then. -/
def Writer.emitKeeps (w : Writer) (t : RecordType) (fragment : Slice) : Bool :=
  let (dest₁, s₁) := w.dest.append (header t fragment)
  let (dest₂, s₂) := dest₁.append fragment
  w.dest.keeps kHeaderSize &&
    if s₁.isOk then
      dest₁.keeps fragment.length && (!s₂.isOk || dest₂.keeps (dest₂.contents.length - dest₂.flushed))
    else fragment.isEmpty

/-- The file calls of the loop of `AddRecord` keep their bytes, those for the padding included. -/
def Writer.addLoopKeeps : ℕ → Writer → Slice → Bool → Bool
  | 0, _, _, _ => true
  | fuel + 1, w, left, first =>
    let leftover := kBlockSize - w.blockOffset
    let padKeeps := !decide (0 < leftover ∧ leftover < kHeaderSize) || w.dest.keeps leftover
    let w := w.switchBlock
    let avail := kBlockSize - w.blockOffset - kHeaderSize
    let fragmentLength := if left.length < avail then left.length else avail
    let t := fragmentType first (left.length == fragmentLength)
    let (w', s) := w.emitPhysicalRecord t (left.take fragmentLength)
    padKeeps && w.emitKeeps t (left.take fragmentLength) &&
      (!(s.isOk && !(left.drop fragmentLength).isEmpty) ||
        w'.addLoopKeeps fuel (left.drop fragmentLength) false)

/-- **The file calls of `AddRecord` keep their bytes.** -/
def Writer.addKeeps (w : Writer) (record : Slice) : Bool :=
  w.addLoopKeeps (record.length + 2) record true

/-- The writer has `lo` bytes left over in its block. -/
def Writer.At (w : Writer) (lo : ℕ) : Prop :=
  w.blockOffset + lo = kBlockSize ∨ w.blockOffset = 0 ∧ lo = 0

variable {w : Writer} {lo : ℕ} {t : RecordType} {fragment : Slice}

theorem Writer.emitPhysicalRecord_keeps (h : w.emitKeeps t fragment = true) :
    ∃ w' s, w.emitPhysicalRecord t fragment = (w', s) ∧
      w'.dest.contents = w.dest.contents ++ header t fragment ++ fragment ∧
      w'.blockOffset = w.blockOffset + kHeaderSize + fragment.length := by
  rw [emitPhysicalRecord]
  simp only [emitKeeps, Bool.and_eq_true] at h
  obtain ⟨hheader, hrest⟩ := h
  have hcontents₁ : (w.dest.append (header t fragment)).1.contents =
      w.dest.contents ++ header t fragment := WritableFile.append_keeps hheader
  grind [Status.isOk, WritableFile.append_keeps, WritableFile.flush_keeps]

theorem Writer.switchBlock_keeps (h : w.At lo)
    (hkeeps : 0 < kBlockSize - w.blockOffset ∧ kBlockSize - w.blockOffset < kHeaderSize →
      w.dest.keeps (kBlockSize - w.blockOffset) = true) :
    w.switchBlock.dest.contents = w.dest.contents ++ List.replicate (padding lo) 0 ∧
      w.switchBlock.blockOffset + room lo = kBlockSize := by
  have hB : kBlockSize = 32768 := rfl
  have hH : kHeaderSize = 7 := rfl
  rw [switchBlock, padding, room]
  rcases h with hoff | ⟨hoff, rfl⟩
  · have hleft : kBlockSize - w.blockOffset = lo := by omega
    rw [hleft] at hkeeps
    simp only [hleft]
    by_cases hlo : lo < kHeaderSize
    · by_cases hpos : 0 < lo
      · grind [WritableFile.append_keeps]
      · obtain rfl : lo = 0 := by omega
        simp [hH]
    · simp [hlo, hoff]
  · simp [hoff, hB, hH]

/-- **The file grows by whole physical records of the record**, by all of them if OK is returned. -/
theorem Writer.addLoop_keeps {fuel : ℕ} (first : Bool) {data : Slice} (h : w.At lo)
    (hfuel : Enough fuel lo data) (hkeeps : w.addLoopKeeps fuel data first = true) :
    ∃ w' s A Y, w.addLoop fuel data first = some (w', s) ∧
      recordPieces fuel lo first data = A ++ Y ∧ (s.isOk = true → Y = []) ∧
      w'.dest.contents = w.dest.contents ++ bytesOf lo A ∧ w'.At (leftOver lo A) := by
  induction first, hfuel using round_induction generalizing w with
  | round lo fuel data first hfuel hfit hpieces ih =>
    simp only [addLoopKeeps, Bool.and_eq_true, Bool.or_eq_true, Bool.not_eq_true',
      decide_eq_false_iff_not] at hkeeps
    obtain ⟨⟨hpad, hemit⟩, hmore⟩ := hkeeps
    obtain ⟨hcontents, hoffset⟩ := switchBlock_keeps h fun hlt => hpad.resolve_left (not_not.mpr hlt)
    rw [Nat.sub_eq_of_eq_add' hoffset.symm] at hemit hmore
    rw [hpieces, addLoop_round hoffset]
    change w.switchBlock.emitKeeps (roundPiece lo first data).1 (roundPiece lo first data).2 = true at hemit
    change
      let r := w.switchBlock.emitPhysicalRecord (roundPiece lo first data).1 (roundPiece lo first data).2
      (r.2.isOk && !(roundRest lo data).isEmpty) = false ∨
        r.1.addLoopKeeps fuel (roundRest lo data) false = true at hmore
    generalize roundPiece lo first data = p at hfit ih hemit hmore ⊢
    obtain ⟨w', s, hresult, hcontents', hoffset'⟩ := emitPhysicalRecord_keeps hemit
    have hat : w'.At (leftAfter lo p) := Or.inl (add_leftAfter hfit hoffset hoffset')
    have hpiece : w'.dest.contents = w.dest.contents ++ bytesOf lo [p] := by
      grind [bytesOf, piece]
    rw [hresult] at hmore ⊢
    cases hgo : s.isOk && !(roundRest lo data).isEmpty with
    | false =>
      -- the call ends here: the rest of the record, if there is one, is not in the file
      refine ⟨w', s, [p], _, if_neg (by simp [hgo]), rfl, fun hok => ?_, hpiece, hat⟩
      rw [hok, Bool.true_and, Bool.not_eq_false'] at hgo
      exact if_pos hgo
    | true =>
      obtain ⟨-, hrest⟩ := (Bool.and_eq_true _ _).mp hgo
      rw [Bool.not_eq_true'] at hrest
      obtain ⟨-, -, hloop⟩ := ih hrest
      obtain ⟨w'', s', A, Y, hloop, hpieces, hok, hbytes, hat'⟩ :=
        hloop hat (hmore.resolve_left (by simp [hgo]))
      refine ⟨w'', s', p :: A, Y, (if_pos hgo).trans hloop, ?_, hok, ?_, hat'⟩
      · rw [hrest]
        exact congrArg (p :: ·) hpieces
      · grind [bytesOf]

theorem Writer.addRecord_keeps (h : w.At lo) {record : Slice} (hkeeps : w.addKeeps record = true) :
    ∃ w' s A Y, w.addRecord record = some (w', s) ∧
      recordPieces (record.length + 2) lo true record = A ++ Y ∧ (s.isOk = true → Y = []) ∧
      w'.dest.contents = w.dest.contents ++ bytesOf lo A ∧ w'.At (leftOver lo A) :=
  addLoop_keeps true h (Enough.start lo record) hkeeps

/-! ## Runs -/

/-- A call of `DBImpl::Write`: the contents of the batch, whether it asks for `Sync`, and what `Sync`
returns if it is called. -/
structure WriteCall where
  record : Slice
  sync : Bool
  syncStatus : Status
  deriving DecidableEq, Repr

/-- The log of a database, with the background error and what was returned so far. -/
structure LogState where
  log : Writer
  bgError : Status
  /-- The records for which `AddRecord` returned OK. -/
  added : List Slice
  /-- The records for which `Write` returned OK. -/
  acknowledged : List Slice
  deriving DecidableEq, Repr

/-- A new log. The faults say how the coming calls on its file end. -/
def LogState.init (faults : List (Option (ℕ × Status))) : LogState :=
  ⟨Writer.new ⟨[], 0, faults⟩, .ok, [], []⟩

/-- **`DBImpl::Write`, as far as the log is concerned.** With a background error `MakeRoomForWrite`
returns it. A failing `Sync` is recorded as one, a failing `AddRecord` is not. -/
def LogState.write (s : LogState) (call : WriteCall) : Option LogState :=
  if s.bgError.isOk then
    match s.log.addRecord call.record with
    | none => none
    | some (log, status) =>
      let status' := if status.isOk && call.sync then call.syncStatus else status
      some {
        log := log
        bgError := if status.isOk && !status'.isOk then status' else s.bgError
        added := if status.isOk then s.added ++ [call.record] else s.added
        acknowledged :=
          if status'.isOk then s.acknowledged ++ [call.record] else s.acknowledged }
  else some s

/-- The file calls of a write keep their bytes. -/
def LogState.Keeps (s : LogState) (call : WriteCall) : Prop := s.log.addKeeps call.record = true

instance (s : LogState) (call : WriteCall) : Decidable (s.Keeps call) :=
  inferInstanceAs (Decidable (_ = true))

/-- The file holds whole physical records, and among them those of the records that were added. -/
structure LogState.Intact (s : LogState) (ps : List Frag) : Prop where
  contents : s.log.dest.contents = bytesOf 0 ps
  fit : Fit 0 ps
  place : s.log.At (leftOver 0 ps)
  added : s.added.Sublist (scan none (met ps)).1
  acknowledged : s.acknowledged.Sublist s.added

theorem LogState.Intact.write {s : LogState} {ps : List Frag} {call : WriteCall} (h : s.Intact ps)
    (hkeeps : s.Keeps call) : ∃ s', s.write call = some s' ∧ ∃ ps', s'.Intact ps' := by
  rw [LogState.write]
  split_ifs with hok
  · obtain ⟨log, status, A, Y, hadd, hpieces, hwhole, hcontents, hplace⟩ :=
      Writer.addRecord_keeps h.place hkeeps
    rw [hadd]
    refine ⟨_, rfl, ps ++ A, ?_, ?_, ?_, ?_, ?_⟩
    · rw [bytesOf_append, ← h.contents]
      exact hcontents
    · have hfit : Fit (leftOver 0 ps)
          (recordPieces (call.record.length + 2) (leftOver 0 ps) true call.record) :=
        fit_recordPieces true (.start _ _)
      rw [hpieces] at hfit
      exact fit_append.mpr ⟨h.fit, (fit_append.mp hfit).1⟩
    · rw [leftOver_append]
      exact hplace
    · -- the whole record is in the file
      grind [met_append, scan_append, scan_record, Intact]
    · grind [Intact]
  · exact ⟨s, rfl, ps, h⟩

/-- **Acknowledged writes are read back** in every run in which the file calls that fail have kept their
bytes: every record for which `AddRecord` returned OK, and so every one whose write was acknowledged, is
returned by a reader of the log, in order. -/
theorem acknowledged_read_back (faults : List (Option (ℕ × Status))) (calls : List WriteCall)
    (hkeeps : Transition.Along LogState.write LogState.Keeps (LogState.init faults) calls) :
    ∃ s fuel records r, Transition.run LogState.write (LogState.init faults) calls = some s ∧
      (Reader.new ⟨s.log.dest.contents, []⟩ true 0).readAll fuel = some (records, r) ∧
      s.added.Sublist records ∧ s.acknowledged.Sublist records := by
  have hinit : ∃ ps, (LogState.init faults).Intact ps :=
    ⟨[], rfl, trivial, Or.inr ⟨rfl, rfl⟩, List.Sublist.refl _, List.Sublist.refl _⟩
  have hstep (s : LogState) (call : WriteCall) (hs : ∃ ps, s.Intact ps) (hgood : s.Keeps call) :
      ∃ s', s.write call = some s' ∧ ∃ ps, s'.Intact ps := hs.elim fun _ h => h.write hgood
  obtain ⟨s, hrun, ps, h⟩ := Transition.run_progress hstep hinit hkeeps
  have hyields := yields_all (Nat.zero_le _) h.fit
  rw [← h.contents] at hyields
  obtain ⟨r, -, hread, -⟩ := readAll_yields hyields (.new _) (Nat.lt_succ_self _)
  exact ⟨s, _, _, r, hrun, hread, h.added, h.acknowledged.trans h.added⟩

/-- An input or output error. -/
def ioError : Status := .error .kIOError (ascii "disk")

/-- The `Flush` of the first record fails without losing a byte: both records are read back. -/
theorem acknowledged_read_back_flush :
    ∃ s fuel records r, Transition.run LogState.write
        (LogState.init [none, none, some (8, ioError)])
        [⟨ascii "a", false, .ok⟩, ⟨ascii "b", true, .ok⟩] = some s ∧
      (Reader.new ⟨s.log.dest.contents, []⟩ true 0).readAll fuel = some (records, r) ∧
      s.added.Sublist records ∧ s.acknowledged.Sublist records :=
  acknowledged_read_back _ _ (by decide +kernel)

/-- The payload of `a` does not reach the file and its write fails; `b` is acknowledged, but its first
byte is taken for the payload of `a`, and the rest of the block is dropped. -/
theorem acknowledged_write_lost :
    (Transition.run LogState.write (LogState.init [none, some (0, ioError)])
        [⟨ascii "a", false, .ok⟩, ⟨ascii "b", false, .ok⟩]).map
      (fun s => (s.added, s.acknowledged,
        ((Reader.new ⟨s.log.dest.contents, []⟩ true 0).readAll 2).map Prod.fst)) =
      some ([ascii "b"], [ascii "b"], some []) := by
  decide +kernel

end Log

end RocketDb
