import RocketDb.Wal.Events
import RocketDb.Wal.Faults
import RocketDb.Wal.ReadBack

/-! # A record that is cut short

The process may stop between two calls of `AddRecord` on its file, or a call may fail after some bytes; in
both cases the file ends somewhere inside the record.

* **`Writer.addTrace`** — the contents of the file after each call: the old file with a part of the record.
* **`events_cut`** — the reader returns the whole records of such a log and reports nothing. -/

namespace RocketDb

open List

/-! ## Calls that fail say so -/

/-- A call that does not do its work returns an error. -/
def HonestFaults (faults : List (Option (ℕ × Status))) : Prop :=
  ∀ call ∈ faults, ∀ fault ∈ call, fault.2.isOk = false

instance (faults : List (Option (ℕ × Status))) : Decidable (HonestFaults faults) :=
  inferInstanceAs (Decidable (∀ call ∈ faults, ∀ fault ∈ call, fault.2.isOk = false))

theorem HonestFaults.tail {faults : List (Option (ℕ × Status))} (h : HonestFaults faults) :
    HonestFaults faults.tail := fun call hmem => h call (mem_of_mem_tail hmem)

variable {file : WritableFile} {data : Slice}

theorem WritableFile.append_honest (h : HonestFaults file.faults) (data : Slice) :
    (file.append data).1.flushed = file.flushed ∧ HonestFaults (file.append data).1.faults ∧
      (((file.append data).2 = .ok ∧ (file.append data).1.contents = file.contents ++ data) ∨
        (file.append data).2.isOk = false ∧
          ∃ n, (file.append data).1.contents = file.contents ++ data.take n) := by
  rw [append]
  split
  · rename_i n s faults hfaults
    rw [hfaults] at h
    exact ⟨rfl, h.tail, Or.inr ⟨h _ mem_cons_self (n, s) rfl, n, rfl⟩⟩
  · exact ⟨rfl, h.tail, Or.inl ⟨rfl, rfl⟩⟩

theorem WritableFile.flush_honest (h : HonestFaults file.faults) :
    HonestFaults file.flush.1.faults ∧
      ((file.flush.2 = .ok ∧ file.flush.1.contents = file.contents ∧
          file.flush.1.flushed = file.contents.length) ∨
        file.flush.2.isOk = false ∧ file.flush.1.flushed = file.flushed ∧
          ∃ n, file.flush.1.contents = file.contents.take (file.flushed + n)) := by
  rw [flush]
  split
  · rename_i n s faults hfaults
    rw [hfaults] at h
    exact ⟨h.tail, Or.inr ⟨h _ mem_cons_self (n, s) rfl, rfl, n, rfl⟩⟩
  · exact ⟨h.tail, Or.inl ⟨rfl, rfl, rfl⟩⟩

namespace Log

/-! ## The calls of `AddRecord` -/

/-- The contents of the file after each call of `EmitPhysicalRecord`. -/
def Writer.emitTrace (w : Writer) (t : RecordType) (fragment : Slice) : List Slice :=
  let (dest₁, s₁) := w.dest.append (header t fragment)
  let (dest₂, s₂) := dest₁.append fragment
  dest₁.contents ::
    if s₁.isOk then dest₂.contents :: if s₂.isOk then [dest₂.flush.1.contents] else []
    else []

/-- The block has a rest that must be filled with zeros. -/
def Writer.pads (w : Writer) : Bool :=
  decide (0 < kBlockSize - w.blockOffset ∧ kBlockSize - w.blockOffset < kHeaderSize)

/-- The contents of the file after each call of the loop of `AddRecord`. -/
def Writer.addLoopTrace : ℕ → Writer → Slice → Bool → List Slice
  | 0, _, _, _ => []
  | fuel + 1, w, left, first =>
    let padded := if w.pads then [w.switchBlock.dest.contents] else []
    let w := w.switchBlock
    let avail := kBlockSize - w.blockOffset - kHeaderSize
    let fragmentLength := if left.length < avail then left.length else avail
    let t := fragmentType first (left.length == fragmentLength)
    let (w', s) := w.emitPhysicalRecord t (left.take fragmentLength)
    let left' := left.drop fragmentLength
    padded ++ w.emitTrace t (left.take fragmentLength) ++
      if s.isOk && !left'.isEmpty then w'.addLoopTrace fuel left' false else []

/-- **The contents of the file after each call of `AddRecord`.** -/
def Writer.addTrace (w : Writer) (record : Slice) : List Slice :=
  w.addLoopTrace (record.length + 2) record true

/-- The zeros at the end of the block, if there are any, reach the file. Their `Append` is the one whose
status `AddRecord` does not look at. -/
def Writer.padKeeps (w : Writer) : Bool := !w.pads || w.dest.keeps (kBlockSize - w.blockOffset)

variable {w : Writer} {lo : ℕ} {t : RecordType} {fragment : Slice}

/-- A file that ends inside `full`, but not before the last flush. -/
def CutAfter (flushed : ℕ) (full contents : Slice) : Prop := ∃ n, flushed ≤ n ∧ contents = full.take n

theorem CutAfter.mono {a b : ℕ} {full contents : Slice} (h : CutAfter b full contents) (hab : a ≤ b) :
    CutAfter a full contents := h.imp fun _ hn => ⟨hab.trans hn.1, hn.2⟩

theorem cutAfter_append {flushed : ℕ} {contents more : Slice} (h : flushed ≤ contents.length) :
    CutAfter flushed (contents ++ more) contents :=
  ⟨contents.length, h, by rw [take_left]⟩

theorem CutAfter.append_right {flushed : ℕ} {full contents : Slice} (h : CutAfter flushed full contents)
    (hle : flushed ≤ full.length) (more : Slice) : CutAfter flushed (full ++ more) contents := by
  obtain ⟨n, hn, rfl⟩ := h
  refine ⟨min n full.length, le_min hn hle, ?_⟩
  grind

/-- One physical record: every call leaves a part of it, and OK means all of it. -/
theorem Writer.emit_trace (hhonest : HonestFaults w.dest.faults)
    (hflushed : w.dest.flushed ≤ w.dest.contents.length) (t : RecordType) (fragment : Slice) :
    ∃ w' s, w.emitPhysicalRecord t fragment = (w', s) ∧
      (∀ c ∈ w'.dest.contents :: w.emitTrace t fragment,
        CutAfter w.dest.flushed (w.dest.contents ++ (header t fragment ++ fragment)) c) ∧
      w'.blockOffset = w.blockOffset + kHeaderSize + fragment.length ∧
      (s.isOk = true → HonestFaults w'.dest.faults ∧
        w'.dest.contents = w.dest.contents ++ (header t fragment ++ fragment) ∧
        w'.dest.flushed = w'.dest.contents.length) := by
  obtain ⟨full, hfull⟩ : ∃ full, w.dest.contents ++ (header t fragment ++ fragment) = full := ⟨_, rfl⟩
  rw [hfull]
  have hcut {a b : Slice} (hab : a ++ b = header t fragment ++ fragment) :
      CutAfter w.dest.flushed full (w.dest.contents ++ a) :=
    ⟨(w.dest.contents ++ a).length, by rw [length_append]; omega,
      by rw [← hfull, ← hab, ← append_assoc, take_left]⟩
  rw [emitPhysicalRecord, emitTrace]
  obtain ⟨hflushed₁, hhonest₁, happend₁⟩ := WritableFile.append_honest hhonest (header t fragment)
  rcases hdest₁ : w.dest.append (header t fragment) with ⟨dest₁, s₁⟩
  rw [hdest₁] at hflushed₁ hhonest₁ happend₁
  obtain ⟨hflushed₂, hhonest₂, happend₂⟩ := WritableFile.append_honest hhonest₁ fragment
  rcases hdest₂ : dest₁.append fragment with ⟨dest₂, s₂⟩
  rw [hdest₂] at hflushed₂ hhonest₂ happend₂
  have hsame : dest₂.flushed = w.dest.flushed := hflushed₂.trans hflushed₁
  rcases happend₁ with ⟨rfl, hcontents₁⟩ | ⟨hs₁, n, hcontents₁⟩
  · have hcut₁ : CutAfter w.dest.flushed full dest₁.contents := hcontents₁ ▸ hcut rfl
    rcases happend₂ with ⟨rfl, hcontents₂⟩ | ⟨hs₂, n, hcontents₂⟩
    · have hall : dest₂.contents = full := by rw [hcontents₂, hcontents₁, append_assoc, hfull]
      have hcut₂ : CutAfter w.dest.flushed full dest₂.contents := by
        rw [hall, ← hfull]
        exact hfull ▸ hcut (append_nil _)
      obtain ⟨hhonest₃, hflush⟩ := WritableFile.flush_honest hhonest₂
      have hcut₃ : CutAfter w.dest.flushed full dest₂.flush.1.contents := by
        rcases hflush with ⟨-, hkept, -⟩ | ⟨-, -, n, hkept⟩
        · exact hkept ▸ hcut₂
        · exact ⟨dest₂.flushed + n, by omega, by rw [hkept, hall]⟩
      simp only [hdest₂]
      refine ⟨_, _, rfl, ?_, rfl, fun hok => ?_⟩
      · grind
      · grind
    · have hcut₂ : CutAfter w.dest.flushed full dest₂.contents := by
        grind [take_append_drop]
      grind [Status.isOk]
  · have hcut₁ : CutAfter w.dest.flushed full dest₁.contents := by
      grind [take_append_drop]
    grind [Status.isOk]

theorem Writer.switchBlock_trace (h : w.At lo) (hhonest : HonestFaults w.dest.faults)
    (hkeeps : w.padKeeps = true) :
    w.switchBlock.dest.contents = w.dest.contents ++ List.replicate (padding lo) 0 ∧
      w.switchBlock.blockOffset + room lo = kBlockSize ∧
      w.switchBlock.dest.flushed = w.dest.flushed ∧ HonestFaults w.switchBlock.dest.faults := by
  have hpads : 0 < kBlockSize - w.blockOffset ∧ kBlockSize - w.blockOffset < kHeaderSize →
      w.dest.keeps (kBlockSize - w.blockOffset) = true := by
    intro hlt
    simpa [padKeeps, pads, hlt] using hkeeps
  grind [switchBlock_keeps, switchBlock, WritableFile.append_honest]

theorem Writer.padKeeps_of_full (h : w.blockOffset = kBlockSize) : w.padKeeps = true := by
  simp [padKeeps, pads, h]

/-- **Every call of the loop leaves the old file with a part of the record**, and OK means all of it. -/
theorem Writer.addLoop_trace {fuel : ℕ} (first : Bool) {data : Slice} (h : w.At lo)
    (hfuel : Enough fuel lo data) (hhonest : HonestFaults w.dest.faults)
    (hflushed : w.dest.flushed ≤ w.dest.contents.length) (hkeeps : w.padKeeps = true) :
    ∃ w' s, w.addLoop fuel data first = some (w', s) ∧
      (∀ c ∈ w'.dest.contents :: w.addLoopTrace fuel data first, CutAfter w.dest.flushed
        (w.dest.contents ++ bytesOf lo (recordPieces fuel lo first data)) c) ∧
      (s.isOk = true → HonestFaults w'.dest.faults ∧
        w'.dest.contents = w.dest.contents ++ bytesOf lo (recordPieces fuel lo first data) ∧
        w'.dest.flushed = w'.dest.contents.length ∧
        w'.At (leftOver lo (recordPieces fuel lo first data))) := by
  induction first, hfuel using round_induction generalizing w with
  | round lo fuel data first hfuel hfit hpieces ih =>
    obtain ⟨hcontents, hoffset, hflushed', hhonest'⟩ := switchBlock_trace h hhonest hkeeps
    have hflushed'' : w.switchBlock.dest.flushed ≤ w.switchBlock.dest.contents.length := by
      rw [hflushed', hcontents, length_append]
      omega
    have htraces : w.addLoopTrace (fuel + 1) data first =
        let p := roundPiece lo first data
        let r := w.switchBlock.emitPhysicalRecord p.1 p.2
        (if w.pads then [w.switchBlock.dest.contents] else []) ++ w.switchBlock.emitTrace p.1 p.2 ++
          if r.2.isOk && !(roundRest lo data).isEmpty then r.1.addLoopTrace fuel (roundRest lo data) false
          else [] := by
      simp only [addLoopTrace, Nat.sub_eq_of_eq_add' hoffset.symm]
      rfl
    rw [hpieces, addLoop_round hoffset, htraces]
    generalize roundPiece lo first data = p at hfit ih ⊢
    obtain ⟨w', s, hresult, htrace, hoffset', hok⟩ := emit_trace hhonest' hflushed'' p.1 p.2
    rw [hflushed'] at htrace
    have hplace := add_leftAfter hfit hoffset hoffset'
    -- the padding and the first physical record, in front of what follows
    have hpad (ps : List Frag) : w.dest.contents ++ bytesOf lo (p :: ps) =
        w.switchBlock.dest.contents ++ (header p.1 p.2 ++ p.2) ++ bytesOf (leftAfter lo p) ps := by
      rw [bytesOf, piece, hcontents]
      simp only [append_assoc]
    have hlen : w.dest.flushed ≤ (w.switchBlock.dest.contents ++ (header p.1 p.2 ++ p.2)).length := by
      rw [length_append]
      omega
    have hfirst (ps : List Frag) : ∀ c ∈ w'.dest.contents ::
        ((if w.pads then [w.switchBlock.dest.contents] else []) ++ w.switchBlock.emitTrace p.1 p.2),
        CutAfter w.dest.flushed (w.dest.contents ++ bytesOf lo (p :: ps)) c := by
      intro c hc
      rw [hpad]
      rcases mem_append.mp (perm_middle.mem_iff.mpr hc) with hc | hc
      · split_ifs at hc with hp
        · grind [cutAfter_append]
        · exact absurd hc not_mem_nil
      · exact (htrace c hc).append_right hlen _
    dsimp only
    rw [hresult]
    cases hgo : s.isOk && !(roundRest lo data).isEmpty with
    | false =>
      refine ⟨w', s, rfl, fun c hc => hfirst _ c (by simpa using hc), fun hs => ?_⟩
      · obtain ⟨hhonest'', hcontents', hnow⟩ := hok hs
        rw [hs, Bool.true_and, Bool.not_eq_false'] at hgo
        rw [if_pos hgo, hpad, ← hcontents']
        exact ⟨hhonest'', (append_nil _).symm, hnow, Or.inl hplace⟩
    | true =>
      obtain ⟨hs, hrest⟩ := (Bool.and_eq_true _ _).mp hgo
      rw [Bool.not_eq_true'] at hrest
      obtain ⟨hhonest'', hcontents', hnow⟩ := hok hs
      obtain ⟨hzero, -, hloop⟩ := ih hrest
      obtain ⟨w'', s', hloop, htrace', hok'⟩ := hloop (Or.inl hplace) hhonest'' hnow.le
        (padKeeps_of_full (by rwa [hzero] at hplace))
      have hgrown : w.dest.flushed ≤ w'.dest.flushed := by
        rw [hnow, hcontents']
        exact hlen
      rw [hrest, if_neg Bool.false_ne_true, hpad, ← hcontents']
      refine ⟨w'', s', hloop, fun c hc => ?_, hok'⟩
      rcases mem_append.mp (perm_middle.mem_iff.mpr hc) with hc | hc
      · grind
      · exact (htrace' c hc).mono hgrown

/-- **Every call of `AddRecord` leaves the old file with a part of the record**, and OK means all of
it. -/
theorem Writer.addRecord_trace (h : w.At lo) (hhonest : HonestFaults w.dest.faults)
    (hflushed : w.dest.flushed = w.dest.contents.length) (hkeeps : w.padKeeps = true) (record : Slice) :
    ∃ w' s, w.addRecord record = some (w', s) ∧
      (∀ c ∈ w'.dest.contents :: w.addTrace record, ∃ n,
        c = w.dest.contents ++ (bytesOf lo (logPieces lo [record])).take n) ∧
      (s.isOk = true → HonestFaults w'.dest.faults ∧
        w'.dest.contents = w.dest.contents ++ bytesOf lo (logPieces lo [record]) ∧
        w'.dest.flushed = w'.dest.contents.length ∧ w'.At (leftOver lo (logPieces lo [record]))) := by
  obtain ⟨w', s, hadd, htrace, hok⟩ :=
    addLoop_trace true h (Enough.start lo record) hhonest hflushed.le hkeeps
  have hpieces : logPieces lo [record] = recordPieces (record.length + 2) lo true record := by
    simp [logPieces]
  rw [hpieces]
  refine ⟨w', s, hadd, fun c hc => ?_, hok⟩
  obtain ⟨n, hn, rfl⟩ := htrace c hc
  grind [take_append]

theorem Writer.at_reuse {ps : List Frag} (hfit : Fit 0 ps) (dest : WritableFile) :
    (Writer.reuse dest (bytesOf 0 ps).length).At (leftOver 0 ps) := by
  have hB : kBlockSize = 32768 := rfl
  have hlt := leftOver_lt (show 0 < kBlockSize by decide) ps
  have hmod := length_bytesOf_add_leftOver hfit
  change (bytesOf 0 ps).length % kBlockSize + leftOver 0 ps = kBlockSize ∨
    (bytesOf 0 ps).length % kBlockSize = 0 ∧ leftOver 0 ps = 0
  rw [hB] at hlt hmod ⊢
  omega

/-! ## Reading it -/

theorem Yields.length_le {R : Slice} {es : List Physical} (h : Yields R lo es) : es.length ≤ R.length := by
  induction h with
  | eof _ => exact Nat.zero_le _
  | cons hnext _ ih =>
    have := (nextPhysical_some hnext).2.1
    rw [length_cons]
    omega

theorem length_scan_le (s : Option Slice) (es : List Physical) : (scan s es).1.length ≤ es.length := by
  induction es generalizing s with
  | nil => exact Nat.le_refl _
  | cons e es ih =>
    grind [scan]

theorem events_yields {r : Reader} {R : Slice} {es : List Physical} (h : Yields R lo es)
    (hr : r.Over R lo) (hquiet : (scan none es).2 = true) {fuel : ℕ}
    (hfuel : (scan none es).1.length < fuel) :
    r.events fuel = some ⟨(scan none es).1.map fun record => ([], record), []⟩ := by
  induction fuel generalizing r R lo es with
  | zero => omega
  | succ fuel ih =>
    have hst : ReadState.Holds ⟨[], false, 0⟩ none := rfl
    have hnone (r' : Reader) (h : r'.reports = r.reports ++ []) : newReports r r' = [] := by
      rw [newReports, h, append_nil, drop_length]
      rfl
    rw [Reader.events, hr.readRecord_eq]
    rcases readLoop_yields h hr hst (show R.length < R.length + 2 by omega) with
      ⟨r', reports, hnil, hloop, hreports, hq⟩ |
      ⟨record, es', R', lo', r', reports, quiet, hscan, hloop, h', hyields, hreports, hq⟩
    · grind
    · grind

theorem events_new {file : Slice} {es : List Physical} (h : Yields file 0 es)
    (hquiet : (scan none es).2 = true) :
    (Reader.new ⟨file, []⟩ true 0).events (file.length + 1) =
      some ⟨(scan none es).1.map fun record => ([], record), []⟩ :=
  events_yields h (.new file) hquiet
    (((length_scan_le none es).trans h.length_le).trans_lt (Nat.lt_succ_self _))

/-- **A log that ends inside its last record**: the reader returns all records before it, and this one
too if it is whole. -/
theorem events_cut (records : List Slice) (record : Slice) (n : ℕ) {file : Slice}
    (hfile : file = bytesOf 0 (logPieces 0 records) ++ (bytesOf (leftOver 0 (logPieces 0 records))
      (logPieces (leftOver 0 (logPieces 0 records)) [record])).take n) :
    ∃ kept, (kept = records ∨ kept = records ++ [record]) ∧
      (Reader.new ⟨file, []⟩ true 0).events (file.length + 1) =
        some ⟨kept.map fun record => ([], record), []⟩ := by
  have hcut : file = (bytesOf 0 (logPieces 0 (records ++ [record]))).take
      ((bytesOf 0 (logPieces 0 records)).length + n) := by
    rw [hfile, logPieces_append, bytesOf_append, take_length_add_append]
  obtain ⟨k, hscan, hk, -⟩ := scan_cut 0 (records ++ [record])
    ((bytesOf 0 (logPieces 0 records)).length + n)
  have hyields := yields_cut (fit_logPieces 0 (records ++ [record])) (Nat.zero_le _)
    ((bytesOf 0 (logPieces 0 records)).length + n)
  rw [← hcut] at hyields
  have hevents := events_new hyields (by rw [hscan])
  rw [hscan] at hevents
  refine ⟨_, ?_, hevents⟩
  -- the records before the last one are whole
  have hlow : records.length ≤ k := by
    by_contra hlt
    have hpos : 0 < records.length := by omega
    have hlast := hk (records.length - 1) (by rw [length_append]; omega)
    grind [recordEnd]
  grind [take_of_length_le]

theorem events_whole (records : List Slice) :
    (Reader.new ⟨bytesOf 0 (logPieces 0 records), []⟩ true 0).events
        ((bytesOf 0 (logPieces 0 records)).length + 1) =
      some ⟨records.map fun record => ([], record), []⟩ := by
  grind [scan_logPieces, events_new, yields_all, fit_logPieces]

end Log

end RocketDb
