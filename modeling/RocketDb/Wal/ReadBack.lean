import RocketDb.Wal.Pieces

/-! # Reading a log back

A log that is cut anywhere ends inside some physical record or its padding, or between two; in every case the
reader takes that for the end of the file.

* **`cutAt`** — the physical records that are whole after a cut, and the one that is not.
* **`scan_cut`** — the whole ones hold the records all of whose bytes are kept.
* **`read_truncated_log`** — these records come back, and nothing is reported. -/

namespace RocketDb

open List

namespace Log

/-! ## Cuts -/

/-- **Where a cut falls**: the physical records that are whole, and the one that is cut, with what is
left over of the block before it and the number of its bytes that are kept. -/
def cutAt : ℕ → List Frag → ℕ → List Frag × Option (ℕ × Frag × ℕ)
  | _, [], _ => ([], none)
  | lo, p :: ps, n =>
    if (piece lo p.1 p.2).length ≤ n then
      let cut := cutAt (leftAfter lo p) ps (n - (piece lo p.1 p.2).length)
      (p :: cut.1, cut.2)
    else ([], some (lo, p, n))

/-- What a cut leaves of the bytes. -/
def cutBytes : Option (ℕ × Frag × ℕ) → Slice
  | none => []
  | some (lo, p, n) => (piece lo p.1 p.2).take n

variable {lo n : ℕ} {ps qs : List Frag} {R : Slice} {es : List Physical} {s : Option Slice}
  {rest : List Frag} {p : Frag} {data : Slice} {fuel : ℕ}

theorem take_bytesOf (lo : ℕ) (ps : List Frag) (n : ℕ) :
    (bytesOf lo ps).take n = bytesOf lo (cutAt lo ps n).1 ++ cutBytes (cutAt lo ps n).2 := by
  induction ps generalizing lo n with
  | nil => simp [cutAt, bytesOf, cutBytes]
  | cons p ps ih =>
    rw [cutAt, bytesOf, take_append]
    split_ifs with hwhole
    · rw [take_of_length_le hwhole, ih, bytesOf, append_assoc]
    · rw [Nat.sub_eq_zero_of_le (by omega), take_zero, append_nil]
      rfl

theorem cutAt_eq_some {lo₁ j : ℕ} (h : (cutAt lo ps n).2 = some (lo₁, p, j)) :
    lo₁ = leftOver lo (cutAt lo ps n).1 ∧ j < (piece lo₁ p.1 p.2).length ∧
      ∃ rest, ps = (cutAt lo ps n).1 ++ p :: rest := by
  induction ps generalizing lo n with
  | nil => simp [cutAt] at h
  | cons q ps ih =>
    rw [cutAt] at h ⊢
    split_ifs at h ⊢ with hwhole
    · obtain ⟨hlo, hj, rest, hps⟩ := ih h
      exact ⟨hlo, hj, rest, congrArg (q :: ·) hps⟩
    · cases h
      exact ⟨rfl, by omega, ps, rfl⟩

theorem cutAt_eq_none (h : (cutAt lo ps n).2 = none) : (cutAt lo ps n).1 = ps := by
  induction ps generalizing lo n with
  | nil => rfl
  | cons q ps ih =>
    grind [cutAt]

theorem exists_cutAt (h : n < (bytesOf lo ps).length) : ∃ c, (cutAt lo ps n).2 = some c := by
  refine Option.ne_none_iff_exists'.mp fun hnone => ?_
  have hlen := congrArg List.length (take_bytesOf lo ps n)
  grind [cutAt_eq_none]

theorem fit_cutAt (hfit : Fit lo ps) (n : ℕ) : Fit lo (cutAt lo ps n).1 := by
  cases hcut : (cutAt lo ps n).2 with
  | none => rwa [cutAt_eq_none hcut]
  | some c =>
    obtain ⟨lo₁, p, j⟩ := c
    obtain ⟨-, -, rest, hps⟩ := cutAt_eq_some hcut
    rw [hps] at hfit
    exact (fit_append.mp hfit).1

/-- **A reader before cut bytes meets the physical records that are whole.** -/
theorem yields_cut (hfit : Fit lo ps) (hlo : lo ≤ kBlockSize) (n : ℕ) :
    Yields ((bytesOf lo ps).take n) lo (met (cutAt lo ps n).1) := by
  have htorn : Yields (cutBytes (cutAt lo ps n).2) (leftOver lo (cutAt lo ps n).1) [] := by
    cases hcut : (cutAt lo ps n).2 with
    | none => exact yields_short (Nat.add_pos_right _ (by decide))
    | some c =>
      obtain ⟨lo₁, p, j⟩ := c
      obtain ⟨rfl, hj, rest, hps⟩ := cutAt_eq_some hcut
      rw [hps] at hfit
      obtain ⟨-, hlen, -⟩ := (fit_append.mp hfit).2
      exact .eof (next_torn hlen (leftOver_le hlo _) hj)
  have := yields_bytesOf hlo (fit_cutAt hfit n) htorn
  rwa [append_nil, ← take_bytesOf] at this

theorem cutAt_append (lo : ℕ) (ps qs : List Frag) (n : ℕ) :
    cutAt lo (ps ++ qs) n =
      if (bytesOf lo ps).length ≤ n then
        (ps ++ (cutAt (leftOver lo ps) qs (n - (bytesOf lo ps).length)).1,
          (cutAt (leftOver lo ps) qs (n - (bytesOf lo ps).length)).2)
      else cutAt lo ps n := by
  induction ps generalizing lo n with
  | nil => simp [bytesOf, leftOver]
  | cons p ps ih =>
    grind [cutAt, bytesOf, leftOver]

/-! ## Scanning what is whole -/

/-- The rest of a record that is not whole gives nothing, and nothing is reported. -/
theorem scan_part_rest (h : recordPieces fuel lo false data = qs ++ p :: rest) (scratch : Slice) :
    scan (some scratch) (met qs) = ([], true) := by
  induction fuel generalizing lo data qs scratch with
  | zero => simp [recordPieces] at h
  | succ fuel ih =>
    rw [recordPieces] at h
    cases qs with
    | nil => rfl
    | cons q qs =>
      split_ifs at h with hfit
      · simp at h
      · obtain ⟨rfl, hrest⟩ := List.cons.inj h
        have := ih hrest (scratch ++ data.take (room lo - kHeaderSize))
        simp [scan, assemble, fragmentType, Physical.reported, this]

/-- A record that is not whole gives nothing, and nothing is reported. -/
theorem scan_part (h : recordPieces fuel lo true data = qs ++ p :: rest) :
    scan none (met qs) = ([], true) := by
  cases fuel with
  | zero => simp [recordPieces] at h
  | succ fuel =>
    rw [recordPieces] at h
    cases qs with
    | nil => rfl
    | cons q qs =>
      split_ifs at h with hfit
      · simp at h
      · obtain ⟨rfl, hrest⟩ := List.cons.inj h
        have := scan_part_rest hrest (data.take (room lo - kHeaderSize))
        simp [scan, assemble, fragmentType, Physical.reported, this]

/-- Within a record, the physical records before the last fill their blocks. -/
theorem leftOver_part {first : Bool} (h : recordPieces fuel lo first data = qs ++ p :: rest) (hne : qs ≠ []) :
    leftOver lo qs = 0 := by
  induction fuel generalizing lo first data qs with
  | zero => simp [recordPieces] at h
  | succ fuel ih =>
    rw [recordPieces] at h
    cases qs with
    | nil => exact absurd rfl hne
    | cons q qs =>
      split_ifs at h with hfit
      · simp at h
      · grind [leftAfter, leftOver]

/-- The bytes up to the end of a record. -/
def recordEnd (lo : ℕ) (records : List Slice) (i : ℕ) : ℕ :=
  (bytesOf lo (logPieces lo (records.take (i + 1)))).length

/-- **The physical records that are whole hold the records all of whose bytes are kept.** A record can
be in progress after them only at the end of a block. -/
theorem scan_cut (lo : ℕ) (records : List Slice) (n : ℕ) :
    ∃ k, scan none (met (cutAt lo (logPieces lo records) n).1) = (records.take k, true) ∧
      (∀ i < records.length, i < k ↔ recordEnd lo records i ≤ n) ∧
      (after none (met (cutAt lo (logPieces lo records) n).1) = none ∨
        leftOver lo (cutAt lo (logPieces lo records) n).1 = 0) := by
  induction records generalizing lo n with
  | nil => exact ⟨0, rfl, fun i hi => absurd hi (Nat.not_lt_zero i), Or.inl rfl⟩
  | cons data records ih =>
    have hend (i : ℕ) : recordEnd lo (data :: records) i =
        (bytesOf lo (recordPieces (data.length + 2) lo true data)).length +
          (bytesOf (leftOver lo (recordPieces (data.length + 2) lo true data))
            (logPieces (leftOver lo (recordPieces (data.length + 2) lo true data))
              (records.take i))).length := by
      rw [recordEnd, take_succ_cons, logPieces, bytesOf_append, length_append]
    rw [logPieces, cutAt_append]
    split_ifs with hwhole
    · obtain ⟨k, hscan, hk, hend'⟩ := ih (leftOver lo (recordPieces (data.length + 2) lo true data))
        (n - (bytesOf lo (recordPieces (data.length + 2) lo true data)).length)
      obtain ⟨hrecord, hafter⟩ := scan_record none lo data
      refine ⟨k + 1, ?_, fun i hi => ?_, ?_⟩
      · rw [met_append, scan_append, hrecord, hafter, hscan]
        rfl
      · rw [hend]
        cases i with
        | zero =>
          grind [logPieces, bytesOf]
        | succ i =>
          grind [recordEnd]
      · rwa [met_append, after_append, hafter, leftOver_append]
    · obtain ⟨c, hcut⟩ := exists_cutAt (Nat.lt_of_not_ge hwhole)
      obtain ⟨-, -, rest, hpieces⟩ := cutAt_eq_some hcut
      refine ⟨0, scan_part hpieces, fun i _ => ?_, ?_⟩
      · rw [hend]
        omega
      · by_cases hnil : (cutAt lo (recordPieces (data.length + 2) lo true data) n).1 = []
        · rw [hnil]
          exact Or.inl rfl
        · exact Or.inr (leftOver_part hpieces hnil)

/-! ## Logs -/

theorem addAll_new (records : List Slice) :
    ∃ w, (Writer.new ⟨[], 0, []⟩).addAll records = some w ∧ w.dest.faults = [] ∧
      w.dest.contents = bytesOf 0 (logPieces 0 records) := by
  obtain ⟨w, hall, hleft, hcontents⟩ :=
    Writer.addAll_pieces records (Writer.leftOver_new ⟨[], 0, []⟩ rfl)
  exact ⟨w, hall, hleft.faults, hcontents⟩

/-- **A log that is cut anywhere reads back.** Whatever records are appended to an empty file, every
`AddRecord` returns OK; and for every number of bytes that is kept, the reader with checksums on returns
exactly the records all of whose bytes are kept, in order, then reports the end, and never a
corruption. -/
theorem read_truncated_log (records : List Slice) (n : ℕ) :
    ∃ w k r, (Writer.new ⟨[], 0, []⟩).addAll records = some w ∧
      (Reader.new ⟨w.dest.contents.take n, []⟩ true 0).readAll (records.length + 1) =
        some (records.take k, r) ∧
      r.reports = [] ∧
      ∀ i < records.length, i < k ↔
        ∃ w', (Writer.new ⟨[], 0, []⟩).addAll (records.take (i + 1)) = some w' ∧
          w'.dest.contents.length ≤ n := by
  obtain ⟨w, hall, -, hcontents⟩ := addAll_new records
  obtain ⟨k, hscan, hk, -⟩ := scan_cut 0 records n
  have hyields := yields_cut (fit_logPieces 0 records) (Nat.zero_le _) n
  rw [← hcontents] at hyields
  have hfuel : (scan none (met (cutAt 0 (logPieces 0 records) n).1)).1.length < records.length + 1 := by
    rw [hscan, length_take]
    omega
  obtain ⟨r, reports, hread, hreports, hquiet⟩ := readAll_yields hyields (.new _) hfuel
  rw [hscan] at hread hquiet
  refine ⟨w, k, r, hall, hread, ?_, fun i hi => (hk i hi).trans ?_⟩
  · rw [hreports, hquiet.mpr rfl]
    rfl
  · -- after record `i`, the file is the bytes of the records up to it
    obtain ⟨w', hall', -, hcontents'⟩ := addAll_new (records.take (i + 1))
    grind [recordEnd]

end Log

end RocketDb
