import RocketDb.Wal.ReadBack

/-! # Damage to one block

When the bytes of a block are changed, the reader gives up the rest of it at the first physical record that
its checksum rejects, and finds its way again at the start of the next block.

* **`DamagedIn`** — the bytes of one block are changed.
* **`CrcRejects`** — the checksums find every change of a fragment.
* **`yields_damaged`** — the reader misses a run of physical records of the block, and no others.
* **`damage_is_local`** — it misses records with a fragment in the block, and no others. -/

namespace RocketDb

open List

namespace Log

/-! ## Places in a log -/

/-- The offset of the physical record that comes after others. -/
def offsetAfter (qs : List Frag) : ℕ := (bytesOf 0 qs).length + padding (leftOver 0 qs)

/-- The block of the physical record that comes after others. -/
def blockAfter (qs : List Frag) : ℕ := offsetAfter qs / kBlockSize

/-- Record `k` of the log has a fragment in block `b`. -/
def HasFragmentIn (records : List Slice) (b k : ℕ) : Prop :=
  ∃ m, (logPieces 0 (records.take k)).length ≤ m ∧ m < (logPieces 0 (records.take (k + 1))).length ∧
    blockAfter ((logPieces 0 records).take m) = b

/-- Two files of the same length differ in block `b` only. -/
structure DamagedIn (b : ℕ) (C D : Slice) : Prop where
  length : D.length = C.length
  same : ∀ i, i / kBlockSize ≠ b → D[i]? = C[i]?

/-- Where a fragment was written in block `b`, the checksum is right only if the same fragment stands
there. -/
def CrcRejects (b : ℕ) (ps : List Frag) (D : Slice) : Prop :=
  ∀ qs p rest, ps = qs ++ p :: rest → blockAfter qs = b →
    kHeaderSize + lengthAt (D.drop (offsetAfter qs)) ≤
      min (room (leftOver 0 qs)) (D.drop (offsetAfter qs)).length →
    CrcOk (D.drop (offsetAfter qs)) →
    (D.drop (offsetAfter qs)).take (kHeaderSize + lengthAt (D.drop (offsetAfter qs))) =
      header p.1 p.2 ++ p.2

variable {lo b x n : ℕ} {ps qs rest X R : List Frag} {p : Frag} {C D : Slice} {records : List Slice}
  {A Y : List Frag}

theorem offsetAfter_mod_add_room (hfit : Fit 0 qs) :
    offsetAfter qs % kBlockSize + room (leftOver 0 qs) = kBlockSize := by
  have hB : kBlockSize = 32768 := rfl
  have hH : kHeaderSize = 7 := rfl
  have hmod := length_bytesOf_add_leftOver hfit
  have hlt := leftOver_lt (show 0 < kBlockSize by decide) qs
  grind [offsetAfter, padding, room]

theorem bytesOf_split (qs : List Frag) (p : Frag) (rest : List Frag) :
    bytesOf 0 (qs ++ p :: rest) = bytesOf 0 qs ++ (List.replicate (padding (leftOver 0 qs)) 0 ++
      (header p.1 p.2 ++ (p.2 ++ bytesOf (leftOver 0 (qs ++ [p])) rest))) := by
  rw [bytesOf_append, bytesOf, piece, leftOver_append]
  simp only [append_assoc]
  rfl

theorem drop_bytesOf (qs : List Frag) (p : Frag) (rest : List Frag) :
    (bytesOf 0 (qs ++ p :: rest)).drop (offsetAfter qs) =
      header p.1 p.2 ++ (p.2 ++ bytesOf (leftOver 0 (qs ++ [p])) rest) := by
  grind [bytesOf_split, drop_left', offsetAfter]

theorem length_bytesOf_concat (qs : List Frag) (p : Frag) :
    (bytesOf 0 (qs ++ [p])).length = offsetAfter qs + kHeaderSize + p.2.length := by
  grind [bytesOf_append, bytesOf, length_piece, offsetAfter]

theorem DamagedIn.take_drop (h : DamagedIn b C D) (hblock : ∀ i < n, (x + i) / kBlockSize ≠ b) :
    (D.drop x).take n = (C.drop x).take n := by
  refine ext_getElem? fun i => ?_
  grind [DamagedIn]

theorem DamagedIn.drop (h : DamagedIn b C D) (hblock : (b + 1) * kBlockSize ≤ x) :
    D.drop x = C.drop x := by
  refine ext_getElem? fun i => ?_
  grind [DamagedIn, kBlockSize]

/-! ## Physical records that are met -/

theorem next_same (hfit : Fit 0 (qs ++ p :: rest))
    (hsame : (D.drop (offsetAfter qs)).take (kHeaderSize + p.2.length) = header p.1 p.2 ++ p.2) :
    nextPhysical (D.drop (bytesOf 0 qs).length) (leftOver 0 qs) =
      some (.fragment p.1 p.2, D.drop (bytesOf 0 (qs ++ [p])).length, leftOver 0 (qs ++ [p])) := by
  obtain ⟨ht, hlen, -⟩ := (fit_append.mp hfit).2
  have hend : (D.drop (offsetAfter qs)) =
      header p.1 p.2 ++ (p.2 ++ D.drop (bytesOf 0 (qs ++ [p])).length) := by
    grind [length_bytesOf_concat, drop_drop, take_append_drop]
  have hsize : offsetAfter qs < D.length := by
    have := congrArg List.length hend
    rw [length_drop, length_append, length_header] at this
    have hH : kHeaderSize = 7 := rfl
    omega
  have hpad : ((D.drop (bytesOf 0 qs).length).take (padding (leftOver 0 qs))).length =
      padding (leftOver 0 qs) := by
    rw [offsetAfter] at hsize
    rw [length_take, length_drop]
    omega
  have hsplit : D.drop (bytesOf 0 qs).length =
      (D.drop (bytesOf 0 qs).length).take (padding (leftOver 0 qs)) ++
        (header p.1 p.2 ++ (p.2 ++ D.drop (bytesOf 0 (qs ++ [p])).length)) := by
    rw [← hend, offsetAfter, ← drop_drop, take_append_drop]
  rw [hsplit, next_piece (leftOver_le (Nat.zero_le _) qs) hpad ht hlen, leftOver_append]
  rfl

theorem exists_block (hfit : Fit lo ps) :
    ∃ X R, ps = X ++ R ∧ (R = [] ∨ leftOver lo X < kHeaderSize) ∧
      ∀ X₁ X₂, X = X₁ ++ X₂ → (bytesOf lo X₁).length + leftOver lo X₁ = lo ∧
        (X₂ ≠ [] → kHeaderSize ≤ leftOver lo X₁) := by
  induction ps generalizing lo with
  | nil =>
    refine ⟨[], [], rfl, Or.inl rfl, fun X₁ X₂ h => ?_⟩
    obtain ⟨rfl, rfl⟩ := append_eq_nil_iff.mp h.symm
    exact ⟨Nat.zero_add _, fun h => absurd rfl h⟩
  | cons p ps ih =>
    by_cases hsmall : lo < kHeaderSize
    · refine ⟨[], p :: ps, rfl, Or.inr hsmall, fun X₁ X₂ h => ?_⟩
      obtain ⟨rfl, rfl⟩ := append_eq_nil_iff.mp h.symm
      exact ⟨Nat.zero_add _, fun h => absurd rfl h⟩
    · obtain ⟨-, hlen, hfit⟩ := hfit
      obtain ⟨X, R, rfl, hend, hX⟩ := ih hfit
      refine ⟨p :: X, R, rfl, hend, fun X₁ X₂ h => ?_⟩
      cases X₁ with
      | nil => exact ⟨Nat.zero_add _, fun _ => Nat.le_of_not_lt hsmall⟩
      | cons q X₁ =>
        grind [room, leftAfter, bytesOf, length_piece, padding, leftOver]

/-- A block that is given up: its other physical records are missed, and the reader goes on with the
next block. -/
theorem yields_next_block (hD : DamagedIn (blockAfter qs) (bytesOf 0 (qs ++ p :: rest)) D)
    (hfit : Fit 0 (qs ++ p :: rest)) :
    ∃ X R, rest = X ++ R ∧
      (∀ X₁ q X₂, p :: X = X₁ ++ q :: X₂ → blockAfter (qs ++ X₁) = blockAfter qs) ∧
      (D.length < offsetAfter qs + room (leftOver 0 qs) → R = []) ∧
      Yields (D.drop (offsetAfter qs + room (leftOver 0 qs)))
        (room (leftOver 0 qs) - (D.drop (offsetAfter qs)).length) (met R) := by
  have hB : kBlockSize = 32768 := rfl
  have hassoc (X : List Frag) : qs ++ p :: X = qs ++ [p] ++ X := by
    rw [append_assoc, singleton_append]
  have hmod := offsetAfter_mod_add_room (fit_append.mp hfit).1
  obtain ⟨-, hlen, hfit'⟩ := (fit_append.mp hfit).2
  have hroom := kHeaderSize_le_room (leftOver 0 qs)
  have hafter : leftOver 0 (qs ++ [p]) = leftAfter (leftOver 0 qs) p := leftOver_append 0 qs [p]
  have hleft : leftAfter (leftOver 0 qs) p = room (leftOver 0 qs) - kHeaderSize - p.2.length := rfl
  rw [← hafter] at hfit' hleft
  have hconcat := length_bytesOf_concat qs p
  obtain ⟨X, R, rfl, hend, hX⟩ := exists_block hfit'
  -- where the physical records of the block end
  have hplace (X₁ X₂ : List Frag) (h : X = X₁ ++ X₂) :
      (bytesOf 0 (qs ++ p :: X₁)).length + leftOver 0 (qs ++ p :: X₁) =
        offsetAfter qs + room (leftOver 0 qs) := by
    obtain ⟨hsum, -⟩ := hX X₁ X₂ h
    rw [hassoc, bytesOf_append, leftOver_append 0 (qs ++ [p]), length_append, hconcat]
    omega
  have hall := hplace X [] (append_nil X).symm
  have hC : bytesOf 0 (qs ++ p :: (X ++ R)) =
      bytesOf 0 (qs ++ p :: X) ++ bytesOf (leftOver 0 (qs ++ p :: X)) R := by
    rw [← bytesOf_append]
    simp
  have hfitR : Fit (leftOver 0 (qs ++ p :: X)) R := by
    rw [show qs ++ p :: (X ++ R) = (qs ++ p :: X) ++ R by simp] at hfit
    exact (fit_append.mp hfit).2
  have hsmall (hR : R ≠ []) : leftOver 0 (qs ++ p :: X) < kHeaderSize := by
    grind [leftOver_append]
  refine ⟨X, R, rfl, fun X₁ q X₂ h => ?_, fun hshort => ?_, ?_⟩
  · cases X₁ with
    | nil => rw [append_nil]
    | cons q' X₁ =>
      obtain ⟨rfl, hrest⟩ := List.cons.inj h
      have hsum := hplace X₁ (q :: X₂) hrest
      have hle := (hX X₁ (q :: X₂) hrest).2 (cons_ne_nil _ _)
      rw [← leftOver_append, ← hassoc] at hle
      have hpad : padding (leftOver 0 (qs ++ p :: X₁)) = 0 := if_neg (Nat.not_lt.mpr hle)
      have hge : offsetAfter qs ≤ (bytesOf 0 (qs ++ p :: X₁)).length := by
        rw [hassoc, bytesOf_append, length_append, hconcat]
        omega
      grind [blockAfter, offsetAfter, kHeaderSize]
  · by_contra hR
    have hlong : leftOver 0 (qs ++ p :: X) ≤ (bytesOf (leftOver 0 (qs ++ p :: X)) R).length := by
      grind [bytesOf_next_block]
    grind [DamagedIn]
  · have hblock : (blockAfter qs + 1) * kBlockSize ≤ offsetAfter qs + room (leftOver 0 qs) := by
      rw [blockAfter]
      rw [hB] at hmod ⊢
      omega
    rw [hD.drop hblock, hC]
    by_cases hR : R = []
    · subst hR
      rw [bytesOf, append_nil, drop_of_length_le (by omega)]
      exact yields_short (Nat.add_pos_right _ (by decide))
    · have hlength := hD.length
      rw [hC, bytesOf_next_block (hsmall hR) hR, length_append, length_append, length_replicate] at hlength
      have hzero : room (leftOver 0 qs) - (D.drop (offsetAfter qs)).length = 0 := by
        rw [length_drop]
        omega
      rw [hzero, bytesOf_next_block (hsmall hR) hR, ← append_assoc, drop_left' (by
        rw [length_append, length_replicate]; exact hall)]
      exact yields_all (Nat.zero_le _) ((fit_next_block (hsmall hR)).mp hfitR)

/-- **The reader misses a run of physical records of the damaged block, and no others.** -/
theorem yields_damaged (hD : DamagedIn b (bytesOf 0 (qs ++ rest)) D) (hfit : Fit 0 (qs ++ rest))
    (hcrc : CrcRejects b (qs ++ rest) D) :
    ∃ A X R es, rest = A ++ (X ++ R) ∧
      (∀ X₁ q X₂, X = X₁ ++ q :: X₂ → blockAfter (qs ++ (A ++ X₁)) = b) ∧
      Yields (D.drop (bytesOf 0 qs).length) (leftOver 0 qs) (met A ++ es) ∧
      ((R = [] ∧ es = []) ∨ (X ≠ [] ∧ ∃ reported, es = .bad reported :: met R)) := by
  induction rest generalizing qs with
  | nil =>
    refine ⟨[], [], [], [], rfl, by simp, yields_short ?_, Or.inl ⟨rfl, rfl⟩⟩
    rw [length_drop, hD.length, append_nil, Nat.sub_self]
    exact Nat.add_pos_right _ (by decide)
  | cons p rest ih =>
    have hH : kHeaderSize = 7 := rfl
    have hB : kBlockSize = 32768 := rfl
    obtain ⟨ht, hlen, -⟩ := (fit_append.mp hfit).2
    have hmod := offsetAfter_mod_add_room (fit_append.mp hfit).1
    have hroom := kHeaderSize_le_room (leftOver 0 qs)
    have hdrop := drop_bytesOf qs p rest
    have hlong : offsetAfter qs + kHeaderSize + p.2.length ≤ D.length := by
      grind [DamagedIn, length_append, length_header]
    -- a physical record that is still there is met, and the walk goes on
    have hgoes (hsame : (D.drop (offsetAfter qs)).take (kHeaderSize + p.2.length) =
        header p.1 p.2 ++ p.2) :
        ∃ A X R es, p :: rest = A ++ (X ++ R) ∧
          (∀ X₁ q X₂, X = X₁ ++ q :: X₂ → blockAfter (qs ++ (A ++ X₁)) = b) ∧
          Yields (D.drop (bytesOf 0 qs).length) (leftOver 0 qs) (met A ++ es) ∧
          ((R = [] ∧ es = []) ∨ (X ≠ [] ∧ ∃ reported, es = .bad reported :: met R)) := by
      have hassoc : qs ++ [p] ++ rest = qs ++ p :: rest := by
        rw [append_assoc, singleton_append]
      obtain ⟨A, X, R, es, rfl, hX, hyields, hend⟩ :=
        ih (hassoc ▸ hD) (hassoc ▸ hfit) (hassoc ▸ hcrc)
      refine ⟨p :: A, X, R, es, rfl, fun X₁ q X₂ h => ?_, .cons (next_same hfit hsame) hyields, hend⟩
      have := hX X₁ q X₂ h
      rwa [append_assoc, singleton_append] at this
    by_cases hb : blockAfter qs = b
    · subst hb
      obtain ⟨X, R, rfl, hX, hshort, hyields⟩ := yields_next_block hD hfit
      have hnext : nextPhysical (D.drop (bytesOf 0 qs).length) (leftOver 0 qs) =
          parseHeader (D.drop (offsetAfter qs)) (room (leftOver 0 qs)) := by
        rw [nextPhysical, drop_drop, if_neg, offsetAfter]
        rw [offsetAfter] at hlong
        rw [length_drop]
        omega
      -- the block is given up
      have hbad {reported : Bool} (h : parseHeader (D.drop (offsetAfter qs)) (room (leftOver 0 qs)) =
          some (.bad reported, (D.drop (offsetAfter qs)).drop (room (leftOver 0 qs)),
            room (leftOver 0 qs) - (D.drop (offsetAfter qs)).length)) :
          Yields (D.drop (bytesOf 0 qs).length) (leftOver 0 qs) (.bad reported :: met R) := by
        rw [← hnext, drop_drop] at h
        exact .cons h hyields
      have hmiss {es : List Physical} (h : Yields (D.drop (bytesOf 0 qs).length) (leftOver 0 qs) es)
          (hes : (R = [] ∧ es = []) ∨ ∃ reported, es = .bad reported :: met R) :
          ∃ A X' R' es', p :: (X ++ R) = A ++ (X' ++ R') ∧
            (∀ X₁ q X₂, X' = X₁ ++ q :: X₂ → blockAfter (qs ++ (A ++ X₁)) = blockAfter qs) ∧
            Yields (D.drop (bytesOf 0 qs).length) (leftOver 0 qs) (met A ++ es') ∧
            ((R' = [] ∧ es' = []) ∨ (X' ≠ [] ∧ ∃ reported, es' = .bad reported :: met R')) :=
        ⟨[], p :: X, R, es, rfl, hX, h, hes.imp_right fun h => ⟨cons_ne_nil _ _, h⟩⟩
      by_cases hfits : min (room (leftOver 0 qs)) (D.drop (offsetAfter qs)).length <
          kHeaderSize + lengthAt (D.drop (offsetAfter qs))
      · by_cases hend : (D.drop (offsetAfter qs)).length < room (leftOver 0 qs)
        · refine hmiss (.eof (hnext.trans ?_)) (Or.inl ⟨hshort ?_, rfl⟩)
          · rw [parseHeader, if_pos hfits, if_pos hend]
          · rw [length_drop] at hend
            omega
        · refine hmiss (hbad ?_) (Or.inr ⟨true, rfl⟩)
          rw [parseHeader, if_pos hfits, if_neg hend]
      · by_cases hzero : typeAt (D.drop (offsetAfter qs)) = 0 ∧ lengthAt (D.drop (offsetAfter qs)) = 0
        · refine hmiss (hbad ?_) (Or.inr ⟨false, rfl⟩)
          rw [parseHeader, if_neg hfits, if_pos hzero]
        · by_cases hok : CrcOk (D.drop (offsetAfter qs))
          · have hsame := hcrc qs p _ rfl rfl (Nat.le_of_not_lt hfits) hok
            have hlength := congrArg List.length hsame
            rw [length_take, length_append, length_header] at hlength
            refine hgoes ?_
            rw [← hsame]
            congr 1
            omega
          · refine hmiss (hbad ?_) (Or.inr ⟨true, rfl⟩)
            rw [parseHeader, if_neg hfits, if_neg hzero, if_neg hok]
    · refine hgoes ?_
      have hsame : (D.drop (offsetAfter qs)).take (kHeaderSize + p.2.length) =
          ((bytesOf 0 (qs ++ p :: rest)).drop (offsetAfter qs)).take (kHeaderSize + p.2.length) := by
        refine hD.take_drop fun i hi hib => hb ?_
        grind [blockAfter]
      grind [length_header]

/-! ## Records that are returned -/

/-- The number of physical records before a record. -/
def piecesBefore (lo : ℕ) (records : List Slice) (k : ℕ) : ℕ := (logPieces lo (records.take k)).length

theorem piecesBefore_succ (lo : ℕ) (data : Slice) (records : List Slice) (k : ℕ) :
    piecesBefore lo (data :: records) (k + 1) =
      (recordPieces (data.length + 2) lo true data).length +
        piecesBefore (leftOver lo (recordPieces (data.length + 2) lo true data)) records k := by
  grind [piecesBefore, logPieces]

theorem append_cases {rs : List Frag} (h : ps ++ rs = A ++ Y) :
    (∃ A', A = ps ++ A' ∧ rs = A' ++ Y) ∨ ∃ p Y', ps = A ++ p :: Y' ∧ Y = p :: Y' ++ rs := by
  rcases append_eq_append_iff.mp h with hafter | ⟨Y', hps, hY⟩
  · exact Or.inl hafter
  · cases Y' with
    | nil => exact Or.inl ⟨[], by rw [hps, append_nil, append_nil], hY.symm⟩
    | cons p Y' => exact Or.inr ⟨p, Y', hps, hY⟩

/-- The physical records of the first part of a log hold the records that are complete in it. -/
theorem scan_prefix (h : logPieces lo records = A ++ Y) :
    ∃ i ≤ records.length, scan none (met A) = (records.take i, true) ∧
      piecesBefore lo records i ≤ A.length ∧
      (i < records.length → A.length < piecesBefore lo records (i + 1)) := by
  induction records generalizing lo A with
  | nil =>
    obtain ⟨rfl, rfl⟩ := append_eq_nil_iff.mp h.symm
    exact ⟨0, Nat.le_refl _, rfl, Nat.le_refl _, fun h => absurd h (Nat.not_lt_zero _)⟩
  | cons data records ih =>
    rw [logPieces] at h
    rcases append_cases h with ⟨A', rfl, hrest⟩ | ⟨p, Y', hA, -⟩
    · -- the first record is complete
      obtain ⟨i, hi, hscan, hle, hlt⟩ := ih hrest
      obtain ⟨hrecord, hafter⟩ := scan_record none lo data
      refine ⟨i + 1, Nat.succ_le_succ hi, ?_, ?_, fun hi => ?_⟩
      · rw [met_append, scan_append, hrecord, hafter, hscan]
        rfl
      · rw [piecesBefore_succ, length_append]
        omega
      · grind [piecesBefore_succ]
    · refine ⟨0, Nat.zero_le _, scan_part hA, Nat.zero_le _, fun _ => ?_⟩
      rw [piecesBefore_succ, hA, length_append, length_cons]
      omega

theorem scan_orphans {fuel : ℕ} {first : Bool} {data : Slice} {Z R : List Frag}
    (h : recordPieces fuel lo first data = Z ++ R) (hZ : first = false ∨ Z ≠ []) :
    (scan none (met R)).1 = [] ∧ after none (met R) = none := by
  induction fuel generalizing lo first data Z R with
  | zero =>
    obtain ⟨rfl, rfl⟩ := append_eq_nil_iff.mp h.symm
    exact ⟨rfl, rfl⟩
  | succ fuel ih =>
    rw [recordPieces] at h
    cases Z with
    | nil =>
      obtain rfl : first = false := hZ.resolve_right fun h => h rfl
      rw [nil_append] at h
      subst h
      split_ifs with hfit
      · simp [scan, assemble, fragmentType]
      · have hrest := @ih 0 false (data.drop (room lo - kHeaderSize)) [] _ rfl (Or.inl rfl)
        simpa [scan, assemble, fragmentType] using hrest
    | cons q Z =>
      split_ifs at h with hfit
      · obtain ⟨-, rfl⟩ := append_eq_nil_iff.mp (List.cons.inj h).2.symm
        exact ⟨rfl, rfl⟩
      · exact ih (List.cons.inj h).2 (Or.inl rfl)

/-- The physical records of the last part of a log hold the records that begin in it. -/
theorem scan_suffix {Z R : List Frag} (h : logPieces lo records = Z ++ R) :
    ∃ j, (scan none (met R)).1 = records.drop j ∧ Z.length ≤ piecesBefore lo records j ∧
      ∀ k < j, piecesBefore lo records k < Z.length := by
  induction records generalizing lo Z with
  | nil =>
    obtain ⟨rfl, rfl⟩ := append_eq_nil_iff.mp h.symm
    exact ⟨0, rfl, Nat.le_refl _, fun k hk => absurd hk (Nat.not_lt_zero k)⟩
  | cons data records ih =>
    have hne : (recordPieces (data.length + 2) lo true data).length ≠ 0 := by
      rw [recordPieces]
      split_ifs <;> simp
    have hlog := h
    rw [logPieces] at h
    rcases append_cases h with ⟨Z', rfl, hrest⟩ | ⟨p, R', hZ, rfl⟩
    · obtain ⟨j, hscan, hle, hlt⟩ := ih hrest
      refine ⟨j + 1, hscan, ?_, fun k hk => ?_⟩
      · rw [piecesBefore_succ, length_append]
        omega
      · rw [length_append]
        cases k with
        | zero => exact Nat.add_pos_left (Nat.pos_of_ne_zero hne) _
        | succ k =>
          grind [piecesBefore_succ]
    · by_cases hnil : Z = []
      · -- the whole log
        subst hnil
        rw [nil_append] at hlog
        exact ⟨0, by rw [← hlog, (scan_logPieces lo _).1]; rfl, Nat.zero_le _,
          fun k hk => absurd hk (Nat.not_lt_zero k)⟩
      · -- the rest of the first record, then the others
        obtain ⟨hscan, hafter⟩ := scan_orphans hZ (Or.inr hnil)
        refine ⟨1, ?_, ?_, fun k hk => ?_⟩
        · grind [met_append, scan_append, scan_logPieces]
        · rw [piecesBefore_succ, hZ, length_append]
          omega
        · obtain rfl : k = 0 := by omega
          exact length_pos_iff.mpr hnil

theorem piecesBefore_lt (lo : ℕ) {k : ℕ} (h : k < records.length) :
    piecesBefore lo records k < piecesBefore lo records (k + 1) := by
  have hpos : 0 < (logPieces (leftOver lo (logPieces lo (records.take k))) [records[k]]).length :=
    length_pos_iff.mpr (logPieces_ne_nil _ _ _)
  rw [piecesBefore, piecesBefore, take_succ_eq_append_getElem h, logPieces_append, length_append]
  omega

theorem piecesBefore_mono (lo : ℕ) (records : List Slice) : Monotone (piecesBefore lo records) := by
  grind [monotone_nat_of_le_succ, piecesBefore_lt, piecesBefore, take_of_length_le]

/-- The physical records that are missed belong to records with a fragment in the block. -/
theorem hasFragmentIn_of_missed {A X R : List Frag} {i j k : ℕ} (hps : logPieces 0 records = A ++ (X ++ R))
    (hX : ∀ X₁ q X₂, X = X₁ ++ q :: X₂ → blockAfter (A ++ X₁) = b)
    (hi : i < records.length → A.length < piecesBefore 0 records (i + 1))
    (hbefore : piecesBefore 0 records i ≤ A.length)
    (hj : ∀ k < j, piecesBefore 0 records k < (A ++ X).length) (hne : R = [] ∨ X ≠ []) (hik : i ≤ k)
    (hkj : k < j) (hk : k < records.length) : HasFragmentIn records b k := by
  have hblock (m : ℕ) (hm : A.length ≤ m ∧ m < A.length + X.length) :
      blockAfter ((logPieces 0 records).take m) = b := by
    obtain ⟨q, X₂, hdrop⟩ := exists_cons_of_ne_nil
      (show X.drop (m - A.length) ≠ [] by rw [ne_eq, drop_eq_nil_iff]; omega)
    have htake : (logPieces 0 records).take m = A ++ X.take (m - A.length) := by
      grind [take_append, take_of_length_le]
    grind [take_append_drop]
  have hlt := piecesBefore_lt 0 hk
  have hkZ := hj k hkj
  rw [length_append] at hkZ
  have hAi := hi (by omega)
  rcases Nat.eq_or_lt_of_le hik with rfl | hik
  · refine ⟨A.length, hbefore, hAi, hblock _ ⟨Nat.le_refl _, ?_⟩⟩
    -- the record is not complete before the damage
    rcases hne with rfl | hne
    · have hall : piecesBefore 0 records (i + 1) ≤ (logPieces 0 records).length := by
        have := piecesBefore_mono 0 records (show i + 1 ≤ records.length by omega)
        rwa [piecesBefore, piecesBefore, take_length] at this
      rw [hps, append_nil, length_append] at hall
      omega
    · have := length_pos_iff.mpr hne
      omega
  · have := piecesBefore_mono 0 records (show i + 1 ≤ k by omega)
    exact ⟨piecesBefore 0 records k, Nat.le_refl _, hlt, hblock _ ⟨by omega, hkZ⟩⟩

/-- **Damage stays in its block.** Whatever records are appended to an empty file, when the bytes of one
block are changed and the checksums find every change of a fragment, the reader returns written records
only, in order: the ones that are missing are consecutive, and each of them has a fragment in that
block. -/
theorem damage_is_local (records : List Slice) (b : ℕ) (damaged : Slice) (w : Writer)
    (hw : (Writer.new ⟨[], 0, []⟩).addAll records = some w)
    (hD : DamagedIn b w.dest.contents damaged)
    (hcrc : CrcRejects b (logPieces 0 records) damaged) :
    ∃ i j r, i ≤ j ∧ (∀ k, i ≤ k → k < j → k < records.length → HasFragmentIn records b k) ∧
      (Reader.new ⟨damaged, []⟩ true 0).readAll (records.length + 1) =
        some (records.take i ++ records.drop j, r) := by
  obtain ⟨w', hw', -, hcontents⟩ := addAll_new records
  obtain rfl : w' = w := Option.some.inj (hw'.symm.trans hw)
  have hD' : DamagedIn b (bytesOf 0 ([] ++ logPieces 0 records)) damaged := hcontents ▸ hD
  obtain ⟨A, X, R, es, hps, hX, hyields, hend⟩ := yields_damaged hD' (fit_logPieces 0 records) hcrc
  obtain ⟨i, hilen, hprefix, hbefore, hi⟩ := scan_prefix hps
  obtain ⟨j, hsuffix, hZ, hj⟩ := scan_suffix (hps.trans (append_assoc A X R).symm)
  rw [length_append] at hZ
  have hrest : (scan (after none (met A)) es).1 = records.drop j := by
    rcases hend with ⟨rfl, rfl⟩ | ⟨-, reported, rfl⟩
    · exact hsuffix
    · exact hsuffix
  have hscan : (scan none (met A ++ es)).1 = records.take i ++ records.drop j := by
    rw [scan_append, hprefix, hrest]
  have hij : i ≤ j := by
    by_contra hlt
    have hmono := piecesBefore_mono 0 records (show j ≤ i by omega)
    rcases hend with ⟨rfl, rfl⟩ | ⟨hne, -⟩
    · have : records.drop j = [] := hsuffix.symm
      rw [drop_eq_nil_iff] at this
      omega
    · have := length_pos_iff.mpr hne
      omega
  have hfuel : (scan none (met A ++ es)).1.length < records.length + 1 := by
    rw [hscan, length_append, length_take, length_drop]
    omega
  obtain ⟨r, reports, hread, -⟩ := readAll_yields hyields (.new damaged) hfuel
  refine ⟨i, j, r, hij, fun k hik hkj hk => ?_, hscan ▸ hread⟩
  exact hasFragmentIn_of_missed hps hX hi hbefore hj (hend.imp And.left And.left) hik hkj hk

/-- A record that fills the first block, and one after it. -/
theorem logPieces_full_block {data : Slice} (h : data.length = 32761) :
    logPieces 0 [data, ascii "a"] = [(.kFullType, data), (.kFullType, ascii "a")] := by
  have hroom : room 0 - kHeaderSize = 32761 := rfl
  have hfirst : recordPieces (data.length + 2) 0 true data = [(.kFullType, data)] := by
    rw [recordPieces, hroom, if_pos h.le]
    rfl
  have hleft : leftOver 0 [(RecordType.kFullType, data)] = 0 := by
    rw [leftOver, leftOver, leftAfter, hroom, h]
  rw [logPieces, hfirst, hleft]
  rfl

/-- The record `a` of the second block with its last byte changed: the record of the first is returned. -/
theorem damage_is_local_two_blocks :
    ∃ (data : Slice) (got : List Slice) (r : Reader), data.length = 32761 ∧
      (Reader.new ⟨header .kFullType data ++ data ++ (header .kFullType (ascii "a") ++ ascii "b"), []⟩
        true 0).readAll 3 = some (got, r) ∧ data ∈ got := by
  obtain ⟨data, hdata⟩ : ∃ data : Slice, data.length = 32761 := ⟨replicate 32761 0, length_replicate⟩
  obtain ⟨block, hblock'⟩ : ∃ block, block = header .kFullType data ++ data := ⟨_, rfl⟩
  have hblock : block.length = 32768 := by
    rw [hblock', length_append, length_header, hdata, show kHeaderSize = 7 from rfl]
  have hpieces := logPieces_full_block hdata
  have hsingle (t : RecordType) (fragment : Slice) :
      bytesOf 0 [(t, fragment)] = header t fragment ++ fragment := by
    rw [bytesOf, bytesOf, append_nil, piece, show padding 0 = 0 from rfl, replicate_zero, nil_append]
  have hbytes : bytesOf 0 [(RecordType.kFullType, data)] = block := (hsingle _ _).trans hblock'.symm
  have hleft : leftOver 0 [(RecordType.kFullType, data)] = 0 := by
    rw [leftOver, leftOver, leftAfter, hdata, show room 0 - kHeaderSize = 32761 from rfl]
  have hoffset : offsetAfter [(RecordType.kFullType, data)] = 32768 := by
    rw [offsetAfter, hbytes, hblock, hleft, show padding 0 = 0 from rfl]
  obtain ⟨w, hw, -, hcontents⟩ := addAll_new [data, ascii "a"]
  have hwritten : w.dest.contents = block ++ (header .kFullType (ascii "a") ++ ascii "a") := by
    rw [hcontents, hpieces, ← singleton_append, bytesOf_append, hbytes, hleft, hsingle]
  have hdamaged : DamagedIn 1 w.dest.contents (block ++ (header .kFullType (ascii "a") ++ ascii "b")) := by
    have hlen : (header .kFullType (ascii "a") ++ ascii "b").length = 8 := rfl
    have hlen' : (header .kFullType (ascii "a") ++ ascii "a").length = 8 := rfl
    refine ⟨by rw [hwritten, length_append, hlen, length_append, hlen'], fun k hk => ?_⟩
    rw [hwritten]
    by_cases hin : k < block.length
    · rw [getElem?_append_left hin, getElem?_append_left hin]
    · have hlong : 8 ≤ k - block.length := by
        rw [hblock] at hin ⊢
        have hB : kBlockSize = 32768 := rfl
        rw [hB] at hk
        omega
      rw [getElem?_append_right (le_of_not_gt hin), getElem?_append_right (le_of_not_gt hin),
        getElem?_eq_none (hlen ▸ hlong), getElem?_eq_none (hlen' ▸ hlong)]
  have hcrc : CrcRejects 1 (logPieces 0 [data, ascii "a"])
      (block ++ (header .kFullType (ascii "a") ++ ascii "b")) := by
    -- one physical record stands in the second block, and its checksum is wrong
    intro qs p rest hps hin _ hok
    rw [hpieces] at hps
    obtain rfl : qs = [(RecordType.kFullType, data)] := by
      rcases qs with _ | ⟨q, _ | ⟨q', qs⟩⟩
      · exact absurd hin (by decide)
      · simp at hps
        rw [hps.1]
      · simp at hps
    rw [hoffset, drop_left' hblock] at hok
    exact absurd hok (by decide +kernel)
  obtain ⟨i, j, r, hij, hmissed, hread⟩ := damage_is_local [data, ascii "a"] 1 _ w hw hdamaged hcrc
  refine ⟨data, _, r, hdata, hblock' ▸ hread, ?_⟩
  -- the first record has no fragment in the second block
  have hsafe : ¬ HasFragmentIn [data, ascii "a"] 1 0 := by
    rintro ⟨m, -, hm, hin⟩
    have hone : (logPieces 0 [data]).length = 1 := by
      have happend := congrArg length hpieces
      rw [← singleton_append, logPieces_append, length_append] at happend
      have hpos := length_pos_iff.mpr (logPieces_ne_nil 0 data [])
      have hpos' := length_pos_iff.mpr (logPieces_ne_nil (leftOver 0 (logPieces 0 [data])) (ascii "a") [])
      simp only [length_cons, length_nil] at happend
      omega
    obtain rfl : m = 0 := by
      rw [take_succ_cons, take_zero, hone] at hm
      omega
    rw [take_zero, show blockAfter [] = 0 from rfl] at hin
    exact absurd hin zero_ne_one
  have hkept : 1 ≤ i ∨ j = 0 := by
    by_contra hnot
    exact hsafe (hmissed 0 (by omega) (by omega) Nat.two_pos)
  rcases hkept with hi | rfl
  · exact mem_append_left _ (mem_take_iff_getElem.mpr ⟨0, by simp; omega, rfl⟩)
  · exact mem_append_right _ mem_cons_self

end Log

end RocketDb
