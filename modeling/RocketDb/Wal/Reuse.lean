import RocketDb.Wal.ReadBack

/-! # Writing on after a cut

`RecoverLogFile` and `ReuseManifest` reopen a log that a crash may have cut and append to it. The bytes of the
physical record that was cut stay in the file; what is appended comes to stand inside it.

* **`CleanCut`** — the cuts after which a log can be written on.
* **`reuse_reads_back_iff`** — after these and no others all records that are appended are read back. -/

namespace RocketDb

open List

namespace Log

/-- A file that is opened for appending. -/
def appendable (contents : Slice) : WritableFile := ⟨contents, contents.length, []⟩

/-- The bytes of the record whose last fragment is missing, if there is one. -/
def unfinished : Option ℕ → List Frag → Option ℕ
  | n, [] => n
  | _, (.kFirstType, data) :: ps => unfinished (some data.length) ps
  | n, (.kMiddleType, data) :: ps => unfinished (n.map (· + data.length)) ps
  | _, _ :: ps => unfinished none ps

/-- A cut leaves nothing that is taken for the start of what is appended. Either it falls between two
physical records, or into the padding, and no bytes of an unfinished record come before it. Or it falls
into a header at the end of a block where no other header fits, so that the writer fills the block with
zeros, and these make it a zero header: the length is not kept, or is zero. -/
def CleanAt (whole : List Frag) : Option (ℕ × Frag × ℕ) → Prop
  | none => True
  | some (lo, p, kept) =>
    (kept ≤ padding lo ∧ (unfinished none whole).getD 0 = 0) ∨
      (padding lo < kept ∧ kept < padding lo + kHeaderSize ∧
        room lo < kept - padding lo + kHeaderSize ∧ (kept - padding lo ≤ 4 ∨ p.2 = []))

/-- **The log of the records can be written on when it is cut to `n` bytes.** -/
def CleanCut (records : List Slice) (n : ℕ) : Prop :=
  CleanAt (cutAt 0 (logPieces 0 records) n).1 (cutAt 0 (logPieces 0 records) n).2

instance (whole : List Frag) : (cut : Option (ℕ × Frag × ℕ)) → Decidable (CleanAt whole cut)
  | none => .isTrue trivial
  | some (lo, p, kept) => inferInstanceAs (Decidable
      ((kept ≤ padding lo ∧ (unfinished none whole).getD 0 = 0) ∨
        (padding lo < kept ∧ kept < padding lo + kHeaderSize ∧
          room lo < kept - padding lo + kHeaderSize ∧ (kept - padding lo ≤ 4 ∨ p.2 = []))))

instance (records : List Slice) (n : ℕ) : Decidable (CleanCut records n) :=
  inferInstanceAs (Decidable (CleanAt _ _))

variable {lo lw n : ℕ} {ps whole : List Frag} {es : List Physical} {s : Option Slice}
  {kept more : List Slice} {tail S : Slice} {t : RecordType} {fragment : Slice} {m : ℕ}

/-! ## Where the writer goes on -/

theorem addAll_reuse (T : Slice) (hlw : lw < kBlockSize) (hT : (T.length + lw) % kBlockSize = 0)
    (more : List Slice) :
    ∃ w, (Writer.reuse (appendable T) T.length).addAll more = some w ∧
      w.dest.contents = T ++ bytesOf lw (logPieces lw more) := by
  have hleft : (Writer.reuse (appendable T) T.length).LeftOver lw := by
    refine ⟨rfl, ?_⟩
    change T.length % kBlockSize + lw = kBlockSize ∨ T.length % kBlockSize = 0 ∧ lw = 0
    grind [kBlockSize]
  obtain ⟨w, hall, -, hcontents⟩ := Writer.addAll_pieces more hleft
  exact ⟨w, hall, hcontents⟩

/-! ## What comes after the physical records that are whole -/

/-- The file reads back if and only if what comes after the whole physical records does. -/
theorem readsBack_append_iff (hfit : Fit 0 whole) (hscan : scan none (met whole) = (kept, true))
    (htail : Yields tail (leftOver 0 whole) es) (more : List Slice) :
    ReadsBack (bytesOf 0 whole ++ tail) (kept ++ more) ↔
      scan (after none (met whole)) es = (more, true) := by
  rw [readsBack_iff (yields_bytesOf (Nat.zero_le _) hfit htail), scan_append, hscan, Bool.true_and,
    Prod.ext_iff, Prod.ext_iff]
  exact and_congr (append_right_inj kept) Iff.rfl

theorem length_after (s : Option Slice) (ps : List Frag) :
    (after s (met ps)).map List.length = unfinished (s.map List.length) ps := by
  induction ps generalizing s with
  | nil => rfl
  | cons p ps ih =>
    obtain ⟨t, data⟩ := p
    rw [met_cons, after_cons, ih]
    cases t with
    | kMiddleType =>
      cases s with
      | none => rfl
      | some scratch =>
        simp only [assemble, unfinished, Option.map_some, length_append]
    | kLastType => cases s <;> rfl
    | kZeroType => rfl
    | kFullType => rfl
    | kFirstType => rfl

/-- Records that follow a record in progress are returned, but the latter is reported. -/
theorem scan_logPieces_after (s : Option Slice) (lo : ℕ) (more : List Slice) :
    scan s (met (logPieces lo more)) = (more, more.isEmpty || s.getD [] == []) := by
  cases more with
  | nil => rfl
  | cons data more =>
    grind [scan_record, scan_logPieces, logPieces, met_append, scan_append]

/-! ## Cuts that are clean -/

theorem yields_padded {j : ℕ} (hlo : lo ≤ kBlockSize) (hj : j ≤ padding lo) (hfit : Fit (lo - j) ps) :
    Yields (List.replicate j 0 ++ bytesOf (lo - j) ps) lo (met ps) := by
  by_cases hps : ps = []
  · subst hps
    refine yields_short ?_
    rw [bytesOf, append_nil, length_replicate]
    exact Nat.lt_of_le_of_lt hj (Nat.lt_add_of_pos_right (by decide))
  · by_cases hsmall : lo < kHeaderSize
    · rw [padding, if_pos hsmall] at hj
      rw [fit_next_block (by omega), ← fit_next_block hsmall] at hfit
      rw [bytesOf_next_block (by omega) hps, ← append_assoc, ← replicate_add,
        Nat.add_sub_cancel' hj, ← bytesOf_next_block hsmall hps]
      exact yields_all hlo hfit
    · rw [padding, if_neg hsmall] at hj
      grind [yields_all]

theorem zeroed_getD {m i : ℕ} (hm : m ≤ kHeaderSize) (R : Slice) (hi : i < m + lw) :
    ((header t fragment).take m ++ (List.replicate lw 0 ++ R)).getD i 0 =
      if i < m then (header t fragment).getD i 0 else 0 := by
  have hlen : ((header t fragment).take m).length = m := by
    rw [length_take, length_header, Nat.min_eq_left hm]
  split_ifs with him
  · rw [getD_append _ _ _ _ (by omega), getD_take him]
  · rw [getD_append_right _ _ _ _ (by omega), hlen, getD_append _ _ _ _ (by rw [length_replicate]; omega),
      getD_eq_getElem?_getD, getElem?_replicate]
    split <;> rfl

/-- A cut in a header at the end of a block: with the zeros of the writer it is a zero header, and the
rest of the block is skipped. -/
theorem next_zeroed (hm : m < kHeaderSize) (hroom : room lo < m + kHeaderSize)
    (hzero : m ≤ 4 ∨ fragment = []) (R : Slice) :
    nextPhysical (List.replicate (padding lo) 0 ++ ((header t fragment).take m ++
        (List.replicate (room lo - m) 0 ++ R))) lo = some (.bad false, R, 0) := by
  have hH : kHeaderSize = 7 := rfl
  have hle := kHeaderSize_le_room lo
  have hlen : ((header t fragment).take m).length = m := by
    rw [length_take, length_header, Nat.min_eq_left hm.le]
  have hsize : ((header t fragment).take m ++ (List.replicate (room lo - m) 0 ++ R)).length =
      room lo + R.length := by
    rw [length_append, length_append, length_replicate, hlen]
    omega
  have hget (i : ℕ) (hi : 4 ≤ i ∧ i < 7) :
      ((header t fragment).take m ++ (List.replicate (room lo - m) 0 ++ R)).getD i 0 = 0 := by
    rw [zeroed_getD hm.le R (by omega)]
    split_ifs with him
    · rcases hzero with hm4 | rfl
      · omega
      · obtain rfl | rfl : i = 4 ∨ i = 5 := by omega
        · rfl
        · rfl
    · rfl
  have hlength : lengthAt ((header t fragment).take m ++ (List.replicate (room lo - m) 0 ++ R)) = 0 := by
    rw [lengthAt, hget 4 (by omega), hget 5 (by omega)]
    rfl
  have htype : typeAt ((header t fragment).take m ++ (List.replicate (room lo - m) 0 ++ R)) = 0 := by
    rw [typeAt, hget 6 (by omega)]
    rfl
  rw [next_append length_replicate (by omega), parseHeader, hlength, htype, hsize,
    if_neg (by omega), if_pos ⟨rfl, rfl⟩, ← append_assoc, drop_left' (by
      rw [length_append, length_replicate, hlen]; omega), Nat.sub_eq_zero_of_le (by omega)]

/-! ## Cuts that are not -/

theorem scan_some_ne {x : Slice} (hx : x ≠ []) (es : List Physical) :
    scan (some x) es ≠ ([[]], true) := by
  induction es generalizing x with
  | nil => simp [scan]
  | cons e es ih =>
    intro h
    rw [scan, Prod.ext_iff] at h
    cases e with
    | fragment t data =>
      cases t with
      | kMiddleType =>
        refine ih (by simp [hx]) (Prod.ext h.1 ?_)
        simpa [assemble, Physical.reported] using h.2
      | kLastType | kFullType | kFirstType => simp [assemble, hx] at h
      | kZeroType => simp [assemble] at h
    | bad reported => simp [assemble] at h
    | unknown type data => simp [assemble] at h

theorem scan_fragment_ne {data : Slice} (hdata : data ≠ []) (s : Option Slice) (es : List Physical) :
    scan s (.fragment t data :: es) ≠ ([[]], true) := by
  intro h
  rw [scan, Prod.ext_iff] at h
  cases t with
  | kMiddleType =>
    cases s with
    | none => simp [assemble] at h
    | some scratch =>
      refine scan_some_ne (by simp [hdata]) es (Prod.ext h.1 ?_)
      simpa [assemble, Physical.reported] using h.2
  | kLastType => cases s <;> simp [assemble, hdata] at h
  | kZeroType => simp [assemble] at h
  | kFullType => simp [assemble, hdata] at h
  | kFirstType =>
    grind [scan_some_ne, assemble]

section Torn

variable (h : Yields tail lo es) (hnext : nextPhysical tail lo = parseHeader S (room lo))
include h hnext

theorem yields_parse_cases :
    es = [] ∨ (∃ es', es = .bad true :: es') ∨
      (typeAt S = 0 ∧ lengthAt S = 0 ∧ ∃ es' lo', es = .bad false :: es' ∧
        Yields (S.drop (room lo)) lo' es') ∨
      ∃ e es' lo', es = e :: es' ∧ kHeaderSize + lengthAt S ≤ S.length ∧
        Physical.ofType (typeAt S) ((S.drop kHeaderSize).take (lengthAt S)) = some e ∧
        Yields (S.drop (kHeaderSize + lengthAt S)) lo' es' := by
  cases h with
  | eof h => exact Or.inl rfl
  | cons h rest =>
    rw [hnext, parseHeader] at h
    split_ifs at h with hlong hend hzero hcrc
    · cases h
      exact Or.inr (Or.inl ⟨_, rfl⟩)
    · grind
    · obtain ⟨e', he, hsame⟩ := Option.map_eq_some_iff.mp h
      grind
    · cases h
      exact Or.inr (Or.inl ⟨_, rfl⟩)

/-- What is met first is not an empty fragment: an empty record is lost. -/
theorem scan_ne_of_length (hlen : 0 < lengthAt S) (htype : typeAt S ≤ 4) (s : Option Slice) :
    scan s es ≠ ([[]], true) := by
  rcases yields_parse_cases h hnext with rfl | ⟨es', rfl⟩ | ⟨-, hzero, -⟩ |
    ⟨e, es', lo', rfl, hfits, he, -⟩
  · simp [scan]
  · simp [scan, Physical.reported]
  · omega
  · have hdata : (S.drop kHeaderSize).take (lengthAt S) ≠ [] := by
      grind [length_take]
    generalize (S.drop kHeaderSize).take (lengthAt S) = data at he hdata
    generalize typeAt S = type at he htype
    obtain rfl | rfl | rfl | rfl | rfl : type = 0 ∨ type = 1 ∨ type = 2 ∨ type = 3 ∨ type = 4 := by
      omega
    · cases he
      simp [scan, assemble]
    all_goals
      cases he
      exact scan_fragment_ne hdata s es'

/-- What is met first is no fragment, and what is left is too short for another: an empty record is
lost. -/
theorem scan_ne_of_type (hS : S.length < 2 * kHeaderSize) (htype : typeAt S = 0 ∨ 4 < typeAt S)
    (s : Option Slice) : scan s es ≠ ([[]], true) := by
  have hH : kHeaderSize = 7 := rfl
  have hroom := kHeaderSize_le_room lo
  have hend {R : Slice} {lo' : ℕ} {es' : List Physical} (hR : R.length < kHeaderSize)
      (hyields : Yields R lo' es') : es' = [] := by
    cases hyields with
    | eof _ => rfl
    | cons h _ =>
      rw [next_short (by omega)] at h
      cases h
  rcases yields_parse_cases h hnext with rfl | ⟨es', rfl⟩ | ⟨-, -, es', lo', rfl, hrest⟩ |
    ⟨e, es', lo', rfl, -, he, hrest⟩
  · simp [scan]
  · simp [scan, Physical.reported]
  · grind [scan, assemble]
  · rw [hend (by rw [length_drop]; omega) hrest]
    generalize (S.drop kHeaderSize).take (lengthAt S) = data at he
    generalize typeAt S = type at he htype
    obtain rfl | rfl | rfl | ⟨n, rfl⟩ : type = 0 ∨ type = 5 ∨ type = 6 ∨ ∃ n, type = n + 7 := by
      rcases Nat.lt_or_ge type 7 with hlt | hge
      · omega
      · exact Or.inr (Or.inr (Or.inr ⟨type - 7, (Nat.sub_add_cancel hge).symm⟩))
    · cases he
      simp [scan, assemble]
    · cases he
    · cases he
      simp [scan, assemble]
    · cases he
      simp [scan, assemble]

end Torn

/-! ## Which cuts are clean -/

/-- After the bytes of a cut, with `lw` bytes left over in the block for the writer, whatever is appended
is scanned. -/
def GoesOn (s : Option Slice) (torn : Slice) (lo lw : ℕ) : Prop :=
  ∀ more, ∃ es, Yields (torn ++ bytesOf lw (logPieces lw more)) lo es ∧ scan s es = (more, true)

theorem logPieces_empty (lo : ℕ) : logPieces lo [[]] = [(.kFullType, [])] := by
  rw [logPieces, logPieces, recordPieces, length_nil, if_pos (Nat.zero_le _)]
  rfl

theorem goesOn_padding {j : ℕ} (hlo : lo ≤ kBlockSize) (hj : j ≤ padding lo) :
    GoesOn s (List.replicate j 0) lo (lo - j) ↔ s.getD [] = [] := by
  have hyields (more : List Slice) := yields_padded hlo hj (fit_logPieces (lo - j) more)
  constructor
  · intro h
    obtain ⟨es, hes, hscan⟩ := h [[]]
    grind [Yields.unique, scan_logPieces_after]
  · intro hs more
    grind [scan_logPieces_after]

/-- The bytes of the checksum of an empty record are no types of fragments. -/
theorem type_header_empty : ∀ i ≤ 5, typeOfByte ((header .kFullType []).getD i 0) = 0 ∨
    4 < typeOfByte ((header .kFullType []).getD i 0) := by
  decide +kernel

theorem goesOn_header (hm : 0 < m ∧ m < kHeaderSize) (hlen : fragment.length ≤ room lo - kHeaderSize)
    (hs : s = none ∨ lo = 0) :
    GoesOn s (List.replicate (padding lo) 0 ++ (header t fragment).take m) lo (room lo - m) ↔
      room lo < m + kHeaderSize ∧ (m ≤ 4 ∨ fragment = []) := by
  have hH : kHeaderSize = 7 := rfl
  have hB : kBlockSize = 32768 := rfl
  have hroom := kHeaderSize_le_room lo
  have hmlen : ((header t fragment).take m).length = m := by
    rw [length_take, length_header, Nat.min_eq_left hm.2.le]
  constructor
  · intro h
    obtain ⟨es, hes, hscan⟩ := h [[]]
    rw [logPieces_empty, bytesOf, bytesOf, append_nil, append_assoc] at hes
    by_contra hclean
    by_cases hsmall : room lo < m + kHeaderSize
    · -- the writer fills the block: the kept length runs into the zeros
      obtain ⟨hm5, hne⟩ : 4 < m ∧ fragment ≠ [] := by
        rw [not_and_or, not_or, Nat.not_le] at hclean
        exact hclean.resolve_left (not_not.mpr hsmall)
      have hpos : 0 < fragment.length := length_pos_iff.mpr hne
      have hpadding : padding (room lo - m) = room lo - m := if_pos (by omega)
      rw [piece, hpadding, append_nil] at hes
      refine scan_ne_of_length hes (next_append length_replicate (by
        rw [length_append, length_append, hmlen, length_header]; omega)) ?_ ?_ s hscan
      · have hlow : ((header t fragment).getD 4 0).toNat = fragment.length := by
          change (UInt8.ofNat (fragment.length % 256)).toNat = _
          rw [UInt8.toNat_ofNat']
          omega
        rw [lengthAt, zeroed_getD hm.2.le _ (by omega), if_pos hm5, hlow]
        exact Nat.lt_of_lt_of_le hpos Nat.left_le_or
      · rw [typeAt, zeroed_getD hm.2.le _ (by omega), if_neg (by omega)]
        decide
    · -- the writer goes on at once: its header is read from the middle
      have hpadding : padding (room lo - m) = 0 := if_neg (by omega)
      rw [piece, hpadding, append_nil, replicate_zero, nil_append] at hes
      refine scan_ne_of_type hes (next_append length_replicate (by
        rw [length_append, hmlen, length_header]; omega)) ?_ ?_ s hscan
      · rw [length_append, hmlen, length_header]
        omega
      · rw [typeAt, getD_append_right _ _ _ _ (by omega)]
        exact type_header_empty _ (by omega)
  · rintro ⟨hsmall, hzero⟩ more
    have hnone : s = none := by
      refine hs.resolve_right fun h => ?_
      rw [h, room, if_pos (by decide)] at hsmall
      omega
    cases more with
    | nil =>
      refine ⟨[], yields_short ?_, rfl⟩
      rw [logPieces, bytesOf, append_nil, length_append, length_replicate, hmlen]
      omega
    | cons data more =>
      have hfit := (fit_next_block (by omega)).mp (fit_logPieces (room lo - m) (data :: more))
      refine ⟨.bad false :: met (logPieces (room lo - m) (data :: more)), ?_, ?_⟩
      · rw [bytesOf_next_block (by omega) (logPieces_ne_nil _ _ _), append_assoc]
        exact .cons (next_zeroed hm.2 hsmall hzero _) (yields_all (Nat.zero_le _) hfit)
      · rw [scan, hnone, show assemble none (.bad false) = (none, none, true) from rfl,
          (scan_logPieces _ _).1]
        rfl

theorem not_goesOn_fragment (hlo : lo ≤ kBlockSize) (hm : m < fragment.length)
    (hlen : fragment.length ≤ room lo - kHeaderSize) :
    ¬ GoesOn s (List.replicate (padding lo) 0 ++ (header t fragment ++ fragment.take m)) lo lw := by
  intro h
  have hB : kBlockSize = 32768 := rfl
  have hle := room_le hlo
  obtain ⟨es, hes, hscan⟩ := h [[]]
  rw [append_assoc, append_assoc] at hes
  obtain ⟨hlength, htype, -⟩ := header_fields t (show fragment.length < 2 ^ 16 by omega)
    (fragment.take m ++ bytesOf lw (logPieces lw [[]]))
  refine scan_ne_of_length hes (next_append length_replicate (by
    rw [length_append, length_header]; omega)) ?_ ?_ s hscan
  · omega
  · rw [htype]
    cases t <;> decide

/-- What is appended reads back if and only if it is scanned after the bytes of the cut. -/
theorem reuse_iff_goesOn {torn : Slice} (lw : ℕ) (hfit : Fit 0 whole)
    (hscan : scan none (met whole) = (kept, true)) (hlw : lw < kBlockSize)
    (hblock : ((bytesOf 0 whole).length + torn.length + lw) % kBlockSize = 0) :
    (∀ more, ∃ w, (Writer.reuse (appendable (bytesOf 0 whole ++ torn))
        (bytesOf 0 whole ++ torn).length).addAll more = some w ∧
        ReadsBack w.dest.contents (kept ++ more)) ↔
      GoesOn (after none (met whole)) torn (leftOver 0 whole) lw := by
  refine forall_congr' fun more => ?_
  obtain ⟨w, hall, hcontents⟩ := addAll_reuse (bytesOf 0 whole ++ torn) hlw
    (by rwa [length_append]) more
  obtain ⟨es, hes⟩ := exists_yields (torn ++ bytesOf lw (logPieces lw more)) (leftOver 0 whole)
  grind [readsBack_append_iff]

theorem reuse_iff_cleanAt {cut : Option (ℕ × Frag × ℕ)} (hfit : Fit 0 whole)
    (hscan : scan none (met whole) = (kept, true))
    (hend : after none (met whole) = none ∨ leftOver 0 whole = 0)
    (hnone : cut = none → after none (met whole) = none)
    (hsome : ∀ lo p j, cut = some (lo, p, j) → lo = leftOver 0 whole ∧
      j < (piece lo p.1 p.2).length ∧ p.1 ≠ .kZeroType ∧ p.2.length ≤ room lo - kHeaderSize) :
    (∀ more, ∃ w, (Writer.reuse (appendable (bytesOf 0 whole ++ cutBytes cut))
        (bytesOf 0 whole ++ cutBytes cut).length).addAll more = some w ∧
        ReadsBack w.dest.contents (kept ++ more)) ↔ CleanAt whole cut := by
  have hB : kBlockSize = 32768 := rfl
  have hH : kHeaderSize = 7 := rfl
  have hzero : (0 : ℕ) < kBlockSize := by decide
  have hlt := leftOver_lt hzero whole
  have hmod := length_bytesOf_add_leftOver hfit
  rw [Nat.zero_mod] at hmod
  cases cut with
  | none =>
    rw [reuse_iff_goesOn (leftOver 0 whole) hfit hscan hlt (by rwa [cutBytes, length_nil, Nat.add_zero])]
    have := goesOn_padding (s := after none (met whole)) hlt.le (Nat.zero_le (padding (leftOver 0 whole)))
    rw [replicate_zero, Nat.sub_zero, hnone rfl] at this
    rw [cutBytes, hnone rfl, this]
    exact iff_of_true rfl trivial
  | some cut =>
    obtain ⟨lo, p, j⟩ := cut
    obtain ⟨rfl, hj, ht, hlen⟩ := hsome _ _ _ rfl
    rw [length_piece] at hj
    have hroom := kHeaderSize_le_room (leftOver 0 whole)
    have hle := room_le hlt.le
    have hlength : (cutBytes (some (leftOver 0 whole, p, j))).length = j := by
      rw [cutBytes, length_take, length_piece, Nat.min_eq_left hj.le]
    have hblock : padding (leftOver 0 whole) + room (leftOver 0 whole) = leftOver 0 whole ∨
        padding (leftOver 0 whole) + room (leftOver 0 whole) = leftOver 0 whole + kBlockSize := by
      rw [padding, room]
      split
      · exact Or.inr rfl
      · exact Or.inl (Nat.zero_add _)
    by_cases hpad : j ≤ padding (leftOver 0 whole)
    · have hpadle : padding (leftOver 0 whole) ≤ leftOver 0 whole := by
        rw [padding]
        split <;> omega
      have htorn : cutBytes (some (leftOver 0 whole, p, j)) = List.replicate j 0 := by
        rw [cutBytes, piece, append_assoc,
          take_append_of_le_length (by rwa [length_replicate]), take_replicate,
          Nat.min_eq_left hpad]
      rw [reuse_iff_goesOn (leftOver 0 whole - j) hfit hscan (by omega) (by
        rw [hlength, Nat.add_assoc, Nat.add_sub_cancel' (by omega)]; exact hmod), htorn,
        goesOn_padding hlt.le hpad, CleanAt]
      have hunfinished := length_after none whole
      rw [Option.map_none] at hunfinished
      rw [← hunfinished, and_iff_right hpad, or_iff_left (fun h => Nat.not_lt.mpr hpad h.1)]
      cases after none (met whole) with
      | none => exact iff_of_true rfl rfl
      | some scratch => exact length_eq_zero_iff.symm
    · have htorn : cutBytes (some (leftOver 0 whole, p, j)) =
          List.replicate (padding (leftOver 0 whole)) 0 ++
            (header p.1 p.2 ++ p.2).take (j - padding (leftOver 0 whole)) := by
        rw [cutBytes, piece, append_assoc, take_append, length_replicate,
          take_of_length_le (by rw [length_replicate]; omega)]
      have hleft : ((bytesOf 0 whole).length + j +
          (room (leftOver 0 whole) - (j - padding (leftOver 0 whole)))) % kBlockSize = 0 := by
        rw [hB] at hmod hblock ⊢
        omega
      rw [reuse_iff_goesOn (room (leftOver 0 whole) - (j - padding (leftOver 0 whole))) hfit
        hscan (by omega) (by rwa [hlength]), htorn, CleanAt,
        or_iff_right (fun h => hpad h.1), and_iff_right (Nat.lt_of_not_le hpad)]
      by_cases hheader : j < padding (leftOver 0 whole) + kHeaderSize
      · rw [take_append_of_le_length (by rw [length_header]; omega),
          goesOn_header (by omega) hlen hend, and_iff_right hheader]
      · rw [take_append, length_header, take_of_length_le (by rw [length_header]; omega)]
        exact iff_of_false (not_goesOn_fragment hlt.le (by omega) hlen) fun h => hheader h.1

/-- **A log can be written on after a cut if and only if the cut is clean.** Whatever records are
appended to an empty file, and however many bytes of it are kept: every sequence of records appended to
what is kept is read back, after the records that are complete and without a report, if and only if the
cut is clean. -/
theorem reuse_reads_back_iff (records : List Slice) (n : ℕ) :
    ∃ w k, (Writer.new ⟨[], 0, []⟩).addAll records = some w ∧
      (∀ i < records.length, i < k ↔
        ∃ w', (Writer.new ⟨[], 0, []⟩).addAll (records.take (i + 1)) = some w' ∧
          w'.dest.contents.length ≤ n) ∧
      ((∀ more, ∃ w', (Writer.reuse (appendable (w.dest.contents.take n))
          (w.dest.contents.take n).length).addAll more = some w' ∧
          ReadsBack w'.dest.contents (records.take k ++ more)) ↔ CleanCut records n) := by
  obtain ⟨w, hall, -, hcontents⟩ := addAll_new records
  obtain ⟨k, hscan, hk, hend⟩ := scan_cut 0 records n
  have hfit := fit_logPieces 0 records
  refine ⟨w, k, hall, fun i hi => ?_, ?_⟩
  · obtain ⟨w', hall', -, hcontents'⟩ := addAll_new (records.take (i + 1))
    grind [recordEnd]
  · rw [hcontents, take_bytesOf]
    refine reuse_iff_cleanAt (fit_cutAt hfit n) hscan hend (fun hcut => ?_) fun lo p j hcut => ?_
    · rw [cutAt_eq_none hcut]
      exact (scan_logPieces 0 records).2
    · obtain ⟨hlo, hj, rest, hpieces⟩ := cutAt_eq_some hcut
      rw [hpieces] at hfit
      obtain ⟨ht, hlen, -⟩ := (fit_append.mp hfit).2
      exact ⟨hlo, hj, ht, hlo ▸ hlen⟩

/-- A log with the record `a` is cut after its header and `b` is appended: the checksum of the header is
taken over a byte of what was appended, and `b` is dropped with the rest of the block. -/
theorem reuse_loses_record :
    ¬ CleanCut [ascii "a"] 7 ∧
      (do
        let w ← (Writer.new ⟨[], 0, []⟩).addAll [ascii "a"]
        let w' ← (Writer.reuse (appendable (w.dest.contents.take 7)) 7).addAll [ascii "b"]
        let (records, r) ← (Reader.new ⟨w'.dest.contents, []⟩ true 0).readAll 2
        some (records, r.reports)) =
      some ([], [(15, .corruption (ascii "checksum mismatch") [])]) := by
  decide +kernel

end Log

end RocketDb
