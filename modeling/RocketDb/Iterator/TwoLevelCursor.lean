import RocketDb.Iterator.TwoLevel

/-! # The two-level iterator is a cursor

* **`TwoLevelIterator.Positioned`** — the index iterator is at block `k` and the data iterator at `j` in it.
* **`TwoLevelIterator.At`** — the position in the concatenation.
* **`ShowsBlocks`** — every sequence of calls shows what it shows on a cursor over the concatenation; a block
  that reports an error counts as empty, and from then on the status is an error. -/

namespace RocketDb

open Transition

variable {ι δ : Type*} {cmp : Comparator} {contents : Slice → List (Slice × Slice)}
  {idx : List (Slice × Slice)} {x : Slice × Slice} {k j : ℕ}

/-! ## Where the iterator is -/

variable {index : Iterator ι} {data : Iterator δ} {blockFunction : ℕ → Slice → δ}
  {t t' : TwoLevelIterator ι δ} {g fuel : ℕ}

namespace TwoLevelIterator

/-- The data iterator, if there is one, is a cursor over the block whose handle is kept. -/
def DataOk (data : Iterator δ) (cmp : Comparator) (contents : Slice → List (Slice × Slice))
    (t : TwoLevelIterator ι δ) : Prop :=
  ∀ w, t.dataIter = some w → ∃ j, w.At data cmp (contents t.dataBlockHandle) j

/-- **The iterator is in block `k` at position `j`**, or past the last block without a data iterator. -/
structure Positioned (index : Iterator ι) (data : Iterator δ) (cmp : Comparator)
    (contents : Slice → List (Slice × Slice)) (idx : List (Slice × Slice)) (t : TwoLevelIterator ι δ)
    (k j : ℕ) : Prop where
  index_at : t.indexIter.At index cmp idx k
  data_at : ∀ x, idx[k]? = some x → t.dataBlockHandle = x.2 ∧
    j ≤ (contents x.2).length ∧ ∃ w, t.dataIter = some w ∧ w.At data cmp (contents x.2) j
  data_none : idx[k]? = none → t.dataIter = none

/-- **The iterator is at position `g` of the concatenation.** -/
structure At (index : Iterator ι) (data : Iterator δ) (cmp : Comparator)
    (contents : Slice → List (Slice × Slice)) (idx : List (Slice × Slice)) (t : TwoLevelIterator ι δ)
    (g : ℕ) : Prop where
  index_at : ∃ k, t.indexIter.At index cmp idx k
  valid_at : t.valid = true → ∃ k j x, Positioned index data cmp contents idx t k j ∧
    idx[k]? = some x ∧ j < (contents x.2).length ∧ g = blockStart contents idx k + j
  ended : t.valid = false → t.dataIter = none ∧ g = (concatBlocks contents idx).length

theorem Positioned.dataOk (h : Positioned index data cmp contents idx t k j) :
    DataOk data cmp contents t := by
  intro w hw
  grind [Positioned]

theorem Positioned.valid_iff (h : Positioned index data cmp contents idx t k j)
    (hx : idx[k]? = some x) : t.valid = true ↔ j < (contents x.2).length := by
  obtain ⟨-, -, w, hw, hat⟩ := h.data_at x hx
  rw [TwoLevelIterator.valid, hw]
  exact hat.valid_iff

theorem At.dataOk (h : At index data cmp contents idx t g) : DataOk data cmp contents t := by
  cases hv : t.valid with
  | true =>
    obtain ⟨k, j, x, hpos, -⟩ := h.valid_at hv
    exact hpos.dataOk
  | false =>
    intro w hw
    rw [(h.ended hv).1] at hw
    cases hw

/-- In a block that is open, the position counts the entries of the blocks before. -/
theorem Positioned.at (h : Positioned index data cmp contents idx t k j) (hx : idx[k]? = some x)
    (hj : j < (contents x.2).length) :
    At index data cmp contents idx t (blockStart contents idx k + j) where
  index_at := ⟨k, h.index_at⟩
  valid_at _ := ⟨k, j, x, h, hx, hj, rfl⟩
  ended hv := by
    rw [(h.valid_iff hx).mpr hj] at hv
    cases hv

/-- Without a block the iterator is at the end. -/
theorem at_setDataIterator_none (hindex : ∃ k, t.indexIter.At index cmp idx k) :
    At index data cmp contents idx (setDataIterator data none t)
      (concatBlocks contents idx).length where
  index_at := hindex
  valid_at hv := by cases hv
  ended _ := ⟨rfl, rfl⟩

/-- What the iterator shows is the entry at its position. -/
theorem At.shows_eq (h : At index data cmp contents idx t g) :
    (iterator index data blockFunction fuel).shows t = (concatBlocks contents idx)[g]? := by
  rw [Iterator.shows]
  change (if t.valid then _ else _) = _
  cases hv : t.valid with
  | false =>
    rw [(h.ended hv).2, List.getElem?_eq_none le_rfl]
    rfl
  | true =>
    obtain ⟨k, j, x, hpos, hx, hj, rfl⟩ := h.valid_at hv
    obtain ⟨-, -, w, hw, hat⟩ := hpos.data_at x hx
    rw [if_pos rfl, getElem?_concatBlocks hx hj, hat.entry hj]
    simp [iterator, hw]

/-! ## Blocks -/

/-- The block function gives cursors over the contents of the blocks. -/
def BlocksOk (data : Iterator δ) (cmp : Comparator) (contents : Slice → List (Slice × Slice))
    (idx : List (Slice × Slice)) (blockFunction : ℕ → Slice → δ) : Prop :=
  ∀ n, ∀ x ∈ idx, ∃ j, data.IsCursor cmp (contents x.2) (blockFunction n x.2) j

/-- After `InitDataBlock` the data iterator is one over the block of the index, wherever it is in it. -/
theorem initDataBlock_spec (hblocks : BlocksOk data cmp contents idx blockFunction)
    (hindex : t.indexIter.At index cmp idx k) (hdata : DataOk data cmp contents t) :
    (initDataBlock index data blockFunction t).indexIter = t.indexIter ∧
      (∀ x, idx[k]? = some x →
        (initDataBlock index data blockFunction t).dataBlockHandle = x.2 ∧
          ∃ w j, (initDataBlock index data blockFunction t).dataIter = some w ∧
            w.At data cmp (contents x.2) j) ∧
      (idx[k]? = none → (initDataBlock index data blockFunction t).dataIter = none) := by
  rw [initDataBlock]
  by_cases hv : t.indexIter.valid = true
  · have hk := hindex.valid_iff.mp hv
    have hentry := hindex.entry hk
    rw [if_pos hv]
    dsimp only
    split_ifs with hsame
    · -- the data iterator is kept
      obtain ⟨w, hw⟩ := Option.isSome_iff_exists.mp hsame.1
      refine ⟨rfl, fun x hx => ?_, fun hx => absurd (hentry.symm.trans hx) (by simp)⟩
      obtain rfl := Option.some.inj (hentry.symm.trans hx)
      obtain ⟨j, hat⟩ := hdata w hw
      exact ⟨hsame.2.symm, w, j, hw, hsame.2 ▸ hat⟩
    · refine ⟨rfl, fun x hx => ?_, fun hx => absurd (hentry.symm.trans hx) (by simp)⟩
      obtain rfl := Option.some.inj (hentry.symm.trans hx)
      obtain ⟨j, hcur⟩ := hblocks t.opened.length _ (List.mem_of_getElem? hentry)
      exact ⟨rfl, _, j, rfl, IteratorWrapper.set_at hcur⟩
  · rw [if_neg hv]
    have hk : idx[k]? = none :=
      List.getElem?_eq_none (not_lt.mp fun hlt => hv (hindex.valid_iff.mpr hlt))
    exact ⟨rfl, fun x hx => absurd (hk.symm.trans hx) (by simp), fun _ => rfl⟩

/-- **Entering a block**: the index moves to `k`, and a call that does not depend on where the data
iterator was takes it to `j`. -/
theorem enterBlock_spec (hblocks : BlocksOk data cmp contents idx blockFunction) (move enter : IterCall)
    {k₀ : ℕ} (hindex : t.indexIter.At index cmp idx k₀) (hdata : DataOk data cmp contents t)
    (hmove : mapCursorCall cmp idx k₀ move = some k)
    (henter : ∀ x, idx[k]? = some x → j ≤ (contents x.2).length ∧
      ∀ i, mapCursorCall cmp (contents x.2) i enter = some j) :
    ∃ t', enterBlock index data blockFunction move enter t = some t' ∧
      Positioned index data cmp contents idx t' k j := by
  obtain ⟨w, hcall, hat⟩ := hindex.of_mapCursorCall hmove
  have hdata' : DataOk data cmp contents { t with indexIter := w } := hdata
  obtain ⟨hi, hsome, hnone⟩ :=
    initDataBlock_spec (t := { t with indexIter := w }) hblocks hat hdata'
  rw [enterBlock, callIndex, hcall, Option.map_some]
  dsimp only
  generalize hinit : initDataBlock index data blockFunction { t with indexIter := w } = t₁ at *
  have hat₁ : t₁.indexIter.At index cmp idx k := by
    rw [hi]
    exact hat
  cases hx : idx[k]? with
  | none =>
    refine ⟨t₁, ?_, hat₁, fun x hx' => ?_, fun _ => hnone hx⟩
    · rw [callData, hnone hx]
    · rw [hx] at hx'
      cases hx'
  | some x =>
    obtain ⟨hhandle, v, i, hv, hvat⟩ := hsome x hx
    obtain ⟨hle, hcallEnter⟩ := henter x hx
    obtain ⟨v', hv', hvat'⟩ := hvat.of_mapCursorCall (hcallEnter i)
    refine ⟨{ t₁ with dataIter := some v' }, ?_, hat₁, fun y hy => ?_, fun hnone' => ?_⟩
    · grind [callData]
    · grind
    · rw [hx] at hnone'
      cases hnone'

/-! ## Skipping -/

theorem valid_of_dataIter_none (h : t.dataIter = none) : t.valid = false := by
  rw [TwoLevelIterator.valid, h]
  rfl

variable {move enter : IterCall}

theorem skipEmptyDataBlocks_of_valid (h : t.valid = true) :
    skipEmptyDataBlocks index data blockFunction move enter (fuel + 1) t = some t := by
  rw [skipEmptyDataBlocks, if_pos h]

/-- Skipping ends with the index. -/
theorem skipEmptyDataBlocks_of_ended (h : t.valid = false) (hi : t.indexIter.valid = false) :
    skipEmptyDataBlocks index data blockFunction move enter (fuel + 1) t =
      some (setDataIterator data none t) := by
  rw [skipEmptyDataBlocks, h, hi]
  rfl

/-- Skipping opens the next block. -/
theorem skipEmptyDataBlocks_of_enter (h : t.valid = false) (hi : t.indexIter.valid = true)
    (hnext : enterBlock index data blockFunction move enter t = some t') :
    skipEmptyDataBlocks index data blockFunction move enter (fuel + 1) t =
      skipEmptyDataBlocks index data blockFunction move enter fuel t' := by
  rw [skipEmptyDataBlocks, h, hi, hnext]
  rfl

section

variable (hblocks : BlocksOk data cmp contents idx blockFunction)
  (h : Positioned index data cmp contents idx t k j)

include hblocks h

/-- **Skipping forward** keeps the position in the concatenation. The induction is on the blocks left. -/
theorem skipForward_spec (hend : idx[k]? = none → j = 0) (hfuel : idx.length < k + fuel)
    (hk : k ≤ idx.length) :
    ∃ t', skipEmptyDataBlocksForward index data blockFunction fuel t = some t' ∧
      At index data cmp contents idx t' (blockStart contents idx k + j) := by
  induction fuel generalizing t k j with
  | zero => omega
  | succ fuel ih =>
    rw [skipEmptyDataBlocksForward]
    cases hx : idx[k]? with
    | none =>
      have hnone := List.getElem?_eq_none_iff.mp hx
      have hiv : t.indexIter.valid = false :=
        Bool.eq_false_iff.mpr fun hv => absurd (h.index_at.valid_iff.mp hv) (not_lt.mpr hnone)
      rw [skipEmptyDataBlocks_of_ended (valid_of_dataIter_none (h.data_none hx)) hiv, hend hx,
        Nat.add_zero, blockStart_of_le hnone]
      exact ⟨_, rfl, at_setDataIterator_none ⟨k, h.index_at⟩⟩
    | some x =>
      have hlt := (List.getElem?_eq_some_iff.mp hx).1
      by_cases hj : j < (contents x.2).length
      · rw [skipEmptyDataBlocks_of_valid ((h.valid_iff hx).mpr hj)]
        exact ⟨t, rfl, h.at hx hj⟩
      · -- the block is used up: its end is the start of the next one
        have hjlen : j = (contents x.2).length :=
          le_antisymm (h.data_at x hx).2.1 (not_lt.mp hj)
        have hinv : t.valid = false := Bool.eq_false_iff.mpr fun hv => hj ((h.valid_iff hx).mp hv)
        obtain ⟨t₁, henter, hpos⟩ := enterBlock_spec (j := 0) hblocks .next .seekToFirst
          h.index_at h.dataOk (if_pos hlt) fun _ _ => ⟨Nat.zero_le _, fun _ => rfl⟩
        rw [skipEmptyDataBlocks_of_enter hinv (h.index_at.valid_iff.mpr hlt) henter, hjlen,
          ← blockStart_succ hx, ← Nat.add_zero (blockStart contents idx (k + 1))]
        exact ih hpos (fun _ => rfl) (by omega) hlt

/-- **Skipping backward** leads from a used-up block to the last entry before it. The induction is on the
blocks before. -/
theorem skipBackward_spec (hx : idx[k]? = some x) (hfuel : k + 1 < fuel) :
    ∃ t', skipEmptyDataBlocksBackward index data blockFunction fuel t = some t' ∧
      At index data cmp contents idx t'
        (if j < (contents x.2).length then blockStart contents idx k + j
        else Cursor.prev (concatBlocks contents idx) (blockStart contents idx k)) := by
  induction k generalizing t j x fuel with
  | zero =>
    obtain ⟨fuel, rfl⟩ : ∃ f, fuel = f + 2 := ⟨fuel - 2, by omega⟩
    rw [skipEmptyDataBlocksBackward]
    split_ifs with hj
    · rw [skipEmptyDataBlocks_of_valid ((h.valid_iff hx).mpr hj)]
      exact ⟨t, rfl, h.at hx hj⟩
    · -- there is no block before: the index iterator becomes invalid
      have hlt := (List.getElem?_eq_some_iff.mp hx).1
      have hinv : t.valid = false := Bool.eq_false_iff.mpr fun hv => hj ((h.valid_iff hx).mp hv)
      obtain ⟨t₁, henter, hpos⟩ := enterBlock_spec (k := idx.length) (j := 0) hblocks
        .prev .seekToLast h.index_at h.dataOk (if_pos hlt) fun y hy => by
          rw [List.getElem?_eq_none le_rfl] at hy
          cases hy
      have hnone : idx[idx.length]? = none := List.getElem?_eq_none le_rfl
      have hiv : t₁.indexIter.valid = false :=
        Bool.eq_false_iff.mpr fun hv => absurd (hpos.index_at.valid_iff.mp hv) (lt_irrefl _)
      rw [skipEmptyDataBlocks_of_enter hinv (h.index_at.valid_iff.mpr hlt) henter,
        skipEmptyDataBlocks_of_ended (valid_of_dataIter_none (hpos.data_none hnone)) hiv,
        blockStart_zero, Cursor.prev, if_pos rfl]
      exact ⟨_, rfl, at_setDataIterator_none ⟨_, hpos.index_at⟩⟩
  | succ k ih =>
    obtain ⟨fuel, rfl⟩ : ∃ f, fuel = f + 1 := ⟨fuel - 1, by omega⟩
    rw [skipEmptyDataBlocksBackward]
    split_ifs with hj
    · rw [skipEmptyDataBlocks_of_valid ((h.valid_iff hx).mpr hj)]
      exact ⟨t, rfl, h.at hx hj⟩
    · have hlt := (List.getElem?_eq_some_iff.mp hx).1
      have hinv : t.valid = false := Bool.eq_false_iff.mpr fun hv => hj ((h.valid_iff hx).mp hv)
      obtain ⟨y, hy⟩ : ∃ y, idx[k]? = some y := ⟨_, List.getElem?_eq_getElem (by omega)⟩
      have hmove : mapCursorCall cmp idx (k + 1) .prev = some k := by
        grind [mapCursorCall, Cursor.prev]
      obtain ⟨t₁, henter, hpos⟩ := enterBlock_spec (j := Cursor.seekToLast (contents y.2))
        hblocks .prev .seekToLast h.index_at h.dataOk hmove fun z hz => by
          obtain rfl := Option.some.inj (hy.symm.trans hz)
          exact ⟨Nat.sub_le _ _, fun _ => rfl⟩
      rw [skipEmptyDataBlocks_of_enter hinv (h.index_at.valid_iff.mpr hlt) henter]
      obtain ⟨t₂, hskip, hat⟩ := ih hpos hy (by omega : k + 1 < fuel)
      refine ⟨t₂, hskip, ?_⟩
      -- the last entry of the block before, or what is before that block
      grind [blockStart_succ, Cursor.seekToLast, Cursor.prev]

end

/-! ## The calls -/

variable {c : IterCall}

/-- A call inside of a block. -/
theorem Positioned.callData (h : Positioned index data cmp contents idx t k j) (hx : idx[k]? = some x)
    {j' : ℕ} (hc : mapCursorCall cmp (contents x.2) j c = some j') (hle : j' ≤ (contents x.2).length) :
    ∃ t', callData data c t = some t' ∧ Positioned index data cmp contents idx t' k j' := by
  obtain ⟨hhandle, -, w, hw, hat⟩ := h.data_at x hx
  obtain ⟨w', hw', hat'⟩ := hat.of_mapCursorCall hc
  grind [Positioned, TwoLevelIterator.callData]

section

variable (h : At index data cmp contents idx t g) (hblocks : BlocksOk data cmp contents idx blockFunction)

include h hblocks

/-- `Seek` opens the first block that may hold the target, and skips on if it does not. -/
theorem At.seek (hsep : Separated cmp contents idx) (hfuel : idx.length < fuel) (target : Slice) :
    ∃ t', seek index data blockFunction fuel target t = some t' ∧
      At index data cmp contents idx t'
        (Cursor.seek (concatBlocks contents idx) fun e => cmp.compare e.1 target != .lt) := by
  obtain ⟨k₀, hindex⟩ := h.index_at
  obtain ⟨k, hk⟩ : ∃ k, k = Cursor.seek idx fun x => cmp.compare x.1 target != .lt := ⟨_, rfl⟩
  have hmove : mapCursorCall cmp idx k₀ (.seek target) = some k := congrArg some hk.symm
  have hle : k ≤ idx.length := hk ▸ Cursor.seek_le_length idx _
  obtain ⟨hsome, hnone⟩ := seek_concatBlocks hsep target hk
  rw [TwoLevelIterator.seek]
  cases hx : idx[k]? with
  | none =>
    obtain ⟨t₁, henter, hpos⟩ := enterBlock_spec (j := 0) hblocks (.seek target) (.seek target) hindex
      h.dataOk hmove fun x hx' => absurd (hx.symm.trans hx') (by simp)
    rw [henter, hnone hx, ← blockStart_of_le (List.getElem?_eq_none_iff.mp hx)]
    exact skipForward_spec hblocks hpos (fun _ => rfl) (by omega) hle
  | some x =>
    obtain ⟨t₁, henter, hpos⟩ := enterBlock_spec hblocks (.seek target) (.seek target) hindex
      h.dataOk hmove fun y hy => by
        obtain rfl := Option.some.inj (hx.symm.trans hy)
        exact ⟨Cursor.seek_le_length (contents x.2) _, fun _ => rfl⟩
    rw [henter, hsome x hx]
    exact skipForward_spec hblocks hpos (fun hno => absurd (hx.symm.trans hno) (by simp)) (by omega)
      hle

theorem At.seekToFirst (hfuel : idx.length < fuel) :
    ∃ t', seekToFirst index data blockFunction fuel t = some t' ∧
      At index data cmp contents idx t' 0 := by
  obtain ⟨k₀, hindex⟩ := h.index_at
  obtain ⟨t₁, henter, hpos⟩ := enterBlock_spec (k := 0) (j := 0) hblocks .seekToFirst .seekToFirst
    hindex h.dataOk rfl fun _ _ => ⟨Nat.zero_le _, fun _ => rfl⟩
  rw [TwoLevelIterator.seekToFirst, henter]
  exact skipForward_spec hblocks hpos (fun _ => rfl) (by omega) (Nat.zero_le _)

theorem At.seekToLast (hfuel : idx.length < fuel) :
    ∃ t', seekToLast index data blockFunction fuel t = some t' ∧
      At index data cmp contents idx t' (Cursor.seekToLast (concatBlocks contents idx)) := by
  obtain ⟨k₀, hindex⟩ := h.index_at
  rw [TwoLevelIterator.seekToLast]
  cases hx : idx[Cursor.seekToLast idx]? with
  | none =>
    -- there are no blocks
    obtain rfl : idx = [] := by
      have := List.getElem?_eq_none_iff.mp hx
      rw [Cursor.seekToLast] at this
      exact List.eq_nil_of_length_eq_zero (by omega)
    obtain ⟨fuel, rfl⟩ : ∃ f, fuel = f + 1 := ⟨fuel - 1, by omega⟩
    obtain ⟨t₁, henter, hpos⟩ := enterBlock_spec (j := 0) hblocks .seekToLast .seekToLast hindex
      h.dataOk rfl fun x hx' => absurd (hx.symm.trans hx') (by simp)
    have hiv : t₁.indexIter.valid = false :=
      Bool.eq_false_iff.mpr fun hv => absurd (hpos.index_at.valid_iff.mp hv) (Nat.not_lt_zero _)
    rw [henter, Option.bind_some, skipEmptyDataBlocksBackward,
      skipEmptyDataBlocks_of_ended (valid_of_dataIter_none (hpos.data_none hx)) hiv]
    exact ⟨_, rfl, at_setDataIterator_none ⟨_, hpos.index_at⟩⟩
  | some x =>
    have hlt := (List.getElem?_eq_some_iff.mp hx).1
    obtain ⟨t₁, henter, hpos⟩ := enterBlock_spec (j := Cursor.seekToLast (contents x.2)) hblocks
      .seekToLast .seekToLast hindex h.dataOk rfl fun y hy => by
        obtain rfl := Option.some.inj (hx.symm.trans hy)
        exact ⟨Nat.sub_le _ _, fun _ => rfl⟩
    have hlt' : Cursor.seekToLast idx + 1 < fuel := by
      rw [Cursor.seekToLast] at hlt ⊢
      omega
    obtain ⟨t₂, hskip, hat⟩ := skipBackward_spec hblocks hpos hx hlt'
    rw [henter]
    refine ⟨t₂, hskip, ?_⟩
    -- the block is the last one
    have htotal : (concatBlocks contents idx).length =
        blockStart contents idx (Cursor.seekToLast idx) + (contents x.2).length := by
      rw [← blockStart_succ hx, blockStart_of_le]
      rw [Cursor.seekToLast]
      omega
    grind [Cursor.seekToLast, Cursor.prev]

end

section

variable (h : Positioned index data cmp contents idx t k j)
  (hblocks : BlocksOk data cmp contents idx blockFunction) (hfuel : idx.length < fuel)

include h hblocks hfuel

/-- `Next` stays in the block or skips to the next that is not empty. -/
theorem Positioned.next (hx : idx[k]? = some x) (hj : j < (contents x.2).length) :
    ∃ t', next index data blockFunction fuel t = some t' ∧
      At index data cmp contents idx t' (blockStart contents idx k + j + 1) := by
  have hc : mapCursorCall cmp (contents x.2) j .next = some (j + 1) := if_pos hj
  obtain ⟨t₁, hcall, hpos⟩ := h.callData hx hc hj
  rw [TwoLevelIterator.next, hcall, Nat.add_assoc]
  exact skipForward_spec hblocks hpos (fun hno => absurd (hx.symm.trans hno) (by simp)) (by omega)
    (List.getElem?_eq_some_iff.mp hx).1.le

/-- `Prev` skips back. -/
theorem Positioned.prev (hx : idx[k]? = some x) (hj : j < (contents x.2).length) :
    ∃ t', prev index data blockFunction fuel t = some t' ∧
      At index data cmp contents idx t'
        (Cursor.prev (concatBlocks contents idx) (blockStart contents idx k + j)) := by
  have hle : Cursor.prev (contents x.2) j ≤ (contents x.2).length := by
    rw [Cursor.prev]
    split_ifs <;> omega
  have hc : mapCursorCall cmp (contents x.2) j .prev = some (Cursor.prev (contents x.2) j) := if_pos hj
  obtain ⟨t₁, hcall, hpos⟩ := h.callData hx hc hle
  have hlt := (List.getElem?_eq_some_iff.mp hx).1
  obtain ⟨t₂, hskip, hat⟩ := skipBackward_spec hblocks hpos hx (by omega : k + 1 < fuel)
  -- from the first entry of a block the block is left
  grind [TwoLevelIterator.prev, Cursor.prev]

end

/-- **Every call** moves the iterator as it moves a cursor over the concatenation. -/
theorem At.call (h : At index data cmp contents idx t g)
    (hblocks : BlocksOk data cmp contents idx blockFunction) (hsep : Separated cmp contents idx)
    (hfuel : idx.length < fuel) (c : IterCall) :
    Option.Rel (At index data cmp contents idx) ((iterator index data blockFunction fuel).call t c)
      (mapCursorCall cmp (concatBlocks contents idx) g c) := by
  have hsome : ∀ {r : Option (TwoLevelIterator ι δ)} {g : ℕ},
      (∃ t', r = some t' ∧ At index data cmp contents idx t' g) →
      Option.Rel (At index data cmp contents idx) r (some g) := by
    rintro _ g ⟨t', rfl, hat⟩
    exact .some hat
  cases c with
  | seek target => exact hsome (h.seek hblocks hsep hfuel target)
  | seekToFirst => exact hsome (h.seekToFirst hblocks hfuel)
  | seekToLast => exact hsome (h.seekToLast hblocks hfuel)
  | next =>
    change Option.Rel _ (if t.valid then _ else _) _
    rw [mapCursorCall]
    cases hv : t.valid with
    | false =>
      rw [if_neg (by simp), if_neg (by rw [(h.ended hv).2]; exact lt_irrefl _)]
      exact .none
    | true =>
      obtain ⟨k, j, x, hpos, hx, hj, rfl⟩ := h.valid_at hv
      rw [if_pos rfl, if_pos (blockStart_add_lt hx hj)]
      exact hsome (hpos.next hblocks hfuel hx hj)
  | prev =>
    change Option.Rel _ (if t.valid then _ else _) _
    rw [mapCursorCall]
    cases hv : t.valid with
    | false =>
      rw [if_neg (by simp), if_neg (by rw [(h.ended hv).2]; exact lt_irrefl _)]
      exact .none
    | true =>
      obtain ⟨k, j, x, hpos, hx, hj, rfl⟩ := h.valid_at hv
      rw [if_pos rfl, if_pos (blockStart_add_lt hx hj)]
      exact hsome (hpos.prev hblocks hfuel hx hj)

/-! ## Errors of blocks -/

/-- An error of a block is not lost: it is saved, or the data iterator has failed. -/
def HasError (data : Iterator δ) (t : TwoLevelIterator ι δ) : Prop :=
  t.savedStatus.isOk = false ∨ ∃ w, t.dataIter = some w ∧ data.Failed w.iter

/-- Once a bad block was opened there is an error. -/
def Remembers (data : Iterator δ) (bad : Slice → Prop) (t : TwoLevelIterator ι δ) : Prop :=
  (∃ handle ∈ t.opened, bad handle) → HasError data t

variable {bad : Slice → Prop}

theorem saveError_of_saved {status s : Status} (h : status.isOk = false) :
    (saveError status s).isOk = false := by
  rw [saveError, if_neg (by simp [h])]
  exact h

theorem saveError_of_error {status s : Status} (h : s.isOk = false) :
    (saveError status s).isOk = false := by
  grind [saveError]

/-- The status of a block is saved before another one is opened. -/
theorem HasError.setDataIterator (h : HasError data t) (d : Option δ) :
    (setDataIterator data d t).savedStatus.isOk = false := by
  rw [TwoLevelIterator.setDataIterator]
  rcases h with hsaved | ⟨w, hw, hfailed⟩
  · grind [saveError_of_saved]
  · rw [hw]
    exact saveError_of_error hfailed.status

theorem HasError.status (h : HasError data t) : (status index data t).isOk = false := by
  rw [TwoLevelIterator.status]
  split_ifs with hindex
  · exact hindex
  · rcases h with hsaved | ⟨w, hw, hfailed⟩
    · grind
    · grind [Iterator.Failed.status]

theorem Remembers.setDataIterator (h : Remembers data bad t) (d : Option δ) :
    Remembers data bad (setDataIterator data d t) :=
  fun hbad => .inl ((h hbad).setDataIterator d)

/-- A block that fails is remembered when it is opened. -/
theorem Remembers.initDataBlock (hfail : ∀ n handle, bad handle → data.Failed (blockFunction n handle))
    (h : Remembers data bad t) : Remembers data bad (initDataBlock index data blockFunction t) := by
  rw [TwoLevelIterator.initDataBlock]
  dsimp only
  split_ifs
  · exact h
  · rintro ⟨handle, hmem, hbad⟩
    rcases List.mem_append.mp hmem with hold | hnew
    · -- the error stands in the state before, which differs only in the handles
      have herror : HasError data { t with
          dataBlockHandle := t.indexIter.value index
          opened := t.opened ++ [t.indexIter.value index] } := h ⟨handle, hold, hbad⟩
      exact .inl (herror.setDataIterator _)
    · rw [List.mem_singleton] at hnew
      exact .inr ⟨_, rfl, hfail _ _ (hnew ▸ hbad)⟩
  · exact h.setDataIterator none

theorem Remembers.callIndex (h : Remembers data bad t) (hc : callIndex index c t = some t') :
    Remembers data bad t' := by
  obtain ⟨w, -, rfl⟩ := Option.map_eq_some_iff.mp hc
  exact h

theorem Remembers.callData (h : Remembers data bad t)
    (hc : TwoLevelIterator.callData data c t = some t') : Remembers data bad t' := by
  rw [TwoLevelIterator.callData] at hc
  cases hw : t.dataIter with
  | none =>
    rw [hw] at hc
    cases hc
    exact h
  | some w =>
    rw [hw] at hc
    obtain ⟨w', hw', rfl⟩ := Option.map_eq_some_iff.mp hc
    obtain ⟨s, hs, rfl⟩ := Option.map_eq_some_iff.mp hw'
    intro hbad
    rcases h hbad with hsaved | ⟨v, hv, hfailed⟩
    · exact .inl hsaved
    · obtain rfl := Option.some.inj (hw.symm.trans hv)
      exact .inr ⟨_, rfl, hfailed.call hs⟩

section

variable (hfail : ∀ n handle, bad handle → data.Failed (blockFunction n handle)) (h : Remembers data bad t)

include hfail h

theorem Remembers.enterBlock (hc : enterBlock index data blockFunction move enter t = some t') :
    Remembers data bad t' := by
  rw [TwoLevelIterator.enterBlock] at hc
  cases hi : TwoLevelIterator.callIndex index move t with
  | none =>
    rw [hi] at hc
    cases hc
  | some t₁ =>
    rw [hi] at hc
    exact ((h.callIndex hi).initDataBlock hfail).callData hc

theorem Remembers.skipEmptyDataBlocks
    (hc : skipEmptyDataBlocks index data blockFunction move enter fuel t = some t') :
    Remembers data bad t' := by
  induction fuel generalizing t with
  | zero => cases hc
  | succ fuel ih =>
    rw [TwoLevelIterator.skipEmptyDataBlocks] at hc
    split_ifs at hc
    · cases hc
      exact h
    · cases he : TwoLevelIterator.enterBlock index data blockFunction move enter t with
      | none =>
        rw [he] at hc
        cases hc
      | some t₁ =>
        rw [he] at hc
        exact ih (h.enterBlock hfail he) hc
    · cases hc
      exact h.setDataIterator none

/-- **An error is never forgotten.** -/
theorem Remembers.call (hc : (iterator index data blockFunction fuel).call t c = some t') :
    Remembers data bad t' := by
  cases c with
  | seek target | seekToFirst | seekToLast =>
    obtain ⟨t₁, henter, hskip⟩ := Option.bind_eq_some_iff.mp hc
    exact (h.enterBlock hfail henter).skipEmptyDataBlocks hfail hskip
  | next | prev =>
    change (if t.valid then _ else _) = _ at hc
    split_ifs at hc
    obtain ⟨t₁, hcall, hskip⟩ := Option.bind_eq_some_iff.mp hc
    exact (h.callData hcall).skipEmptyDataBlocks hfail hskip

end

/-- A new iterator is at the end. -/
theorem at_new {s : ι} (hindex : index.IsCursor cmp idx s k) :
    At index data cmp contents idx (new index s) (concatBlocks contents idx).length where
  index_at := ⟨k, IteratorWrapper.set_at hindex⟩
  valid_at hv := by cases hv
  ended _ := ⟨rfl, rfl⟩

end TwoLevelIterator

open TwoLevelIterator

/-! ## The result -/

/-- The entries that a block yields: none if it reports an error. -/
def blockEntries (blocks : Slice → Option (List (Slice × Slice))) (handle : Slice) :
    List (Slice × Slice) :=
  (blocks handle).getD []

/-- The block function opens the blocks: it gives a cursor over the entries, and for a block with an error
an iterator that reports it. -/
structure OpensBlocks (data : Iterator δ) (cmp : Comparator)
    (blocks : Slice → Option (List (Slice × Slice))) (idx : List (Slice × Slice))
    (blockFunction : ℕ → Slice → δ) : Prop where
  isCursor : ∀ n, ∀ x ∈ idx, ∃ j, data.IsCursor cmp (blockEntries blocks x.2) (blockFunction n x.2) j
  failed : ∀ n handle, blocks handle = none → data.Failed (blockFunction n handle)

/-- **The two-level iterator `t₀` shows the blocks**: it is a cursor over their entries one after another, and
once a block that reports an error was opened the status is an error. -/
def ShowsBlocks (index : Iterator ι) (data : Iterator δ) (cmp : Comparator)
    (blocks : Slice → Option (List (Slice × Slice))) (idx : List (Slice × Slice))
    (blockFunction : ℕ → Slice → δ) (fuel : ℕ) (t₀ : TwoLevelIterator ι δ) : Prop :=
  (iterator index data blockFunction fuel).IsCursor cmp (concatBlocks (blockEntries blocks) idx) t₀
      (concatBlocks (blockEntries blocks) idx).length ∧
    ∀ calls t, run (iterator index data blockFunction fuel).call t₀ calls = some t →
      (∃ handle ∈ t.opened, blocks handle = none) →
      ((iterator index data blockFunction fuel).status t).isOk = false

/-- An index iterator that is a cursor over separating keys makes the two-level iterator show the blocks. -/
theorem OpensBlocks.showsBlocks {blocks : Slice → Option (List (Slice × Slice))} {s : ι}
    (hblocks : OpensBlocks data cmp blocks idx blockFunction) (hindex : index.IsCursor cmp idx s k)
    (hsep : Separated cmp (blockEntries blocks) idx) (hfuel : idx.length < fuel) :
    ShowsBlocks index data cmp blocks idx blockFunction fuel (new index s) := by
  refine ⟨Iterator.isCursor_of_rel (fun _ _ h => h.shows_eq)
    (fun _ _ c h => h.call hblocks.isCursor hsep hfuel c) (at_new hindex), ?_⟩
  intro calls t hrun hbad
  have hnew : Remembers data (fun handle => blocks handle = none) (new index s) := by
    rintro ⟨handle, hmem, -⟩
    cases hmem
  exact (run_invariant (fun _ _ _ h hc => h.call hblocks.failed hc) hnew hrun hbad).status

end RocketDb
