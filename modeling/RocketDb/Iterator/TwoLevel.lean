import RocketDb.Iterator.Interface
import RocketDb.Lib.Segments

/-! # The two-level iterator (`table/two_level_iterator.cc`)

An index iterator yields handles, and a block function turns a handle into an iterator over a block; blocks
without entries are skipped. So tables are walked over, whose index holds block handles, and whole levels.

* **`TwoLevelIterator.iterator`** — the iterator. The loops that skip blocks run on fuel.
* **`concatBlocks`**, **`blockStart`** — the blocks one after another, and where each starts.
* **`Separated`** — each index key bounds its block from above and all later blocks from below;
  `AdjacentSeparated` asks for the next block only, which is the same for index keys in order. -/

namespace RocketDb

open Transition List

variable {ι δ : Type*}

/-! ## The iterator -/

/-- The state of a `TwoLevelIterator`. -/
structure TwoLevelIterator (ι δ : Type*) where
  indexIter : IteratorWrapper ι
  /-- `data_iter_`, none for a null pointer. -/
  dataIter : Option (IteratorWrapper δ)
  /-- `status_`. -/
  savedStatus : Status
  dataBlockHandle : Slice
  /-- A record for the proofs: the handles that the block function was called with. -/
  opened : List Slice

namespace TwoLevelIterator

section Methods

variable (index : Iterator ι) (data : Iterator δ) (blockFunction : ℕ → Slice → δ)

/-- A new iterator over an index. -/
def new (s : ι) : TwoLevelIterator ι δ := ⟨.set index s, none, .ok, [], []⟩

/-- `TwoLevelIterator::SaveError`. -/
def saveError (status s : Status) : Status :=
  if status.isOk = true ∧ s.isOk = false then s else status

/-- `TwoLevelIterator::SetDataIterator`. -/
def setDataIterator (dataIter : Option δ) (t : TwoLevelIterator ι δ) : TwoLevelIterator ι δ :=
  { t with
    savedStatus :=
      match t.dataIter with
      | none => t.savedStatus
      | some w => saveError t.savedStatus (data.status w.iter)
    dataIter := dataIter.map (.set data) }

/-- `TwoLevelIterator::InitDataBlock`. The result of the block function may depend on how often it was
called before. -/
def initDataBlock (t : TwoLevelIterator ι δ) : TwoLevelIterator ι δ :=
  if t.indexIter.valid then
    let handle := t.indexIter.value index
    if t.dataIter.isSome = true ∧ handle = t.dataBlockHandle then t
    else
      setDataIterator data (some (blockFunction t.opened.length handle))
        { t with dataBlockHandle := handle, opened := t.opened ++ [handle] }
  else setDataIterator data none t

/-- A call on the index iterator. -/
def callIndex (c : IterCall) (t : TwoLevelIterator ι δ) : Option (TwoLevelIterator ι δ) :=
  (t.indexIter.call index c).map fun w => { t with indexIter := w }

/-- A call on the data iterator, if there is one. -/
def callData (c : IterCall) (t : TwoLevelIterator ι δ) : Option (TwoLevelIterator ι δ) :=
  match t.dataIter with
  | none => some t
  | some w => (w.call data c).map fun w => { t with dataIter := some w }

/-- `Valid()`: there is a data iterator and it is valid. -/
def valid (t : TwoLevelIterator ι δ) : Bool := t.dataIter.any IteratorWrapper.valid

/-- Move the index, set up the block it leads to and enter it. -/
def enterBlock (move enter : IterCall) (t : TwoLevelIterator ι δ) : Option (TwoLevelIterator ι δ) :=
  match callIndex index move t with
  | none => none
  | some t => callData data enter (initDataBlock index data blockFunction t)

/-- The loops that skip blocks: go on to another block until the data iterator is valid or the index
iterator is not. -/
def skipEmptyDataBlocks (move enter : IterCall) :
    ℕ → TwoLevelIterator ι δ → Option (TwoLevelIterator ι δ)
  | 0, _ => none
  | fuel + 1, t =>
    if t.valid then some t
    else if t.indexIter.valid then
      match enterBlock index data blockFunction move enter t with
      | none => none
      | some t => skipEmptyDataBlocks move enter fuel t
    else some (setDataIterator data none t)

/-- `TwoLevelIterator::SkipEmptyDataBlocksForward`. -/
def skipEmptyDataBlocksForward : ℕ → TwoLevelIterator ι δ → Option (TwoLevelIterator ι δ) :=
  skipEmptyDataBlocks index data blockFunction .next .seekToFirst

/-- `TwoLevelIterator::SkipEmptyDataBlocksBackward`. -/
def skipEmptyDataBlocksBackward : ℕ → TwoLevelIterator ι δ → Option (TwoLevelIterator ι δ) :=
  skipEmptyDataBlocks index data blockFunction .prev .seekToLast

variable (fuel : ℕ)

/-- `TwoLevelIterator::Seek`. -/
def seek (target : Slice) (t : TwoLevelIterator ι δ) : Option (TwoLevelIterator ι δ) :=
  (enterBlock index data blockFunction (.seek target) (.seek target) t).bind
    (skipEmptyDataBlocksForward index data blockFunction fuel)

/-- `TwoLevelIterator::SeekToFirst`. -/
def seekToFirst (t : TwoLevelIterator ι δ) : Option (TwoLevelIterator ι δ) :=
  (enterBlock index data blockFunction .seekToFirst .seekToFirst t).bind
    (skipEmptyDataBlocksForward index data blockFunction fuel)

/-- `TwoLevelIterator::SeekToLast`. -/
def seekToLast (t : TwoLevelIterator ι δ) : Option (TwoLevelIterator ι δ) :=
  (enterBlock index data blockFunction .seekToLast .seekToLast t).bind
    (skipEmptyDataBlocksBackward index data blockFunction fuel)

/-- `TwoLevelIterator::Next`. -/
def next (t : TwoLevelIterator ι δ) : Option (TwoLevelIterator ι δ) :=
  (callData data .next t).bind (skipEmptyDataBlocksForward index data blockFunction fuel)

/-- `TwoLevelIterator::Prev`. -/
def prev (t : TwoLevelIterator ι δ) : Option (TwoLevelIterator ι δ) :=
  (callData data .prev t).bind (skipEmptyDataBlocksBackward index data blockFunction fuel)

/-- `TwoLevelIterator::status`. -/
def status (t : TwoLevelIterator ι δ) : Status :=
  if (index.status t.indexIter.iter).isOk = false then index.status t.indexIter.iter
  else
    match t.dataIter with
    | none => t.savedStatus
    | some w => if (data.status w.iter).isOk = false then data.status w.iter else t.savedStatus

/-- `TwoLevelIterator` as an iterator. -/
def iterator : Iterator (TwoLevelIterator ι δ) where
  call t
    | .seek target => seek index data blockFunction fuel target t
    | .seekToFirst => seekToFirst index data blockFunction fuel t
    | .seekToLast => seekToLast index data blockFunction fuel t
    | .next => if t.valid then next index data blockFunction fuel t else none
    | .prev => if t.valid then prev index data blockFunction fuel t else none
  valid := valid
  key t := (t.dataIter.map IteratorWrapper.key).getD []
  value t := (t.dataIter.map (IteratorWrapper.value data)).getD []
  status := status index data

end Methods

end TwoLevelIterator

/-! ## Positions in the blocks -/

/-- The entries of all blocks, one after another: `idx` holds index keys and handles, `contents` the
entries of a block. -/
def concatBlocks (contents : Slice → List (Slice × Slice)) (idx : List (Slice × Slice)) :
    List (Slice × Slice) :=
  idx.flatMap fun x => contents x.2

/-- Where block `k` starts in the concatenation. -/
def blockStart (contents : Slice → List (Slice × Slice)) (idx : List (Slice × Slice)) (k : ℕ) : ℕ :=
  Segments.start (fun x => contents x.2) idx k

/-- **Each index key separates**: no key of its block is after it, and every key of a later block is. -/
def Separated (cmp : Comparator) (contents : Slice → List (Slice × Slice)) (idx : List (Slice × Slice)) :
    Prop :=
  (∀ x ∈ idx, ∀ e ∈ contents x.2, cmp.compare e.1 x.1 ≠ .gt) ∧
    idx.Pairwise fun x y => ∀ e ∈ contents y.2, cmp.compare x.1 e.1 = .lt

/-- Each index key bounds its block from above and the next block from below. -/
def AdjacentSeparated (cmp : Comparator) (contents : Slice → List (Slice × Slice))
    (idx : List (Slice × Slice)) : Prop :=
  (∀ x ∈ idx, ∀ e ∈ contents x.2, cmp.compare e.1 x.1 ≠ .gt) ∧
    idx.IsChain fun x y => ∀ e ∈ contents y.2, cmp.compare x.1 e.1 = .lt

variable {cmp : Comparator} {contents : Slice → List (Slice × Slice)} {idx : List (Slice × Slice)}
  {x : Slice × Slice} {k j : ℕ}

/-- With index keys in order, a key that is after the index key of the block before is after all earlier
ones. -/
theorem AdjacentSeparated.separated (h : AdjacentSeparated cmp contents idx)
    (hsorted : idx.Pairwise fun x y => cmp.compare x.1 y.1 = .lt) : Separated cmp contents idx := by
  refine ⟨h.1, ?_⟩
  obtain ⟨-, hchain⟩ := h
  induction hchain with
  | nil => exact .nil
  | singleton x => exact pairwise_singleton _ _
  | cons_cons hxy hrest ih =>
    rename_i x y rest
    obtain ⟨hbefore, hsorted⟩ := pairwise_cons.mp hsorted
    have hy := pairwise_cons.mp (ih hsorted)
    refine pairwise_cons.mpr ⟨fun z hz e he => ?_, ih hsorted⟩
    rcases mem_cons.mp hz with rfl | hz
    · exact hxy e he
    · exact Std.TransCmp.lt_trans (hbefore y mem_cons_self) (hy.1 z hz e he)

@[simp] theorem blockStart_zero : blockStart contents idx 0 = 0 := rfl

theorem blockStart_succ (hx : idx[k]? = some x) :
    blockStart contents idx (k + 1) = blockStart contents idx k + (contents x.2).length :=
  Segments.start_succ hx

theorem blockStart_of_le (h : idx.length ≤ k) :
    blockStart contents idx k = (concatBlocks contents idx).length :=
  Segments.start_of_le h

theorem getElem?_concatBlocks (hx : idx[k]? = some x) (hj : j < (contents x.2).length) :
    (concatBlocks contents idx)[blockStart contents idx k + j]? = (contents x.2)[j]? :=
  Segments.getElem?_start_add (f := fun x => contents x.2) hx hj

theorem blockStart_add_lt (hx : idx[k]? = some x) (hj : j < (contents x.2).length) :
    blockStart contents idx k + j < (concatBlocks contents idx).length :=
  Segments.start_add_lt (f := fun x => contents x.2) hx hj

/-- **Seeking by the index, then in the block**, is seeking in the concatenation. -/
theorem seek_concatBlocks (hsep : Separated cmp contents idx) (target : Slice) {k : ℕ}
    (hk : k = Cursor.seek idx fun x => cmp.compare x.1 target != .lt) :
    (∀ x, idx[k]? = some x →
      Cursor.seek (concatBlocks contents idx) (fun e => cmp.compare e.1 target != .lt) =
        blockStart contents idx k +
          Cursor.seek (contents x.2) fun e => cmp.compare e.1 target != .lt) ∧
    (idx[k]? = none →
      Cursor.seek (concatBlocks contents idx) (fun e => cmp.compare e.1 target != .lt) =
        (concatBlocks contents idx).length) := by
  -- the blocks before `k` end before the target
  have hfront : ∀ e ∈ concatBlocks contents (idx.take k),
      (cmp.compare e.1 target != .lt) = false := by
    intro e he
    obtain ⟨y, hy, he⟩ := mem_flatMap.mp he
    obtain ⟨i, hi⟩ := getElem?_of_mem hy
    rw [getElem?_take] at hi
    split at hi
    · rename_i hik
      have hlt := Cursor.not_of_lt_seek (hk ▸ hik) hi
      rw [bne_eq_false_iff_eq] at hlt ⊢
      exact Comparator.lt_of_le_of_lt (hsep.1 y (mem_of_getElem? hi) e he) hlt
    · cases hi
  constructor
  · intro x hx
    have hge : cmp.compare x.1 target ≠ .lt := by
      have := Cursor.of_seek (hk ▸ hx)
      simpa using this
    have hback : ∀ e ∈ concatBlocks contents (idx.drop (k + 1)),
        (cmp.compare e.1 target != .lt) = true := by
      intro e he
      obtain ⟨y, hy, he⟩ := mem_flatMap.mp he
      obtain ⟨hk', rfl⟩ := List.getElem?_eq_some_iff.mp hx
      have hpair := hsep.2
      rw [← take_append_drop k idx, drop_eq_getElem_cons hk'] at hpair
      have hlt := (pairwise_cons.mp (pairwise_append.mp hpair).2.1).1 y hy e he
      rw [bne_iff_ne]
      intro hlt'
      exact hge (Std.TransCmp.lt_trans hlt hlt')
    have hsplit : concatBlocks contents idx = concatBlocks contents (idx.take k) ++
        (contents x.2 ++ concatBlocks contents (idx.drop (k + 1))) := Segments.flatMap_split hx
    rw [hsplit, Cursor.seek, findIdx_append,
      findIdx_eq_length_of_false hfront, if_neg (lt_irrefl _), findIdx_append]
    rw [Cursor.seek, Nat.add_comm, blockStart, Segments.start, concatBlocks]
    split_ifs with hin
    · rfl
    · have hlen : (contents x.2).findIdx (fun e => cmp.compare e.1 target != .lt) =
          (contents x.2).length := le_antisymm findIdx_le_length (not_lt.mp hin)
      rw [hlen]
      cases hrest : concatBlocks contents (idx.drop (k + 1)) with
      | nil => simp
      | cons e es =>
        grind
  · intro hnone
    have htake : idx.take k = idx := take_of_length_le (List.getElem?_eq_none_iff.mp hnone)
    rw [htake] at hfront
    rw [Cursor.seek, findIdx_eq_length_of_false hfront]

end RocketDb
