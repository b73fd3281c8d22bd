import RocketDb.Format.InternalComparator
import RocketDb.Lib.Segments

/-! # Writing blocks (`table/block_builder.cc`)

A `BlockBuilder` stores of each key only what the key before does not have, and from time to time a whole key,
at a restart point.

* **`BlockCell`** — an entry with the number of bytes that it shares; `BlockLayout` says how the entries
  continue each other and where the restart points are.
* **`finish_eq`** — what `Finish` returns after any entries were added, in these terms. -/

namespace RocketDb

open List

/-! ## The builder -/

/-- `BlockBuilder`. -/
structure BlockBuilder where
  buffer : Slice
  restarts : List UInt32
  counter : ℕ
  finished : Bool
  lastKey : Slice
  deriving DecidableEq, Repr

namespace BlockBuilder

/-- A new builder, and what `Reset` makes of one. -/
def new : BlockBuilder := ⟨[], [0], 0, false, []⟩

/-- `BlockBuilder::Add`, with `block_restart_interval`. -/
def add (blockRestartInterval : ℕ) (key value : Slice) (b : BlockBuilder) : BlockBuilder :=
  let sharing := b.counter < blockRestartInterval
  let shared := if sharing then sharedLength b.lastKey key else 0
  let nonShared := key.length - shared
  { b with
    restarts := if sharing then b.restarts else b.restarts ++ [.ofNat b.buffer.length]
    buffer := b.buffer ++ putVarint64 (.ofNat shared) ++ putVarint64 (.ofNat nonShared) ++
      putVarint64 (.ofNat value.length) ++ key.drop shared ++ value
    lastKey := b.lastKey.take shared ++ key.drop shared
    counter := (if sharing then b.counter else 0) + 1 }

/-- `BlockBuilder::Finish`: the builder and the contents of the block. -/
def finish (b : BlockBuilder) : BlockBuilder × Slice :=
  let buffer := b.buffer ++ b.restarts.flatMap encodeFixed32 ++
    encodeFixed32 (.ofNat b.restarts.length)
  ({ b with buffer := buffer, finished := true }, buffer)

/-- Add entries one after another. -/
def addAll (blockRestartInterval : ℕ) (es : List (Slice × Slice)) (b : BlockBuilder) : BlockBuilder :=
  es.foldl (fun b e => b.add blockRestartInterval e.1 e.2) b

end BlockBuilder

/-- The contents of the block with the given entries. -/
def buildBlock (blockRestartInterval : ℕ) (es : List (Slice × Slice)) : Slice :=
  (BlockBuilder.new.addAll blockRestartInterval es).finish.2

/-! ## The layout of a block -/

/-- An entry of a block and how many bytes of its key are not stored. -/
structure BlockCell where
  shared : ℕ
  key : Slice
  value : Slice

namespace BlockCell

/-- The lengths before the entry. -/
def header (c : BlockCell) : Slice :=
  putVarint64 (.ofNat c.shared) ++ putVarint64 (.ofNat (c.key.length - c.shared)) ++
    putVarint64 (.ofNat c.value.length)

/-- The bytes of the entry. -/
def encode (c : BlockCell) : Slice := c.header ++ (c.key.drop c.shared ++ c.value)

/-- The key and the value. -/
def entry (c : BlockCell) : Slice × Slice := (c.key, c.value)

/-- **The cell continues a key**: what it does not store is at the start of that key. -/
structure Continues (c : BlockCell) (last : Slice) : Prop where
  shared_le : c.shared ≤ c.key.length
  shared_le_last : c.shared ≤ last.length
  take_eq : last.take c.shared = c.key.take c.shared

theorem continues_of_shared {c : BlockCell} (h : c.shared = 0) (last : Slice) : c.Continues last :=
  ⟨by omega, by omega, by rw [h]; rfl⟩

theorem Continues.key_eq {c : BlockCell} {last : Slice} (h : c.Continues last) :
    last.take c.shared ++ c.key.drop c.shared = c.key := by
  rw [h.take_eq, take_append_drop]

theorem header_ne_nil (c : BlockCell) : c.header ≠ [] := by
  grind [putVarint64, encodeVarint64, header]

theorem encode_ne_nil (c : BlockCell) : c.encode ≠ [] := by
  simp [encode, c.header_ne_nil]

end BlockCell

/-- The key before cell `i`. -/
def lastKey (cells : List BlockCell) (i : ℕ) : Slice :=
  (((cells.take i).getLast?).map BlockCell.key).getD []

/-- **A layout**: every cell continues the one before it; the cells at the restart points store their keys;
the first restart point is the first cell. -/
structure BlockLayout (cells : List BlockCell) (restarts : List ℕ) : Prop where
  continues : ∀ (i : ℕ) (c : BlockCell), cells[i]? = some c → c.Continues (lastKey cells i)
  restart_zero : restarts[0]? = some 0
  restart_lt : ∀ (j r : ℕ), 0 < j → restarts[j]? = some r → r < cells.length
  shared_eq : ∀ r ∈ restarts, ∀ c : BlockCell, cells[r]? = some c → c.shared = 0

/-- The contents of a block with a layout. -/
def layoutBytes (cells : List BlockCell) (restarts : List ℕ) : Slice :=
  cells.flatMap BlockCell.encode ++
    restarts.flatMap (fun r => encodeFixed32 (.ofNat (Segments.start BlockCell.encode cells r))) ++
    encodeFixed32 (.ofNat restarts.length)

variable {cells : List BlockCell} {restarts : List ℕ} {c : BlockCell} {i : ℕ}

theorem lastKey_append_left (h : i ≤ cells.length) (c : BlockCell) :
    lastKey (cells ++ [c]) i = lastKey cells i := by
  rw [lastKey, take_append_of_le_length h, lastKey]

theorem lastKey_length (cells : List BlockCell) :
    lastKey cells cells.length = (cells.getLast?.map BlockCell.key).getD [] := by
  rw [lastKey, take_length]

theorem lastKey_succ (h : cells[i]? = some c) : lastKey cells (i + 1) = c.key := by
  rw [lastKey, take_add_one, h]
  simp

theorem lastKey_concat (cells : List BlockCell) (c : BlockCell) :
    lastKey (cells ++ [c]) (cells ++ [c]).length = c.key := by
  rw [lastKey_length, getLast?_concat]
  rfl

theorem BlockLayout.restart_le (h : BlockLayout cells restarts) {r : ℕ} (hr : r ∈ restarts) :
    r ≤ cells.length := by
  obtain ⟨j, hj⟩ := getElem?_of_mem hr
  grind [BlockLayout]

theorem getElem?_append_singleton {α : Type*} {xs : List α} {x y : α} {i : ℕ}
    (h : (xs ++ [x])[i]? = some y) : xs[i]? = some y ∨ i = xs.length ∧ y = x := by
  rcases Nat.lt_trichotomy i xs.length with hlt | rfl | hgt
  · rw [getElem?_append_left hlt] at h
    exact .inl h
  · rw [getElem?_concat_length] at h
    exact .inr ⟨rfl, (Option.some.inj h).symm⟩
  · rw [getElem?_eq_none (by simp; omega)] at h
    cases h

theorem BlockLayout.continues_append (h : BlockLayout cells restarts)
    (hc : c.Continues (lastKey cells cells.length)) :
    ∀ (i : ℕ) (c' : BlockCell), (cells ++ [c])[i]? = some c' → c'.Continues (lastKey (cells ++ [c]) i) := by
  grind [lastKey_append_left, BlockLayout]

theorem BlockLayout.append (h : BlockLayout cells restarts)
    (hc : c.Continues (lastKey cells cells.length)) : BlockLayout (cells ++ [c]) restarts where
  continues := h.continues_append hc
  restart_zero := h.restart_zero
  restart_lt j r hj hr := by
    grind [BlockLayout]
  shared_eq r hr c' hc' := by
    rcases getElem?_append_singleton hc' with hold | ⟨rfl, rfl⟩
    · exact h.shared_eq r hr c' hold
    · -- only the first cell is a restart point without being listed anew
      obtain ⟨j, hj⟩ := getElem?_of_mem hr
      grind [BlockLayout, Nat.pos_of_ne_zero, BlockCell.Continues, lastKey]

theorem BlockLayout.append_restart (h : BlockLayout cells restarts) (hc : c.shared = 0) :
    BlockLayout (cells ++ [c]) (restarts ++ [cells.length]) where
  continues := h.continues_append (BlockCell.continues_of_shared hc _)
  restart_zero := by
    grind [BlockLayout]
  restart_lt j r hj hr := by
    grind [BlockLayout]
  shared_eq r hr c' hc' := by
    grind [BlockLayout]

/-! ## What the builder writes -/

/-- **The state of a builder** that was given the entries of some cells. -/
structure Built (b : BlockBuilder) (cells : List BlockCell) (restarts : List ℕ) : Prop where
  layout : BlockLayout cells restarts
  buffer_eq : b.buffer = cells.flatMap BlockCell.encode
  restarts_eq : b.restarts =
    restarts.map fun r => .ofNat (Segments.start BlockCell.encode cells r)
  lastKey_eq : b.lastKey = lastKey cells cells.length

theorem built_new : Built BlockBuilder.new [] [0] where
  layout := by
    refine ⟨fun i c h => ?_, rfl, fun j r hj h => ?_, fun r _ c h => ?_⟩
    · simp at h
    · grind
    · simp at h
  buffer_eq := rfl
  restarts_eq := rfl
  lastKey_eq := rfl

variable {b : BlockBuilder} {interval : ℕ} {key value : Slice}

theorem BlockLayout.map_start_append (h : BlockLayout cells restarts) (c : BlockCell) :
    restarts.map (fun r => UInt32.ofNat (Segments.start BlockCell.encode (cells ++ [c]) r)) =
      restarts.map fun r => .ofNat (Segments.start BlockCell.encode cells r) :=
  map_congr_left fun r hr => by rw [Segments.start_append_left (h.restart_le hr)]

/-- **Adding an entry adds a cell**, which shares what it can unless a new restart point is due. -/
theorem Built.add (h : Built b cells restarts) (key value : Slice) :
    ∃ c restarts', c.entry = (key, value) ∧ Built (b.add interval key value) (cells ++ [c]) restarts' := by
  have hbuffer (c : BlockCell) : b.buffer ++ c.encode = (cells ++ [c]).flatMap BlockCell.encode := by
    rw [h.buffer_eq, flatMap_append, flatMap_singleton]
  by_cases hshare : b.counter < interval
  · -- the entry continues the last key
    obtain ⟨c, hcell⟩ : ∃ c : BlockCell, c = ⟨sharedLength b.lastKey key, key, value⟩ := ⟨_, rfl⟩
    have hc : c.Continues b.lastKey := by
      rw [hcell]
      exact ⟨sharedLength_le_right _ _, sharedLength_le_left _ _, take_sharedLength _ _⟩
    refine ⟨c, restarts, by rw [hcell]; rfl, h.layout.append (h.lastKey_eq ▸ hc), ?_, ?_, ?_⟩
    · grind [BlockBuilder.add, BlockCell.encode, BlockCell.header]
    · rw [h.layout.map_start_append c, ← h.restarts_eq]
      simp only [BlockBuilder.add, if_pos hshare]
    · rw [lastKey_concat, ← hc.key_eq, hcell]
      simp only [BlockBuilder.add, if_pos hshare]
  · -- the entry is a new restart point
    refine ⟨⟨0, key, value⟩, restarts ++ [cells.length], rfl, h.layout.append_restart rfl, ?_, ?_, ?_⟩
    · rw [← hbuffer]
      simp [BlockBuilder.add, if_neg hshare, BlockCell.encode, BlockCell.header]
    · rw [map_append, h.layout.map_start_append, ← h.restarts_eq, map_singleton,
        Segments.start_append_left le_rfl, Segments.start_of_le le_rfl, ← h.buffer_eq]
      simp only [BlockBuilder.add, if_neg hshare]
    · rw [lastKey_concat]
      simp [BlockBuilder.add, if_neg hshare]

theorem Built.addAll (h : Built b cells restarts) (es : List (Slice × Slice)) :
    ∃ more restarts', more.map BlockCell.entry = es ∧
      Built (b.addAll interval es) (cells ++ more) restarts' := by
  induction es generalizing b cells restarts with
  | nil => exact ⟨[], restarts, rfl, by rwa [append_nil]⟩
  | cons e es ih =>
    obtain ⟨c, restarts₁, hc, h₁⟩ := h.add e.1 e.2
    obtain ⟨more, restarts₂, hmore, h₂⟩ := ih h₁
    refine ⟨c :: more, restarts₂, ?_, ?_⟩
    · rw [map_cons, hc, hmore]
    · rw [append_cons]
      exact h₂

theorem Built.finish_eq (h : Built b cells restarts) : b.finish.2 = layoutBytes cells restarts := by
  rw [BlockBuilder.finish, layoutBytes, h.buffer_eq, h.restarts_eq, flatMap_map, length_map]

/-- **What `Finish` returns** is the contents of a layout of the entries. -/
theorem buildBlock_eq (es : List (Slice × Slice)) :
    ∃ cells restarts, cells.map BlockCell.entry = es ∧ BlockLayout cells restarts ∧
      buildBlock interval es = layoutBytes cells restarts := by
  obtain ⟨cells, restarts, hes, hbuilt⟩ := built_new.addAll es
  exact ⟨cells, restarts, hes, hbuilt.layout, hbuilt.finish_eq⟩

end RocketDb
