import RocketDb.Iterator.Interface
import RocketDb.Table.Format

/-! # Blocks and their iterator (`table/block.cc`)

A block is an area of entries, followed by the offsets of some of them, the *restart points*, and their
number. An entry holds three lengths as varints, the part of its key that the key before does not have, and
its value.

* **`Block.new`** — the constructor: where the entry area ends.
* **`decodeEntry`** — the lengths of an entry and where its key starts.
* **`Block.iterator`** — what `NewIterator` returns. Loops run on fuel.

32-bit sums that can wrap are reduced as in the source. For the proofs, the state of an iterator also records
where the stored part of the current key is, and which entries the last call has decoded. -/

namespace RocketDb

/-! ## Blocks -/

/-- `Block`. -/
structure Block where
  data : Slice
  /-- `size_`, with 0 as error marker. -/
  size : ℕ
  /-- `restart_offset_`, a 32-bit number. -/
  restartOffset : ℕ

/-- `Block::NumRestarts`. -/
def Block.numRestarts (b : Block) : ℕ := (decodeFixed32 (b.data.drop (b.size - 4))).toNat

/-- `Block::Block`. -/
def Block.new (contents : Slice) : Block :=
  let b : Block := ⟨contents, contents.length, 0⟩
  if b.size < 4 then { b with size := 0 }
  else
    let maxRestartsAllowed := (b.size - 4) / 4
    if maxRestartsAllowed < b.numRestarts then { b with size := 0 }
    else { b with restartOffset := (b.size - (1 + b.numRestarts) % 2 ^ 32 * 4) % 2 ^ 32 }

/-- The bytes between `data_` and `data_ + restart_offset_`. -/
def Block.entryArea (b : Block) : Slice := b.data.take b.restartOffset

/-! ## Entries -/

/-- What `DecodeEntry` returns: the lengths, and the offset at which the key starts. -/
structure DecodedEntry where
  shared : UInt32
  nonShared : UInt32
  valueLength : UInt32
  p : ℕ
  deriving DecidableEq, Repr

/-- `DecodeEntry` of the entry at `offset`, with the end of `area` as limit. The lengths are added as 32-bit
numbers. -/
def decodeEntry (area : Slice) (offset : ℕ) : Option DecodedEntry :=
  match decodeLengths (area.drop offset) with
  | none => none
  | some h =>
    if UInt32.ofNat h.rest.length < h.nonShared + h.valueLength then none
    else some ⟨h.shared, h.nonShared, h.valueLength, area.length - h.rest.length⟩

/-! ## The iterator -/

/-- The state of a `Block::Iter`. -/
structure BlockIter where
  current : ℕ
  restartIndex : ℕ
  key : Slice
  /-- `value_`, by its offset from `data_`. -/
  value : Extent
  status : Status
  /-- A record for the proofs: the part of the block that the end of the key was copied from. -/
  keyDelta : Extent
  /-- A record for the proofs: the offsets of the entries that the last call has decoded, each with the
  length of the key it continues. -/
  decoded : List (ℕ × ℕ)
  deriving DecidableEq, Repr

/-- Note that an entry is decoded. -/
def BlockIter.note (it : BlockIter) (offset keyLength : ℕ) : BlockIter :=
  { it with decoded := it.decoded ++ [(offset, keyLength)] }

namespace Block

variable (b : Block)

/-- The bytes of a part of the block. -/
def bytesAt (x : Extent) : Slice := (b.data.drop x.ptr).take x.size

/-- A new `Block::Iter`. -/
def newIter : BlockIter := ⟨b.restartOffset, b.numRestarts, [], ⟨0, 0⟩, .ok, ⟨0, 0⟩, []⟩

/-- `Valid()`. -/
def valid (it : BlockIter) : Bool := decide (it.current < b.restartOffset)

/-- `NextEntryOffset`. -/
def nextEntryOffset (it : BlockIter) : ℕ := (it.value.ptr + it.value.size) % 2 ^ 32

/-- `GetRestartPoint`. -/
def getRestartPoint (index : ℕ) : ℕ := (decodeFixed32 (b.data.drop (b.restartOffset + index * 4))).toNat

/-- `SeekToRestartPoint`. -/
def seekToRestartPoint (index : ℕ) (it : BlockIter) : BlockIter :=
  { it with key := [], restartIndex := index, value := ⟨b.getRestartPoint index, 0⟩ }

/-- The position that is not valid. -/
def invalidate (it : BlockIter) : BlockIter :=
  { it with current := b.restartOffset, restartIndex := b.numRestarts }

/-- `CorruptionError`. The cleared value points nowhere; its offset is not used again. -/
def corruptionError (it : BlockIter) : BlockIter :=
  { b.invalidate it with status := .corruption (ascii "bad entry in block") [], key := [], value := ⟨0, 0⟩ }

/-- The loop of `ParseNextKey` that moves the restart index up to the current entry. -/
def advanceRestart (current : ℕ) : ℕ → ℕ → Option ℕ
  | 0, _ => none
  | fuel + 1, r =>
    if r + 1 < b.numRestarts ∧ b.getRestartPoint (r + 1) < current then
      advanceRestart current fuel (r + 1)
    else some r

/-- The end of `ParseNextKey`: take over the entry. -/
def readEntry (current : ℕ) (e : DecodedEntry) (r : ℕ) (it : BlockIter) : BlockIter :=
  let keyDelta : Extent := ⟨e.p, e.nonShared.toNat⟩
  { it.note current it.key.length with
    current := current
    restartIndex := r
    key := it.key.take e.shared.toNat ++ b.bytesAt keyDelta
    value := ⟨e.p + e.nonShared.toNat, e.valueLength.toNat⟩
    keyDelta := keyDelta }

/-- `ParseNextKey`: whether it succeeded, and the state. -/
def parseNextKey (fuel : ℕ) (it : BlockIter) : Option (Bool × BlockIter) :=
  let current := nextEntryOffset it
  if b.restartOffset ≤ current then some (false, b.invalidate it)
  else
    match decodeEntry b.entryArea current with
    | none => some (false, b.corruptionError (it.note current it.key.length))
    | some e =>
      if it.key.length < e.shared.toNat then
        some (false, b.corruptionError (it.note current it.key.length))
      else
        (b.advanceRestart current fuel it.restartIndex).map fun r => (true, b.readEntry current e r it)

/-- The loops `while (ParseNextKey() && cond)`. -/
def scanWhile (fuel : ℕ) (cond : BlockIter → Bool) : ℕ → BlockIter → Option BlockIter
  | 0, _ => none
  | n + 1, it =>
    match b.parseNextKey fuel it with
    | none => none
    | some (ok, it) => if ok = true ∧ cond it = true then scanWhile fuel cond n it else some it

/-- The first loop of `Prev`: the last restart point before `original`, from `r` down. -/
def restartBefore (original : ℕ) : ℕ → ℕ → Option (Option ℕ)
  | 0, _ => none
  | fuel + 1, r =>
    if original ≤ b.getRestartPoint r then
      if r = 0 then some none else restartBefore original fuel (r - 1)
    else some (some r)

variable (cmp : Comparator)

/-- The binary search of `Seek` over the restart points; `none` as answer if an entry is bad. -/
def searchRestart (target : Slice) : ℕ → ℕ → ℕ → BlockIter → Option (BlockIter × Option ℕ)
  | 0, _, _, _ => none
  | fuel + 1, left, right, it =>
    if left < right then
      let mid := (left + right + 1) % 2 ^ 32 / 2
      let regionOffset := b.getRestartPoint mid
      let it := it.note regionOffset 0
      match decodeEntry b.entryArea regionOffset with
      | none => some (b.corruptionError it, none)
      | some e =>
        if e.shared ≠ 0 then some (b.corruptionError it, none)
        else if cmp.compare (b.bytesAt ⟨e.p, e.nonShared.toNat⟩) target = .lt then
          searchRestart target fuel mid right it
        else searchRestart target fuel left ((mid + (2 ^ 32 - 1)) % 2 ^ 32) it
    else some (it, some left)

variable (fuel : ℕ)

/-- `Seek` after the comparison with the current key, which gave `order` if there is one. -/
def seekFrom (target : Slice) (order : Option Ordering) (left right : ℕ) (it : BlockIter) :
    Option BlockIter :=
  match b.searchRestart cmp target fuel left right it with
  | none => none
  | some (it, none) => some it
  | some (it, some left) =>
    let skipSeek := left = it.restartIndex ∧ order = some .lt
    b.scanWhile fuel (fun it => cmp.compare it.key target == .lt) fuel
      (if skipSeek then it else b.seekToRestartPoint left it)

/-- `Seek`. -/
def seek (target : Slice) (it : BlockIter) : Option BlockIter :=
  if b.valid it then
    match cmp.compare it.key target with
    | .lt => b.seekFrom cmp fuel target (some .lt) it.restartIndex (b.numRestarts - 1) it
    | .gt => b.seekFrom cmp fuel target (some .gt) 0 it.restartIndex it
    | .eq => some it
  else b.seekFrom cmp fuel target none 0 (b.numRestarts - 1) it

/-- `SeekToFirst`. -/
def seekToFirst (it : BlockIter) : Option BlockIter :=
  (b.parseNextKey fuel (b.seekToRestartPoint 0 it)).map Prod.snd

/-- `SeekToLast`. -/
def seekToLast (it : BlockIter) : Option BlockIter :=
  b.scanWhile fuel (fun it => nextEntryOffset it < b.restartOffset) fuel
    (b.seekToRestartPoint (b.numRestarts - 1) it)

/-- `Next`. -/
def next (it : BlockIter) : Option BlockIter := (b.parseNextKey fuel it).map Prod.snd

/-- `Prev`. -/
def prev (it : BlockIter) : Option BlockIter :=
  let original := it.current
  match b.restartBefore original fuel it.restartIndex with
  | none => none
  | some none => some (b.invalidate it)
  | some (some r) =>
    b.scanWhile fuel (fun it => nextEntryOffset it < original) fuel (b.seekToRestartPoint r it)

/-- `Block::Iter` as an iterator. -/
def iter : Iterator BlockIter where
  call it c :=
    let it := { it with decoded := [] }
    match c with
    | .seek target => b.seek cmp fuel target it
    | .seekToFirst => b.seekToFirst fuel it
    | .seekToLast => b.seekToLast fuel it
    | .next => if b.valid it then b.next fuel it else none
    | .prev => if b.valid it then b.prev fuel it else none
  valid := b.valid
  key it := it.key
  value it := b.bytesAt it.value
  status it := it.status

section

variable {b cmp fuel} {it : BlockIter}

theorem iter_call_next (hv : b.valid it = true) :
    (b.iter cmp fuel).call it .next = b.next fuel { it with decoded := [] } := if_pos hv

theorem iter_call_prev (hv : b.valid it = true) :
    (b.iter cmp fuel).call it .prev = b.prev fuel { it with decoded := [] } := if_pos hv

theorem iter_call_of_invalid (hv : b.valid it = false) {c : IterCall} (hc : c.needsValid = true) :
    (b.iter cmp fuel).call it c = none := by
  cases c with
  | seek target => cases hc
  | seekToFirst => cases hc
  | seekToLast => cases hc
  | next => exact if_neg (Bool.eq_false_iff.mp hv)
  | prev => exact if_neg (Bool.eq_false_iff.mp hv)

end

/-- The iterators of blocks: an empty one with a status, or a `Block::Iter`. -/
def iterator : Iterator (Status ⊕ BlockIter) := emptyIterator.sum (b.iter cmp fuel)

/-- `Block::NewIterator`. -/
def newIterator : Status ⊕ BlockIter :=
  if b.size < 4 then .inl (.corruption (ascii "bad clock contents") [])
  else if b.numRestarts = 0 then .inl .ok
  else .inr b.newIter

end Block

end RocketDb
