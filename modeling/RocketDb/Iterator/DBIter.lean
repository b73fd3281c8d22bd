import RocketDb.Format.Coding
import RocketDb.Format.View
import RocketDb.Iterator.Interface
import RocketDb.Iterator.ReadSampling

/-! # The database iterator (`db/db_iter.cc`)

`DBIter` shows the newest visible value of each user key. Going forward the internal cursor stands on the
entry shown; going backward it stands before all entries of the key shown, whose value is saved. After
`max_sequential_skip_` steps over entries of one user key the iterator seeks instead of stepping. The internal
cursor is a position in the list of all internal entries, without errors. `ParseKey` samples what is read, and
its loop may draw periods for ever; here it may make `draws` of them.

* **`DBIter.call`** — one call of the interface, if it returns. The loops of the iterator run on fuel, and the
  refinement theorem shows that it never runs out. -/

namespace RocketDb

/-- The state of a `DBIter`: the position of `iter_` and its own fields. -/
structure DBIter where
  pos : ℕ
  direction : Direction
  valid : Bool
  savedKey : Slice
  savedValue : Slice
  /-- `status_.ok()`. -/
  statusOk : Bool
  /-- `rnd_` and `bytes_until_read_sampling_`; `none` once a `ParseKey` has not returned. -/
  sampler : Option ReadSampler
  deriving DecidableEq, Repr

section Iterator

variable (ucmp : Comparator) (es : List Entry) (s maxSkip draws : ℕ)

/-- A new iterator, over a cursor that is not positioned. -/
def DBIter.new (seed : UInt32) : DBIter :=
  ⟨es.length, .kForward, false, [], [], true, some (.new seed)⟩

/-- The sampling of `DBIter::ParseKey` at an entry. -/
def DBIter.parseKey (it : DBIter) (e : Entry) : DBIter :=
  { it with sampler := it.sampler.bind fun t => t.parseKey draws e }

/-- `iter_->Seek`. -/
def seekTarget (target : InternalKey) : ℕ :=
  Cursor.seek es fun e => internalCompare ucmp e.key target != .lt

/-- `DBIter::SeekBeforeUserKey`: the last entry of a smaller user key. -/
def seekBeforeUserKey (userKey : Slice) : ℕ :=
  let pos := seekTarget ucmp es (.ofParts userKey kMaxSequenceNumber kValueTypeForSeek)
  if pos < es.length then Cursor.prev es pos else Cursor.seekToLast es

/-! ## Forward -/

/-- The local variables of `FindNextUserEntry`. -/
structure NextLoop where
  skipping : Bool
  countedKey : Option Slice
  skipped : ℕ
  soughtSnapshot : Bool
  soughtPastKey : Bool

/-- The variables on entry. -/
def NextLoop.init (skipping : Bool) : NextLoop := ⟨skipping, none, 0, false, false⟩

/-- A new user key starts a new count. -/
def NextLoop.enterKey (st : NextLoop) (userKey : Slice) : NextLoop :=
  let same : Bool := match st.countedKey with
    | none => false
    | some k => ucmp.compare userKey k == .eq
  if maxSkip ≠ 0 ∧ same = false then ⟨st.skipping, some userKey, 0, false, false⟩ else st

/-- The end of an iteration of `FindNextUserEntry` that did not return: seek if too many entries of
the key were skipped, step otherwise. -/
def advance (it : DBIter) (st : NextLoop) (e : Entry) (userKey : Slice) : DBIter × NextLoop :=
  let step := { it with pos := it.pos + 1 }
  if maxSkip = 0 then (step, st)
  else
    let skipped := if st.skipped < maxSkip then st.skipped + 1 else st.skipped
    let skipCurrentKey := st.skipping && ucmp.compare userKey it.savedKey != .gt
    let sought := if skipCurrentKey then st.soughtPastKey else st.soughtSnapshot
    if maxSkip ≤ skipped ∧ sought = false then
      let st := if skipCurrentKey then { st with soughtPastKey := true }
        else { st with soughtSnapshot := true }
      let target := InternalKey.ofParts (st.countedKey.getD []) (if skipCurrentKey then 0 else s)
        (if skipCurrentKey then .kTypeDeletion else kValueTypeForSeek)
      -- never seek backward or to the same key again
      if internalCompare ucmp e.key target = .lt then
        ({ it with pos := seekTarget ucmp es target }, { st with skipped := 0 })
      else (step, { st with skipped := skipped })
    else (step, { st with skipped := skipped })

/-- One iteration of `FindNextUserEntry`: return with the current entry, or go on. -/
def findNextStep (it : DBIter) (st : NextLoop) (e : Entry) : DBIter ⊕ (DBIter × NextLoop) :=
  match parseInternalKey e.key with
  | none => .inr ({ it with pos := it.pos + 1, statusOk := false }, { st with countedKey := none })
  | some ikey =>
    let st := st.enterKey ucmp maxSkip ikey.userKey
    if ikey.sequence ≤ s then
      match ikey.type with
      | .kTypeDeletion =>
        .inr (advance ucmp es s maxSkip { it with savedKey := ikey.userKey }
          { st with skipping := true } e ikey.userKey)
      | .kTypeValue =>
        if st.skipping && ucmp.compare ikey.userKey it.savedKey != .gt then
          .inr (advance ucmp es s maxSkip it st e ikey.userKey)
        else .inl { it with valid := true, savedKey := [] }
    else .inr (advance ucmp es s maxSkip it st e ikey.userKey)

/-- The loop of `FindNextUserEntry`. -/
def findNextLoop : ℕ → DBIter → NextLoop → Option DBIter
  | 0, _, _ => none
  | fuel + 1, it, st =>
    match es[it.pos]? with
    | none => some { it with savedKey := [], valid := false }
    | some e =>
      match findNextStep ucmp es s maxSkip (it.parseKey draws e) st e with
      | .inl it => some it
      | .inr (it, st) => findNextLoop fuel it st

/-- **`DBIter::FindNextUserEntry`**, with `&saved_key_` as its second argument. -/
def findNextUserEntry (skipping : Bool) (it : DBIter) : Option DBIter :=
  findNextLoop ucmp es s maxSkip draws (es.length + 1) it (.init skipping)

/-! ## Backward -/

/-- The local variables of `FindPrevUserEntry`. -/
structure PrevLoop where
  valueType : ValueType
  countedKey : Option Slice
  skipped : ℕ

/-- The first half of `FindValueForCurrentKeyUsingSeek`: seek to the snapshot's version of the key and
save it if it is a value. -/
def saveSnapshotValue (it : DBIter) (userKey : Slice) : Bool × DBIter :=
  let it := { it with pos := seekTarget ucmp es (.ofParts userKey s kValueTypeForSeek) }
  match es[it.pos]? with
  | none => (false, it)
  | some e =>
    let it := it.parseKey draws e
    match parseInternalKey e.key with
    | none => (false, { it with statusOk := false })
    | some ikey =>
      if ikey.sequence ≤ s ∧ ucmp.compare ikey.userKey userKey = .eq ∧ ikey.type = .kTypeValue then
        (true, { it with savedKey := ikey.userKey, savedValue := e.value })
      else (false, it)

/-- `DBIter::FindValueForCurrentKeyUsingSeek`. -/
def findValueForCurrentKeyUsingSeek (it : DBIter) (userKey : Slice) : Bool × DBIter :=
  let (found, it) := saveSnapshotValue ucmp es s draws it userKey
  if it.statusOk then
    let it := if found then it else { it with savedKey := [], savedValue := [] }
    (found, { it with pos := seekBeforeUserKey ucmp es userKey })
  else (false, it)

/-- The part of an iteration of `FindPrevUserEntry` that looks at the entry and steps back. -/
def stepBack (it : DBIter) (st : PrevLoop) (e : Entry) (ikey : ParsedInternalKey) :
    (DBIter × ValueType) ⊕ (DBIter × PrevLoop) :=
  if ikey.sequence ≤ s then
    if st.valueType ≠ .kTypeDeletion ∧ ucmp.compare ikey.userKey it.savedKey = .lt then
      .inl (it, st.valueType)
    else
      match ikey.type with
      | .kTypeDeletion =>
        .inr ({ it with savedKey := [], savedValue := [], pos := Cursor.prev es it.pos },
          { st with valueType := .kTypeDeletion })
      | .kTypeValue =>
        .inr ({ it with
            savedKey := e.key.userKey, savedValue := e.value, pos := Cursor.prev es it.pos },
          { st with valueType := .kTypeValue })
  else .inr ({ it with pos := Cursor.prev es it.pos }, st)

/-- The user key that is being counted. -/
def PrevLoop.enterKey (st : PrevLoop) (userKey : Slice) : PrevLoop :=
  let same : Bool := match st.countedKey with
    | none => false
    | some k => ucmp.compare userKey k == .eq
  if same then st else ⟨st.valueType, some userKey, 0⟩

/-- One iteration of `FindPrevUserEntry`: leave the loop, or go on. -/
def findPrevStep (it : DBIter) (st : PrevLoop) (e : Entry) :
    (DBIter × ValueType) ⊕ (DBIter × PrevLoop) :=
  match parseInternalKey e.key with
  | none =>
    .inr ({ it with pos := Cursor.prev es it.pos, statusOk := false }, { st with countedKey := none })
  | some ikey =>
    if maxSkip = 0 then stepBack ucmp es s it st e ikey
    else if st.valueType ≠ .kTypeDeletion ∧ ucmp.compare ikey.userKey it.savedKey = .lt then
      .inl (it, st.valueType)
    else
      let st := st.enterKey ucmp ikey.userKey
      let skipped := if st.skipped < maxSkip then st.skipped + 1 else st.skipped
      if maxSkip ≤ skipped then
        let (found, it) := findValueForCurrentKeyUsingSeek ucmp es s draws it (st.countedKey.getD [])
        if it.statusOk then
          if found then .inl (it, .kTypeValue) else .inr (it, ⟨.kTypeDeletion, none, skipped⟩)
        else .inl (it, .kTypeDeletion)
      else stepBack ucmp es s it { st with skipped := skipped } e ikey

/-- The end of `FindPrevUserEntry`. -/
def finishPrev (it : DBIter) : ValueType → DBIter
  | .kTypeDeletion =>
    { it with valid := false, savedKey := [], savedValue := [], direction := .kForward }
  | .kTypeValue => { it with valid := true }

/-- The loop of `FindPrevUserEntry`. -/
def findPrevLoop : ℕ → DBIter → PrevLoop → Option DBIter
  | 0, _, _ => none
  | fuel + 1, it, st =>
    match es[it.pos]? with
    | none => some (finishPrev it st.valueType)
    | some e =>
      match findPrevStep ucmp es s maxSkip draws (it.parseKey draws e) st e with
      | .inl (it, valueType) => some (finishPrev it valueType)
      | .inr (it, st) => findPrevLoop fuel it st

/-- **`DBIter::FindPrevUserEntry`**. -/
def findPrevUserEntry (it : DBIter) : Option DBIter :=
  findPrevLoop ucmp es s maxSkip draws (es.length + 1) it ⟨.kTypeDeletion, none, 0⟩

/-- The loop of `Prev` that leaves the entries of the current key backward. The cursor is invalid at
the end if there are none before them. -/
def leaveKeyLoop : ℕ → DBIter → ℕ → Option DBIter
  | 0, _, _ => none
  | fuel + 1, it, skipped =>
    let it := { it with pos := Cursor.prev es it.pos }
    match es[it.pos]? with
    | none => some it
    | some e =>
      if ucmp.compare e.key.userKey it.savedKey = .lt then some it
      else if maxSkip ≠ 0 ∧ maxSkip ≤ skipped + 1 then
        some { it with pos := seekBeforeUserKey ucmp es it.savedKey }
      else leaveKeyLoop fuel it (skipped + 1)

/-! ## The calls -/

/-- `DBIter::Next`. -/
def DBIter.next (it : DBIter) : Option DBIter :=
  let it := match it.direction with
    | .kReverse =>
      { it with
        direction := .kForward
        pos := if it.pos < es.length then it.pos + 1 else 0 }
    | .kForward =>
      { it with
        savedKey := ((es[it.pos]?).map fun e => e.key.userKey).getD []
        pos := it.pos + 1 }
  if it.pos < es.length then findNextUserEntry ucmp es s maxSkip draws true it
  else some { it with valid := false, savedKey := [] }

/-- `DBIter::Prev`. -/
def DBIter.prev (it : DBIter) : Option DBIter :=
  match it.direction with
  | .kReverse => findPrevUserEntry ucmp es s maxSkip draws it
  | .kForward =>
    let it := { it with savedKey := ((es[it.pos]?).map fun e => e.key.userKey).getD [] }
    match leaveKeyLoop ucmp es maxSkip (es.length + 1) it 0 with
    | none => none
    | some it =>
      if it.pos < es.length then
        findPrevUserEntry ucmp es s maxSkip draws { it with direction := .kReverse }
      else some { it with valid := false, savedKey := [], savedValue := [] }

/-- `DBIter::Seek`. -/
def DBIter.seek (it : DBIter) (target : Slice) : Option DBIter :=
  let key := InternalKey.ofParts target s kValueTypeForSeek
  let it := { it with
    direction := .kForward, savedValue := [], savedKey := key.encode
    pos := seekTarget ucmp es key }
  if it.pos < es.length then findNextUserEntry ucmp es s maxSkip draws false it
  else some { it with valid := false }

/-- `DBIter::SeekToFirst`. -/
def DBIter.seekToFirst (it : DBIter) : Option DBIter :=
  let it := { it with direction := .kForward, savedValue := [], pos := 0 }
  if it.pos < es.length then findNextUserEntry ucmp es s maxSkip draws false it
  else some { it with valid := false }

/-- `DBIter::SeekToLast`. -/
def DBIter.seekToLast (it : DBIter) : Option DBIter :=
  findPrevUserEntry ucmp es s maxSkip draws
    { it with direction := .kReverse, savedValue := [], pos := Cursor.seekToLast es }

/-- What a call computes. `Next` and `Prev` may be called only on a valid iterator. -/
def DBIter.compute (it : DBIter) : IterCall → Option DBIter
  | .seek target => it.seek ucmp es s maxSkip draws target
  | .seekToFirst => it.seekToFirst ucmp es s maxSkip draws
  | .seekToLast => it.seekToLast ucmp es s maxSkip draws
  | .next => if it.valid then it.next ucmp es s maxSkip draws else none
  | .prev => if it.valid then it.prev ucmp es s maxSkip draws else none

/-- **One call**, if it returns: what is computed after a `ParseKey` that does not return is never seen. -/
def DBIter.call (it : DBIter) (c : IterCall) : Option DBIter :=
  (it.compute ucmp es s maxSkip draws c).filter fun it => it.sampler.isSome

/-- What the iterator shows: `key()` and `value()` if `Valid()`. -/
def DBIter.shows (it : DBIter) : Option (Slice × Slice) :=
  if it.valid then
    match it.direction with
    | .kForward => (es[it.pos]?).map fun e => (e.key.userKey, e.value)
    | .kReverse => some (it.savedKey, it.savedValue)
  else none

end Iterator

end RocketDb
