import RocketDb.Format.View

/-! # Tables and memtables as sorted entries (`table/table.cc`, `db/memtable.cc`)

A table file is its entries in internal-key order with the metadata a version keeps about it. Of
`TableBuilder` only the sizes it reports matter to the engine, and they are a parameter.

* **`seekEntry`** — the first entry at or after a key: where `Table::InternalGet` and `MemTable::Get` look.
* **`lookupEntries`**, **`memTableGet`** — the answers of a table and of a memtable to a lookup key.
* **`newestVisible_eq_seekEntry`** — both are decided by the newest visible entry. -/

namespace RocketDb

open KeyOrder Newest

/-- What a version records about a table file. -/
structure FileMetaData where
  number : ℕ
  fileSize : ℕ
  smallest : InternalKey
  largest : InternalKey
  deriving DecidableEq, Repr

/-- The metadata's bounds are the first and last key of the entries. -/
def FileMetaData.Bounds (f : FileMetaData) (es : List Entry) : Prop :=
  es.head?.map Entry.key = some f.smallest ∧ es.getLast?.map Entry.key = some f.largest

/-- The sizes a `TableBuilder` reports, by the entries it was given. -/
structure TableSizes where
  /-- `FileSize()` while entries are added. -/
  fileSize : List Entry → ℕ
  /-- `FileSize()` after `Finish()`. -/
  finishedSize : List Entry → ℕ
  /-- A finished table has at least a footer. -/
  finishedSize_pos : ∀ es, 0 < finishedSize es

/-- Sizes for concrete runs: one unit for each entry and 48 for the footer. -/
def TableSizes.counting : TableSizes := ⟨List.length, fun es => es.length + 48, fun _ => by simp⟩

/-- `LookupKey(user_key, s)`: sorts before the versions of the user key visible at `s` and after the
others. -/
def lookupKey (userKey : Slice) (s : ℕ) : InternalKey := .ofParts userKey s kValueTypeForSeek

/-- The first entry whose key is not before `target`. -/
def seekEntry (ucmp : Comparator) (target : InternalKey) (es : List Entry) : Option Entry :=
  es.find? fun e => internalCompare ucmp e.key target != .lt

/-- The state of a lookup in one table (`SaverState`, with the value found). -/
inductive SaverState where
  | kNotFound
  | kFound (value : Slice)
  | kDeleted
  | kCorrupt
  deriving DecidableEq, Repr

/-- `SaveValue`: classify the entry a seek arrived at. -/
def saveValue (ucmp : Comparator) (userKey : Slice) (e : Entry) : SaverState :=
  match parseInternalKey e.key with
  | none => .kCorrupt
  | some p =>
    if ucmp.compare p.userKey userKey = .eq then
      match p.type with
      | .kTypeValue => .kFound e.value
      | .kTypeDeletion => .kDeleted
    else .kNotFound

/-- A lookup in one table: seek, then `SaveValue` on the entry found. -/
def lookupEntries (ucmp : Comparator) (userKey : Slice) (s : ℕ) (es : List Entry) : SaverState :=
  match seekEntry ucmp (lookupKey userKey s) es with
  | none => .kNotFound
  | some e => saveValue ucmp userKey e

/-- `MemTable::Get`: `none` when the memtable has no answer, else the value or the absence it
reports. A key of unknown type gives no answer. -/
def memTableGet (ucmp : Comparator) (userKey : Slice) (s : ℕ) (es : List Entry) :
    Option (Option Slice) :=
  match seekEntry ucmp (lookupKey userKey s) es with
  | none => none
  | some e =>
    if ucmp.compare e.key.userKey userKey = .eq then
      match parseInternalKey e.key with
      | none => none
      | some p =>
        match p.type with
        | .kTypeValue => some (some e.value)
        | .kTypeDeletion => some none
    else none

variable {ucmp : Comparator} {es : List Entry} {u : Slice} {s : ℕ} {e : Entry}

/-- A parsable entry sorts at or after the lookup key exactly when its user key sorts after, or is
equal with a visible sequence number. -/
theorem rank_lookupKey_le_iff (hs : s ≤ kMaxSequenceNumber) (he : e.parsable = true) :
    (lookupKey u s).rank ucmp ≤ e.key.rank ucmp ↔
      userClass ucmp u < userClass ucmp e.key.userKey ∨
        userClass ucmp u = userClass ucmp e.key.userKey ∧ e.key.sequence ≤ s := by
  have htag : (lookupKey u s).tag.toNat = s * 256 + 1 := packSequenceAndType_toNat hs _
  rw [Entry.parsable_iff] at he
  rw [rank_le_iff, htag]
  have hseq : e.key.tag.toNat ≤ s * 256 + 1 ↔ e.key.sequence ≤ s := by
    unfold InternalKey.sequence
    omega
  rw [hseq]
  rfl

/-- The entry a seek finds: a member at or after the target, with nothing of the collection between
them. -/
theorem seekEntry_eq_some (hes : SortedEntries ucmp es) {target : InternalKey} :
    seekEntry ucmp target es = some e ↔
      e ∈ es ∧ target.rank ucmp ≤ e.key.rank ucmp ∧
        ∀ a ∈ es, target.rank ucmp ≤ a.key.rank ucmp → e.key.rank ucmp ≤ a.key.rank ucmp := by
  have hne : ∀ a : Entry, (internalCompare ucmp a.key target != .lt) = true ↔
      target.rank ucmp ≤ a.key.rank ucmp := by
    intro a
    rw [bne_iff_ne, internalCompare_ne_lt]
  induction es with
  | nil => simp [seekEntry]
  | cons x xs ih =>
    obtain ⟨hx, hxs⟩ := List.pairwise_cons.mp hes.rank_lt
    rw [seekEntry, List.find?_cons]
    by_cases hle : target.rank ucmp ≤ x.key.rank ucmp
    · grind
    · have hfalse : (internalCompare ucmp x.key target != .lt) = false := by
        rw [← Bool.not_eq_true, hne]
        exact hle
      rw [hfalse]
      have ih' := ih (sortedEntries_iff.mpr hxs)
      grind [seekEntry]

theorem seekEntry_eq_none {target : InternalKey} :
    seekEntry ucmp target es = none ↔ ∀ a ∈ es, a.key.rank ucmp < target.rank ucmp := by
  grind [seekEntry, internalCompare_eq_lt]

/-- **A seek finds the newest visible entry**: in a sorted collection of parsable entries, the entry
at the lookup key answers the read if it is a version of the user key, and otherwise nothing does. -/
theorem newestVisible_eq_seekEntry (hes : SortedEntries ucmp es)
    (hpars : ∀ e ∈ es, e.parsable = true) (hs : s ≤ kMaxSequenceNumber) :
    newestVisible ucmp es u s =
      (seekEntry ucmp (lookupKey u s) es).filter fun e => ucmp.compare e.key.userKey u == .eq := by
  have hvis : ∀ a ∈ es, visible ucmp u s a = true →
      (lookupKey u s).rank ucmp ≤ a.key.rank ucmp := by
    intro a ha hv
    obtain ⟨hp, hcls, hseq⟩ := visible_iff.mp hv
    exact (rank_lookupKey_le_iff hs hp).mpr (Or.inr ⟨hcls.symm, hseq⟩)
  cases hseek : seekEntry ucmp (lookupKey u s) es with
  | none =>
    rw [Option.filter_none, newestVisible, newest_eq_none_iff]
    intro a ha
    by_contra hv
    exact absurd (hvis a ha (by simpa using hv)) (seekEntry_eq_none.mp hseek a ha).not_ge
  | some e =>
    obtain ⟨hmem, hle, hmin⟩ := (seekEntry_eq_some hes).mp hseek
    have hp := hpars e hmem
    by_cases hcmp : ucmp.compare e.key.userKey u = .eq
    · -- the entry is a version of `u`: nothing visible sorts before it
      have hcls : userClass ucmp e.key.userKey = userClass ucmp u := cls_eq_iff.mpr hcmp
      have hseq : e.key.sequence ≤ s := by
        grind [rank_lookupKey_le_iff]
      rw [Option.filter_some_pos (by simp [hcmp]), newestVisible, newest_eq_some_iff (hes.distinct u s)]
      refine ⟨hmem, visible_iff.mpr ⟨hp, hcls, hseq⟩, fun a ha hv => ?_⟩
      rcases rank_le_iff.mp (hmin a ha (hvis a ha hv)) with h | h
      · exact absurd (hcls.trans (visible_iff.mp hv).2.1.symm) h.ne
      · exact h.2
    · -- the entry is past the versions of `u`: none is visible
      rw [Option.filter_some_neg (by simp [hcmp]), newestVisible, newest_eq_none_iff]
      intro a ha
      by_contra hv
      have hv' : visible ucmp u s a = true := by simpa using hv
      have hea := userClass_le_of_rank_le (hmin a ha (hvis a ha hv'))
      have hue : userClass ucmp u < userClass ucmp e.key.userKey := by
        rcases (rank_lookupKey_le_iff hs hp).mp hle with h | h
        · exact h
        · exact absurd (cls_eq_iff.mp h.1.symm) hcmp
      exact absurd (visible_iff.mp hv').2.1 (hue.trans_le hea).ne'

/-- What a table lookup says about the entry that answers the read. -/
def SaverState.ofEntry : Option Entry → SaverState
  | none => .kNotFound
  | some e => if e.isValue then .kFound e.value else .kDeleted

/-- **A table lookup reads the newest visible entry.** -/
theorem lookupEntries_eq (hes : SortedEntries ucmp es) (hpars : ∀ e ∈ es, e.parsable = true)
    (hs : s ≤ kMaxSequenceNumber) :
    lookupEntries ucmp u s es = SaverState.ofEntry (newestVisible ucmp es u s) := by
  rw [newestVisible_eq_seekEntry hes hpars hs, lookupEntries]
  cases hseek : seekEntry ucmp (lookupKey u s) es with
  | none => rfl
  | some e =>
    obtain ⟨p, hparse⟩ := Option.isSome_iff_exists.mp
      (hpars e ((seekEntry_eq_some hes).mp hseek).1)
    obtain ⟨hu, -, -⟩ := parseInternalKey_eq_some.mp hparse
    grind [saveValue, SaverState.ofEntry, Entry.isValue]

/-- **A memtable lookup reads the newest visible entry.** -/
theorem memTableGet_eq (hes : SortedEntries ucmp es) (hpars : ∀ e ∈ es, e.parsable = true)
    (hs : s ≤ kMaxSequenceNumber) :
    memTableGet ucmp u s es = (newestVisible ucmp es u s).map Entry.read := by
  rw [newestVisible_eq_seekEntry hes hpars hs, memTableGet]
  cases hseek : seekEntry ucmp (lookupKey u s) es with
  | none => rfl
  | some e =>
    obtain ⟨p, hparse⟩ := Option.isSome_iff_exists.mp
      (hpars e ((seekEntry_eq_some hes).mp hseek).1)
    grind [Entry.read, Entry.isValue]

end RocketDb
