import RocketDb.Format.InternalKey
import RocketDb.Lib.Newest
import Mathlib.Data.List.Pairwise

/-! # What a reader sees of a collection of entries

A read of user key `u` at sequence number `s` is answered by the **newest visible entry**: of the parsable
entries of that key with sequence at most `s`, the one with the largest tag. This is the abstract meaning of a
memtable, a table or a whole database, over an unordered list of entries. -/

namespace RocketDb

open KeyOrder Newest

/-- An entry is visible for user key `u` at sequence `s` if it is a parsable version of `u` written
at or before `s`. -/
def visible (ucmp : Comparator) (u : Slice) (s : ℕ) (e : Entry) : Bool :=
  match parseInternalKey e.key with
  | none => false
  | some p => ucmp.compare p.userKey u == .eq && decide (p.sequence ≤ s)

/-- The version of an entry: its tag as a number. -/
def Entry.version (e : Entry) : ℕ := e.key.tag.toNat

/-- The newest entry of user key `u` with sequence at most `s`. -/
def newestVisible (ucmp : Comparator) (es : List Entry) (u : Slice) (s : ℕ) : Option Entry :=
  newest (visible ucmp u s) Entry.version es

/-- The entry is a deletion. -/
def Entry.isDeletion (e : Entry) : Bool :=
  match parseInternalKey e.key with
  | some p => p.type == .kTypeDeletion
  | none => false

/-- The entry is a value. -/
def Entry.isValue (e : Entry) : Bool :=
  match parseInternalKey e.key with
  | some p => p.type == .kTypeValue
  | none => false

/-- What an entry reads as: its value, or absence for a deletion. -/
def Entry.read (e : Entry) : Option Slice := if e.isValue then some e.value else none

/-- What a read of `u` at `s` returns. -/
def readAt (ucmp : Comparator) (es : List Entry) (u : Slice) (s : ℕ) : Option Slice :=
  (newestVisible ucmp es u s).bind Entry.read

/-- Entries in strictly increasing internal-key order: the contents of a table or memtable. -/
def SortedEntries (ucmp : Comparator) (es : List Entry) : Prop :=
  es.Pairwise fun a b => internalCompare ucmp a.key b.key = .lt

instance (ucmp : Comparator) (es : List Entry) : Decidable (SortedEntries ucmp es) :=
  inferInstanceAs (Decidable (es.Pairwise _))

/-- The key of an entry carries a value type. -/
def Entry.parsable (e : Entry) : Bool := (parseInternalKey e.key).isSome

variable {ucmp : Comparator} {es : List Entry} {u v : Slice} {s : ℕ} {e : Entry} {fs : List Entry} {t : ℕ}

theorem Entry.parsable_iff : e.parsable = true ↔ e.key.tag.toNat % 256 ≤ 1 := by
  rw [parsable, Option.isSome_iff_exists]
  constructor
  · rintro ⟨p, hp⟩
    rw [(parseInternalKey_eq_some.mp hp).2.2]
    cases p.type <;> decide
  · intro h
    by_cases h0 : e.key.tag.toNat % 256 = 0
    · exact ⟨⟨e.key.userKey, e.key.sequence, .kTypeDeletion⟩,
        parseInternalKey_eq_some.mpr ⟨rfl, rfl, h0⟩⟩
    · exact ⟨⟨e.key.userKey, e.key.sequence, .kTypeValue⟩,
        parseInternalKey_eq_some.mpr ⟨rfl, rfl, by simp only [ValueType.toNat]; omega⟩⟩

theorem Entry.isDeletion_iff : e.isDeletion = true ↔ e.key.tag.toNat % 256 = 0 := by
  rw [isDeletion]
  cases h : parseInternalKey e.key with
  | none =>
    have := (parsable_iff (e := e)).not.mp (by simp [parsable, h])
    simp; omega
  | some p =>
    rw [(parseInternalKey_eq_some.mp h).2.2]
    obtain ⟨u, s, t⟩ := p
    cases t <;> simp [ValueType.toNat]

theorem Entry.isValue_iff : e.isValue = true ↔ e.key.tag.toNat % 256 = 1 := by
  rw [isValue]
  cases h : parseInternalKey e.key with
  | none =>
    have := (parsable_iff (e := e)).not.mp (by simp [parsable, h])
    simp; omega
  | some p =>
    rw [(parseInternalKey_eq_some.mp h).2.2]
    obtain ⟨u, s, t⟩ := p
    cases t <;> simp [ValueType.toNat]

theorem Entry.isDeletion_or_isValue (h : e.parsable = true) :
    e.isDeletion = true ∨ e.isValue = true := by
  rw [parsable_iff] at h
  rw [isDeletion_iff, isValue_iff]
  omega

theorem Entry.parsable_of_isDeletion (h : e.isDeletion = true) : e.parsable = true := by
  rw [isDeletion_iff] at h
  exact Entry.parsable_iff.mpr (by omega)

theorem Entry.parsable_of_isValue (h : e.isValue = true) : e.parsable = true := by
  rw [isValue_iff] at h
  exact Entry.parsable_iff.mpr (by omega)

theorem Entry.read_of_isDeletion (h : e.isDeletion = true) : e.read = none := by
  grind [isValue_iff, isDeletion_iff, read]

theorem Entry.read_of_isValue (h : e.isValue = true) : e.read = some e.value := if_pos h

theorem Entry.parse_eq_none_iff : parseInternalKey e.key = none ↔ e.parsable = false := by
  rw [parsable, ← Option.not_isSome_iff_eq_none]
  simp

/-- Entries of a key class up to a sequence number are visible. -/
theorem visible_iff :
    visible ucmp u s e = true ↔ e.parsable = true ∧
      userClass ucmp e.key.userKey = userClass ucmp u ∧ e.key.sequence ≤ s := by
  rw [visible, Entry.parsable]
  cases h : parseInternalKey e.key with
  | none => simp
  | some p =>
    obtain ⟨hu, hs, -⟩ := parseInternalKey_eq_some.mp h
    simp [hu, hs, cls_eq_iff]

theorem visible_congr (h : userClass ucmp u = userClass ucmp v) :
    visible ucmp u s = visible ucmp v s := by
  funext e
  rw [Bool.eq_iff_iff, visible_iff, visible_iff, h]

/-- Reads of equal keys agree. -/
theorem readAt_congr (h : userClass ucmp u = userClass ucmp v) :
    readAt ucmp es u s = readAt ucmp es v s := by
  rw [readAt, readAt, newestVisible, newestVisible, visible_congr h]

theorem visible_mono (hst : s ≤ t) (h : visible ucmp u s e = true) :
    visible ucmp u t e = true := by
  grind [visible_iff]

theorem SortedEntries.rank_lt (h : SortedEntries ucmp es) :
    es.Pairwise fun a b => a.key.rank ucmp < b.key.rank ucmp :=
  h.imp internalCompare_eq_lt.mp

/-- Sorted entries have increasing ranks. -/
theorem sortedEntries_iff :
    SortedEntries ucmp es ↔ es.Pairwise fun a b => a.key.rank ucmp < b.key.rank ucmp :=
  ⟨SortedEntries.rank_lt, fun h => h.imp internalCompare_eq_lt.mpr⟩

theorem SortedEntries.eq_of_rank_eq (h : SortedEntries ucmp es) {a b : Entry} (ha : a ∈ es)
    (hb : b ∈ es) (hab : a.key.rank ucmp = b.key.rank ucmp) : a = b := by
  by_contra hne
  have hp : es.Pairwise fun a b => a.key.rank ucmp ≠ b.key.rank ucmp := h.rank_lt.imp ne_of_lt
  have : Std.Symm fun a b : Entry => a.key.rank ucmp ≠ b.key.rank ucmp :=
    ⟨fun _ _ h => Ne.symm h⟩
  exact hp.forall ha hb hne hab

theorem SortedEntries.nodup (h : SortedEntries ucmp es) : es.Nodup :=
  h.rank_lt.imp fun hab heq => by rw [heq] at hab; exact lt_irrefl _ hab

/-- No two visible entries are the same version. -/
theorem SortedEntries.distinct (h : SortedEntries ucmp es) (u : Slice) (s : ℕ) :
    Distinct (visible ucmp u s) Entry.version es := by
  intro a ha b hb hva hvb hver
  refine h.eq_of_rank_eq ha hb ?_
  rw [InternalKey.rank, InternalKey.rank, versioned_eq_iff]
  exact ⟨(visible_iff.mp hva).2.1.trans (visible_iff.mp hvb).2.1.symm, hver⟩

theorem readAt_of_newestVisible (h : newestVisible ucmp es u s = some e) :
    readAt ucmp es u s = e.read := by
  rw [readAt, h]; rfl

/-- Every entry of `fs` is older than every entry of `es` for the same user key. -/
def Older (ucmp : Comparator) (fs es : List Entry) : Prop :=
  ∀ f ∈ fs, ∀ e ∈ es, ucmp.compare f.key.userKey e.key.userKey = .eq → f.key.tag < e.key.tag

instance (ucmp : Comparator) (fs es : List Entry) : Decidable (Older ucmp fs es) :=
  inferInstanceAs (Decidable (∀ f ∈ fs, ∀ e ∈ es, _ → _))

theorem Older.version_lt (h : Older ucmp fs es) {f : Entry} (hf : f ∈ fs) (he : e ∈ es)
    (hcls : userClass ucmp f.key.userKey = userClass ucmp e.key.userKey) :
    f.version < e.version :=
  UInt64.lt_iff_toNat_lt.mp (h f hf e he (cls_eq_iff.mp hcls))

/-- What older entries are appended does not matter to a read that has an answer. -/
theorem newestVisible_append_of_some (hes : SortedEntries ucmp es) (hold : Older ucmp fs es)
    (h : newestVisible ucmp es u s = some e) :
    newestVisible ucmp (es ++ fs) u s = some e := by
  refine newest_append_of_older (hes.distinct u s) h fun f hf hv => ?_
  refine hold.version_lt hf (mem_of_newest h) ?_
  exact (visible_iff.mp hv).2.1.trans (visible_iff.mp (vis_of_newest h)).2.1.symm

theorem readAt_append_of_some (hes : SortedEntries ucmp es) (hold : Older ucmp fs es)
    (h : newestVisible ucmp es u s = some e) :
    readAt ucmp (es ++ fs) u s = e.read :=
  readAt_of_newestVisible (newestVisible_append_of_some hes hold h)

/-- Else the appended entries answer. -/
theorem readAt_append_of_none (h : newestVisible ucmp es u s = none) :
    readAt ucmp (es ++ fs) u s = readAt ucmp fs u s := by
  rw [readAt, readAt, newestVisible, newestVisible, newest_append_of_invisible h]

theorem newestVisible_of_sequence_le (h : ∀ e ∈ es, e.key.sequence ≤ t) (hts : t ≤ s) :
    newestVisible ucmp es u s = newestVisible ucmp es u t := by
  grind [visible_iff, newestVisible, newest, List.filter_congr]

theorem readAt_of_sequence_le (h : ∀ e ∈ es, e.key.sequence ≤ t) (hts : t ≤ s) :
    readAt ucmp es u s = readAt ucmp es u t := by
  rw [readAt, readAt, newestVisible_of_sequence_le h hts]

/-- **Garbage collection.** Removing entries does not change a read if the newest visible entry stays,
or if it is a deletion and nothing visible stays. -/
theorem readAt_eq_of_loss
    (hd : Distinct (visible ucmp u s) Entry.version es) (hsub : ∀ a ∈ fs, a ∈ es)
    (hkeep : ∀ x, newestVisible ucmp es u s = some x →
      x ∈ fs ∨ x.isDeletion = true ∧ ∀ y ∈ fs, visible ucmp u s y = false) :
    readAt ucmp fs u s = readAt ucmp es u s := by
  by_cases hall : ∀ x, newestVisible ucmp es u s = some x → x ∈ fs
  · rw [readAt, readAt, newestVisible, newest_eq_of_keeps hd hsub hall]
    rfl
  · obtain ⟨x, hx⟩ := not_forall.mp hall
    obtain ⟨hx, hout⟩ := Classical.not_imp.mp hx
    obtain ⟨hdel, hnone⟩ := (hkeep x hx).resolve_left hout
    have hnil : newestVisible ucmp fs u s = none := newest_eq_none_iff.mpr hnone
    grind [Entry.read_of_isDeletion, readAt]

/-- The order of the entries does not matter. -/
theorem readAt_congr_mem (hd : Distinct (visible ucmp u s) Entry.version es) (h : ∀ a, a ∈ fs ↔ a ∈ es) :
    readAt ucmp fs u s = readAt ucmp es u s := by
  rw [readAt, readAt, newestVisible, newest_congr hd fun a _ => h a]
  rfl

end RocketDb
