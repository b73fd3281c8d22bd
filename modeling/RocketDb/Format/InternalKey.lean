import RocketDb.Lib.KeyOrder
import Mathlib.Algebra.Group.Nat.Defs

/-! # Internal keys (`db/dbformat.h`, `db/dbformat.cc`, `include/comparator.h`)

An *internal key* is a user key followed by an eight-byte tag of sequence number and value type. The
`InternalKeyComparator` sorts by user key ascending and then by tag descending, so the newest version comes
first. The proofs read the comparison functions through `InternalKey.rank`, the linear order of versioned key
classes. -/

namespace RocketDb

/-- Byte strings (`Slice`, `std::string`). -/
abbrev Slice : Type := List UInt8

/-- A user comparator (`include/comparator.h`): its name and a three-way comparison that is a total
preorder. Distinct byte strings may compare equal. -/
structure Comparator where
  /-- `Comparator::Name`. -/
  name : Slice
  /-- `Comparator::Compare`, by the sign of its result. -/
  compare : Slice → Slice → Ordering
  /-- Swapping the arguments swaps the result. -/
  oriented : ∀ a b, compare a b = (compare b a).swap
  /-- The order is transitive. -/
  transitive : ∀ a b c, (compare a b).isLE = true → (compare b c).isLE = true →
    (compare a c).isLE = true

instance (ucmp : Comparator) : Std.TransCmp ucmp.compare where
  eq_swap := ucmp.oriented _ _
  isLE_trans := ucmp.transitive _ _ _

theorem Comparator.compare_self_ne_gt (cmp : Comparator) (a : Slice) : cmp.compare a a ≠ .gt := by
  grind

theorem Comparator.ne_gt_of_lt {cmp : Comparator} {a b : Slice} (h : cmp.compare a b = .lt) :
    cmp.compare a b ≠ .gt := by
  rw [h]
  decide

theorem Comparator.lt_of_lt_of_le {cmp : Comparator} {a b c : Slice} (hab : cmp.compare a b = .lt)
    (hbc : cmp.compare b c ≠ .gt) : cmp.compare a c = .lt :=
  Std.TransCmp.lt_of_lt_of_isLE hab (Ordering.isLE_iff_ne_gt.mpr hbc)

theorem Comparator.lt_of_le_of_lt {cmp : Comparator} {a b c : Slice} (hab : cmp.compare a b ≠ .gt)
    (hbc : cmp.compare b c = .lt) : cmp.compare a c = .lt :=
  Std.TransCmp.lt_of_isLE_of_lt (Ordering.isLE_iff_ne_gt.mpr hab) hbc

/-- Byte-wise lexicographic comparison (`Slice::compare`). -/
def bytewiseCompare : Slice → Slice → Ordering
  | [], [] => .eq
  | [], _ :: _ => .lt
  | _ :: _, [] => .gt
  | a :: as, b :: bs => (Ord.compare a b).then (bytewiseCompare as bs)

theorem bytewiseCompare_eq_compareLex : bytewiseCompare = List.compareLex Ord.compare := by
  funext a b
  induction a generalizing b with
  | nil => cases b <;> rfl
  | cons x xs ih =>
    cases b with
    | nil => rfl
    | cons y ys =>
      rw [bytewiseCompare, List.compareLex, ih]
      cases Ord.compare x y <;> rfl

instance : Std.TransCmp bytewiseCompare := by
  rw [bytewiseCompare_eq_compareLex]
  infer_instance

theorem eq_of_bytewiseCompare {a b : Slice} (h : bytewiseCompare a b = .eq) : a = b := by
  rw [bytewiseCompare_eq_compareLex] at h
  exact Std.LawfulEqCmp.compare_eq_iff_eq.mp h

/-- The bytes of a string literal. -/
def ascii (s : String) : Slice := s.toList.map fun c => UInt8.ofNat c.toNat

/-- `BytewiseComparator()`, the default user comparator. -/
def bytewiseComparator : Comparator where
  name := ascii "rocketdb.BytewiseComparator"
  compare := bytewiseCompare
  oriented _ _ := Std.OrientedCmp.eq_swap
  transitive _ _ _ := Std.TransCmp.isLE_trans

/-! ## Value types, tags and keys -/

/-- The last component of an internal key. -/
inductive ValueType where
  | kTypeDeletion
  | kTypeValue
  deriving DecidableEq, Repr

/-- The byte of a value type. -/
def ValueType.toNat : ValueType → ℕ
  | .kTypeDeletion => 0
  | .kTypeValue => 1

/-- `kValueTypeForSeek`: the value type that sorts first among equal sequence numbers. -/
def kValueTypeForSeek : ValueType := .kTypeValue

/-- The largest sequence number: 56 bits. -/
def kMaxSequenceNumber : ℕ := 2 ^ 56 - 1

/-- `PackSequenceAndType`: the tag of a sequence number and a value type. -/
def packSequenceAndType (seq : ℕ) (t : ValueType) : UInt64 := UInt64.ofNat (seq <<< 8 ||| t.toNat)

/-- An internal key: a user key and its tag. -/
structure InternalKey where
  /-- The user key (`ExtractUserKey`). -/
  userKey : Slice
  /-- The tag: `sequence << 8 | type`. -/
  tag : UInt64
  deriving DecidableEq, Repr

/-- `InternalKey(user_key, s, t)`. -/
def InternalKey.ofParts (userKey : Slice) (s : ℕ) (t : ValueType) : InternalKey :=
  ⟨userKey, packSequenceAndType s t⟩

/-- A parsed internal key. -/
structure ParsedInternalKey where
  userKey : Slice
  sequence : ℕ
  type : ValueType
  deriving DecidableEq, Repr

/-- `ParseInternalKey`: fails when the type byte is none of the value types. -/
def parseInternalKey (k : InternalKey) : Option ParsedInternalKey :=
  let c := k.tag &&& 0xff
  if c = 0 then some ⟨k.userKey, (k.tag >>> 8).toNat, .kTypeDeletion⟩
  else if c = 1 then some ⟨k.userKey, (k.tag >>> 8).toNat, .kTypeValue⟩
  else none

/-- An entry of a memtable or table: an internal key and a value. -/
structure Entry where
  key : InternalKey
  value : Slice
  deriving DecidableEq, Repr

/-- The entry that `MemTable::Add` stores for an operation. -/
def Entry.ofParts (userKey : Slice) (s : ℕ) (t : ValueType) (value : Slice) : Entry :=
  ⟨InternalKey.ofParts userKey s t, value⟩

/-- `InternalKeyComparator::Compare`: user key ascending, tag descending. -/
def internalCompare (ucmp : Comparator) (a b : InternalKey) : Ordering :=
  match ucmp.compare a.userKey b.userKey with
  | .eq => if b.tag < a.tag then .lt else if a.tag < b.tag then .gt else .eq
  | r => r

/-! ## Tags as numbers -/

/-- The sequence number a tag carries. -/
def InternalKey.sequence (k : InternalKey) : ℕ := k.tag.toNat / 256

theorem toNat_and_255 (t : UInt64) : (t &&& 0xff).toNat = t.toNat % 256 := by
  rw [UInt64.toNat_and]
  exact Nat.and_two_pow_sub_one_eq_mod t.toNat 8

theorem toNat_shiftRight_8 (t : UInt64) : (t >>> 8).toNat = t.toNat / 256 := by
  rw [UInt64.toNat_shiftRight]
  exact Nat.shiftRight_eq_div_pow _ _

/-- A packed tag is `256 · seq + type` as long as the sequence number has 56 bits. -/
theorem packSequenceAndType_toNat {seq : ℕ} (h : seq ≤ kMaxSequenceNumber) (t : ValueType) :
    (packSequenceAndType seq t).toNat = seq * 256 + t.toNat := by
  have ht : t.toNat < 2 ^ 8 := by cases t <;> decide
  grind [Nat.shiftLeft_add_eq_or_of_lt, Nat.shiftLeft_eq, packSequenceAndType,
    UInt64.toNat_ofNat', kMaxSequenceNumber]

/-- What `ParseInternalKey` accepts, in terms of the tag as a number. -/
theorem parseInternalKey_eq_some {k : InternalKey} {p : ParsedInternalKey} :
    parseInternalKey k = some p ↔
      p.userKey = k.userKey ∧ p.sequence = k.sequence ∧ k.tag.toNat % 256 = p.type.toNat := by
  have h0 : k.tag &&& 0xff = 0 ↔ k.tag.toNat % 256 = 0 := by
    rw [← toNat_and_255, ← UInt64.toNat_inj]; rfl
  have h1 : k.tag &&& 0xff = 1 ↔ k.tag.toNat % 256 = 1 := by
    rw [← toNat_and_255, ← UInt64.toNat_inj]; rfl
  obtain ⟨u, s, t⟩ := p
  simp only [parseInternalKey, h0, h1, toNat_shiftRight_8, InternalKey.sequence]
  split_ifs with hc hc'
  · rw [hc]
    cases t <;> simp [ValueType.toNat, eq_comm]
  · rw [hc']
    cases t <;> simp [ValueType.toNat, eq_comm]
  · cases t <;> simp [ValueType.toNat, hc, hc']

theorem parseInternalKey_ofParts {s : ℕ} (h : s ≤ kMaxSequenceNumber) (u : Slice) (t : ValueType) :
    parseInternalKey (InternalKey.ofParts u s t) = some ⟨u, s, t⟩ := by
  rw [parseInternalKey_eq_some]
  have hp := packSequenceAndType_toNat h t
  have ht : t.toNat < 256 := by cases t <;> decide
  refine ⟨rfl, ?_, ?_⟩
  · show s = (packSequenceAndType s t).toNat / 256
    omega
  · show (packSequenceAndType s t).toNat % 256 = t.toNat
    omega

theorem InternalKey.sequence_ofParts {s : ℕ} (h : s ≤ kMaxSequenceNumber) (u : Slice)
    (t : ValueType) : (InternalKey.ofParts u s t).sequence = s :=
  (parseInternalKey_eq_some.mp (parseInternalKey_ofParts h u t)).2.1.symm

theorem InternalKey.sequence_le (k : InternalKey) : k.sequence ≤ kMaxSequenceNumber := by
  have := k.tag.toNat_lt
  unfold sequence kMaxSequenceNumber
  omega

/-! ## The order of internal keys -/

open KeyOrder

/-- The class of a user key. -/
abbrev userClass (ucmp : Comparator) (u : Slice) : Class ucmp.compare := cls ucmp.compare u

/-- An internal key as a versioned key class: the linear order behind `internalCompare`. -/
def InternalKey.rank (ucmp : Comparator) (k : InternalKey) : Versioned ucmp.compare :=
  versioned ucmp.compare k.userKey k.tag.toNat

variable {ucmp : Comparator} {a b : InternalKey}

theorem rank_lt_iff :
    a.rank ucmp < b.rank ucmp ↔ userClass ucmp a.userKey < userClass ucmp b.userKey ∨
      userClass ucmp a.userKey = userClass ucmp b.userKey ∧ b.tag.toNat < a.tag.toNat :=
  versioned_lt_iff

theorem rank_le_iff :
    a.rank ucmp ≤ b.rank ucmp ↔ userClass ucmp a.userKey < userClass ucmp b.userKey ∨
      userClass ucmp a.userKey = userClass ucmp b.userKey ∧ b.tag.toNat ≤ a.tag.toNat :=
  versioned_le_iff

theorem userClass_le_of_rank_le (h : a.rank ucmp ≤ b.rank ucmp) :
    userClass ucmp a.userKey ≤ userClass ucmp b.userKey :=
  cls_le_of_versioned_le h

theorem internalCompare_eq_lt : internalCompare ucmp a b = .lt ↔ a.rank ucmp < b.rank ucmp := by
  rw [rank_lt_iff, cls_lt_iff, cls_eq_iff, internalCompare]
  cases ucmp.compare a.userKey b.userKey with
  | lt => simp
  | gt => simp
  | eq =>
    simp only [UInt64.lt_iff_toNat_lt]
    split_ifs <;> simp <;> omega

theorem internalCompare_eq_gt : internalCompare ucmp a b = .gt ↔ b.rank ucmp < a.rank ucmp := by
  rw [rank_lt_iff, cls_lt_iff_gt, cls_eq_iff, internalCompare, Std.OrientedCmp.eq_comm]
  cases ucmp.compare a.userKey b.userKey with
  | lt => simp
  | gt => simp
  | eq =>
    simp only [UInt64.lt_iff_toNat_lt]
    split_ifs <;> simp <;> omega

theorem internalCompare_ne_lt : internalCompare ucmp a b ≠ .lt ↔ b.rank ucmp ≤ a.rank ucmp := by
  rw [Ne, internalCompare_eq_lt, not_lt]

theorem internalCompare_ne_gt : internalCompare ucmp a b ≠ .gt ↔ a.rank ucmp ≤ b.rank ucmp := by
  rw [Ne, internalCompare_eq_gt, not_lt]

theorem internalCompare_eq_eq : internalCompare ucmp a b = .eq ↔ a.rank ucmp = b.rank ucmp := by
  constructor
  · intro h
    exact le_antisymm (internalCompare_ne_gt.mp (by rw [h]; decide))
      (internalCompare_ne_lt.mp (by rw [h]; decide))
  · intro h
    rcases hc : internalCompare ucmp a b with _ | _ | _
    · exact absurd h (internalCompare_eq_lt.mp hc).ne
    · rfl
    · exact absurd h (internalCompare_eq_gt.mp hc).ne'

/-- The seek key `(u, kMaxSequenceNumber, kValueTypeForSeek)` sorts at or before every key of a user
key equal to or after `u` that carries a value type. -/
theorem rank_seekKey_le_iff {u : Slice} (hb : b.tag.toNat % 256 ≤ 1) :
    (InternalKey.ofParts u kMaxSequenceNumber kValueTypeForSeek).rank ucmp ≤ b.rank ucmp ↔
      userClass ucmp u ≤ userClass ucmp b.userKey := by
  have htag : (InternalKey.ofParts u kMaxSequenceNumber kValueTypeForSeek).tag.toNat
      = kMaxSequenceNumber * 256 + 1 := packSequenceAndType_toNat le_rfl _
  have hb' := b.tag.toNat_lt
  rw [rank_le_iff, htag]
  constructor
  · rintro (h | ⟨h, -⟩)
    exacts [h.le, h.le]
  · intro h
    rcases h.lt_or_eq with h | h
    · exact Or.inl h
    · refine Or.inr ⟨h, ?_⟩
      unfold kMaxSequenceNumber
      omega

end RocketDb
