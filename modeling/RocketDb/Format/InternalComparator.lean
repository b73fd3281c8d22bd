import RocketDb.Format.Coding
import Mathlib.Order.Defs.Unbundled

/-! # Comparators on encoded keys and the shortening of index keys

Tables see an internal key as the byte string that `AppendInternalKey` writes, compare with an
`InternalKeyComparator` (`db/dbformat.cc`), and ask it for short keys between two keys and after a key.

* **`internalKeyComparator ucmp`** — the comparison of encoded keys, itself a `Comparator`.
* **`KeyShortener cmp`** — `FindShortestSeparator` and `FindShortSuccessor` with what a table may rely on;
  `bytewiseShortener` is the default one, and `KeyShortener.internal` lifts one to encoded internal keys. -/

namespace RocketDb

open KeyOrder List

/-! ## Encoded internal keys -/

/-- `ExtractUserKey`: all but the last eight bytes. -/
def extractUserKey (internalKey : Slice) : Slice := internalKey.take (internalKey.length - 8)

/-- The last eight bytes as a number. -/
def extractTag (internalKey : Slice) : UInt64 :=
  decodeFixed64 (internalKey.drop (internalKey.length - 8))

/-- The internal key that a byte string encodes. -/
def InternalKey.ofSlice (rep : Slice) : InternalKey := ⟨extractUserKey rep, extractTag rep⟩

/-- `AppendInternalKey`. -/
def appendInternalKey (result : Slice) (key : ParsedInternalKey) : Slice :=
  result ++ key.userKey ++ encodeFixed64 (packSequenceAndType key.sequence key.type)

/-- `ParseInternalKey` on the encoded key. -/
def parseSlice (internalKey : Slice) : Option ParsedInternalKey :=
  if internalKey.length < 8 then none else parseInternalKey (.ofSlice internalKey)

theorem internalCompare_swap (ucmp : Comparator) (a b : InternalKey) :
    internalCompare ucmp a b = (internalCompare ucmp b a).swap := by
  rcases lt_trichotomy (a.rank ucmp) (b.rank ucmp) with h | h | h
  · rw [internalCompare_eq_lt.mpr h, internalCompare_eq_gt.mpr h]
    rfl
  · rw [internalCompare_eq_eq.mpr h, internalCompare_eq_eq.mpr h.symm]
    rfl
  · rw [internalCompare_eq_gt.mpr h, internalCompare_eq_lt.mpr h]
    rfl

/-- `InternalKeyComparator`, by the order of the keys the byte strings encode. -/
def internalKeyComparator (ucmp : Comparator) : Comparator where
  name := ascii "rocketdb.InternalKeyComparator"
  compare akey bkey := internalCompare ucmp (.ofSlice akey) (.ofSlice bkey)
  oriented _ _ := internalCompare_swap ucmp _ _
  transitive akey bkey ckey hab hbc := by
    rw [Ordering.isLE_iff_ne_gt] at hab hbc ⊢
    exact internalCompare_ne_gt.mpr
      ((internalCompare_ne_gt.mp hab).trans (internalCompare_ne_gt.mp hbc))

/-- The comparator on byte strings is the one on keys. -/
@[simp] theorem internalKeyComparator_compare (ucmp : Comparator) (akey bkey : Slice) :
    (internalKeyComparator ucmp).compare akey bkey =
      internalCompare ucmp (.ofSlice akey) (.ofSlice bkey) := rfl

variable {ucmp : Comparator} {u rep : Slice} {tag : UInt64} {p : ParsedInternalKey}

theorem extractUserKey_append (u : Slice) (tag : UInt64) :
    extractUserKey (u ++ encodeFixed64 tag) = u := by
  simp [extractUserKey]

theorem extractTag_append (u : Slice) (tag : UInt64) :
    extractTag (u ++ encodeFixed64 tag) = tag := by
  have h := decodeFixed64_encodeFixed64 tag []
  rw [append_nil] at h
  simpa [extractTag] using h

theorem InternalKey.ofSlice_encode (k : InternalKey) : InternalKey.ofSlice k.encode = k := by
  rw [encode, ofSlice, extractUserKey_append, extractTag_append]

theorem InternalKey.encode_ofSlice (h : 8 ≤ rep.length) : (InternalKey.ofSlice rep).encode = rep := by
  have hdrop : (rep.drop (rep.length - 8)).length = 8 := by
    rw [length_drop]
    omega
  grind [encodeFixed64_decodeFixed64_of_length, encode, ofSlice, extractUserKey, extractTag,
    take_append_drop]

theorem length_extractUserKey (h : 8 ≤ rep.length) : (extractUserKey rep).length + 8 = rep.length := by
  rw [extractUserKey, length_take]
  omega

theorem appendInternalKey_nil (p : ParsedInternalKey) :
    appendInternalKey [] p = (InternalKey.ofParts p.userKey p.sequence p.type).encode := rfl

/-- `ParseInternalKey` reads back what was appended. -/
theorem parseSlice_appendInternalKey (h : p.sequence ≤ kMaxSequenceNumber) :
    parseSlice (appendInternalKey [] p) = some p := by
  have hlen : ¬ (appendInternalKey [] p).length < 8 := by simp [appendInternalKey]
  rw [parseSlice, if_neg hlen, appendInternalKey_nil, InternalKey.ofSlice_encode,
    parseInternalKey_ofParts h]

/-- It accepts nothing else. -/
theorem appendInternalKey_parseSlice (h : parseSlice rep = some p) :
    p.sequence ≤ kMaxSequenceNumber ∧ appendInternalKey [] p = rep := by
  rw [parseSlice] at h
  split_ifs at h with hlen
  obtain ⟨hu, hs, ht⟩ := parseInternalKey_eq_some.mp h
  grind [InternalKey.sequence_le, InternalKey.ofSlice, UInt64.toNat_inj,
    packSequenceAndType_toNat, InternalKey.sequence, InternalKey.ofParts, appendInternalKey_nil,
      InternalKey.encode_ofSlice]

/-! ## Shortening byte strings -/

/-- How many leading elements two lists share: the count of the loops that stop at the first
difference or at the end of the shorter list. -/
def sharedLength {α : Type*} [DecidableEq α] : List α → List α → ℕ
  | a :: as, b :: bs => if a = b then sharedLength as bs + 1 else 0
  | _, _ => 0

/-- `BytewiseComparatorImpl::FindShortestSeparator`: raise the byte at the first difference if that
leaves room below `limit`, and drop what follows. -/
def bytewiseFindShortestSeparator (start limit : Slice) : Slice :=
  let minLength := min start.length limit.length
  let diffIndex := sharedLength start limit
  if minLength ≤ diffIndex then start
  else
    let diffByte := start.getD diffIndex 0
    if diffByte < 0xff ∧ diffByte.toNat + 1 < (limit.getD diffIndex 0).toNat then
      start.take diffIndex ++ [diffByte + 1]
    else start

/-- `BytewiseComparatorImpl::FindShortSuccessor`: raise the first byte that is not `0xff` and drop what
follows; a run of `0xff` stays. -/
def bytewiseFindShortSuccessor : Slice → Slice
  | [] => []
  | byte :: key => if byte ≠ 0xff then [byte + 1] else byte :: bytewiseFindShortSuccessor key

/-- The functions by which a comparator shortens keys (`include/comparator.h`), with what the tables
rely on. -/
structure KeyShortener (cmp : Comparator) where
  /-- `Comparator::FindShortestSeparator`. -/
  findShortestSeparator : Slice → Slice → Slice
  /-- `Comparator::FindShortSuccessor`. -/
  findShortSuccessor : Slice → Slice
  /-- A separator is not before `start`. -/
  le_separator : ∀ start limit, cmp.compare start limit = .lt →
    cmp.compare start (findShortestSeparator start limit) ≠ .gt
  /-- A separator is before `limit`. -/
  separator_lt : ∀ start limit, cmp.compare start limit = .lt →
    cmp.compare (findShortestSeparator start limit) limit = .lt
  /-- Keys out of order are left as they are. -/
  separator_eq : ∀ start limit, cmp.compare start limit ≠ .lt →
    findShortestSeparator start limit = start
  /-- A successor is not before the key. -/
  le_successor : ∀ key, cmp.compare key (findShortSuccessor key) ≠ .gt

section SharedLength

variable {α : Type*} [DecidableEq α] {as bs : List α}

theorem sharedLength_le_left (as bs : List α) : sharedLength as bs ≤ as.length := by
  fun_induction sharedLength as bs with
  | case1 as b bs ih => simpa using ih
  | case2 => exact Nat.zero_le _
  | case3 => exact Nat.zero_le _

theorem sharedLength_le_right (as bs : List α) : sharedLength as bs ≤ bs.length := by
  fun_induction sharedLength as bs with
  | case1 as b bs ih => simpa using ih
  | case2 => exact Nat.zero_le _
  | case3 => exact Nat.zero_le _

theorem take_sharedLength (as bs : List α) :
    as.take (sharedLength as bs) = bs.take (sharedLength as bs) := by
  fun_induction sharedLength as bs with
  | case1 as b bs ih => simp [ih]
  | case2 => rfl
  | case3 => rfl

/-- Where two strings part. -/
theorem exists_split_of_sharedLength_lt (h : sharedLength as bs < min as.length bs.length) :
    ∃ pre a as' b bs', a ≠ b ∧ as = pre ++ a :: as' ∧ bs = pre ++ b :: bs' ∧
      pre.length = sharedLength as bs := by
  fun_induction sharedLength as bs with
  | case1 as b bs ih =>
    grind
  | case2 a as b bs hne => exact ⟨[], a, as, b, bs, hne, rfl, rfl, rfl⟩
  | case3 as bs hno =>
    cases as with
    | nil => simp at h
    | cons a as =>
      cases bs with
      | nil => simp at h
      | cons b bs => exact absurd rfl (hno a as b bs rfl)

end SharedLength

theorem bytewiseCompare_append (pre a b : Slice) :
    bytewiseCompare (pre ++ a) (pre ++ b) = bytewiseCompare a b := by
  induction pre with
  | nil => rfl
  | cons x pre ih =>
    grind [bytewiseCompare]

theorem bytewiseCompare_cons_lt {a b : UInt8} {as bs : Slice} (h : a < b) :
    bytewiseCompare (a :: as) (b :: bs) = .lt := by
  rw [bytewiseCompare, show Ord.compare a b = .lt from Std.compare_eq_lt.mpr h]
  rfl

theorem bytewiseCompare_eq_lt {a b : Slice} : bytewiseCompare a b = .lt ↔ a < b := by
  fun_induction bytewiseCompare a b with
  | case1 => simp
  | case2 => simp
  | case3 => simp
  | case4 x xs y ys ih =>
    rw [cons_lt_cons_iff]
    rcases hc : Ord.compare x y with _ | _ | _
    · simp [Std.compare_eq_lt.mp hc]
    · grind
    · have hlt : y < x := Std.compare_eq_gt.mp hc
      simp [UInt8.not_lt.mpr (UInt8.le_of_lt hlt), (UInt8.ne_of_lt hlt).symm]

/-- A separator of byte strings either is `start` or lies strictly between the two, and it is no longer
than `start`. -/
theorem bytewiseFindShortestSeparator_cases (start limit : Slice) :
    bytewiseFindShortestSeparator start limit = start ∨
      bytewiseCompare start (bytewiseFindShortestSeparator start limit) = .lt ∧
        bytewiseCompare (bytewiseFindShortestSeparator start limit) limit = .lt := by
  rw [bytewiseFindShortestSeparator]
  dsimp only
  split_ifs with hend hroom
  · exact Or.inl rfl
  · -- both strings go on after the shared part `pre`, with different bytes `a` and `b`
    obtain ⟨pre, a, as, b, bs, -, hs, hl, hlen⟩ :=
      exists_split_of_sharedLength_lt (not_le.mp hend)
    rw [← hlen] at hroom ⊢
    subst hs hl
    simp only [getD_append_right, le_refl, Nat.sub_self, getD_cons_zero, take_left] at hroom ⊢
    obtain ⟨hff, hgap⟩ := hroom
    have hff' : a.toNat < 255 := UInt8.lt_iff_toNat_lt.mp hff
    have hsucc : (a + 1).toNat = a.toNat + 1 := by
      grind [UInt8.toNat_add]
    refine Or.inr ⟨?_, ?_⟩
    · grind [bytewiseCompare_append, bytewiseCompare_cons_lt]
    · rw [bytewiseCompare_append]
      exact bytewiseCompare_cons_lt (UInt8.lt_iff_toNat_lt.mpr (by omega))
  · exact Or.inl rfl

/-- The short successor is the key itself or comes after it. -/
theorem bytewiseFindShortSuccessor_cases (key : Slice) :
    bytewiseFindShortSuccessor key = key ∨
      bytewiseCompare key (bytewiseFindShortSuccessor key) = .lt := by
  induction key with
  | nil => exact Or.inl rfl
  | cons byte key ih =>
    rw [bytewiseFindShortSuccessor]
    split_ifs with hff
    · grind [bytewiseCompare_cons_lt]
    · rcases ih with ih | ih
      · exact Or.inl (by rw [ih])
      · exact Or.inr ((bytewiseCompare_append [byte] _ _).trans ih)

/-- The shortening functions of the default comparator. -/
def bytewiseShortener : KeyShortener bytewiseComparator where
  findShortestSeparator := bytewiseFindShortestSeparator
  findShortSuccessor := bytewiseFindShortSuccessor
  le_separator start limit _ := by
    rcases bytewiseFindShortestSeparator_cases start limit with h | ⟨h, -⟩
    · rw [h]
      exact Comparator.compare_self_ne_gt _ _
    · exact Comparator.ne_gt_of_lt h
  separator_lt start limit hlt := by
    rcases bytewiseFindShortestSeparator_cases start limit with h | ⟨-, h⟩
    · rwa [h]
    · exact h
  separator_eq start limit hnlt := by
    rcases bytewiseFindShortestSeparator_cases start limit with h | ⟨h₁, h₂⟩
    · exact h
    · exact absurd (Std.TransCmp.lt_trans h₁ h₂) hnlt
  le_successor key := by
    rcases bytewiseFindShortSuccessor_cases key with h | h
    · rw [h]
      exact Comparator.compare_self_ne_gt _ _
    · exact Comparator.ne_gt_of_lt h

/-! ## Shortening internal keys -/

/-- `InternalKeyComparator::FindShortestSeparator`. The source tests that `tmp` compares different from
the user key of `start`, not that it is after it. -/
def internalFindShortestSeparator (short : KeyShortener ucmp) (start limit : Slice) : Slice :=
  let userStart := extractUserKey start
  let userLimit := extractUserKey limit
  let tmp := short.findShortestSeparator userStart userLimit
  if tmp.length < userStart.length ∧ ucmp.compare userStart tmp ≠ .eq then
    tmp ++ encodeFixed64 (packSequenceAndType kMaxSequenceNumber kValueTypeForSeek)
  else start

/-- `InternalKeyComparator::FindShortSuccessor`. -/
def internalFindShortSuccessor (short : KeyShortener ucmp) (key : Slice) : Slice :=
  let userKey := extractUserKey key
  let tmp := short.findShortSuccessor userKey
  if tmp.length < userKey.length ∧ ucmp.compare userKey tmp = .lt then
    tmp ++ encodeFixed64 (packSequenceAndType kMaxSequenceNumber kValueTypeForSeek)
  else key

/-- User keys come first. -/
theorem internalCompare_of_userKey_lt {a b : InternalKey}
    (h : ucmp.compare a.userKey b.userKey = .lt) : internalCompare ucmp a b = .lt := by
  rw [internalCompare, h]

variable {short : KeyShortener ucmp} {start limit key : Slice}

/-- A separator of internal keys either is `start` or is a shorter key, with a user key strictly between
the two user keys and the tag that sorts first. -/
theorem internalFindShortestSeparator_cases (short : KeyShortener ucmp) (start limit : Slice) :
    internalFindShortestSeparator short start limit = start ∨
      ∃ tmp, internalFindShortestSeparator short start limit =
          (InternalKey.ofParts tmp kMaxSequenceNumber kValueTypeForSeek).encode ∧
        tmp.length < (extractUserKey start).length ∧
        ucmp.compare (extractUserKey start) tmp = .lt ∧
        ucmp.compare tmp (extractUserKey limit) = .lt := by
  rw [internalFindShortestSeparator]
  split_ifs with h
  · obtain ⟨hlen, hne⟩ := h
    have hlt : ucmp.compare (extractUserKey start) (extractUserKey limit) = .lt := by
      by_contra hnlt
      rw [short.separator_eq _ _ hnlt] at hne
      exact hne Std.ReflCmp.compare_self
    refine Or.inr ⟨_, rfl, hlen, ?_, short.separator_lt _ _ hlt⟩
    -- the separator is not before `start` and not equal to it
    have hle := short.le_separator _ _ hlt
    rcases hc : ucmp.compare (extractUserKey start)
      (short.findShortestSeparator (extractUserKey start) (extractUserKey limit)) with _ | _ | _
    · rfl
    · exact absurd hc hne
    · exact absurd hc hle
  · exact Or.inl rfl

theorem internalFindShortSuccessor_cases (short : KeyShortener ucmp) (key : Slice) :
    internalFindShortSuccessor short key = key ∨
      ∃ tmp, internalFindShortSuccessor short key =
          (InternalKey.ofParts tmp kMaxSequenceNumber kValueTypeForSeek).encode ∧
        tmp.length < (extractUserKey key).length ∧
        ucmp.compare (extractUserKey key) tmp = .lt := by
  rw [internalFindShortSuccessor]
  split_ifs with h
  · exact Or.inr ⟨_, rfl, h.1, h.2⟩
  · exact Or.inl rfl

/-- The shortening functions of the `InternalKeyComparator`. -/
def KeyShortener.internal (short : KeyShortener ucmp) : KeyShortener (internalKeyComparator ucmp) where
  findShortestSeparator := internalFindShortestSeparator short
  findShortSuccessor := internalFindShortSuccessor short
  le_separator start limit _ := by
    rcases internalFindShortestSeparator_cases short start limit with h | ⟨tmp, h, -, hlt, -⟩
    · rw [h]
      exact Comparator.compare_self_ne_gt _ _
    · refine Comparator.ne_gt_of_lt ?_
      rw [h, internalKeyComparator_compare, InternalKey.ofSlice_encode]
      exact internalCompare_of_userKey_lt hlt
  separator_lt start limit hlt := by
    rcases internalFindShortestSeparator_cases short start limit with h | ⟨tmp, h, -, -, hlt⟩
    · rwa [h]
    · rw [h, internalKeyComparator_compare, InternalKey.ofSlice_encode]
      exact internalCompare_of_userKey_lt hlt
  separator_eq start limit hnlt := by
    rcases internalFindShortestSeparator_cases short start limit with h | ⟨tmp, h, -, h₁, h₂⟩
    · exact h
    · exact absurd (internalCompare_of_userKey_lt (Std.TransCmp.lt_trans h₁ h₂)) hnlt
  le_successor key := by
    rcases internalFindShortSuccessor_cases short key with h | ⟨tmp, h, -, hlt⟩
    · rw [h]
      exact Comparator.compare_self_ne_gt _ _
    · refine Comparator.ne_gt_of_lt ?_
      rw [h, internalKeyComparator_compare, InternalKey.ofSlice_encode]
      exact internalCompare_of_userKey_lt hlt

/-! ## The default comparator -/

/-- The `InternalKeyComparator` over the byte-wise comparator. -/
def bytewiseInternal : Comparator := internalKeyComparator bytewiseComparator

/-- The byte string is an internal key: `ParseInternalKey` accepts it. -/
def WellFormedKey (rep : Slice) : Prop := (parseSlice rep).isSome = true

theorem WellFormedKey.length_le (h : WellFormedKey rep) : 8 ≤ rep.length := by
  grind [WellFormedKey, parseSlice]

theorem wellFormedKey_encode_ofParts {s : ℕ} (h : s ≤ kMaxSequenceNumber) (u : Slice)
    (t : ValueType) : WellFormedKey (InternalKey.ofParts u s t).encode := by
  have hparse : parseSlice (appendInternalKey [] ⟨u, s, t⟩) = some ⟨u, s, t⟩ :=
    parseSlice_appendInternalKey h
  rw [appendInternalKey_nil] at hparse
  rw [WellFormedKey, hparse]
  rfl

/-- No two internal keys compare equal. -/
theorem bytewiseInternal_eq_eq {a b : Slice} (ha : 8 ≤ a.length) (hb : 8 ≤ b.length) :
    bytewiseInternal.compare a b = .eq ↔ a = b := by
  constructor
  · intro h
    have hrank := internalCompare_eq_eq.mp h
    obtain ⟨hcls, htag⟩ := versioned_eq_iff.mp hrank
    have huser : (InternalKey.ofSlice a).userKey = (InternalKey.ofSlice b).userKey :=
      eq_of_bytewiseCompare (cls_eq_iff.mp hcls)
    have hkey : InternalKey.ofSlice a = InternalKey.ofSlice b := by
      cases h₁ : InternalKey.ofSlice a
      cases h₂ : InternalKey.ofSlice b
      rw [h₁, h₂] at huser htag
      rw [InternalKey.mk.injEq]
      exact ⟨huser, UInt64.toNat_inj.mp htag⟩
    grind [InternalKey.encode_ofSlice]
  · rintro rfl
    exact Std.ReflCmp.compare_self

theorem bytewiseInternal_isStrictTotalOrder :
    IsStrictTotalOrder {rep : Slice // WellFormedKey rep} fun a b =>
      bytewiseInternal.compare a.1 b.1 = .lt where
  trichotomous a b hab hba := by
    refine Subtype.ext ((bytewiseInternal_eq_eq a.2.length_le b.2.length_le).mp ?_)
    rcases hc : bytewiseInternal.compare a.1 b.1 with _ | _ | _
    · exact absurd hc hab
    · rfl
    · exact absurd (Std.OrientedCmp.lt_of_gt hc) hba
  irrefl a h := by
    grind
  trans a b c hab hbc := Std.TransCmp.lt_trans hab hbc

theorem bytewiseInternal_appendInternalKey {p q : ParsedInternalKey}
    (hp : p.sequence ≤ kMaxSequenceNumber) (hq : q.sequence ≤ kMaxSequenceNumber) :
    bytewiseInternal.compare (appendInternalKey [] p) (appendInternalKey [] q) = .lt ↔
      p.userKey < q.userKey ∨ p.userKey = q.userKey ∧
        (q.sequence < p.sequence ∨ q.sequence = p.sequence ∧ q.type.toNat < p.type.toNat) := by
  have htag : (packSequenceAndType q.sequence q.type).toNat <
      (packSequenceAndType p.sequence p.type).toNat ↔
      q.sequence < p.sequence ∨ q.sequence = p.sequence ∧ q.type.toNat < p.type.toNat := by
    rw [packSequenceAndType_toNat hp, packSequenceAndType_toNat hq]
    have hpt : p.type.toNat < 2 := by cases p.type <;> decide
    have hqt : q.type.toNat < 2 := by cases q.type <;> decide
    omega
  rw [bytewiseInternal, internalKeyComparator_compare, appendInternalKey_nil, appendInternalKey_nil,
    InternalKey.ofSlice_encode, InternalKey.ofSlice_encode, internalCompare_eq_lt, rank_lt_iff,
    cls_lt_iff, cls_eq_iff]
  refine or_congr bytewiseCompare_eq_lt (and_congr ⟨eq_of_bytewiseCompare, ?_⟩ htag)
  rintro h
  exact h ▸ Std.ReflCmp.compare_self

theorem InternalKey.length_encode (k : InternalKey) : k.encode.length = k.userKey.length + 8 := by
  rw [InternalKey.encode, length_append, length_encodeFixed64]

/-- **Internal keys under the byte-wise comparator.** `Compare` is a strict total order of the well-formed
keys, by user key ascending and then by sequence and type descending; writing and reading a key are
inverse; a separator stays in `[start, limit)` and a successor at or after its key, neither longer than
the key it replaces, and both well-formed if that key is. -/
theorem bytewise_internal_keys :
    (IsStrictTotalOrder {rep : Slice // WellFormedKey rep} fun a b =>
        bytewiseInternal.compare a.1 b.1 = .lt) ∧
      (∀ a b, WellFormedKey a → WellFormedKey b → (bytewiseInternal.compare a b = .eq ↔ a = b)) ∧
      (∀ p q : ParsedInternalKey, p.sequence ≤ kMaxSequenceNumber → q.sequence ≤ kMaxSequenceNumber →
        (bytewiseInternal.compare (appendInternalKey [] p) (appendInternalKey [] q) = .lt ↔
          p.userKey < q.userKey ∨ p.userKey = q.userKey ∧
            (q.sequence < p.sequence ∨ q.sequence = p.sequence ∧ q.type.toNat < p.type.toNat))) ∧
      (∀ p : ParsedInternalKey, p.sequence ≤ kMaxSequenceNumber →
        parseSlice (appendInternalKey [] p) = some p) ∧
      (∀ rep p, parseSlice rep = some p →
        p.sequence ≤ kMaxSequenceNumber ∧ appendInternalKey [] p = rep) ∧
      (∀ start limit, 8 ≤ start.length → 8 ≤ limit.length →
        bytewiseInternal.compare start limit = .lt →
        let sep := internalFindShortestSeparator bytewiseShortener start limit
        bytewiseInternal.compare start sep ≠ .gt ∧ bytewiseInternal.compare sep limit = .lt ∧
          sep.length ≤ start.length ∧
          (extractUserKey sep ≠ extractUserKey start →
            extractUserKey start < extractUserKey sep ∧
              extractUserKey sep < extractUserKey limit) ∧
          (WellFormedKey start → WellFormedKey sep)) ∧
      ∀ key, 8 ≤ key.length →
        let succ := internalFindShortSuccessor bytewiseShortener key
        bytewiseInternal.compare key succ ≠ .gt ∧ succ.length ≤ key.length ∧
          (WellFormedKey key → WellFormedKey succ) := by
  refine ⟨bytewiseInternal_isStrictTotalOrder,
    fun a b ha hb => bytewiseInternal_eq_eq ha.length_le hb.length_le,
    fun p q => bytewiseInternal_appendInternalKey, fun p => parseSlice_appendInternalKey,
    fun rep p => appendInternalKey_parseSlice, ?_, ?_⟩
  · intro start limit hstart _ hlt sep
    refine ⟨bytewiseShortener.internal.le_separator start limit hlt,
      bytewiseShortener.internal.separator_lt start limit hlt, ?_⟩
    have hlen := length_extractUserKey hstart
    rcases internalFindShortestSeparator_cases bytewiseShortener start limit with
      h | ⟨tmp, h, hshort, h₁, h₂⟩
    · grind
    · rw [show sep = _ from h, InternalKey.encode, extractUserKey_append, ← InternalKey.encode,
        InternalKey.length_encode]
      exact ⟨by change tmp.length + 8 ≤ _; omega,
        fun _ => ⟨bytewiseCompare_eq_lt.mp h₁, bytewiseCompare_eq_lt.mp h₂⟩,
        fun _ => wellFormedKey_encode_ofParts le_rfl _ _⟩
  · intro key hkey succ
    refine ⟨bytewiseShortener.internal.le_successor key, ?_⟩
    have hlen := length_extractUserKey hkey
    rcases internalFindShortSuccessor_cases bytewiseShortener key with h | ⟨tmp, h, hshort, -⟩
    · rw [show succ = key from h]
      exact ⟨le_rfl, id⟩
    · rw [show succ = _ from h, InternalKey.length_encode]
      exact ⟨by change tmp.length + 8 ≤ _; omega, fun _ => wellFormedKey_encode_ofParts le_rfl _ _⟩

end RocketDb
