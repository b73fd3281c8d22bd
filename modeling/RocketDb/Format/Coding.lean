import RocketDb.Format.InternalKey
import Mathlib.Data.Nat.Bitwise
import Mathlib.Tactic.NthRewrite

/-! # Byte encodings (`util/coding.h`, `util/coding.cc`)

Fixed-width integers are stored in little-endian order. Variable-length integers hold seven bits a byte,
with the eighth saying that more follow; a slice is stored after its length. -/

namespace RocketDb

open List

/-- `EncodeFixed32`. -/
def encodeFixed32 (v : UInt32) : Slice :=
  [v.toUInt8, (v >>> 8).toUInt8, (v >>> 16).toUInt8, (v >>> 24).toUInt8]

/-- `EncodeFixed64`. -/
def encodeFixed64 (v : UInt64) : Slice :=
  [v.toUInt8, (v >>> 8).toUInt8, (v >>> 16).toUInt8, (v >>> 24).toUInt8, (v >>> 32).toUInt8,
    (v >>> 40).toUInt8, (v >>> 48).toUInt8, (v >>> 56).toUInt8]

/-- `DecodeFixed32` of the first four bytes. -/
def decodeFixed32 (p : Slice) : UInt32 :=
  (p.getD 0 0).toUInt32 ||| ((p.getD 1 0).toUInt32 <<< 8) ||| ((p.getD 2 0).toUInt32 <<< 16) |||
    ((p.getD 3 0).toUInt32 <<< 24)

/-- `DecodeFixed64` of the first eight bytes. -/
def decodeFixed64 (p : Slice) : UInt64 :=
  (p.getD 0 0).toUInt64 ||| ((p.getD 1 0).toUInt64 <<< 8) ||| ((p.getD 2 0).toUInt64 <<< 16) |||
    ((p.getD 3 0).toUInt64 <<< 24) ||| ((p.getD 4 0).toUInt64 <<< 32) |||
    ((p.getD 5 0).toUInt64 <<< 40) ||| ((p.getD 6 0).toUInt64 <<< 48) ||| ((p.getD 7 0).toUInt64 <<< 56)

/-- `InternalKey::Encode`, as `AppendInternalKey` writes it. -/
def InternalKey.encode (k : InternalKey) : Slice := k.userKey ++ encodeFixed64 k.tag

/-- `InternalKey::DecodeFrom`. Keys of fewer than eight bytes are accepted, though they have no tag. -/
def InternalKey.decodeFrom (rep : Slice) : Option InternalKey :=
  if rep = [] then none
  else some ⟨rep.take (rep.length - 8), decodeFixed64 (rep.drop (rep.length - 8))⟩

/-! ## Variable-length integers -/

/-- `PutVarint32`, by the five cases of `EncodeVarint32`. -/
def putVarint32 (v : UInt32) : Slice :=
  if v.toNat < 2 ^ 7 then [v.toUInt8]
  else if v.toNat < 2 ^ 14 then [(v ||| 128).toUInt8, (v >>> 7).toUInt8]
  else if v.toNat < 2 ^ 21 then [(v ||| 128).toUInt8, ((v >>> 7) ||| 128).toUInt8, (v >>> 14).toUInt8]
  else if v.toNat < 2 ^ 28 then
    [(v ||| 128).toUInt8, ((v >>> 7) ||| 128).toUInt8, ((v >>> 14) ||| 128).toUInt8,
      (v >>> 21).toUInt8]
  else
    [(v ||| 128).toUInt8, ((v >>> 7) ||| 128).toUInt8, ((v >>> 14) ||| 128).toUInt8,
      ((v >>> 21) ||| 128).toUInt8, (v >>> 28).toUInt8]

/-- The loop of `EncodeVarint64`; ten bytes hold every value. -/
def encodeVarint64 : ℕ → UInt64 → Slice
  | 0, _ => []
  | fuel + 1, v =>
    if 128 ≤ v then (v ||| 128).toUInt8 :: encodeVarint64 fuel (v >>> 7) else [v.toUInt8]

/-- `PutVarint64`. -/
def putVarint64 (v : UInt64) : Slice := encodeVarint64 10 v

/-- The loop of `VartintLength`. -/
def vartintLengthLoop : ℕ → UInt64 → ℕ → ℕ
  | 0, _, len => len
  | fuel + 1, v, len => if 128 ≤ v then vartintLengthLoop fuel (v >>> 7) (len + 1) else len

/-- `VartintLength`; after nine shifts every number is below 128. -/
def vartintLength (v : UInt64) : ℕ := vartintLengthLoop 9 v 1

/-- `PutLengthPrefixedSlice`. -/
def putLengthPrefixedSlice (value : Slice) : Slice := putVarint32 (UInt32.ofNat value.length) ++ value

/-- The loop of `GetVarint32PtrFallback`, for the shifts that are left. -/
def getVarint32Loop : ℕ → UInt32 → UInt32 → Slice → Option (UInt32 × Slice)
  | 0, _, _, _ => none
  | _ + 1, _, _, [] => none
  | n + 1, shift, result, b :: p =>
    if b &&& 128 ≠ 0 then
      getVarint32Loop n (shift + 7) (result ||| ((b.toUInt32 &&& 127) <<< shift)) p
    else some (result ||| (b.toUInt32 <<< shift), p)

/-- `GetVarint32`: one byte is read at once. -/
def getVarint32 : Slice → Option (UInt32 × Slice)
  | [] => none
  | b :: p => if b &&& 128 = 0 then some (b.toUInt32, p) else getVarint32Loop 5 0 0 (b :: p)

/-- The loop of `GetVarint64Ptr`, for the shifts that are left. -/
def getVarint64Loop : ℕ → UInt64 → UInt64 → Slice → Option (UInt64 × Slice)
  | 0, _, _, _ => none
  | _ + 1, _, _, [] => none
  | n + 1, shift, result, b :: p =>
    if b &&& 128 ≠ 0 then
      getVarint64Loop n (shift + 7) (result ||| ((b.toUInt64 &&& 127) <<< shift)) p
    else some (result ||| (b.toUInt64 <<< shift), p)

/-- `GetVarint64`. -/
def getVarint64 (input : Slice) : Option (UInt64 × Slice) := getVarint64Loop 10 0 0 input

/-- `GetLengthPrefixedSlice`. -/
def getLengthPrefixedSlice (input : Slice) : Option (Slice × Slice) :=
  match getVarint32 input with
  | none => none
  | some (len, input) =>
    if len.toNat ≤ input.length then some (input.take len.toNat, input.drop len.toNat) else none

/-- **The 32-bit reader is the 64-bit one**, cut to five bytes and 32 bits. -/
theorem getVarint32Loop_eq (n : ℕ) (shift result : UInt64) (hshift : shift.toNat + 7 * n ≤ 35) (p : Slice) :
    getVarint32Loop n shift.toUInt32 result.toUInt32 p =
      (getVarint64Loop n shift result p).map fun x => (x.1.toUInt32, x.2) := by
  induction n generalizing shift result p with
  | zero => rfl
  | succ n ih =>
    have hlt : shift < 32 := UInt64.lt_iff_toNat_lt.mpr (show shift.toNat < 32 by omega)
    have hnext : (shift + 7).toNat = shift.toNat + 7 := by
      grind [UInt64.toNat_add]
    cases p with
    | nil => rfl
    | cons b p =>
      rw [getVarint32Loop, getVarint64Loop]
      split_ifs
      · rw [← ih _ _ (by omega), UInt64.toUInt32_or, UInt64.toUInt32_shiftLeft _ _ hlt, UInt64.toUInt32_and,
          UInt8.toUInt32_toUInt64, UInt64.toUInt32_add]
        rfl
      · simp_all

/-- The two decoders agree where five bytes suffice. -/
theorem getVarint32_eq (p : Slice) :
    getVarint32 p = (getVarint64Loop 5 0 0 p).map fun x => (x.1.toUInt32, x.2) := by
  rw [← getVarint32Loop_eq 5 0 0 (by decide)]
  cases p with
  | nil => rfl
  | cons b p =>
    rw [getVarint32]
    split_ifs with hb
    · rw [getVarint32Loop, if_neg (not_not.mpr hb)]
      simp
    · rfl

/-- A number is read from a front of the input, **whatever follows it**. -/
theorem getVarint64Loop_front {n : ℕ} {shift result v : UInt64} {p q : Slice}
    (h : getVarint64Loop n shift result p = some (v, q)) :
    ∃ front, p = front ++ q ∧ ∀ rest, getVarint64Loop n shift result (front ++ rest) = some (v, rest) := by
  induction n generalizing shift result p with
  | zero => simp [getVarint64Loop] at h
  | succ n ih =>
    cases p with
    | nil => simp [getVarint64Loop] at h
    | cons b p =>
      rw [getVarint64Loop] at h
      split at h <;> rename_i hb
      · grind [getVarint64Loop]
      · cases h
        exact ⟨[b], rfl, fun rest => if_neg hb⟩

/-- A varint is read from a first part, whatever follows. -/
theorem getVarint32_front {v : UInt32} {p q : Slice} (h : getVarint32 p = some (v, q)) :
    ∃ front, p = front ++ q ∧ ∀ rest, getVarint32 (front ++ rest) = some (v, rest) := by
  rw [getVarint32_eq] at h
  obtain ⟨⟨w, q'⟩, hread, hw⟩ := Option.map_eq_some_iff.mp h
  grind [getVarint64Loop_front, getVarint32_eq]

/-- **Input that ends inside an encoding is rejected** by a reader for which what follows makes no
difference. -/
theorem eq_none_of_beginning {α : Type*} {get : Slice → Option (α × Slice)}
    (hget : ∀ {v p q}, get p = some (v, q) →
      ∃ front, p = front ++ q ∧ ∀ rest, get (front ++ rest) = some (v, rest))
    {v : α} {bytes beginning : Slice} (hbytes : get bytes = some (v, []))
    (hpre : beginning <+: bytes) (hne : beginning ≠ bytes) : get beginning = none := by
  cases h : get beginning with
  | none => rfl
  | some x =>
    obtain ⟨w, q⟩ := x
    obtain ⟨front, rfl, hfront⟩ := hget h
    obtain ⟨tail, rfl⟩ := hpre
    simp_all

theorem length_getVarint32 {v : UInt32} {p q : Slice} (h : getVarint32 p = some (v, q)) :
    q.length < p.length := by
  obtain ⟨front, rfl, hfront⟩ := getVarint32_front h
  cases front with
  | nil => cases hfront []
  | cons b front =>
    rw [length_append, length_cons]
    omega

theorem getLengthPrefixedSlice_front {v p q : Slice} (h : getLengthPrefixedSlice p = some (v, q)) :
    ∃ front, p = front ++ q ∧ ∀ rest, getLengthPrefixedSlice (front ++ rest) = some (v, rest) := by
  rw [getLengthPrefixedSlice] at h
  split at h
  · cases h
  · rename_i len p' hlen
    split at h
    · rename_i hle
      cases h
      obtain ⟨front, rfl, hfront⟩ := getVarint32_front hlen
      have htake : (p'.take len.toNat).length = len.toNat := length_take_of_le hle
      refine ⟨front ++ p'.take len.toNat, ?_, fun rest => ?_⟩
      · rw [append_assoc, take_append_drop]
      · grind [getLengthPrefixedSlice]
    · cases h

theorem length_getLengthPrefixedSlice {v p q : Slice} (h : getLengthPrefixedSlice p = some (v, q)) :
    q.length < p.length := by
  obtain ⟨front, rfl, hfront⟩ := getLengthPrefixedSlice_front h
  cases front with
  | nil => cases hfront []
  | cons b front =>
    rw [length_append, length_cons]
    omega

/-! ## Fixed-width integers -/

@[simp] theorem length_encodeFixed32 (v : UInt32) : (encodeFixed32 v).length = 4 := rfl

@[simp] theorem length_encodeFixed64 (v : UInt64) : (encodeFixed64 v).length = 8 := rfl

theorem or_shiftLeft {a k : ℕ} (h : a < 2 ^ k) (b : ℕ) : a ||| b <<< k = a + b * 2 ^ k := by
  rw [Nat.or_comm, ← Nat.shiftLeft_add_eq_or_of_lt h, Nat.shiftLeft_eq, Nat.add_comm]

theorem toNat_decodeFixed32 (b₀ b₁ b₂ b₃ : UInt8) (rest : Slice) :
    (decodeFixed32 (b₀ :: b₁ :: b₂ :: b₃ :: rest)).toNat =
      b₀.toNat + b₁.toNat * 2 ^ 8 + b₂.toNat * 2 ^ 16 + b₃.toNat * 2 ^ 24 := by
  have h₀ := b₀.toNat_lt
  have h₁ := b₁.toNat_lt
  have h₂ := b₂.toNat_lt
  have h₃ := b₃.toNat_lt
  have s₁ : (b₁.toUInt32 <<< 8).toNat = b₁.toNat <<< 8 := by simp [Nat.shiftLeft_eq]; omega
  have s₂ : (b₂.toUInt32 <<< 16).toNat = b₂.toNat <<< 16 := by simp [Nat.shiftLeft_eq]; omega
  have s₃ : (b₃.toUInt32 <<< 24).toNat = b₃.toNat <<< 24 := by simp [Nat.shiftLeft_eq]; omega
  simp only [decodeFixed32, getD_cons_zero, getD_cons_succ, UInt32.toNat_or,
    UInt8.toNat_toUInt32, s₁, s₂, s₃]
  grind [or_shiftLeft]

/-- Fixed-width numbers are read back. -/
theorem decodeFixed32_encodeFixed32 (v : UInt32) (rest : Slice) :
    decodeFixed32 (encodeFixed32 v ++ rest) = v := by
  have hv := v.toNat_lt
  rw [← UInt32.toNat_inj, encodeFixed32]
  simp only [cons_append, nil_append, toNat_decodeFixed32]
  simp [Nat.shiftRight_eq_div_pow]
  omega

/-- Four bytes are the encoding of the number they decode to. -/
theorem encodeFixed32_decodeFixed32 (b₀ b₁ b₂ b₃ : UInt8) (rest : Slice) :
    encodeFixed32 (decodeFixed32 (b₀ :: b₁ :: b₂ :: b₃ :: rest)) = [b₀, b₁, b₂, b₃] := by
  have h := toNat_decodeFixed32 b₀ b₁ b₂ b₃ rest
  have h₀ := b₀.toNat_lt
  have h₁ := b₁.toNat_lt
  have h₂ := b₂.toNat_lt
  have h₃ := b₃.toNat_lt
  simp only [encodeFixed32, List.cons.injEq, ← UInt8.toNat_inj, UInt32.toNat_toUInt8,
    UInt32.toNat_shiftRight, h, Nat.shiftRight_eq_div_pow]
  simp
  omega

theorem toNat_decodeFixed64 (b₀ b₁ b₂ b₃ b₄ b₅ b₆ b₇ : UInt8) (rest : Slice) :
    (decodeFixed64 (b₀ :: b₁ :: b₂ :: b₃ :: b₄ :: b₅ :: b₆ :: b₇ :: rest)).toNat =
      b₀.toNat + b₁.toNat * 2 ^ 8 + b₂.toNat * 2 ^ 16 + b₃.toNat * 2 ^ 24 + b₄.toNat * 2 ^ 32 +
        b₅.toNat * 2 ^ 40 + b₆.toNat * 2 ^ 48 + b₇.toNat * 2 ^ 56 := by
  have h₀ := b₀.toNat_lt
  have h₁ := b₁.toNat_lt
  have h₂ := b₂.toNat_lt
  have h₃ := b₃.toNat_lt
  have h₄ := b₄.toNat_lt
  have h₅ := b₅.toNat_lt
  have h₆ := b₆.toNat_lt
  have h₇ := b₇.toNat_lt
  have s₁ : (b₁.toUInt64 <<< 8).toNat = b₁.toNat <<< 8 := by simp [Nat.shiftLeft_eq]; omega
  have s₂ : (b₂.toUInt64 <<< 16).toNat = b₂.toNat <<< 16 := by simp [Nat.shiftLeft_eq]; omega
  have s₃ : (b₃.toUInt64 <<< 24).toNat = b₃.toNat <<< 24 := by simp [Nat.shiftLeft_eq]; omega
  have s₄ : (b₄.toUInt64 <<< 32).toNat = b₄.toNat <<< 32 := by simp [Nat.shiftLeft_eq]; omega
  have s₅ : (b₅.toUInt64 <<< 40).toNat = b₅.toNat <<< 40 := by simp [Nat.shiftLeft_eq]; omega
  have s₆ : (b₆.toUInt64 <<< 48).toNat = b₆.toNat <<< 48 := by simp [Nat.shiftLeft_eq]; omega
  have s₇ : (b₇.toUInt64 <<< 56).toNat = b₇.toNat <<< 56 := by simp [Nat.shiftLeft_eq]; omega
  simp only [decodeFixed64, getD_cons_zero, getD_cons_succ, UInt64.toNat_or,
    UInt8.toNat_toUInt64, s₁, s₂, s₃, s₄, s₅, s₆, s₇]
  rw [or_shiftLeft h₀, or_shiftLeft (k := 16) (by omega), or_shiftLeft (k := 24) (by omega),
    or_shiftLeft (k := 32) (by omega), or_shiftLeft (k := 40) (by omega),
    or_shiftLeft (k := 48) (by omega), or_shiftLeft (k := 56) (by omega)]

theorem decodeFixed64_encodeFixed64 (v : UInt64) (rest : Slice) :
    decodeFixed64 (encodeFixed64 v ++ rest) = v := by
  have hv := v.toNat_lt
  rw [← UInt64.toNat_inj, encodeFixed64]
  simp only [cons_append, nil_append, toNat_decodeFixed64]
  simp [Nat.shiftRight_eq_div_pow]
  omega

theorem encodeFixed64_decodeFixed64 (b₀ b₁ b₂ b₃ b₄ b₅ b₆ b₇ : UInt8) (rest : Slice) :
    encodeFixed64 (decodeFixed64 (b₀ :: b₁ :: b₂ :: b₃ :: b₄ :: b₅ :: b₆ :: b₇ :: rest)) =
      [b₀, b₁, b₂, b₃, b₄, b₅, b₆, b₇] := by
  have h := toNat_decodeFixed64 b₀ b₁ b₂ b₃ b₄ b₅ b₆ b₇ rest
  have h₀ := b₀.toNat_lt
  have h₁ := b₁.toNat_lt
  have h₂ := b₂.toNat_lt
  have h₃ := b₃.toNat_lt
  have h₄ := b₄.toNat_lt
  have h₅ := b₅.toNat_lt
  have h₆ := b₆.toNat_lt
  have h₇ := b₇.toNat_lt
  simp only [encodeFixed64, List.cons.injEq, ← UInt8.toNat_inj, UInt64.toNat_toUInt8,
    UInt64.toNat_shiftRight, h, Nat.shiftRight_eq_div_pow]
  simp
  omega

theorem encodeFixed64_decodeFixed64_of_length {p : Slice} (h : p.length = 8) :
    encodeFixed64 (decodeFixed64 p) = p := by
  match p, h with
  | [b₀, b₁, b₂, b₃, b₄, b₅, b₆, b₇], _ => exact encodeFixed64_decodeFixed64 b₀ b₁ b₂ b₃ b₄ b₅ b₆ b₇ []

/-! ## Reading back variable-length integers -/

/-- The top bit says that more bytes follow. -/
theorem and_128_eq_zero (b : UInt8) : b &&& 128 = 0 ↔ b.toNat < 2 ^ 7 := by
  have hb := b.toNat_lt
  rw [← UInt8.toNat_inj, UInt8.toNat_and]
  change b.toNat &&& 2 ^ 7 = 0 ↔ _
  rw [Nat.and_two_pow, Nat.testBit_eq_decide_div_mod_eq]
  by_cases h : b.toNat / 2 ^ 7 % 2 = 1 <;> simp <;> omega

theorem or_top_bit {n : ℕ} (h : n < 2 ^ 8) : n ||| 2 ^ 7 = n % 2 ^ 7 + 2 ^ 7 := by
  have hlow : n % 2 ^ 7 ||| 1 <<< 7 = n % 2 ^ 7 + 1 * 2 ^ 7 :=
    or_shiftLeft (Nat.mod_lt _ (by decide)) 1
  rcases Nat.lt_or_ge n (2 ^ 7) with hn | hn
  · rwa [Nat.mod_eq_of_lt hn] at hlow ⊢
  · -- the bit is there already
    have hn' : n = n % 2 ^ 7 ||| 2 ^ 7 := by
      refine Eq.trans ?_ hlow.symm
      omega
    grind

theorem toNat_or_128_toUInt8 (v : UInt32) : (v ||| 128).toUInt8.toNat = v.toNat % 2 ^ 7 + 2 ^ 7 := by
  rw [UInt32.toNat_toUInt8, UInt32.toNat_or]
  change (v.toNat ||| 2 ^ 7) % 2 ^ 8 = _
  rw [Nat.or_mod_two_pow, Nat.mod_eq_of_lt (show 2 ^ 7 < 2 ^ 8 by decide),
    or_top_bit (Nat.mod_lt _ (by decide))]
  omega

/-- Each byte takes seven bits. -/
theorem div_lt_of_lt_groups {k v : ℕ} (hv : v < 2 ^ (7 * (k + 1))) : v / 2 ^ 7 < 2 ^ (7 * k) := by
  grind

/-- The groups of seven bits of a number, lowest first, all but the last with the top bit. -/
def varintBytes : ℕ → ℕ → Slice
  | 0, _ => []
  | k + 1, v =>
    if v < 2 ^ 7 then [UInt8.ofNat v]
    else UInt8.ofNat (v % 2 ^ 7 + 2 ^ 7) :: varintBytes k (v / 2 ^ 7)

/-- The unrolled encoder writes seven bits at a time. -/
theorem putVarint32_eq (v : UInt32) : putVarint32 v = varintBytes 5 v.toNat := by
  have hv := v.toNat_lt
  have hmore (w : UInt32) : (w ||| 128).toUInt8 = UInt8.ofNat (w.toNat % 2 ^ 7 + 2 ^ 7) := by
    rw [← UInt8.toNat_inj, toNat_or_128_toUInt8]
    simp
    omega
  have hlast (w : UInt32) : w.toUInt8 = UInt8.ofNat w.toNat := by
    rw [← UInt8.toNat_inj]
    simp
  have h7 : (v >>> 7).toNat = v.toNat / 2 ^ 7 := by simp [Nat.shiftRight_eq_div_pow]
  have h14 : (v >>> 14).toNat = v.toNat / 2 ^ 7 / 2 ^ 7 := by
    simp [Nat.shiftRight_eq_div_pow, Nat.div_div_eq_div_mul]
  have h21 : (v >>> 21).toNat = v.toNat / 2 ^ 7 / 2 ^ 7 / 2 ^ 7 := by
    simp [Nat.shiftRight_eq_div_pow, Nat.div_div_eq_div_mul]
  have h28 : (v >>> 28).toNat = v.toNat / 2 ^ 7 / 2 ^ 7 / 2 ^ 7 / 2 ^ 7 := by
    simp [Nat.shiftRight_eq_div_pow, Nat.div_div_eq_div_mul]
  grind [putVarint32, varintBytes]

section Varint64

variable {n : ℕ} {shift result : UInt64} {b : UInt8} {p : Slice}

theorem toNat_toUInt64_and_127 (b : UInt8) : (b.toUInt64 &&& 127).toNat = b.toNat % 2 ^ 7 := by
  rw [UInt64.toNat_and, UInt8.toNat_toUInt64]
  exact Nat.and_two_pow_sub_one_eq_mod b.toNat 7

theorem getVarint64Loop_more (h : 2 ^ 7 ≤ b.toNat) :
    getVarint64Loop (n + 1) shift result (b :: p) =
      getVarint64Loop n (shift + 7) (result ||| ((b.toUInt64 &&& 127) <<< shift)) p := by
  rw [getVarint64Loop, if_pos]
  rw [Ne, and_128_eq_zero]
  omega

theorem getVarint64Loop_last (h : b.toNat < 2 ^ 7) :
    getVarint64Loop (n + 1) shift result (b :: p) = some (result ||| (b.toUInt64 <<< shift), p) := by
  rw [getVarint64Loop, if_neg]
  rwa [not_not, and_128_eq_zero]

/-- The bits of the next byte are above those collected so far. -/
theorem toNat_or_shiftLeft64 {c : UInt64} (hs : shift.toNat < 64)
    (hresult : result.toNat < 2 ^ shift.toNat) (hc : c.toNat * 2 ^ shift.toNat < 2 ^ 64) :
    (result ||| c <<< shift).toNat = result.toNat + c.toNat * 2 ^ shift.toNat := by
  rw [UInt64.toNat_or, UInt64.toNat_shiftLeft, Nat.mod_eq_of_lt hs, Nat.shiftLeft_eq,
    Nat.mod_eq_of_lt hc, ← or_shiftLeft hresult, Nat.shiftLeft_eq]

theorem encodeVarint64_eq (k : ℕ) (v : UInt64) : encodeVarint64 k v = varintBytes k v.toNat := by
  induction k generalizing v with
  | zero => rfl
  | succ k ih =>
    have hle : (128 : UInt64) ≤ v ↔ 2 ^ 7 ≤ v.toNat := UInt64.le_iff_toNat_le
    rw [encodeVarint64, varintBytes]
    by_cases h : v.toNat < 2 ^ 7
    · simp_all
    · rw [if_pos (by rw [hle]; omega), if_neg h, ih]
      congr 1
      · rw [← UInt8.toNat_inj, UInt64.toNat_toUInt8, UInt64.toNat_or]
        change (v.toNat ||| 2 ^ 7) % 2 ^ 8 = _
        rw [Nat.or_mod_two_pow, Nat.mod_eq_of_lt (show 2 ^ 7 < 2 ^ 8 by decide),
          or_top_bit (Nat.mod_lt _ (by decide))]
        simp
        omega
      · rw [UInt64.toNat_shiftRight, Nat.shiftRight_eq_div_pow]
        rfl

theorem getVarint64Loop_small {v : ℕ} (hs : shift.toNat < 64) (hresult : result.toNat < 2 ^ shift.toNat)
    (hv : v * 2 ^ shift.toNat < 2 ^ 64) (hsmall : v < 2 ^ 7) :
    ∃ w, getVarint64Loop (n + 1) shift result (UInt8.ofNat v :: p) = some (w, p) ∧
      w.toNat = result.toNat + v * 2 ^ shift.toNat := by
  have hb : (UInt8.ofNat v).toUInt64.toNat = v := by simp; omega
  rw [getVarint64Loop_last (by simp; omega)]
  grind [toNat_or_shiftLeft64]

/-- **The loop reads back the groups** on top of the bits it has. -/
theorem getVarint64Loop_varintBytes (shift result : UInt64) (k v : ℕ) (rest : Slice)
    (hs : shift.toNat < 64) (hresult : result.toNat < 2 ^ shift.toNat) (hk : v < 2 ^ (7 * (k + 1)))
    (hv : v * 2 ^ shift.toNat < 2 ^ 64) :
    ∃ w, getVarint64Loop (k + 1) shift result (varintBytes (k + 1) v ++ rest) = some (w, rest) ∧
      w.toNat = result.toNat + v * 2 ^ shift.toNat := by
  induction k generalizing v shift result with
  | zero =>
    rw [varintBytes, if_pos hk]
    exact getVarint64Loop_small hs hresult hv hk
  | succ k ih =>
    rw [varintBytes]
    split_ifs with hsmall
    · exact getVarint64Loop_small hs hresult hv hsmall
    · have hb : (UInt8.ofNat (v % 2 ^ 7 + 2 ^ 7)).toNat = v % 2 ^ 7 + 2 ^ 7 := by simp; omega
      have hc : ((UInt8.ofNat (v % 2 ^ 7 + 2 ^ 7)).toUInt64 &&& 127).toNat = v % 2 ^ 7 := by
        rw [toNat_toUInt64_and_127, hb]
        omega
      have hlow : v % 2 ^ 7 * 2 ^ shift.toNat < 2 ^ 64 :=
        (Nat.mul_le_mul_right _ (Nat.mod_le _ _)).trans_lt hv
      have hsum := toNat_or_shiftLeft64 hs hresult (hc ▸ hlow)
      rw [hc] at hsum
      -- a number with more than seven bits left is not at the last shift
      have hmore : 7 + shift.toNat < 64 := by
        have hpow := (Nat.mul_le_mul_right (2 ^ shift.toNat) (not_lt.mp hsmall)).trans_lt hv
        rw [← Nat.pow_add] at hpow
        exact (Nat.pow_lt_pow_iff_right (by decide)).mp hpow
      have hshift : (shift + 7).toNat = shift.toNat + 7 := by
        grind [UInt64.toNat_add]
      have hdiv : v = v / 2 ^ 7 * 2 ^ 7 + v % 2 ^ 7 := by omega
      have hv' : v * 2 ^ shift.toNat =
          v / 2 ^ 7 * 2 ^ (shift.toNat + 7) + v % 2 ^ 7 * 2 ^ shift.toNat := by
        grind
      have hroom : v % 2 ^ 7 * 2 ^ shift.toNat ≤ 127 * 2 ^ shift.toNat :=
        Nat.mul_le_mul_right _ (by omega)
      rw [cons_append, getVarint64Loop_more (by omega)]
      obtain ⟨w, hw, hval⟩ := ih (shift + 7) _ (v / 2 ^ 7) (by omega)
        (by rw [hsum, hshift, Nat.pow_add]; omega) (div_lt_of_lt_groups hk) (by rw [hshift]; omega)
      refine ⟨w, hw, ?_⟩
      rw [hval, hsum, hshift]
      omega

end Varint64

/-- **Varints are read back.** -/
theorem getVarint64_putVarint64 (v : UInt64) (rest : Slice) :
    getVarint64 (putVarint64 v ++ rest) = some (v, rest) := by
  obtain ⟨w, hw, hval⟩ := getVarint64Loop_varintBytes 0 0 9 v.toNat rest (by decide) (by decide)
    (v.toNat_lt.trans (by decide)) (by simpa using v.toNat_lt)
  grind [UInt64.toNat_inj, getVarint64, putVarint64, encodeVarint64_eq]

theorem getVarint32_putVarint32 (v : UInt32) (rest : Slice) :
    getVarint32 (putVarint32 v ++ rest) = some (v, rest) := by
  have hv := v.toNat_lt
  obtain ⟨w, hw, hval⟩ := getVarint64Loop_varintBytes 0 0 4 v.toNat rest (by decide) (by decide)
    (hv.trans (by decide)) (by simp; omega)
  grind [UInt32.toNat_inj, UInt64.toNat_toUInt32, getVarint32_eq, putVarint32_eq]

/-- More room does not change the encoding of a number. -/
theorem varintBytes_add {k v : ℕ} (hv : v < 2 ^ (7 * (k + 1))) (d : ℕ) :
    varintBytes (k + 1 + d) v = varintBytes (k + 1) v := by
  induction k generalizing v with
  | zero =>
    grind [varintBytes]
  | succ k ih =>
    grind [varintBytes]

theorem putVarint64_eq_putVarint32 {n : ℕ} (h : n < 2 ^ 32) :
    putVarint64 (.ofNat n) = putVarint32 (.ofNat n) := by
  have h64 : (UInt64.ofNat n).toNat = n := by
    rw [UInt64.toNat_ofNat']
    omega
  have h32 : (UInt32.ofNat n).toNat = n := by
    rw [UInt32.toNat_ofNat', Nat.mod_eq_of_lt h]
  rw [putVarint64, encodeVarint64_eq, putVarint32_eq, h64, h32]
  exact varintBytes_add (k := 4) (by omega) 5

/-- `VartintLength` is the number of bytes written. -/
theorem length_putVarint64 (v : UInt64) : (putVarint64 v).length = vartintLength v := by
  have hloop (n len : ℕ) (v : UInt64) :
      vartintLengthLoop n v len + 1 = len + (encodeVarint64 (n + 1) v).length := by
    induction n generalizing v len with
    | zero =>
      rw [vartintLengthLoop, encodeVarint64]
      split_ifs <;> rfl
    | succ n ih =>
      grind [vartintLengthLoop, encodeVarint64]
  grind [vartintLength, putVarint64]

/-- **Strings are read back** after their length, if this fits into 32 bits. -/
theorem getLengthPrefixedSlice_put {value : Slice} (h : value.length < 2 ^ 32) (rest : Slice) :
    getLengthPrefixedSlice (putLengthPrefixedSlice value ++ rest) = some (value, rest) := by
  have hlen : (UInt32.ofNat value.length).toNat = value.length := by
    rw [UInt32.toNat_ofNat']
    omega
  grind [getLengthPrefixedSlice, putLengthPrefixedSlice, getVarint32_putVarint32]

/-! ## Three lengths at once

An entry of a block starts with three varints; `DecodeEntry` tries first whether they are single bytes. -/

/-- The three lengths at the start of an entry, and what follows them. -/
structure EntryHeader where
  shared : UInt32
  nonShared : UInt32
  valueLength : UInt32
  rest : Slice

/-- Three varints. -/
def decodeHeader (p : Slice) : Option EntryHeader :=
  match getVarint32 p with
  | none => none
  | some (shared, p) =>
    match getVarint32 p with
    | none => none
    | some (nonShared, p) =>
      match getVarint32 p with
      | none => none
      | some (valueLength, p) => some ⟨shared, nonShared, valueLength, p⟩

/-- The lengths as `DecodeEntry` reads them: three single bytes, or three varints. -/
def decodeLengths : Slice → Option EntryHeader
  | b₀ :: b₁ :: b₂ :: p =>
    if b₀ ||| b₁ ||| b₂ < 128 then some ⟨b₀.toUInt32, b₁.toUInt32, b₂.toUInt32, p⟩
    else decodeHeader (b₀ :: b₁ :: b₂ :: p)
  | _ => none

/-- Each of the three lengths takes a byte. -/
theorem length_decodeHeader {p : Slice} {h : EntryHeader} (hd : decodeHeader p = some h) :
    h.rest.length + 3 ≤ p.length := by
  rw [decodeHeader] at hd
  cases h₁ : getVarint32 p with
  | none =>
    rw [h₁] at hd
    cases hd
  | some x =>
    obtain ⟨shared, p₁⟩ := x
    rw [h₁] at hd
    dsimp only at hd
    cases h₂ : getVarint32 p₁ with
    | none =>
      rw [h₂] at hd
      cases hd
    | some y =>
      obtain ⟨nonShared, p₂⟩ := y
      rw [h₂] at hd
      dsimp only at hd
      cases h₃ : getVarint32 p₂ with
      | none =>
        rw [h₃] at hd
        cases hd
      | some z =>
        obtain ⟨valueLength, p₃⟩ := z
        rw [h₃] at hd
        cases hd
        have l₁ := length_getVarint32 h₁
        have l₂ := length_getVarint32 h₂
        have l₃ := length_getVarint32 h₃
        dsimp only
        omega

/-- A small number is one byte. -/
theorem getVarint32_of_lt {b : UInt8} (hb : b < 128) (p : Slice) :
    getVarint32 (b :: p) = some (b.toUInt32, p) := by
  rw [getVarint32, if_pos]
  exact (and_128_eq_zero b).mpr (UInt8.lt_iff_toNat_lt.mp hb)

/-- **The fast path reads what the varints say.** -/
theorem decodeLengths_eq (p : Slice) : decodeLengths p = decodeHeader p := by
  have hshort : p.length < 3 → decodeHeader p = none := by
    intro hlen
    cases hd : decodeHeader p with
    | none => rfl
    | some h =>
      have := length_decodeHeader hd
      omega
  match p with
  | [] => exact (hshort (by simp)).symm
  | [_] => exact (hshort (by simp)).symm
  | [_, _] => exact (hshort (by simp)).symm
  | b₀ :: b₁ :: b₂ :: p =>
    rw [decodeLengths]
    split_ifs with hfast
    · have hor : b₀.toNat ||| b₁.toNat ||| b₂.toNat < 128 := by
        simpa [UInt8.lt_iff_toNat_lt] using hfast
      have h₀ : b₀ < 128 := UInt8.lt_iff_toNat_lt.mpr
        ((Nat.left_le_or.trans Nat.left_le_or).trans_lt hor)
      have h₁ : b₁ < 128 := UInt8.lt_iff_toNat_lt.mpr
        ((Nat.right_le_or.trans Nat.left_le_or).trans_lt hor)
      have h₂ : b₂ < 128 := UInt8.lt_iff_toNat_lt.mpr (Nat.right_le_or.trans_lt hor)
      grind [decodeHeader, getVarint32_of_lt]
    · rfl

/-- **The encoding of integers**: what is written is read back whatever follows it, the two encoders agree,
`VartintLength` counts the bytes, no proper beginning of an encoding is accepted, and the fast path of
`DecodeEntry` reads what the varints say. -/
theorem varint_agrees (v : UInt64) (w : UInt32) (rest p : Slice) :
    getVarint32 (putVarint32 w ++ rest) = some (w, rest) ∧
      getVarint64 (putVarint64 v ++ rest) = some (v, rest) ∧
      putVarint64 w.toUInt64 = putVarint32 w ∧
      (putVarint64 v).length = vartintLength v ∧ (putVarint32 w).length = vartintLength w.toUInt64 ∧
      (∀ beginning, beginning <+: putVarint32 w → beginning ≠ putVarint32 w → getVarint32 beginning = none) ∧
      (∀ beginning, beginning <+: putVarint64 v → beginning ≠ putVarint64 v → getVarint64 beginning = none) ∧
      decodeLengths p = decodeHeader p := by
  have hput : putVarint64 w.toUInt64 = putVarint32 w := by
    have h := putVarint64_eq_putVarint32 w.toNat_lt
    rwa [UInt32.ofNat_toNat, UInt64.ofNat_uInt32ToNat] at h
  have h32 := getVarint32_putVarint32 w []
  have h64 := getVarint64_putVarint64 v []
  rw [List.append_nil] at h32 h64
  refine ⟨getVarint32_putVarint32 w rest, getVarint64_putVarint64 v rest, hput, length_putVarint64 v, ?_,
    fun _ => eq_none_of_beginning getVarint32_front h32,
    fun _ => eq_none_of_beginning getVarint64Loop_front h64, decodeLengths_eq p⟩
  rw [← hput, length_putVarint64]

/-- The two bytes of 300 are read back, the first of them is not accepted. -/
theorem varint_agrees_300 : getVarint32 (putVarint32 300) = some (300, []) ∧
    getVarint64 [0xac] = none := by
  obtain ⟨h, -, -, -, -, -, hnone, -⟩ := varint_agrees 300 300 [] []
  exact ⟨h, hnone [0xac] (by decide) (by decide)⟩

end RocketDb
