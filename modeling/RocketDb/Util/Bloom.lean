import RocketDb.Format.Coding

/-! # The Bloom filter (`util/bloom.cc`, `util/hash.cc`)

A key is added by setting the bits its probes fall on, and may be in the filter if they are all set. Writer
and reader get the size of the array and the number of probes from different places, so what has to be shown
is that these agree and that bits stay set.

* **`bloom_no_false_negatives`** — a key that was added may be in the filter. -/

namespace RocketDb

open List

/-! ## Hashing -/

/-- The end of `Hash`: up to three bytes. -/
def hashTail (h : UInt32) (data : Slice) : UInt32 :=
  match data with
  | [] => h
  | d₀ :: rest =>
    -- the cases of the switch fall through from the last byte to the first
    let h := match rest with
      | [] => h
      | [d₁] => h + (d₁.toUInt32 <<< 8)
      | d₁ :: d₂ :: _ => h + (d₂.toUInt32 <<< 16) + (d₁.toUInt32 <<< 8)
    let h := (h + d₀.toUInt32) * 0xc6a4a793
    h ^^^ (h >>> 24)

/-- The loop of `Hash`: four bytes a round. -/
def hashLoop (h : UInt32) : Slice → UInt32
  | d₀ :: d₁ :: d₂ :: d₃ :: data =>
    let h := (h + decodeFixed32 [d₀, d₁, d₂, d₃]) * 0xc6a4a793
    hashLoop (h ^^^ (h >>> 16)) data
  | data => hashTail h data

/-- `Hash`. -/
def hash (data : Slice) (seed : UInt32) : UInt32 :=
  hashLoop (seed ^^^ (UInt32.ofNat data.length * 0xc6a4a793)) data

/-- `BloomHash`. -/
def bloomHash (key : Slice) : UInt32 := hash key 0xbc9f1d34

/-- The step from one probe to the next: the hash, rotated. -/
def bloomDelta (h : UInt32) : UInt32 := (h >>> 17) ||| (h <<< 15)

/-! ## Bit arrays -/

/-- `1 << (bitpos % 8)`. -/
def bitMask (bitpos : ℕ) : UInt8 := 1 <<< UInt8.ofNat (bitpos % 8)

/-- `array[bitpos / 8] |= 1 << (bitpos % 8)`. -/
def setBit (array : Slice) (bitpos : ℕ) : Slice := array.modify (bitpos / 8) (· ||| bitMask bitpos)

/-- `array[bitpos / 8] & (1 << (bitpos % 8))` is not 0. -/
def hasBit (array : Slice) (bitpos : ℕ) : Bool := array.getD (bitpos / 8) 0 &&& bitMask bitpos != 0

/-! ## The policy -/

/-- `BloomFilterPolicy`. The number of keys and of bits a key are C++ `int`s, so that their product is far
from 64 bits. -/
structure BloomFilterPolicy where
  bitsPerKey : ℕ
  k : ℕ

namespace BloomFilterPolicy

/-- `BloomFilterPolicy::BloomFilterPolicy`. The product with 0.69 is one of floating-point numbers; it is cut
to the same integer as the exact one, as far as it is below 30. -/
def new (bitsPerKey : ℕ) : BloomFilterPolicy :=
  let k := bitsPerKey * 69 / 100
  let k := if k < 1 then 1 else k
  let k := if 30 < k then 30 else k
  ⟨bitsPerKey, k⟩

/-- The inner loop of `CreateFilter`: set the bits of one key. -/
def addProbes (bits : ℕ) (delta : UInt32) : ℕ → UInt32 → Slice → Slice
  | 0, _, array => array
  | j + 1, h, array => addProbes bits delta j (h + delta) (setBit array (h.toNat % bits))

/-- One round of the outer loop of `CreateFilter`. -/
def addKey (bits k : ℕ) (array : Slice) (key : Slice) : Slice :=
  let h := bloomHash key
  addProbes bits (bloomDelta h) k h array

/-- The bytes of a filter for `n` keys, without the last one. -/
def filterBytes (p : BloomFilterPolicy) (n : ℕ) : ℕ :=
  let bits := n * p.bitsPerKey
  let bits := if bits < 64 then 64 else bits
  (bits + 7) / 8

/-- `CreateFilter`: `dst` afterwards. -/
def createFilter (p : BloomFilterPolicy) (keys : List Slice) (dst : Slice) : Slice :=
  let bytes := p.filterBytes keys.length
  let bits := bytes * 8
  let array := List.replicate bytes 0 ++ [UInt8.ofNat p.k]
  dst ++ keys.foldl (addKey bits p.k) array

/-- The loop of `KeyMayMatch`. -/
def testProbes (bits : ℕ) (delta : UInt32) (array : Slice) : ℕ → UInt32 → Bool
  | 0, _ => true
  | j + 1, h =>
    if hasBit array (h.toNat % bits) = false then false else testProbes bits delta array j (h + delta)

/-- `KeyMayMatch`. -/
def keyMayMatch (key : Slice) (bloomFilter : Slice) : Bool :=
  let len := bloomFilter.length
  if len < 2 then false
  else
    let bits := (len - 1) * 8
    let k := (bloomFilter.getD (len - 1) 0).toNat
    if 30 < k then true
    else
      let h := bloomHash key
      testProbes bits (bloomDelta h) bloomFilter k h

end BloomFilterPolicy

/-- `FilterPolicy`. -/
structure FilterPolicy where
  /-- `Name`. -/
  name : Slice
  /-- `CreateFilter`: what it appends for the keys. -/
  createFilter : List Slice → Slice
  /-- `KeyMayMatch`. -/
  keyMayMatch : Slice → Slice → Bool

/-- `NewBloomFilterPolicy`. -/
def newBloomFilterPolicy (bitsPerKey : ℕ) : FilterPolicy where
  name := ascii "rockedb.BuiltinBloomFilter"
  createFilter keys := (BloomFilterPolicy.new bitsPerKey).createFilter keys []
  keyMayMatch := BloomFilterPolicy.keyMayMatch

/-! ## Bits stay set -/

section Bits

variable {array : Slice} {p q : ℕ}

@[simp] theorem length_setBit : (setBit array p).length = array.length := length_modify ..

theorem bitMask_ne_zero (p : ℕ) : bitMask p ≠ 0 := by
  have hall : ∀ i < 8, (1 : UInt8) <<< UInt8.ofNat i ≠ 0 := by decide
  exact hall (p % 8) (Nat.mod_lt p (by decide))

theorem getD_setBit_of_ne {i : ℕ} (h : p / 8 ≠ i) : (setBit array p).getD i 0 = array.getD i 0 := by
  rw [getD_eq_getElem?_getD, setBit, getElem?_modify, getD_eq_getElem?_getD]
  simp only [if_neg h, id_map']

theorem getD_setBit_self (h : p / 8 < array.length) :
    (setBit array p).getD (p / 8) 0 = array.getD (p / 8) 0 ||| bitMask p := by
  rw [getD_eq_getElem?_getD, setBit, getElem?_modify, getElem?_eq_getElem h, getD_eq_getElem _ _ h]
  simp only [if_pos, Option.map_eq_map, Option.map_some, Option.getD_some]

theorem or_and_distrib (a b c : UInt8) : (a ||| b) &&& c = (a &&& c) ||| (b &&& c) := by
  apply UInt8.eq_of_toBitVec_eq
  ext i
  simp [Bool.and_or_distrib_right]

theorem hasBit_setBit_of_hasBit (hq : hasBit array q = true) : hasBit (setBit array p) q = true := by
  rw [hasBit, bne_iff_ne] at hq ⊢
  by_cases h : p / 8 = q / 8
  · -- the byte exists, since it has a bit
    have hlt : p / 8 < array.length := by
      by_contra hge
      rw [← h, getD_eq_default _ _ (Nat.le_of_not_lt hge)] at hq
      exact hq UInt8.zero_and
    rw [← h, getD_setBit_self hlt, or_and_distrib, Ne, UInt8.or_eq_zero_iff]
    rw [← h] at hq
    exact fun hzero => hq hzero.1
  · rwa [getD_setBit_of_ne h]

theorem hasBit_setBit_self (h : p / 8 < array.length) : hasBit (setBit array p) p = true := by
  grind [hasBit, getD_setBit_self, or_and_distrib, UInt8.or_eq_zero_iff, bitMask_ne_zero]

end Bits

/-! ## One key -/

namespace BloomFilterPolicy

variable {bits k j q : ℕ} {delta h : UInt32} {array key : Slice}

@[simp] theorem length_addProbes : (addProbes bits delta j h array).length = array.length := by
  induction j generalizing h array with
  | zero => rfl
  | succ j ih => rw [addProbes, ih, length_setBit]

theorem hasBit_addProbes (hq : hasBit array q = true) : hasBit (addProbes bits delta j h array) q = true := by
  induction j generalizing h array with
  | zero => exact hq
  | succ j ih => exact ih (hasBit_setBit_of_hasBit hq)

theorem getD_addProbes {bytes : ℕ} (hbytes : 0 < bytes) :
    (addProbes (bytes * 8) delta j h array).getD bytes 0 = array.getD bytes 0 := by
  induction j generalizing h array with
  | zero => rfl
  | succ j ih =>
    have hlt : h.toNat % (bytes * 8) < bytes * 8 := Nat.mod_lt _ (by omega)
    rw [addProbes, ih, getD_setBit_of_ne (by omega)]

theorem testProbes_mono {array' : Slice} (hle : ∀ q, hasBit array q = true → hasBit array' q = true)
    (htest : testProbes bits delta array j h = true) : testProbes bits delta array' j h = true := by
  induction j generalizing h with
  | zero => rfl
  | succ j ih =>
    grind [testProbes]

theorem testProbes_addProbes (hpos : 0 < bits) (hlen : bits ≤ array.length * 8) :
    testProbes bits delta (addProbes bits delta j h array) j h = true := by
  induction j generalizing h array with
  | zero => rfl
  | succ j ih =>
    have hlt : h.toNat % bits < bits := Nat.mod_lt _ hpos
    grind [addProbes, hasBit_addProbes, hasBit_setBit_self, testProbes, length_setBit]

/-! ## All keys -/

theorem hasBit_foldl_addKey (keys : List Slice) (hq : hasBit array q = true) :
    hasBit (keys.foldl (addKey bits k) array) q = true := by
  induction keys generalizing array with
  | nil => exact hq
  | cons key keys ih => exact ih (hasBit_addProbes hq)

theorem length_foldl_addKey (keys : List Slice) :
    (keys.foldl (addKey bits k) array).length = array.length := by
  induction keys generalizing array with
  | nil => rfl
  | cons key keys ih => rw [foldl_cons, ih, addKey, length_addProbes]

theorem getD_foldl_addKey {bytes : ℕ} (hbytes : 0 < bytes) (keys : List Slice) :
    (keys.foldl (addKey (bytes * 8) k) array).getD bytes 0 = array.getD bytes 0 := by
  induction keys generalizing array with
  | nil => rfl
  | cons key keys ih => rw [foldl_cons, ih, addKey, getD_addProbes hbytes]

/-- **The probes of every key are there at the end**, since later keys only add bits. -/
theorem testProbes_foldl_addKey {keys : List Slice} (hpos : 0 < bits) (hlen : bits ≤ array.length * 8)
    (hkey : key ∈ keys) :
    testProbes bits (bloomDelta (bloomHash key)) (keys.foldl (addKey bits k) array) k
      (bloomHash key) = true := by
  obtain ⟨before, after, rfl⟩ := append_of_mem hkey
  rw [foldl_append, foldl_cons]
  apply testProbes_mono (fun q hq => hasBit_foldl_addKey after hq)
  exact testProbes_addProbes hpos (by rwa [length_foldl_addKey])

theorem k_new_range (bitsPerKey : ℕ) : 1 ≤ (new bitsPerKey).k ∧ (new bitsPerKey).k ≤ 30 := by
  simp only [new]
  split_ifs <;> omega

theorem filterBytes_pos (p : BloomFilterPolicy) (n : ℕ) : 8 ≤ p.filterBytes n := by
  simp only [filterBytes]
  split_ifs <;> omega

end BloomFilterPolicy

open BloomFilterPolicy in
/-- **The Bloom filter has no false negatives.** `CreateFilter` appends to what is there, and what it appends
matches every key. -/
theorem bloom_no_false_negatives (bitsPerKey : ℕ) (keys : List Slice) (dst : Slice) :
    ∃ filter, (BloomFilterPolicy.new bitsPerKey).createFilter keys dst = dst ++ filter ∧
      ∀ key ∈ keys, keyMayMatch key filter = true := by
  refine ⟨_, rfl, fun key hkey => ?_⟩
  obtain ⟨-, hk⟩ := k_new_range bitsPerKey
  have hbytes := filterBytes_pos (BloomFilterPolicy.new bitsPerKey) keys.length
  generalize (BloomFilterPolicy.new bitsPerKey).filterBytes keys.length = bytes at hbytes ⊢
  generalize (BloomFilterPolicy.new bitsPerKey).k = k at hk ⊢
  have hlen : (List.replicate bytes (0 : UInt8) ++ [UInt8.ofNat k]).length = bytes + 1 := by
    rw [length_append, length_replicate, length_singleton]
  -- the reader finds the number of probes in the last byte, and the size of the array from the length
  have hlast : (List.replicate bytes (0 : UInt8) ++ [UInt8.ofNat k]).getD bytes 0 = UInt8.ofNat k := by
    rw [getD_append_right _ _ _ _ (by rw [length_replicate]), length_replicate, Nat.sub_self]
    rfl
  have htoNat : (UInt8.ofNat k).toNat = k :=
    UInt8.toNat_ofNat_of_lt' (Nat.lt_of_le_of_lt hk (by decide))
  rw [keyMayMatch]
  simp only [length_foldl_addKey, hlen, Nat.add_sub_cancel, getD_foldl_addKey (by omega : 0 < bytes), hlast,
    htoNat]
  rw [if_neg (by omega), if_neg (by omega)]
  exact testProbes_foldl_addKey (by omega) (by rw [hlen]; omega) hkey

end RocketDb
