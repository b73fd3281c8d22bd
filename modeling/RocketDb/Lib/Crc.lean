import Mathlib.Data.List.GetD
import Mathlib.Data.UInt
import Mathlib.Logic.Function.Iterate

/-! # Cyclic redundancy checks as linear maps

The remainder of a reflected 32-bit CRC is advanced by shifting and reducing with the polynomial. All such
maps are **linear** for exclusive or, and what a table-driven implementation does follows from that.

* **`byteStep`** — eight shifts; `byteStep_split` is the table method.
* **`feed`** — one byte of input; `feed_word` feeds four bytes at once.
* **`Strides`** — four interleaved remainders; `combine_push`: the combined remainder does not notice. -/

namespace Crc

open List

/-- A map that respects exclusive or. -/
def Linear (f : UInt32 → UInt32) : Prop := ∀ x y, f (x ^^^ y) = f x ^^^ f y

variable {f : UInt32 → UInt32}

theorem Linear.map_zero (hf : Linear f) : f 0 = 0 := by
  have h := hf 0 0
  rwa [UInt32.xor_self, UInt32.xor_self] at h

theorem Linear.comp {f g : UInt32 → UInt32} (hf : Linear f) (hg : Linear g) : Linear (f ∘ g) :=
  fun x y => by simp only [Function.comp, hg x y, hf (g x) (g y)]

theorem Linear.iterate (hf : Linear f) (n : ℕ) : Linear f^[n] := by
  induction n with
  | zero => exact fun _ _ => rfl
  | succ n ih =>
    rw [Function.iterate_succ]
    exact ih.comp hf

/-! ## Tables -/

/-- All exclusive ors of some of the given values, in the order of the binary numbers. -/
def spanTable (values : List UInt32) : List UInt32 := values.foldl (fun t v => t ++ t.map (· ^^^ v)) [0]

theorem xor_two_pow {n j : ℕ} (h : j < 2 ^ n) : j ^^^ 2 ^ n = 2 ^ n + j := by
  have hor : 2 ^ n + j = 2 ^ n ||| j := by simpa using Nat.two_pow_add_eq_or_of_lt h 1
  refine Nat.eq_of_testBit_eq fun i => ?_
  grind [Nat.testBit_lt_two_pow]

/-- **The table of a linear map** is given by its values on the bits. -/
theorem spanTable_spec (hf : Linear f) (n : ℕ) :
    (spanTable ((List.range n).map fun k => f (UInt32.ofNat (2 ^ k)))).length = 2 ^ n ∧
      ∀ i < 2 ^ n, (spanTable ((List.range n).map fun k => f (UInt32.ofNat (2 ^ k)))).getD i 0 =
        f (UInt32.ofNat i) := by
  induction n with
  | zero =>
    refine ⟨rfl, fun i hi => ?_⟩
    obtain rfl : i = 0 := by omega
    exact hf.map_zero.symm
  | succ n ih =>
    obtain ⟨hlen, hval⟩ := ih
    rw [range_succ, map_append, spanTable, foldl_append]
    simp only [map_cons, map_nil, foldl_cons, foldl_nil]
    rw [spanTable] at hlen hval
    refine ⟨by rw [length_append, length_map, hlen, pow_succ]; omega, fun i hi => ?_⟩
    rcases Nat.lt_or_ge i (2 ^ n) with hlt | hge
    · rw [getD_append _ _ _ _ (hlen ▸ hlt), hval i hlt]
    · -- the upper half holds the values with the new bit
      rw [getD_append_right _ _ _ _ (hlen ▸ hge), hlen]
      have hlt : i - 2 ^ n < 2 ^ n := by rw [pow_succ] at hi; omega
      have hi' : i - 2 ^ n ^^^ 2 ^ n = i := by rw [xor_two_pow hlt]; omega
      have hget := hval _ hlt
      rw [getD_eq_getElem _ _ (by rw [hlen]; exact hlt)] at hget
      rw [getD_eq_getElem _ _ (by rw [length_map, hlen]; exact hlt), getElem_map, hget,
        ← hf, ← UInt32.ofNat_xor, hi']

/-- A table that is the span of its entries for the bits, and right there, is right everywhere. -/
theorem getD_eq_of_span (hf : Linear f) {t : List UInt32}
    (hspan : spanTable ((List.range 8).map fun k => t.getD (2 ^ k) 0) = t)
    (hbits : ∀ k < 8, t.getD (2 ^ k) 0 = f (UInt32.ofNat (2 ^ k))) {i : ℕ} (hi : i < 256) :
    t.getD i 0 = f (UInt32.ofNat i) := by
  have hmap : ((List.range 8).map fun k => t.getD (2 ^ k) 0) =
      (List.range 8).map fun k => f (UInt32.ofNat (2 ^ k)) :=
    map_congr_left fun k hk => hbits k (mem_range.mp hk)
  rw [← hspan, hmap]
  exact (spanTable_spec hf 8).2 i hi

/-! ## One bit and one byte -/

/-- One shift of the remainder. -/
def bitStep (poly x : UInt32) : UInt32 := if x &&& 1 = 0 then x >>> 1 else x >>> 1 ^^^ poly

/-- Eight shifts. -/
def byteStep (poly : UInt32) : UInt32 → UInt32 := (bitStep poly)^[8]

theorem and_one_eq (x : UInt32) :
    x &&& 1 = if x.toBitVec.getLsbD 0 then 1 else 0 := by
  rw [← UInt32.toBitVec_inj, UInt32.toBitVec_and]
  have h : (x.toBitVec &&& 1#32) = BitVec.setWidth 32 (BitVec.ofBool (x.toBitVec.getLsbD 0)) :=
    BitVec.and_one_eq_setWidth_ofBool_getLsbD
  cases hx : x.toBitVec.getLsbD 0 <;> rw [hx] at h <;> exact h

theorem bitStep_eq (poly x : UInt32) :
    bitStep poly x = x >>> 1 ^^^ if x.toBitVec.getLsbD 0 then poly else 0 := by
  rw [bitStep, and_one_eq]
  cases x.toBitVec.getLsbD 0 <;> simp

theorem bitStep_linear (poly : UInt32) : Linear (bitStep poly) := by
  intro x y
  rw [bitStep_eq, bitStep_eq, bitStep_eq, UInt32.shiftRight_xor, UInt32.toBitVec_xor, BitVec.getLsbD_xor]
  cases x.toBitVec.getLsbD 0 <;> cases y.toBitVec.getLsbD 0
  · simp
  · simp [UInt32.xor_assoc]
  · simp
    ac_rfl
  · -- the polynomial cancels
    have hcancel : x >>> 1 ^^^ poly ^^^ (y >>> 1 ^^^ poly) = x >>> 1 ^^^ y >>> 1 ^^^ (poly ^^^ poly) := by
      ac_rfl
    simpa using hcancel.symm

theorem byteStep_linear (poly : UInt32) : Linear (byteStep poly) := (bitStep_linear poly).iterate 8

theorem bitStep_iterate_of_low (poly x : UInt32) (n : ℕ) (hn : n ≤ 8)
    (h : ∀ i < n, x.toBitVec.getLsbD i = false) :
    ((bitStep poly)^[n] x).toBitVec = x.toBitVec >>> n := by
  induction n with
  | zero => simp
  | succ n ih =>
    rw [Function.iterate_succ_apply', bitStep_eq]
    have hprev := ih (by omega) fun i hi => h i (by omega)
    have hlow : ((bitStep poly)^[n] x).toBitVec.getLsbD 0 = false := by
      rw [hprev]
      simpa using h n (by omega)
    rw [hlow, UInt32.toBitVec_xor, UInt32.toBitVec_shiftRight, hprev]
    simp [BitVec.shiftRight_add]

theorem getLsbD_255 (i : ℕ) : (255#32).getLsbD i = decide (i < 8) := by
  rw [BitVec.getLsbD_ofNat, show (255 : ℕ) = 2 ^ 8 - 1 from rfl, Nat.testBit_two_pow_sub_one]
  grind

/-- **The table method**: one lookup for the low byte and a shift for the others. -/
theorem byteStep_split (poly x : UInt32) :
    byteStep poly x = byteStep poly (x &&& 0xff) ^^^ x >>> 8 := by
  -- the low byte and the rest are advanced on their own
  let high := x ^^^ (x &&& 0xff)
  have hbit : ∀ i, high.toBitVec.getLsbD i = (x.toBitVec.getLsbD i && !decide (i < 8)) := by
    intro i
    have : high.toBitVec = x.toBitVec ^^^ (x.toBitVec &&& 255#32) := rfl
    grind [getLsbD_255]
  have hhigh : byteStep poly high = x >>> 8 := by
    rw [← UInt32.toBitVec_inj, byteStep, bitStep_iterate_of_low poly high 8 le_rfl fun i hi => by
      simp [hbit, hi]]
    refine BitVec.eq_of_getLsbD_eq fun i hi => ?_
    simp [hbit]
  have hsplit : x = (x &&& 0xff) ^^^ high := by
    grind [UInt32.xor_comm, UInt32.xor_assoc, UInt32.xor_self]
  calc byteStep poly x = byteStep poly ((x &&& 0xff) ^^^ high) := by rw [← hsplit]
    _ = byteStep poly (x &&& 0xff) ^^^ x >>> 8 := by rw [byteStep_linear, hhigh]

/-! ## Words -/

/-- The byte of a word at a bit position. -/
def byteAt (x k : UInt32) : UInt32 := (x >>> k) &&& 255

theorem getLsbD_byte (x : BitVec 32) (k i : ℕ) (hi : i < 32) :
    ((x >>> k &&& 255#32) <<< k).getLsbD i = (x.getLsbD i && decide (k ≤ i ∧ i < k + 8)) := by
  grind [getLsbD_255]

theorem xor_bytes (x : UInt32) :
    byteAt x 0 ^^^ (byteAt x 8 <<< (8 : UInt32)) ^^^ (byteAt x 16 <<< (16 : UInt32)) ^^^
      (byteAt x 24 <<< (24 : UInt32)) = x := by
  rw [← UInt32.toBitVec_inj]
  refine BitVec.eq_of_getLsbD_eq fun i hi => ?_
  have hbits : (byteAt x 0 ^^^ (byteAt x 8 <<< (8 : UInt32)) ^^^ (byteAt x 16 <<< (16 : UInt32)) ^^^
      (byteAt x 24 <<< (24 : UInt32))).toBitVec =
        (x.toBitVec >>> 0 &&& 255#32) <<< 0 ^^^ (x.toBitVec >>> 8 &&& 255#32) <<< 8 ^^^
          (x.toBitVec >>> 16 &&& 255#32) <<< 16 ^^^ (x.toBitVec >>> 24 &&& 255#32) <<< 24 := by
    simp [byteAt]
  -- exactly one of the four bytes holds the bit
  grind [getLsbD_byte]

/-- An advance of the remainder by one byte. -/
structure Advance (adv : UInt32 → UInt32) : Prop where
  linear : Linear adv
  /-- A clear low byte is shifted out. -/
  shift : ∀ x, x &&& 0xff = 0 → adv x = x >>> 8

theorem byteStep_advance (poly : UInt32) : Advance (byteStep poly) where
  linear := byteStep_linear poly
  shift x hx := by rw [byteStep_split, hx, (byteStep_linear poly).map_zero, UInt32.zero_xor]

/-- One byte of input. -/
def feed (adv : UInt32 → UInt32) (l : UInt32) (b : UInt8) : UInt32 := adv (l ^^^ b.toUInt32)

section Words

variable {adv : UInt32 → UInt32}

theorem byteAt_lt (x k : UInt32) : (byteAt x k).toNat < 256 := by
  rw [byteAt, UInt32.toNat_and]
  exact Nat.lt_of_le_of_lt Nat.and_le_right (by decide)

theorem toUInt32_toUInt8 (x k : UInt32) : (x >>> k).toUInt8.toUInt32 = byteAt x k := by
  rw [← UInt32.toNat_inj, byteAt, UInt32.toNat_and]
  simp only [UInt8.toNat_toUInt32, UInt32.toNat_toUInt8]
  exact (Nat.and_two_pow_sub_one_eq_mod _ 8).symm

theorem Advance.xor_byte (h : Advance adv) (x w k : UInt32) {j : UInt32}
    (hj : j = 0 ∨ j = 8 ∨ j = 16) :
    adv (x ^^^ (byteAt w k <<< (j + 8))) = adv x ^^^ (byteAt w k <<< j) := by
  have hb := byteAt_lt w k
  generalize byteAt w k = b at hb ⊢
  have hlow : (b <<< (j + 8)) &&& 0xff = 0 := by
    rw [← UInt32.toNat_inj, UInt32.toNat_and, UInt32.toNat_shiftLeft]
    refine (Nat.and_two_pow_sub_one_eq_mod _ 8).trans ?_
    rcases hj with rfl | rfl | rfl <;> simp [Nat.shiftLeft_eq] <;> omega
  have hdown : (b <<< (j + 8)) >>> 8 = b <<< j := by
    rw [← UInt32.toNat_inj, UInt32.toNat_shiftRight, UInt32.toNat_shiftLeft, UInt32.toNat_shiftLeft]
    rcases hj with rfl | rfl | rfl <;> simp [Nat.shiftLeft_eq, Nat.shiftRight_eq_div_pow] <;> omega
  rw [h.linear, h.shift _ hlow, hdown]

/-- **Four bytes at once.** -/
theorem feed_word (h : Advance adv) (l w : UInt32) :
    [w.toUInt8, (w >>> 8).toUInt8, (w >>> 16).toUInt8, (w >>> 24).toUInt8].foldl (feed adv) l =
      adv^[4] (l ^^^ w) := by
  have h0 : w.toUInt8.toUInt32 = byteAt w 0 := by simpa using toUInt32_toUInt8 w 0
  have hone : ∀ x k, adv (x ^^^ (byteAt w k <<< (8 : UInt32))) = adv x ^^^ byteAt w k := fun x k => by
    simpa using h.xor_byte x w k (Or.inl rfl)
  have htwo : ∀ x k, adv (x ^^^ (byteAt w k <<< (16 : UInt32))) =
      adv x ^^^ (byteAt w k <<< (8 : UInt32)) := fun x k => by
    have := h.xor_byte x w k (Or.inr (Or.inl rfl))
    rwa [show (8 + 8 : UInt32) = 16 by decide] at this
  have hthree : ∀ x k, adv (x ^^^ (byteAt w k <<< (24 : UInt32))) =
      adv x ^^^ (byteAt w k <<< (16 : UInt32)) := fun x k => by
    have := h.xor_byte x w k (Or.inr (Or.inr rfl))
    rwa [show (16 + 8 : UInt32) = 24 by decide] at this
  have hw : l ^^^ w = (l ^^^ byteAt w 0) ^^^ (byteAt w 8 <<< (8 : UInt32)) ^^^
      (byteAt w 16 <<< (16 : UInt32)) ^^^ (byteAt w 24 <<< (24 : UInt32)) := by
    grind [xor_bytes]
  -- each advance takes in one byte and moves the others down
  grind [feed, toUInt32_toUInt8, Function.iterate_succ_apply, Function.iterate_zero_apply]

end Words

/-! ## Strides -/

/-- Four interleaved remainders, the oldest first. -/
structure Strides where
  c0 : UInt32
  c1 : UInt32
  c2 : UInt32
  c3 : UInt32

/-- The remainder they stand for. -/
def Strides.combine (adv : UInt32 → UInt32) (s : Strides) : UInt32 :=
  adv^[16] s.c0 ^^^ adv^[12] s.c1 ^^^ adv^[8] s.c2 ^^^ adv^[4] s.c3

/-- The next word goes to the oldest remainder, which becomes the newest. -/
def Strides.push (adv : UInt32 → UInt32) (s : Strides) (w : UInt32) : Strides :=
  ⟨s.c1, s.c2, s.c3, w ^^^ adv^[16] s.c0⟩

/-- **Pushing a word feeds it.** -/
theorem Strides.combine_push {adv : UInt32 → UInt32} (h : Advance adv) (s : Strides) (w : UInt32) :
    (s.push adv w).combine adv = adv^[4] (s.combine adv ^^^ w) := by
  have hlin := h.linear.iterate 4
  simp only [combine, push, hlin _ _, ← Function.iterate_add_apply]
  ac_rfl

theorem Strides.foldl_eq_combine {adv : UInt32 → UInt32} (h : Advance adv) (s : Strides) :
    [s.c0, s.c1, s.c2, s.c3].foldl (fun l c => adv^[4] (c ^^^ l)) 0 = s.combine adv := by
  have hlin := h.linear.iterate 4
  simp only [foldl_cons, foldl_nil, UInt32.xor_zero]
  simp only [combine, hlin _ _, ← Function.iterate_add_apply]
  ac_rfl

end Crc
