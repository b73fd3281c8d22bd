import Mathlib.Data.Nat.ModEq
import Mathlib.Order.Nat

/-! # Random numbers (`util/random.h`)

`Random::Next` is meant to multiply by 16807 modulo `2 ^ 31 - 1`. The product of seed and factor is a 32-bit
number, so its high bits are lost before the halves are added: the map that is iterated agrees with the one
intended exactly where the product fits (`Random.next_eq_iff`), and can be inverted up to two choices
(`eq_of_nextNat_eq`). -/

namespace RocketDb

/-- `Random`. -/
structure Random where
  seed : UInt32
  deriving DecidableEq, Repr

namespace Random

/-- `Random::Random`. -/
def new (s : UInt32) : Random :=
  let seed := s &&& 0x7fffffff
  ⟨if seed = 0 ∨ seed = 2147483647 then 1 else seed⟩

/-- `Random::Next`: the generator after the draw; the draw is its seed. The product is one of 32-bit
numbers. -/
def next (r : Random) : Random :=
  let product : UInt64 := (r.seed * 16807).toUInt64
  let seed := ((product >>> 31) + (product &&& 2147483647)).toUInt32
  ⟨if 2147483647 < seed then seed - 2147483647 else seed⟩

/-- `Random::Uniform`: the number and the generator. -/
def uniform (n : UInt32) (r : Random) : UInt32 × Random := (r.next.seed % n, r.next)

/-- `Random::OneIn`. -/
def oneIn (n : UInt32) (r : Random) : Bool × Random := (r.next.seed % n == 0, r.next)

end Random

/-! ## Draws as numbers -/

/-- `Next` on natural numbers. -/
def nextNat (s : ℕ) : ℕ :=
  let product := s * 16807 % 2 ^ 32
  let seed := product / 2 ^ 31 + product % 2 ^ 31
  if 2147483647 < seed then seed - 2147483647 else seed

theorem Random.toNat_next (r : Random) : r.next.seed.toNat = nextNat r.seed.toNat := by
  have hmask (p : UInt64) : (p &&& 2147483647).toNat = p.toNat % 2 ^ 31 := by
    rw [UInt64.toNat_and]
    exact Nat.and_two_pow_sub_one_eq_mod p.toNat 31
  have hproduct : (r.seed * 16807).toUInt64.toNat = r.seed.toNat * 16807 % 2 ^ 32 := by
    rw [UInt32.toNat_toUInt64, UInt32.toNat_mul]
    rfl
  have hsum : ((r.seed * 16807).toUInt64 >>> 31 +
      ((r.seed * 16807).toUInt64 &&& 2147483647)).toUInt32.toNat =
      r.seed.toNat * 16807 % 2 ^ 32 / 2 ^ 31 + r.seed.toNat * 16807 % 2 ^ 32 % 2 ^ 31 := by
    grind [UInt64.toNat_toUInt32, UInt64.toNat_add, UInt64.toNat_shiftRight,
      Nat.shiftRight_eq_div_pow]
  rw [next, nextNat]
  grind [UInt32.toNat_sub_of_le, UInt32.lt_iff_toNat_lt]

theorem nextNat_range {s : ℕ} (hpos : 0 < s) (hle : s ≤ 2147483647) :
    0 < nextNat s ∧ nextNat s ≤ 2147483647 := by
  have hne : s * 16807 % 2 ^ 32 ≠ 0 := by
    intro h0
    have hdvd := Nat.Coprime.dvd_of_dvd_mul_right (by decide) (Nat.dvd_of_mod_eq_zero h0)
    exact absurd ((Nat.le_of_dvd hpos hdvd).trans hle) (by decide)
  have hlt : s * 16807 % 2 ^ 32 < 2 ^ 32 := Nat.mod_lt _ (by decide)
  rw [nextNat]
  generalize s * 16807 % 2 ^ 32 = product at hne hlt ⊢
  split_ifs <;> omega

theorem Random.new_range (s : UInt32) :
    0 < (Random.new s).seed.toNat ∧ (Random.new s).seed.toNat ≤ 2147483647 := by
  have hmask : (s &&& 0x7fffffff).toNat = s.toNat % 2 ^ 31 := by
    rw [UInt32.toNat_and]
    exact Nat.and_two_pow_sub_one_eq_mod s.toNat 31
  rw [new]
  simp only
  split_ifs with h
  · decide
  · have hzero : (s &&& 0x7fffffff).toNat ≠ 0 := fun h0 => h (.inl (UInt32.toNat_inj.mp h0))
    rw [hmask] at hzero ⊢
    omega

/-- The factor that undoes a multiplication by 16807. -/
def inverseFactor : ℕ := 1278498327

/-- **Where a draw comes from**: the halves of the product are known up to the carry. -/
theorem eq_of_nextNat_eq {s y : ℕ} (hpos : 0 < s) (hle : s ≤ 2147483647) (hy : nextNat s = y) (hone : y ≠ 1) :
    s = y * inverseFactor % 2 ^ 32 ∨ s = (2 ^ 31 + y - 1) * inverseFactor % 2 ^ 32 := by
  have hinv : s = s * 16807 % 2 ^ 32 * inverseFactor % 2 ^ 32 := by
    rw [Nat.mod_mul_mod, Nat.mul_assoc, Nat.mul_mod, show 16807 * inverseFactor % 2 ^ 32 = 1 from rfl,
      Nat.mul_one, Nat.mod_mod, Nat.mod_eq_of_lt (by omega)]
  have hproduct : s * 16807 % 2 ^ 32 = y ∨ s * 16807 % 2 ^ 32 = 2 ^ 31 + y - 1 := by
    have hlt : s * 16807 % 2 ^ 32 < 2 ^ 32 := Nat.mod_lt _ (by decide)
    rw [nextNat] at hy
    generalize s * 16807 % 2 ^ 32 = product at hy hlt ⊢
    split_ifs at hy with hcarry
    · omega
    · rcases Nat.lt_or_ge product (2 ^ 31) with hlow | hhigh
      · left
        omega
      · right
        omega
  rcases hproduct with h | h
  · rw [h] at hinv
    exact .inl hinv
  · rw [h] at hinv
    exact .inr hinv

/-! ## Draws and the multiplication modulo `2 ^ 31 - 1` -/

theorem nextNat_modEq (s : ℕ) : nextNat s ≡ s * 16807 % 2 ^ 32 [MOD 2147483647] := by
  rw [nextNat]
  generalize s * 16807 % 2 ^ 32 = product
  have hsum : product / 2 ^ 31 + product % 2 ^ 31 ≡ product [MOD 2147483647] :=
    (Nat.modEq_iff_dvd' (by omega)).mpr ⟨product / 2 ^ 31, by omega⟩
  split_ifs with hlt
  · exact ((Nat.modEq_iff_dvd' (by omega)).mpr ⟨1, by omega⟩).trans hsum
  · exact hsum

/-- A draw is the multiplication modulo `2 ^ 31 - 1` exactly where the product fits into 32 bits. -/
theorem nextNat_eq_iff {s : ℕ} (hpos : 1 ≤ s) (hle : s ≤ 2147483646) :
    nextNat s = 16807 * s % 2147483647 ↔ 16807 * s < 2 ^ 32 := by
  have hmod := nextNat_modEq s
  rw [Nat.mul_comm] at hmod
  constructor
  · -- the lost bits are a multiple of the modulus, though there are fewer of them
    intro h
    have hlt : 16807 * s / 2 ^ 32 < 2147483647 := by omega
    have hlost : 2147483647 ∣ 2 ^ 32 * (16807 * s / 2 ^ 32) := by
      have hsame : 16807 * s % 2 ^ 32 ≡ 16807 * s [MOD 2147483647] := by
        rw [h] at hmod
        exact hmod.symm.trans (Nat.mod_modEq _ _)
      have hdvd := (Nat.modEq_iff_dvd' (Nat.mod_le _ _)).mp hsame
      rwa [Nat.sub_eq_of_eq_add (Nat.div_add_mod (16807 * s) (2 ^ 32)).symm] at hdvd
    have hzero := Nat.eq_zero_of_dvd_of_lt (Nat.Coprime.dvd_of_dvd_mul_left (by decide) hlost) hlt
    rwa [Nat.div_eq_zero_iff_lt (by decide)] at hzero
  · intro h
    have hrange := nextNat_range hpos (by omega)
    rw [Nat.mod_eq_of_lt h] at hmod
    rw [← hmod, Nat.mod_eq_of_lt]
    rcases Nat.lt_or_eq_of_le hrange.2 with hlt | heq
    · exact hlt
    · rw [heq] at hmod
      have hdvd := Nat.modEq_zero_iff_dvd.mp (hmod.symm.trans (by decide))
      have hlarge := Nat.le_of_dvd hpos (Nat.Coprime.dvd_of_dvd_mul_left (by decide) hdvd)
      exact absurd (hlarge.trans hle) (by decide)

/-- **`Next` is the generator of its comment exactly for the seeds whose product fits into 32 bits**; from
these the state stays in range, and no two of them have the same successor. -/
theorem Random.next_eq_iff (s : UInt32) (hpos : 1 ≤ s.toNat) (hle : s.toNat ≤ 2147483646) :
    ((Random.mk s).next.seed.toNat = 16807 * s.toNat % 2147483647 ↔ 16807 * s.toNat < 2 ^ 32) ∧
      (16807 * s.toNat < 2 ^ 32 →
        1 ≤ (Random.mk s).next.seed.toNat ∧ (Random.mk s).next.seed.toNat ≤ 2147483646 ∧
        ∀ t : UInt32, 1 ≤ t.toNat → 16807 * t.toNat < 2 ^ 32 →
          (Random.mk t).next = (Random.mk s).next → t = s) := by
  rw [toNat_next]
  refine ⟨nextNat_eq_iff hpos hle, fun hfit => ?_⟩
  have hs := (nextNat_eq_iff hpos hle).mpr hfit
  have hlt : nextNat s.toNat < 2147483647 := by
    rw [hs]
    exact Nat.mod_lt _ (by decide)
  refine ⟨(nextNat_range hpos (by omega)).1, Nat.le_of_lt_succ hlt, fun t htpos htfit hnext => ?_⟩
  have ht := (nextNat_eq_iff htpos (by omega)).mpr htfit
  have hmod : 16807 * t.toNat ≡ 16807 * s.toNat [MOD 2147483647] := by
    rw [Nat.ModEq, ← ht, ← hs, ← toNat_next ⟨t⟩, hnext, toNat_next]
  rw [← UInt32.toNat_inj]
  exact (hmod.cancel_left_of_coprime (by decide)).eq_of_lt_of_lt (by omega) (by omega)

/-- The largest seed whose product fits. -/
theorem Random.next_largest_fitting :
    (Random.mk 255546).next.seed.toNat = 16807 * 255546 % 2147483647 :=
  (Random.next_eq_iff 255546 (by decide) (by decide)).1.mpr (by decide)

/-- A seed in range whose product does not fit goes to `2 ^ 31 - 1`, out of the range and not to 6800; the
seed after it goes to where 1 goes. -/
theorem Random.next_leaves_range :
    (Random.mk 868985321).next.seed.toNat = 2147483647 ∧
      16807 * 868985321 % 2147483647 = 6800 ∧
      (Random.mk 868985322).next = (Random.mk 1).next := by
  decide

end RocketDb
