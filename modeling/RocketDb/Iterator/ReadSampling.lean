import Mathlib.Algebra.BigOperators.Intervals
import Mathlib.Algebra.Order.BigOperators.Group.Finset
import RocketDb.Format.InternalKey
import RocketDb.Lib.Transition
import RocketDb.Util.Random

/-! # Sampling of reads (`DBIter::ParseKey`)

A database iterator samples what it reads once in a random number of bytes. `ParseKey` draws periods until the
next sample lies behind the entry. From the seeds `2 ^ 28`, `3 * 2 ^ 28`, `5 * 2 ^ 28` and `7 * 2 ^ 28` the
generator stays among these four, multiples of `2 ^ 21`, so every period is 0 and the loop does not end.

* **`stuckSeeds`** — the seeds from which the generator gets there: a set closed under predecessors.
* **`readSampling_terminates_iff`** — for all other seeds, and only for them, `ParseKey` always returns. -/

namespace RocketDb

open Transition

/-! ## The loop -/

/-- `config::kReadBytesPeriod`. -/
def kReadBytesPeriod : UInt32 := 1048576

/-- The members of `DBIter` that sample reads. -/
structure ReadSampler where
  rnd : Random
  bytesUntilReadSampling : ℕ
  deriving DecidableEq, Repr

/-- `DBIter::RandomCompactionPeriod`. -/
def randomCompactionPeriod (rnd : Random) : UInt32 × Random := rnd.uniform (2 * kReadBytesPeriod)

namespace ReadSampler

/-- The sampler of a new `DBIter`. -/
def new (seed : UInt32) : ReadSampler :=
  let (period, rnd) := randomCompactionPeriod (Random.new seed)
  ⟨rnd, period.toNat⟩

/-- The loop of `ParseKey`. The samples it records do not come back to the iterator. -/
def sampleLoop (bytesRead : ℕ) : ℕ → ReadSampler → Option ReadSampler
  | 0, _ => none
  | fuel + 1, s =>
    if s.bytesUntilReadSampling < bytesRead then
      let (period, rnd) := randomCompactionPeriod s.rnd
      sampleLoop bytesRead fuel ⟨rnd, s.bytesUntilReadSampling + period.toNat⟩
    else some s

/-- The sampling of `ParseKey` at an entry. An internal key is its user key and a tag of eight bytes. -/
def parseKey (fuel : ℕ) (s : ReadSampler) (e : Entry) : Option ReadSampler :=
  let bytesRead := e.key.userKey.length + 8 + e.value.length
  match sampleLoop bytesRead fuel s with
  | none => none
  | some s => some { s with bytesUntilReadSampling := s.bytesUntilReadSampling - bytesRead }

end ReadSampler

/-- The periods drawn from a state of the generator. -/
def period (rnd : Random) (n : ℕ) : ℕ := (randomCompactionPeriod (Random.next^[n] rnd)).1.toNat

theorem period_next (rnd : Random) (n : ℕ) : period rnd.next n = period rnd (n + 1) := rfl

theorem period_iterate (rnd : Random) (m n : ℕ) : period (Random.next^[m] rnd) n = period rnd (m + n) := by
  rw [period, period, ← Function.iterate_add_apply, Nat.add_comm]

/-! ## Seeds that reach the cycle -/

/-- **The seeds from which all draws but a few are multiples of `2 ^ 21`.** -/
def stuckSeeds : List ℕ :=
  [57673202, 194699857, 268435456, 290118862, 297044463, 363090457, 370847353, 392530759, 622233271,
    724645168, 731570769, 747906282, 798380767, 805306368, 833915375, 839089831, 907718265, 1047250495,
    1110723623, 1137420777, 1159104183, 1166029784, 1239832674, 1261516080, 1335251679, 1342177280,
    1374190448, 1460266832, 1667366088, 1674291689, 1702900696, 1776703586, 1879048192, 1916235816,
    1979708944, 1997137744, 2004063345]

/-- The cycle. -/
def zeroCycle : List ℕ := [268435456, 805306368, 1342177280, 1879048192]

variable {s y n : ℕ}

theorem mem_stuckSeeds_of_nextNat (hpos : 0 < s) (hle : s ≤ 2147483647) (h : nextNat s ∈ stuckSeeds) :
    s ∈ stuckSeeds := by
  have hclosed : ∀ y ∈ stuckSeeds, y ≠ 1 ∧
      (y * inverseFactor % 2 ^ 32 ≤ 2147483647 → y * inverseFactor % 2 ^ 32 ∈ stuckSeeds) ∧
      ((2 ^ 31 + y - 1) * inverseFactor % 2 ^ 32 ≤ 2147483647 →
        (2 ^ 31 + y - 1) * inverseFactor % 2 ^ 32 ∈ stuckSeeds) := by decide
  obtain ⟨hone, hlow, hhigh⟩ := hclosed _ h
  rcases eq_of_nextNat_eq hpos hle rfl hone with heq | heq
  · rw [heq] at hle ⊢
    exact hlow hle
  · rw [heq] at hle ⊢
    exact hhigh hle

theorem nextNat_mem_stuckSeeds (h : s ∈ stuckSeeds) : nextNat s ∈ stuckSeeds := by
  revert s
  decide

theorem nextNat_stuckSeeds (h : s ∈ stuckSeeds) : nextNat^[7] s ∈ zeroCycle := by
  revert s
  decide

theorem nextNat_zeroCycle (h : s ∈ zeroCycle) : nextNat s ∈ zeroCycle ∧ s % 2 ^ 21 = 0 := by
  revert s
  decide

/-- **No other seed has only draws of 0**: a multiple of `2 ^ 21` outside the cycle is followed, within ten
draws, by a seed that is none. -/
theorem exists_nextNat_not_multiple (hpos : 0 < s) (hle : s ≤ 2147483647) (h : s ∉ zeroCycle) :
    ∃ n < 11, nextNat^[n] s % 2 ^ 21 ≠ 0 := by
  by_cases hmul : s % 2 ^ 21 = 0
  · -- 1023 seeds are left, and the ten draws after each can be tried
    have hall : ∀ k ∈ List.range 1024, 0 < k → k * 2 ^ 21 ∉ zeroCycle →
        ∃ n ∈ List.range 11, nextNat^[n] (k * 2 ^ 21) % 2 ^ 21 ≠ 0 := by decide +kernel
    obtain ⟨k, hk⟩ : ∃ k, s = k * 2 ^ 21 := ⟨s / 2 ^ 21, by omega⟩
    grind
  · exact ⟨0, by decide, hmul⟩

/-! ## Draws from a seed -/

theorem Random.toNat_next_iterate (rnd : Random) (n : ℕ) :
    (Random.next^[n] rnd).seed.toNat = nextNat^[n] rnd.seed.toNat :=
  (Function.Semiconj.iterate_right (f := fun r : Random => r.seed.toNat) Random.toNat_next n) rnd

theorem period_eq (rnd : Random) (n : ℕ) : period rnd n = nextNat^[n + 1] rnd.seed.toNat % 2 ^ 21 := by
  rw [period, randomCompactionPeriod, Random.uniform, UInt32.toNat_mod, Random.toNat_next,
    Random.toNat_next_iterate, ← Function.iterate_succ_apply' nextNat]
  rfl

theorem new_mem_stuckSeeds_iff (seed : UInt32) :
    (Random.new seed).seed.toNat ∈ stuckSeeds ↔ (seed &&& 0x7fffffff).toNat ∈ stuckSeeds := by
  rw [Random.new]
  simp only
  split_ifs with h
  · rcases h with h | h <;> rw [h] <;> decide
  · rfl

/-- The states of the generator that have not been caught. -/
structure Random.Live (rnd : Random) : Prop where
  pos : 0 < rnd.seed.toNat
  le : rnd.seed.toNat ≤ 2147483647
  notMem : rnd.seed.toNat ∉ stuckSeeds

namespace Random.Live

variable {rnd : Random}

theorem next (h : rnd.Live) : rnd.next.Live := by
  grind [nextNat_range, Live, Random.toNat_next, mem_stuckSeeds_of_nextNat]

theorem iterate (h : rnd.Live) (n : ℕ) : (Random.next^[n] rnd).Live := by
  induction n with
  | zero => exact h
  | succ n ih =>
    rw [Function.iterate_succ_apply']
    exact ih.next

theorem exists_period_ne_zero (h : rnd.Live) : ∃ n < 11, period rnd n ≠ 0 := by
  have hcycle : rnd.next.seed.toNat ∉ zeroCycle := fun hmem =>
    h.next.notMem ((by decide : zeroCycle ⊆ stuckSeeds) hmem)
  obtain ⟨n, hn, hne⟩ := exists_nextNat_not_multiple h.next.pos h.next.le hcycle
  refine ⟨n, hn, ?_⟩
  rwa [period_eq, Function.iterate_succ_apply, ← Random.toNat_next]

/-- **The draws add up to any number.** -/
theorem le_sum_period (h : rnd.Live) (k : ℕ) : k ≤ ∑ i ∈ Finset.range (11 * k), period rnd i := by
  induction k with
  | zero => exact Nat.zero_le _
  | succ k ih =>
    obtain ⟨n, hn, hne⟩ := (h.iterate (11 * k)).exists_period_ne_zero
    have hnext : 1 ≤ ∑ i ∈ Finset.range 11, period rnd (11 * k + i) :=
      calc 1 ≤ period rnd (11 * k + n) := by rwa [← period_iterate, Nat.one_le_iff_ne_zero]
        _ ≤ ∑ i ∈ Finset.range 11, period rnd (11 * k + i) :=
          Finset.single_le_sum (f := fun i => period rnd (11 * k + i)) (fun _ _ => Nat.zero_le _)
            (Finset.mem_range.mpr hn)
    rw [Nat.mul_succ, Finset.sum_range_add]
    omega

end Random.Live

theorem Random.live_new {seed : UInt32} (h : (seed &&& 0x7fffffff).toNat ∉ stuckSeeds) :
    (Random.new seed).Live := by
  obtain ⟨hpos, hle⟩ := new_range seed
  exact ⟨hpos, hle, fun hmem => h ((new_mem_stuckSeeds_iff seed).mp hmem)⟩

theorem period_eq_zero_of_zeroCycle {rnd : Random} (h : rnd.seed.toNat ∈ zeroCycle) (n : ℕ) :
    period rnd n = 0 := by
  have hcycle (k : ℕ) : nextNat^[k] rnd.seed.toNat ∈ zeroCycle := by
    induction k with
    | zero => exact h
    | succ k ih =>
      rw [Function.iterate_succ_apply']
      exact (nextNat_zeroCycle ih).1
  rw [period_eq]
  exact (nextNat_zeroCycle (hcycle (n + 1))).2

theorem period_eq_zero_of_stuck {rnd : Random} (h : rnd.seed.toNat ∈ stuckSeeds) (n : ℕ) :
    period rnd (7 + n) = 0 := by
  rw [← period_iterate]
  apply period_eq_zero_of_zeroCycle
  rw [Random.toNat_next_iterate]
  exact nextNat_stuckSeeds h

/-! ## The loop returns as soon as the draws suffice -/

namespace ReadSampler

variable {bytesRead fuel m : ℕ} {s : ReadSampler}

theorem sampleLoop_returns (hm : m < fuel)
    (h : bytesRead ≤ s.bytesUntilReadSampling + ∑ i ∈ Finset.range m, period s.rnd i) :
    ∃ t n, sampleLoop bytesRead fuel s = some t ∧ t.rnd = Random.next^[n] s.rnd := by
  induction fuel generalizing s m with
  | zero => exact absurd hm (Nat.not_lt_zero m)
  | succ fuel ih =>
    rw [sampleLoop]
    split_ifs with hlt
    · -- a draw is made, and the first number of the sum moves to the counter
      obtain ⟨m, rfl⟩ : ∃ k, m = k + 1 := Nat.exists_eq_succ_of_ne_zero fun h0 => by
        rw [h0, Finset.sum_range_zero] at h
        omega
      rw [Finset.sum_range_succ'] at h
      obtain ⟨t, n, ht, hrnd⟩ := ih (Nat.lt_of_succ_lt_succ hm)
        (s := ⟨s.rnd.next, s.bytesUntilReadSampling + period s.rnd 0⟩) (by
          simp only [period_next]
          omega)
      exact ⟨t, n + 1, ht, hrnd⟩
    · exact ⟨s, 0, rfl, rfl⟩

theorem sampleLoop_hangs
    (h : ∀ m, s.bytesUntilReadSampling + ∑ i ∈ Finset.range m, period s.rnd i < bytesRead) (fuel : ℕ) :
    sampleLoop bytesRead fuel s = none := by
  induction fuel generalizing s with
  | zero => rfl
  | succ fuel ih =>
    have hlt : s.bytesUntilReadSampling < bytesRead := h 0
    rw [sampleLoop, if_pos hlt]
    refine ih fun m => ?_
    calc s.bytesUntilReadSampling + period s.rnd 0 + ∑ i ∈ Finset.range m, period s.rnd (i + 1)
        = s.bytesUntilReadSampling + ∑ i ∈ Finset.range (m + 1), period s.rnd i := by
          rw [Finset.sum_range_succ']
          omega
      _ < bytesRead := h (m + 1)

/-- **Eleven draws for each byte are enough** for a generator that is not caught, and it stays so. -/
theorem parseKey_returns (hlive : s.rnd.Live) {e : Entry}
    (hfuel : 11 * (e.key.userKey.length + 8 + e.value.length) < fuel) :
    ∃ t, parseKey fuel s e = some t ∧ t.rnd.Live := by
  obtain ⟨t, n, ht, hrnd⟩ := sampleLoop_returns (s := s) hfuel
    (Nat.le_add_left_of_le (hlive.le_sum_period (e.key.userKey.length + 8 + e.value.length)))
  rw [parseKey]
  simp only [ht]
  refine ⟨_, rfl, ?_⟩
  rw [hrnd]
  exact hlive.iterate n

theorem live_new {seed : UInt32} (h : (seed &&& 0x7fffffff).toNat ∉ stuckSeeds) : (new seed).rnd.Live :=
  (Random.live_new h).next

theorem stuck_new {seed : UInt32} (h : (seed &&& 0x7fffffff).toNat ∈ stuckSeeds) :
    (new seed).rnd.seed.toNat ∈ stuckSeeds := by
  rw [new, randomCompactionPeriod, Random.uniform, Random.toNat_next]
  exact nextNat_mem_stuckSeeds ((new_mem_stuckSeeds_iff seed).mpr h)

/-- A long enough entry is never sampled past by a stuck generator. -/
theorem exists_parseKey_hangs (h : s.rnd.seed.toNat ∈ stuckSeeds) :
    ∃ value, ∀ fuel, parseKey fuel s ⟨⟨[], 0⟩, value⟩ = none := by
  have hbound (m : ℕ) : ∑ i ∈ Finset.range m, period s.rnd i ≤ ∑ i ∈ Finset.range 7, period s.rnd i := by
    rcases Nat.le_total m 7 with hm | hm
    · exact Finset.sum_le_sum_of_subset (Finset.range_mono hm)
    · obtain ⟨d, rfl⟩ := Nat.exists_eq_add_of_le hm
      rw [Finset.sum_range_add, Finset.sum_eq_zero fun i _ => period_eq_zero_of_stuck h i, Nat.add_zero]
  refine ⟨List.replicate (s.bytesUntilReadSampling + ∑ i ∈ Finset.range 7, period s.rnd i) 0,
    fun fuel => ?_⟩
  grind [parseKey, sampleLoop_hangs]

/-- From the seed `2 ^ 28` a user key of one byte is enough. -/
theorem parseKey_two_pow_28 (fuel : ℕ) :
    parseKey fuel (new 268435456) ⟨.ofParts [0] 1 .kTypeValue, []⟩ = none := by
  have hcycle : (new 268435456).rnd.seed.toNat ∈ zeroCycle := by decide
  rw [parseKey, sampleLoop_hangs]
  intro m
  rw [Finset.sum_eq_zero fun i _ => period_eq_zero_of_zeroCycle hcycle i]
  decide

end ReadSampler

/-! ## The seeds of the iterators -/

/-- So many draws are enough for a `ParseKey` at each of the entries. -/
def DrawsSuffice (es : List Entry) (draws : ℕ) : Prop :=
  ∀ e ∈ es, 11 * (e.key.userKey.length + 8 + e.value.length) < draws

instance (es : List Entry) (draws : ℕ) : Decidable (DrawsSuffice es draws) := by
  unfold DrawsSuffice
  infer_instance

/-- One bound serves all entries of a list. -/
theorem exists_drawsSuffice (es : List Entry) : ∃ least, ∀ draws ≥ least, DrawsSuffice es draws := by
  refine ⟨11 * (es.map fun e => e.key.userKey.length + 8 + e.value.length).sum + 1,
    fun draws hdraws e he => ?_⟩
  have hle := List.single_le_sum (fun _ _ => Nat.zero_le _) _
    (List.mem_map_of_mem (f := fun e : Entry => e.key.userKey.length + 8 + e.value.length) he)
  omega

/-- **Read sampling ends for all seeds but the stuck ones.** The seed counts without its top bit. The first
statement is about `ParseKey`, the second about the draws alone. -/
theorem readSampling_terminates_iff (seed : UInt32) :
    ((∀ es : List Entry, ∃ fuel t,
        run (ReadSampler.parseKey fuel) (ReadSampler.new seed) es = some t) ↔
      (seed &&& 0x7fffffff).toNat ∉ stuckSeeds) ∧
    ((∀ n, ∃ m, period (Random.next^[n] (Random.new seed)) m ≠ 0) ↔
      (seed &&& 0x7fffffff).toNat ∉ stuckSeeds) := by
  refine ⟨⟨fun h hmem => ?_, fun hnot es => ?_⟩, ⟨fun h hmem => ?_, fun hnot n => ?_⟩⟩
  · obtain ⟨value, he⟩ := ReadSampler.exists_parseKey_hangs (ReadSampler.stuck_new hmem)
    obtain ⟨fuel, t, hrun⟩ := h [⟨⟨[], 0⟩, value⟩]
    obtain ⟨s, hs, -⟩ := run_cons_eq_some.mp hrun
    rw [he fuel] at hs
    cases hs
  · obtain ⟨least, hleast⟩ := exists_drawsSuffice es
    have hstep (fuel : ℕ) (s : ReadSampler) (e : Entry) (hlive : s.rnd.Live)
        (hlt : 11 * (e.key.userKey.length + 8 + e.value.length) < fuel) :
        ∃ t, ReadSampler.parseKey fuel s e = some t ∧ t.rnd.Live :=
      ReadSampler.parseKey_returns hlive hlt
    obtain ⟨t, hrun, -⟩ := run_progress (hstep _) (ReadSampler.live_new hnot) 
      (along_of_forall (hleast least le_rfl))
    exact ⟨_, t, hrun⟩
  · obtain ⟨m, hm⟩ := h 7
    rw [period_iterate] at hm
    exact hm (period_eq_zero_of_stuck ((new_mem_stuckSeeds_iff seed).mpr hmem) m)
  · obtain ⟨m, -, hm⟩ := ((Random.live_new hnot).iterate n).exists_period_ne_zero
    exact ⟨m, hm⟩

/-- The smallest seed on the cycle, `2 ^ 28`: a user key of one byte is enough. -/
theorem readSampling_hangs_two_pow_28 : ¬ ∃ fuel t,
    ReadSampler.parseKey fuel (ReadSampler.new 268435456) ⟨.ofParts [0] 1 .kTypeValue, []⟩ = some t := by
  rintro ⟨fuel, t, h⟩
  rw [ReadSampler.parseKey_two_pow_28] at h
  cases h

end RocketDb
