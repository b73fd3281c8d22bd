import RocketDb.Lib.Segments
import RocketDb.Lib.Transition
import RocketDb.Util.Bloom

/-! # Filter blocks (`table/filter_block.cc`)

A table may hold filters that say of a key that it is not in a data block. There is one filter for each 2 KiB
of the file, made from the keys of the data blocks that start there. The filters are followed by their
offsets, the offset of the offsets, and the logarithm of 2 KiB. -/

namespace RocketDb

open List

/-- `kFilterBaseLg`. -/
def kFilterBaseLg : ℕ := 11

/-- `kFilterBase`. -/
def kFilterBase : ℕ := 2 ^ kFilterBaseLg

/-- The count that `CreateFilter` is handed, an `int`; it looks at no key for a negative one. -/
def keyCount (n : ℕ) : ℕ := (BitVec.ofNat 32 n).toInt.toNat

theorem keyCount_of_lt {n : ℕ} (h : n < 2 ^ 31) : keyCount n = n := by
  grind [keyCount, BitVec.toInt_eq_toNat_of_lt]

/-! ## The builder -/

/-- `FilterBlockBuilder`. -/
structure FilterBlockBuilder where
  policy : FilterPolicy
  /-- The keys of the next filter, one after another. -/
  keys : Slice
  /-- Where each of them starts. -/
  start : List ℕ
  result : Slice
  filterOffsets : List UInt32

namespace FilterBlockBuilder

/-- A new builder. -/
def new (policy : FilterPolicy) : FilterBlockBuilder := ⟨policy, [], [], [], []⟩

/-- `AddKey`. -/
def addKey (b : FilterBlockBuilder) (key : Slice) : FilterBlockBuilder :=
  { b with start := b.start ++ [b.keys.length], keys := b.keys ++ key }

/-- `tmp_keys_`: the keys, each up to the start of the next. -/
def tmpKeys (b : FilterBlockBuilder) : List Slice :=
  let start := b.start ++ [b.keys.length]
  (range b.start.length).map fun i => (b.keys.drop (start.getD i 0)).take
    (start.getD (i + 1) 0 - start.getD i 0)

/-- `GenerateFilter`. -/
def generateFilter (b : FilterBlockBuilder) : FilterBlockBuilder :=
  let filterOffsets := b.filterOffsets ++ [.ofNat b.result.length]
  if b.start.isEmpty then { b with filterOffsets }
  else
    let filter := b.policy.createFilter (b.tmpKeys.take (keyCount b.start.length))
    { b with filterOffsets, result := b.result ++ filter, keys := [], start := [] }

/-- The loop of `StartBlock`. -/
def generateLoop (filterIndex : ℕ) : ℕ → FilterBlockBuilder → FilterBlockBuilder
  | 0, b => b
  | fuel + 1, b =>
    if b.filterOffsets.length < filterIndex then generateLoop filterIndex fuel b.generateFilter else b

/-- `StartBlock`; `none` is its failed assertion. Every round of the loop adds an offset. -/
def startBlock (b : FilterBlockBuilder) (blockOffset : UInt64) : Option FilterBlockBuilder :=
  let filterIndex := blockOffset.toNat / kFilterBase
  if filterIndex < b.filterOffsets.length then none else some (generateLoop filterIndex filterIndex b)

/-- What `TableBuilder` does with a data block: its offset, and then its keys. -/
def addBlock (b : FilterBlockBuilder) (block : UInt64 × List Slice) : Option FilterBlockBuilder :=
  (b.startBlock block.1).map fun b => block.2.foldl addKey b

/-- `Finish`. -/
def finish (b : FilterBlockBuilder) : Slice :=
  let b := if b.start.isEmpty then b else b.generateFilter
  b.result ++ b.filterOffsets.flatMap encodeFixed32 ++ encodeFixed32 (.ofNat b.result.length) ++
    [UInt8.ofNat kFilterBaseLg]

end FilterBlockBuilder

/-! ## The reader -/

/-- `FilterBlockReader`. -/
structure FilterBlockReader where
  policy : FilterPolicy
  data : Slice
  /-- `offset_ - data_`. -/
  offset : ℕ
  num : ℕ
  baseLg : ℕ

namespace FilterBlockReader

/-- The constructor. A block that it cannot use has no filters. -/
def new (policy : FilterPolicy) (contents : Slice) : FilterBlockReader :=
  let n := contents.length
  if n < 5 then ⟨policy, [], 0, 0, 0⟩
  else
    let baseLg := (contents.getD (n - 1) 0).toNat
    let lastWord := (decodeFixed32 (contents.drop (n - 5))).toNat
    if n - 5 < lastWord then ⟨policy, [], 0, 0, baseLg⟩
    else ⟨policy, contents, lastWord, (n - 5 - lastWord) / 4, baseLg⟩

/-- `KeyMayMatch`. The word after the last offset is the offset of the offsets, where the last filter ends. -/
def keyMayMatch (r : FilterBlockReader) (blockOffset : UInt64) (key : Slice) : Bool :=
  let index := blockOffset.toNat / 2 ^ r.baseLg
  if index < r.num then
    let start := (decodeFixed32 (r.data.drop (r.offset + index * 4))).toNat
    let limit := (decodeFixed32 (r.data.drop (r.offset + index * 4 + 4))).toNat
    if start ≤ limit ∧ limit ≤ r.offset then
      r.policy.keyMayMatch key ((r.data.drop start).take (limit - start))
    else false
  else true

end FilterBlockReader

/-! ## What the builder holds -/

/-- The filter for some keys; there is none for no keys. -/
def FilterPolicy.filterOf (policy : FilterPolicy) (keys : List Slice) : Slice :=
  if keys = [] then [] else policy.createFilter (keys.take (keyCount keys.length))

/-- The keys of the blocks that start in the range of a filter. -/
def filterKeys (blocks : List (UInt64 × List Slice)) (i : ℕ) : List Slice :=
  (blocks.filter fun block => block.1.toNat / kFilterBase = i).flatMap Prod.snd

/-- The first `n` filters for keys that are grouped by the index of their filter. -/
def FilterPolicy.filters (policy : FilterPolicy) (groups : ℕ → List Slice) (n : ℕ) : Slice :=
  (range n).flatMap fun i => policy.filterOf (groups i)

namespace FilterBlockBuilder

/-- The first `n` filters are made, and the next one will be for the last group. -/
structure Holds (policy : FilterPolicy) (groups : ℕ → List Slice) (n : ℕ) (b : FilterBlockBuilder) :
    Prop where
  policy_eq : b.policy = policy
  keys : b.keys = (groups n).flatMap id
  start : b.start = (range (groups n).length).map (Segments.start id (groups n))
  result : b.result = policy.filters groups n
  filterOffsets : b.filterOffsets = (range n).map fun i => .ofNat (policy.filters groups i).length
  last : ∀ i, n < i → groups i = []

variable {policy : FilterPolicy} {groups : ℕ → List Slice} {n : ℕ} {b : FilterBlockBuilder}
  {blocks : List (UInt64 × List Slice)}

theorem filters_succ : policy.filters groups (n + 1) =
    policy.filters groups n ++ policy.filterOf (groups n) := by
  grind [FilterPolicy.filters, range_succ]

theorem filters_update {i : ℕ} (hi : i ≤ n) (keys : List Slice) :
    policy.filters (Function.update groups n keys) i = policy.filters groups i := by
  refine flatMap_congr fun j hj => ?_
  grind

theorem Holds.tmpKeys (h : Holds policy groups n b) : b.tmpKeys = groups n := by
  have hstart : b.start ++ [b.keys.length] =
      (range ((groups n).length + 1)).map (Segments.start id (groups n)) := by
    rw [h.start, h.keys, range_succ, map_append, map_singleton, Segments.start_of_le le_rfl]
  refine ext_getElem (by simp [FilterBlockBuilder.tmpKeys, h.start]) fun i hi hi' => ?_
  simp only [FilterBlockBuilder.tmpKeys, hstart, getElem_map, getElem_range]
  rw [getD_eq_getElem?_getD, getD_eq_getElem?_getD, getElem?_map, getElem?_map, getElem?_range (by omega),
    getElem?_range (by omega), h.keys]
  exact Segments.take_drop_start (getElem?_eq_getElem hi')

theorem Holds.isEmpty_start (h : Holds policy groups n b) : b.start.isEmpty = decide (groups n = []) := by
  rw [h.start]
  cases groups n <;> simp [range_succ_eq_map]

theorem Holds.generateFilter (h : Holds policy groups n b) :
    Holds policy groups (n + 1) b.generateFilter := by
  have hnext : groups (n + 1) = [] := h.last (n + 1) (Nat.lt_succ_self n)
  have hoffsets : b.filterOffsets ++ [.ofNat b.result.length] =
      (range (n + 1)).map fun i => .ofNat (policy.filters groups i).length := by
    grind [Holds, range_succ]
  have hlast : ∀ i, n + 1 < i → groups i = [] := fun i hi => h.last i (Nat.lt_of_succ_lt hi)
  unfold FilterBlockBuilder.generateFilter
  rw [h.isEmpty_start]
  split_ifs with hnone <;> simp only [decide_eq_true_eq] at hnone
  · refine ⟨h.policy_eq, ?_, ?_, ?_, hoffsets, hlast⟩
    · rw [h.keys, hnone, hnext]
    · rw [h.start, hnone, hnext]
    · rw [h.result, filters_succ, FilterPolicy.filterOf, if_pos hnone, append_nil]
  · refine ⟨h.policy_eq, ?_, ?_, ?_, hoffsets, hlast⟩
    · rw [hnext]
      rfl
    · rw [hnext]
      rfl
    · have hcount : b.start.length = (groups n).length := by rw [h.start, length_map, length_range]
      rw [h.tmpKeys, h.policy_eq, h.result, hcount, filters_succ, FilterPolicy.filterOf, if_neg hnone]

theorem Holds.generateLoop {filterIndex fuel : ℕ} (h : Holds policy groups n b) (hle : n ≤ filterIndex)
    (hfuel : filterIndex ≤ n + fuel) : Holds policy groups filterIndex (generateLoop filterIndex fuel b) := by
  induction fuel generalizing b n with
  | zero => exact le_antisymm hle hfuel ▸ h
  | succ fuel ih =>
    have hlength : b.filterOffsets.length = n := by simp [h.filterOffsets]
    rw [FilterBlockBuilder.generateLoop, hlength]
    split_ifs with hlt
    · exact ih h.generateFilter hlt (by omega)
    · exact le_antisymm hle (not_lt.mp hlt) ▸ h

theorem Holds.addKey (h : Holds policy groups n b) (key : Slice) :
    Holds policy (Function.update groups n (groups n ++ [key])) n (b.addKey key) where
  policy_eq := h.policy_eq
  keys := by simp [FilterBlockBuilder.addKey, h.keys]
  start := by
    rw [Function.update_self, length_append, length_singleton, range_succ, map_append, map_singleton,
      Segments.start_append_left le_rfl, Segments.start_of_le le_rfl, ← h.keys,
      map_congr_left fun i hi => Segments.start_append_left (mem_range.mp hi).le, ← h.start]
    rfl
  result := h.result.trans (filters_update le_rfl _).symm
  filterOffsets := h.filterOffsets.trans (map_congr_left
    fun i hi => by rw [filters_update (mem_range.mp hi).le])
  last i hi := by rw [Function.update_of_ne hi.ne', h.last i hi]

theorem Holds.addKeys (h : Holds policy groups n b) (keys : List Slice) :
    Holds policy (Function.update groups n (groups n ++ keys)) n
      (keys.foldl FilterBlockBuilder.addKey b) := by
  induction keys generalizing b groups with
  | nil => simpa using h
  | cons key keys ih => simpa using ih (h.addKey key)

/-- **Blocks in the order of their offsets**: the assertion of `StartBlock` holds, and the keys of each block
are added to its group. -/
theorem Holds.run (h : Holds policy groups n b) (hle : ∀ block ∈ blocks, n ≤ block.1.toNat / kFilterBase)
    (hsort : blocks.Pairwise fun x y => x.1 ≤ y.1) :
    ∃ b' groups' n', Transition.run addBlock b blocks = some b' ∧ Holds policy groups' n' b' ∧
      ∀ i, groups' i = groups i ++ filterKeys blocks i := by
  induction blocks generalizing b groups n with
  | nil => exact ⟨b, groups, n, rfl, h, fun i => (append_nil _).symm⟩
  | cons block blocks ih =>
    obtain ⟨hfirst, hsort⟩ := pairwise_cons.mp hsort
    have hle₀ := hle block mem_cons_self
    obtain ⟨b', groups', n', hrun, h', hgroups⟩ := ih
      ((h.generateLoop hle₀ (Nat.le_add_left _ _)).addKeys block.2)
      (fun x hx => Nat.div_le_div_right (hfirst x hx)) hsort
    refine ⟨b', groups', n', Transition.run_cons_eq_some.mpr ⟨_, ?_, hrun⟩, h', fun i => ?_⟩
    · grind [Holds, addBlock, startBlock]
    · grind [filterKeys]

/-! ## Reading a block back -/

/-- A filter block, laid out. -/
def bytes (policy : FilterPolicy) (groups : ℕ → List Slice) (n : ℕ) : Slice :=
  policy.filters groups n ++ ((range (n + 1)).flatMap
    (fun i => encodeFixed32 (.ofNat (policy.filters groups i).length)) ++ [UInt8.ofNat kFilterBaseLg])

theorem Holds.layout (h : Holds policy groups n b) :
    b.result ++ b.filterOffsets.flatMap encodeFixed32 ++ encodeFixed32 (.ofNat b.result.length) ++
      [UInt8.ofNat kFilterBaseLg] = bytes policy groups n := by
  grind [bytes, Holds, range_succ, flatMap_map]

theorem Holds.finish (h : Holds policy groups n b) : ∃ m, b.finish = bytes policy groups m := by
  unfold FilterBlockBuilder.finish
  split_ifs
  · exact ⟨n, h.layout⟩
  · exact ⟨n + 1, h.generateFilter.layout⟩

theorem length_bytes : (bytes policy groups n).length =
    (policy.filters groups n).length + (n + 1) * 4 + 1 := by
  rw [bytes, length_append, length_append, Segments.length_flatMap_eq_mul fun _ _ => length_encodeFixed32 _,
    length_range, length_singleton, Nat.add_assoc]

theorem filters_isPrefix (policy : FilterPolicy) (groups : ℕ → List Slice) {i : ℕ} (hi : i ≤ n) :
    policy.filters groups i <+: policy.filters groups n := by
  induction n, hi using Nat.le_induction with
  | base => exact prefix_rfl
  | succ n _ ih => exact ih.trans (filters_succ ▸ prefix_append ..)

section Reading

variable (hsize : (bytes policy groups n).length < 2 ^ 32)

include hsize

theorem word_bytes {i : ℕ} (hi : i ≤ n) :
    (decodeFixed32 ((bytes policy groups n).drop ((policy.filters groups n).length + i * 4))).toNat =
      (policy.filters groups i).length := by
  have hx : (range (n + 1))[i]? = some i := getElem?_range (Nat.lt_succ_of_le hi)
  have hstart : i * 4 = Segments.start
      (fun i => encodeFixed32 (.ofNat (policy.filters groups i).length)) (range (n + 1)) i :=
    (Segments.start_eq_mul (fun _ _ => length_encodeFixed32 _) (by simp; omega)).symm
  have hlt : (policy.filters groups i).length < 2 ^ 32 := by
    have hle := (filters_isPrefix policy groups hi).length_le
    rw [length_bytes] at hsize
    omega
  rw [← drop_drop, bytes, drop_left, hstart, drop_append_of_le_length (Segments.start_le_length ..),
    Segments.drop_start_of_getElem? hx, append_assoc, decodeFixed32_encodeFixed32,
      UInt32.toNat_ofNat_of_lt' hlt]

theorem new_bytes : FilterBlockReader.new policy (bytes policy groups n) =
    ⟨policy, bytes policy groups n, (policy.filters groups n).length, n, kFilterBaseLg⟩ := by
  have hword := word_bytes hsize le_rfl
  have hlast : (bytes policy groups n).getD ((bytes policy groups n).length - 1) 0 =
      UInt8.ofNat kFilterBaseLg := by
    grind [bytes]
  have hend : (bytes policy groups n).length - 5 = (policy.filters groups n).length + n * 4 := by
    rw [length_bytes]
    omega
  simp only [FilterBlockReader.new, hlast, hend, hword]
  rw [if_neg (by rw [length_bytes]; omega), if_neg (by omega), Nat.add_sub_cancel_left, Nat.mul_div_cancel _
    (by decide)]
  rfl

/-- **A filter block of sound filters is sound.** -/
theorem keyMayMatch_bytes (hpolicy : ∀ keys, ∀ key ∈ keys, policy.keyMayMatch key
    (policy.createFilter keys) = true)
    {blockOffset : UInt64} {key : Slice} (hcount : (groups (blockOffset.toNat / kFilterBase)).length < 2 ^ 31)
    (hkey : key ∈ groups (blockOffset.toNat / kFilterBase)) :
    (FilterBlockReader.new policy (bytes policy groups n)).keyMayMatch blockOffset key = true := by
  rw [new_bytes hsize]
  rw [kFilterBase] at hkey hcount
  simp only [FilterBlockReader.keyMayMatch]
  generalize blockOffset.toNat / 2 ^ kFilterBaseLg = i at hkey hcount ⊢
  by_cases hi : i < n
  · obtain ⟨rest, hrest⟩ := filters_isPrefix policy groups hi
    have hle := congrArg length hrest
    rw [filters_succ, length_append, length_append] at hle
    rw [if_pos hi, Nat.add_assoc, ← Nat.succ_mul, word_bytes hsize hi.le, word_bytes hsize hi, filters_succ,
      length_append, if_pos (by omega), Nat.add_sub_cancel_left, bytes, ← hrest, filters_succ, append_assoc,
      append_assoc, drop_left, take_left, FilterPolicy.filterOf, if_neg (ne_nil_of_mem hkey),
      keyCount_of_lt hcount, take_length]
    exact hpolicy _ key hkey
  · rw [if_neg hi]

end Reading

end FilterBlockBuilder

open FilterBlockBuilder

/-- **No false negatives.** For data blocks in the order of their offsets no assertion fails; and the filter
block that is built rules out no key for the block to which it was added, with any policy whose own filters
rule out none of their keys and fewer than `2 ^ 31` keys in a filter. -/
theorem filter_block_no_false_negatives (policy : FilterPolicy) (blocks : List (UInt64 × List Slice))
    (hpolicy : ∀ keys, ∀ key ∈ keys, policy.keyMayMatch key (policy.createFilter keys) = true)
    (hsort : blocks.Pairwise fun x y => x.1 ≤ y.1) :
    ∃ b, Transition.run addBlock (.new policy) blocks = some b ∧ (b.finish.length < 2 ^ 32 →
      ∀ block ∈ blocks, (filterKeys blocks (block.1.toNat / kFilterBase)).length < 2 ^ 31 →
      ∀ key ∈ block.2, (FilterBlockReader.new policy b.finish).keyMayMatch block.1 key = true) := by
  have hnew : Holds policy (fun _ => []) 0 (.new policy) := ⟨rfl, rfl, rfl, rfl, rfl, fun _ _ => rfl⟩
  obtain ⟨b, groups, n, hrun, h, hgroups⟩ := hnew.run (fun _ _ => Nat.zero_le _) hsort
  obtain ⟨m, hm⟩ := h.finish
  refine ⟨b, hrun, fun hsize block hblock hcount key hkey => ?_⟩
  rw [hm] at hsize ⊢
  rw [← nil_append (filterKeys _ _), ← hgroups] at hcount
  refine keyMayMatch_bytes hsize hpolicy hcount ?_
  rw [hgroups, nil_append]
  exact mem_flatMap.mpr ⟨block, mem_filter.mpr ⟨hblock, decide_eq_true rfl⟩, hkey⟩

/-- A policy that remembers lengths, and three blocks: the first two share a filter, and one filter is
empty. -/
theorem filter_block_no_false_negatives_lengths :
    let policy : FilterPolicy := ⟨[], fun keys => keys.map (.ofNat ·.length), fun key =>
      (·.contains (.ofNat key.length))⟩
    ∃ b, Transition.run addBlock (.new policy) [(0, [[1]]), (100, [[2, 3]]), (5000, [[4, 5, 6]])] = some b ∧
      (FilterBlockReader.new policy b.finish).keyMayMatch 100 [2, 3] = true := by
  intro policy
  obtain ⟨b, hrun, h⟩ := filter_block_no_false_negatives policy
    [(0, [[1]]), (100, [[2, 3]]), (5000, [[4, 5, 6]])]
    (fun keys key hkey => contains_iff_mem.mpr (mem_map_of_mem hkey)) (by decide)
  refine ⟨b, hrun, h ?_ (100, [[2, 3]]) (by decide) (by decide) [2, 3] (by decide)⟩
  cases hrun
  decide +kernel

end RocketDb
