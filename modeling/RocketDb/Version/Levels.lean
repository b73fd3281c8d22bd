import RocketDb.Lib.RunningBest
import RocketDb.Version.Files
import Mathlib.Algebra.Group.Int.Defs
import Mathlib.Algebra.GroupWithZero.Nat

/-! # Versions (`db/version_set.h`, `db/version_set.cc`)

A **version** is the list of table files of each level. Here are the configuration constants, the byte counts
derived from `max_file_size`, and the choice of the level that receives a flushed memtable. -/

namespace RocketDb

open KeyOrder

/-- `config::kNumLevels`. -/
def kNumLevels : ℕ := 7

/-- `config::kMaxMeCompactLevel`: the deepest level a memtable is flushed to. -/
def kMaxMeCompactLevel : ℕ := 2

/-- The sanitised options the version set reads. -/
structure Options where
  maxFileSize : ℕ
  /-- `SanitizeOptions` clips the size from below. -/
  minFileSize_le : 2 ^ 20 ≤ maxFileSize
  /-- `SanitizeOptions` clips the size from above. -/
  le_maxFileSize : maxFileSize ≤ 2 ^ 30

/-- The options with the smallest `max_file_size`. -/
def Options.small : Options := ⟨2 ^ 20, le_rfl, by decide⟩

/-- `MaxGrandParentOverlapBytes`. -/
def maxGrandParentOverlapBytes (opts : Options) : ℤ := 10 * opts.maxFileSize

/-- `ExpandedCompactionByteSizeLimit`. -/
def expandedCompactionByteSizeLimit (opts : Options) : ℤ := 25 * opts.maxFileSize

/-- `MaxFileSizeForLevel`, the same for all levels. -/
def maxFileSizeForLevel (opts : Options) (_level : ℕ) : ℕ := opts.maxFileSize

/-- `TotalFileSize`. The running sum is a C++ `int`, so it wraps at 32 bits. -/
def totalFileSize (files : List FileMetaData) : ℤ :=
  files.foldl (fun sum f => Int.bmod (sum + f.fileSize) (2 ^ 32)) 0

/-- `level_bytes` of `VersionSet::Finalize`: the `int64_t` result of `TotalFileSize` in a
`uint64_t`. -/
def levelBytes (files : List FileMetaData) : ℕ := (totalFileSize files % 2 ^ 64).toNat

/-- A version: the files of each level. -/
@[ext]
structure Version where
  files : ℕ → List FileMetaData

/-- The version of an empty database. -/
def Version.empty : Version := ⟨fun _ => []⟩

/-- `Version::GetOverlappingInputs`. -/
def Version.getOverlappingInputs (ucmp : Comparator) (v : Version) (level : ℕ)
    (rangeBegin rangeEnd : Option InternalKey) : List FileMetaData :=
  RocketDb.getOverlappingInputs ucmp level (v.files level) rangeBegin rangeEnd

/-- `Version::OverlapInLevel`. -/
def Version.overlapInLevel (ucmp : Comparator) (v : Version) (level : ℕ)
    (smallestUserKey largestUserKey : Option Slice) : Bool :=
  someFileOverlapsRange ucmp (decide (0 < level)) (v.files level) smallestUserKey largestUserKey

/-- The loop of `PickLevelForMemTableOutput`: go down while the next level does not overlap and the
level after it does not overlap too much. -/
def Version.pickLevelLoop (opts : Options) (ucmp : Comparator) (v : Version)
    (smallestUserKey largestUserKey : Slice) : ℕ → ℕ → ℕ
  | 0, level => level
  | fuel + 1, level =>
    if level < kMaxMeCompactLevel then
      if v.overlapInLevel ucmp (level + 1) (some smallestUserKey) (some largestUserKey) then level
      else if level + 2 < kNumLevels ∧
          maxGrandParentOverlapBytes opts <
            totalFileSize (v.getOverlappingInputs ucmp (level + 2)
              (some (.ofParts smallestUserKey kMaxSequenceNumber kValueTypeForSeek))
              (some (.ofParts largestUserKey 0 .kTypeDeletion))) then level
      else v.pickLevelLoop opts ucmp smallestUserKey largestUserKey fuel (level + 1)
    else level

/-- **`PickLevelForMemTableOutput`**: the level for a new table with the given range of user keys. -/
def Version.pickLevelForMemTableOutput (opts : Options) (ucmp : Comparator) (v : Version)
    (smallestUserKey largestUserKey : Slice) : ℕ :=
  if v.overlapInLevel ucmp 0 (some smallestUserKey) (some largestUserKey) then 0
  else v.pickLevelLoop opts ucmp smallestUserKey largestUserKey kMaxMeCompactLevel 0

/-! ## Well-formed versions -/

/-- The metadata of a version makes sense: boundary keys are in order and carry value types, and the
files of every level `≥ 1` are sorted and disjoint. -/
structure Version.WellFormed (ucmp : Comparator) (v : Version) : Prop where
  ordered : ∀ level, ∀ f ∈ v.files level, f.Ordered ucmp
  parsable : ∀ level, ∀ f ∈ v.files level, f.Parsable
  sorted : ∀ level, 1 ≤ level → SortedLevel ucmp (v.files level)

variable {ucmp : Comparator} {opts : Options} {v : Version} {lo hi : Slice}

/-- Some of the files of a sorted level, in order, are sorted too. -/
theorem SortedLevel.of_sublist {files files' : List FileMetaData} (h : SortedLevel ucmp files)
    (hsub : files'.Sublist files) : SortedLevel ucmp files' :=
  ⟨fun f hf => h.1 f (hsub.subset hf), h.2.sublist hsub⟩

section

variable (hpars : ∀ level, ∀ f ∈ v.files level, f.Parsable)
  (hsort : ∀ level, 1 ≤ level → SortedLevel ucmp (v.files level))

include hpars hsort

theorem Version.overlapInLevel_iff (level : ℕ) (b e : Option Slice) :
    v.overlapInLevel ucmp level b e = true ↔ ∃ f ∈ v.files level, Meets ucmp b e f := by
  refine someFileOverlapsRange_iff (hpars level) fun h => hsort level ?_
  exact of_decide_eq_true h

/-! ## The level of a flushed table -/

/-- The loop stops at a level all of whose levels above, down to it, are free of overlap. -/
theorem Version.pickLevelLoop_free :
    ∀ fuel start level, start ≤ level → level ≤ v.pickLevelLoop opts ucmp lo hi fuel start →
      start < level → ∀ f ∈ v.files level, ¬ Meets ucmp (some lo) (some hi) f := by
  intro fuel
  induction fuel with
  | zero =>
    grind [pickLevelLoop]
  | succ fuel ih =>
    intro start level h₁ h₂ h₃
    rw [pickLevelLoop] at h₂
    split_ifs at h₂ with hmax hover hbytes
    · omega
    · omega
    · rcases Nat.lt_or_eq_of_le (Nat.succ_le_of_lt h₃) with h | rfl
      · exact ih (start + 1) level (by omega) h₂ h
      · intro f hf hm
        exact hover ((v.overlapInLevel_iff hpars hsort _ _ _).mpr ⟨f, hf, hm⟩)
    · omega

/-- **A flushed table does not overlap the levels down to its own**, except in level 0. -/
theorem Version.pickLevel_free {level : ℕ} (hlevel : level ≤ v.pickLevelForMemTableOutput opts ucmp lo hi)
    (hpos : 0 < v.pickLevelForMemTableOutput opts ucmp lo hi) :
    ∀ f ∈ v.files level, ¬ Meets ucmp (some lo) (some hi) f := by
  unfold pickLevelForMemTableOutput at hlevel hpos
  split_ifs at hlevel hpos with h0
  · exact absurd hpos (lt_irrefl 0)
  · rcases Nat.eq_zero_or_pos level with rfl | hl
    · intro f hf hm
      exact h0 ((v.overlapInLevel_iff hpars hsort 0 _ _).mpr ⟨f, hf, hm⟩)
    · exact pickLevelLoop_free hpars hsort _ 0 level (Nat.zero_le _) hlevel hl

end

theorem Version.pickLevelLoop_le (v : Version) :
    ∀ fuel start, start ≤ kMaxMeCompactLevel →
      v.pickLevelLoop opts ucmp lo hi fuel start ≤ kMaxMeCompactLevel := by
  intro fuel
  induction fuel with
  | zero => exact fun start h => h
  | succ fuel ih =>
    grind [pickLevelLoop]

theorem Version.pickLevel_le (v : Version) :
    v.pickLevelForMemTableOutput opts ucmp lo hi ≤ kMaxMeCompactLevel := by
  unfold pickLevelForMemTableOutput
  split_ifs
  · exact Nat.zero_le _
  · exact v.pickLevelLoop_le _ _ (Nat.zero_le _)

/-- A file of level 0 at `a` and one of level 2 at `c`. -/
def pickLevelVersion : Version :=
  ⟨fun level =>
    if level = 0 then
      [⟨7, 10, .ofParts (ascii "a") 3 .kTypeValue, .ofParts (ascii "a") 3 .kTypeValue⟩]
    else if level = 2 then
      [⟨5, 10, .ofParts (ascii "c") 1 .kTypeValue, .ofParts (ascii "d") 2 .kTypeValue⟩]
    else []⟩

/-- The sum of the file sizes. -/
def sumFileSize (files : List FileMetaData) : ℕ := (files.map FileMetaData.fileSize).sum

theorem totalFileSize_eq_bmod (files : List FileMetaData) :
    totalFileSize files = Int.bmod (sumFileSize files) (2 ^ 32) := by
  suffices h : ∀ sum : ℤ, files.foldl (fun sum f => Int.bmod (sum + f.fileSize) (2 ^ 32))
      (Int.bmod sum (2 ^ 32)) = Int.bmod (sum + sumFileSize files) (2 ^ 32) by
    simpa [totalFileSize] using h 0
  induction files with
  | nil => intro sum; simp [sumFileSize]
  | cons f files ih =>
    intro sum
    rw [List.foldl_cons, Int.bmod_add_bmod, ih]
    simp only [sumFileSize, List.map_cons, List.sum_cons, Int.natCast_add]
    rw [Int.add_assoc]

/-- **`TotalFileSize` is exact below 2 GiB and only there**, and so is the level size that
`Finalize` computes from it. -/
theorem totalFileSize_eq_sum_iff (files : List FileMetaData) :
    (totalFileSize files = sumFileSize files ↔ sumFileSize files < 2 ^ 31) ∧
      (sumFileSize files < 2 ^ 63 →
        (levelBytes files = sumFileSize files ↔ sumFileSize files < 2 ^ 31)) := by
  grind [levelBytes, totalFileSize_eq_bmod]

/-- Two files of 1 GiB each. -/
def twoGiBFiles : List FileMetaData :=
  [⟨4, 2 ^ 30, .ofParts (ascii "a") 1 .kTypeValue, .ofParts (ascii "b") 2 .kTypeValue⟩,
    ⟨5, 2 ^ 30, .ofParts (ascii "c") 3 .kTypeValue, .ofParts (ascii "d") 4 .kTypeValue⟩]

/-- **A level of 2 GiB has a negative size**, and a huge one after the conversion in `Finalize`. -/
theorem totalFileSize_twoGiB :
    sumFileSize twoGiBFiles = 2 ^ 31 ∧ totalFileSize twoGiBFiles = -2 ^ 31 ∧
      levelBytes twoGiBFiles = 2 ^ 64 - 2 ^ 31 := by
  decide

/-! ## The overlap with the next level -/

/-- `VersionSet::MaxNextLevelOverlappingBytes`. The overlaps are looked up in the level of the file, not in
the next one. -/
def Version.maxNextLevelOverlappingBytes (ucmp : Comparator) (v : Version) : ℤ :=
  (List.range' 1 (kNumLevels - 2)).foldl (fun result level =>
    (v.files level).foldl (fun result f =>
      let overlaps := v.getOverlappingInputs ucmp level (some f.smallest) (some f.largest)
      if result < totalFileSize overlaps then totalFileSize overlaps else result) result) 0

/-- The files of levels 1 to `kNumLevels - 2`, with their levels. -/
def Version.inner (v : Version) : List (ℕ × FileMetaData) :=
  (List.range' 1 (kNumLevels - 2)).flatMap fun level => (v.files level).map fun f => (level, f)

/-- The total size of the files of a level whose range of user keys meets that of `f`. -/
def Version.meetingBytes (ucmp : Comparator) (v : Version) (level : ℕ) (f : FileMetaData) : ℕ :=
  sumFileSize ((v.files level).filter fun g =>
    !endsBefore ucmp (some f.smallest.userKey) g && !startsAfter ucmp (some f.largest.userKey) g)

/-- What `MaxNextLevelOverlappingBytes` is for: the largest overlap of a file with the next level. -/
def Version.nextLevelOverlap (ucmp : Comparator) (v : Version) : ℕ :=
  (v.inner.map fun x => v.meetingBytes ucmp (x.1 + 1) x.2).foldr max 0

theorem Version.totalFileSize_overlaps (v : Version) {level : ℕ} (hlevel : level ≠ 0) (f : FileMetaData) :
    totalFileSize (v.getOverlappingInputs ucmp level (some f.smallest) (some f.largest)) =
      Int.bmod (v.meetingBytes ucmp level f) (2 ^ 32) := by
  obtain ⟨b, e, -, -, hfiles, -, hrange⟩ :=
    getOverlappingInputs_spec ucmp level (v.files level) (some f.smallest) (some f.largest)
  obtain ⟨rfl, rfl⟩ := hrange hlevel
  rw [totalFileSize_eq_bmod, getOverlappingInputs, hfiles]
  rfl

/-- The largest overlap is 0 or that of some file. -/
theorem Version.nextLevelOverlap_spec (ucmp : Comparator) (v : Version) :
    (v.nextLevelOverlap ucmp = 0 ∨
      ∃ x ∈ v.inner, v.meetingBytes ucmp (x.1 + 1) x.2 = v.nextLevelOverlap ucmp) ∧
    ∀ x ∈ v.inner, v.meetingBytes ucmp (x.1 + 1) x.2 ≤ v.nextLevelOverlap ucmp := by
  rw [nextLevelOverlap]
  induction v.inner with
  | nil => simp
  | cons x xs ih =>
    rw [List.map_cons, List.foldr_cons]
    refine ⟨?_, fun y hy => ?_⟩
    · grind
    · rcases List.mem_cons.mp hy with rfl | hy
      · exact le_max_left _ _
      · exact (ih.2 y hy).trans (le_max_right _ _)

/-- In a level whose files share no user key, only the file itself meets it. -/
theorem Version.meetingBytes_self {level : ℕ} {f : FileMetaData} (hf : f ∈ v.files level)
    (hord : f.Ordered ucmp) (hsep : (v.files level).Pairwise fun f g => f.hi ucmp < g.lo ucmp) :
    v.meetingBytes ucmp level f = f.fileSize := by
  let meets (g : FileMetaData) : Bool :=
    !endsBefore ucmp (some f.smallest.userKey) g && !startsAfter ucmp (some f.largest.userKey) g
  obtain ⟨as, bs, hsplit⟩ := List.append_of_mem hf
  rw [hsplit] at hsep
  have hself : meets f = true := by
    rw [Bool.and_eq_true, Bool.not_eq_true', Bool.not_eq_true']
    exact meets_iff.mp ⟨WithBot.coe_le_coe.mpr hord.lo_le_hi, WithTop.coe_le_coe.mpr hord.lo_le_hi⟩
  have hbefore : as.filter meets = [] := by
    refine List.filter_eq_nil_iff.mpr fun g hg => ?_
    have hlt := (List.pairwise_append.mp hsep).2.2 g hg f List.mem_cons_self
    have hends : endsBefore ucmp (some f.smallest.userKey) g = true :=
      endsBefore_iff.mpr (WithBot.coe_lt_coe.mpr hlt)
    simp [meets, hends]
  have hafter : bs.filter meets = [] := by
    refine List.filter_eq_nil_iff.mpr fun g hg => ?_
    have hlt := (List.pairwise_cons.mp (List.pairwise_append.mp hsep).2.1).1 g hg
    have hstarts : startsAfter ucmp (some f.largest.userKey) g = true :=
      startsAfter_iff.mpr (WithTop.coe_lt_coe.mpr hlt)
    simp [meets, hstarts]
  change sumFileSize ((v.files level).filter meets) = f.fileSize
  grind [sumFileSize]

/-- A file of level 1 over two larger files of level 2. -/
def overlapVersion : Version :=
  ⟨fun level =>
    if level = 1 then [⟨4, 10, .ofParts (ascii "a") 5 .kTypeValue, .ofParts (ascii "c") 6 .kTypeValue⟩]
    else if level = 2 then
      [⟨5, 20, .ofParts (ascii "a") 1 .kTypeValue, .ofParts (ascii "a") 1 .kTypeValue⟩,
        ⟨6, 20, .ofParts (ascii "c") 2 .kTypeValue, .ofParts (ascii "c") 2 .kTypeValue⟩]
    else []⟩

end RocketDb
