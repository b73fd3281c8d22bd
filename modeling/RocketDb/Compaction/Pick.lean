import RocketDb.Version.Levels

/-! # Choosing the inputs of a compaction (`VersionSet::PickCompaction`, `SetupOtherInputs`)

Adjacent files of a level may hold versions of one user key, so taking a file and leaving its right neighbour
could move newer versions below older ones; `AddBoundaryInputs` is there to pull such neighbours in. It starts
its search from the largest key of the **level**, not of the files chosen, so no file is ever added
(`addBoundaryInputs_eq_self`), and an older version can be left behind (`compaction_leaves_older_version`). -/

namespace RocketDb

open KeyOrder

/-- `GetRange`: the smallest and the largest key of a nonempty list of files. -/
def getRange (ucmp : Comparator) : List FileMetaData → InternalKey × InternalKey
  | [] => (⟨[], 0⟩, ⟨[], 0⟩)
  | f :: files =>
    files.foldl (fun r g =>
      (if internalCompare ucmp g.smallest r.1 == .lt then g.smallest else r.1,
        if internalCompare ucmp g.largest r.2 == .gt then g.largest else r.2))
      (f.smallest, f.largest)

/-- `FindLargestKey`. -/
def findLargestKey (ucmp : Comparator) : List FileMetaData → Option InternalKey
  | [] => none
  | f :: files =>
    some ((f :: files).foldl
      (fun k g => if internalCompare ucmp g.largest k == .gt then g.largest else k) f.largest)

/-- `FindSmallestBoundaryFile`: among the files that start after `largestKey` with its user key, the
one that starts first. -/
def findSmallestBoundaryFile (ucmp : Comparator) (levelFiles : List FileMetaData)
    (largestKey : InternalKey) : Option FileMetaData :=
  levelFiles.foldl (fun best f =>
    if internalCompare ucmp f.smallest largestKey = .gt ∧
        ucmp.compare f.smallest.userKey largestKey.userKey = .eq then
      match best with
      | none => some f
      | some g => if internalCompare ucmp f.smallest g.smallest = .lt then some f else best
    else best) none

/-- The loop of `AddBoundaryInputs`. -/
def boundaryLoop (ucmp : Comparator) (levelFiles : List FileMetaData) :
    ℕ → InternalKey → List FileMetaData → List FileMetaData
  | 0, _, compactionFiles => compactionFiles
  | fuel + 1, largestKey, compactionFiles =>
    match findSmallestBoundaryFile ucmp levelFiles largestKey with
    | none => compactionFiles
    | some f => boundaryLoop ucmp levelFiles fuel f.largest (compactionFiles ++ [f])

/-- `AddBoundaryInputs`. The search starts from the largest key of `levelFiles`, as in the source;
every round moves to a later file, so there are at most as many as files. -/
def addBoundaryInputs (ucmp : Comparator) (levelFiles compactionFiles : List FileMetaData) :
    List FileMetaData :=
  match findLargestKey ucmp levelFiles with
  | none => compactionFiles
  | some largestKey =>
    boundaryLoop ucmp levelFiles (levelFiles.length + 1) largestKey compactionFiles

/-- A compaction: its level, its inputs from that level and the next, the files of the level after
that it overlaps, the version it was picked from, and where the next one should start. -/
structure Compaction where
  level : ℕ
  inputs0 : List FileMetaData
  inputs1 : List FileMetaData
  grandparents : List FileMetaData
  inputVersion : Version
  compactPointer : InternalKey

/-- **`SetupOtherInputs`**: complete the inputs of a compaction of `level` that starts with the files
`inputs0`. -/
def setupOtherInputs (opts : Options) (ucmp : Comparator) (v : Version) (level : ℕ)
    (inputs0 : List FileMetaData) : Compaction :=
  let inputs0 := addBoundaryInputs ucmp (v.files level) inputs0
  let range := getRange ucmp inputs0
  let inputs1 := addBoundaryInputs ucmp (v.files (level + 1))
    (v.getOverlappingInputs ucmp (level + 1) (some range.1) (some range.2))
  let all := getRange ucmp (inputs0 ++ inputs1)
  -- grow the inputs of this level if that needs no more files of the next
  let expanded0 := addBoundaryInputs ucmp (v.files level)
    (v.getOverlappingInputs ucmp level (some all.1) (some all.2))
  let newRange := getRange ucmp expanded0
  let expanded1 := addBoundaryInputs ucmp (v.files (level + 1))
    (v.getOverlappingInputs ucmp (level + 1) (some newRange.1) (some newRange.2))
  let grow : Bool := !inputs1.isEmpty && decide (inputs0.length < expanded0.length) &&
    decide (totalFileSize inputs1 + totalFileSize expanded0 <
      expandedCompactionByteSizeLimit opts) &&
    decide (expanded1.length = inputs1.length)
  let result0 := if grow then expanded0 else inputs0
  let result1 := if grow then expanded1 else inputs1
  let largest := if grow then newRange.2 else range.2
  let hull := if grow then getRange ucmp (expanded0 ++ expanded1) else all
  { level := level
    inputs0 := result0
    inputs1 := result1
    grandparents :=
      if level + 2 < kNumLevels then
        v.getOverlappingInputs ucmp (level + 2) (some hull.1) (some hull.2)
      else []
    inputVersion := v
    compactPointer := largest }

/-- Why the version asks for a compaction: `compaction_level_` if `compaction_score_ >= 1`, and
`file_to_compact_` with its level. -/
structure CompactionTrigger where
  sizeLevel : Option ℕ
  seekFile : Option (ℕ × FileMetaData)

/-- The file a size compaction starts with: the first that ends after the compaction pointer, or the
first of the level. -/
def firstAfterPointer (ucmp : Comparator) (pointer : Option InternalKey)
    (files : List FileMetaData) : Option FileMetaData :=
  let after := fun f : FileMetaData =>
    match pointer with
    | none => true
    | some p => internalCompare ucmp f.largest p == .gt
  match files.find? after with
  | some f => some f
  | none => files.head?

/-- The level and the file `PickCompaction` starts with. -/
def pickFile (ucmp : Comparator) (v : Version) (pointer : ℕ → Option InternalKey)
    (trigger : CompactionTrigger) : Option (ℕ × FileMetaData) :=
  match trigger.sizeLevel with
  | some level => (firstAfterPointer ucmp (pointer level) (v.files level)).map fun f => (level, f)
  | none => trigger.seekFile

/-- The files of level 0 that overlap the first one, in level 0; the file alone elsewhere. -/
def pickSeed (ucmp : Comparator) (v : Version) (level : ℕ) (f : FileMetaData) :
    List FileMetaData :=
  if level = 0 then
    let range := getRange ucmp [f]
    v.getOverlappingInputs ucmp 0 (some range.1) (some range.2)
  else [f]

/-- **`PickCompaction`**. -/
def pickCompaction (opts : Options) (ucmp : Comparator) (v : Version)
    (pointer : ℕ → Option InternalKey) (trigger : CompactionTrigger) : Option Compaction :=
  (pickFile ucmp v pointer trigger).map fun (level, f) =>
    setupOtherInputs opts ucmp v level (pickSeed ucmp v level f)

/-- Stop after the file that brings the total to the limit. -/
def limitInputs (limit : ℕ) : ℕ → List FileMetaData → List FileMetaData
  | _, [] => []
  | total, f :: files =>
    let total := (total + f.fileSize) % 2 ^ 64
    if limit ≤ total then [f] else f :: limitInputs limit total files

/-- The files a manual compaction starts with. -/
def rangeSeed (opts : Options) (ucmp : Comparator) (v : Version) (level : ℕ)
    (rangeBegin rangeEnd : Option InternalKey) : List FileMetaData :=
  let inputs := v.getOverlappingInputs ucmp level rangeBegin rangeEnd
  if 0 < level then limitInputs (maxFileSizeForLevel opts level) 0 inputs else inputs

/-- **`VersionSet::CompactRange`**: nothing when no file overlaps the range. -/
def compactRange (opts : Options) (ucmp : Comparator) (v : Version) (level : ℕ)
    (rangeBegin rangeEnd : Option InternalKey) : Option Compaction :=
  match rangeSeed opts ucmp v level rangeBegin rangeEnd with
  | [] => none
  | f :: files => some (setupOtherInputs opts ucmp v level (f :: files))

/-- `IsTrivialMove`: one file, nothing to merge it with, and not too much below. -/
def Compaction.isTrivialMove (opts : Options) (c : Compaction) : Bool :=
  decide (c.inputs0.length = 1) && decide (c.inputs1.length = 0) &&
    decide (totalFileSize c.grandparents ≤ maxGrandParentOverlapBytes opts)

/-! ## The boundary search adds nothing -/

variable {ucmp : Comparator} {f g : FileMetaData} {files : List FileMetaData} {k : InternalKey}

theorem internalCompare_beq_lt {a b : InternalKey} :
    (internalCompare ucmp a b == .lt) = true ↔ a.rank ucmp < b.rank ucmp := by
  rw [beq_iff_eq, internalCompare_eq_lt]

theorem internalCompare_beq_gt {a b : InternalKey} :
    (internalCompare ucmp a b == .gt) = true ↔
      OrderDual.toDual (a.rank ucmp) < OrderDual.toDual (b.rank ucmp) := by
  rw [beq_iff_eq, internalCompare_eq_gt, OrderDual.toDual_lt_toDual]

theorem largest_le_of_findLargestKey (h : findLargestKey ucmp files = some k) (hf : f ∈ files) :
    f.largest.rank ucmp ≤ k.rank ucmp := by
  cases files with
  | nil => cases hf
  | cons a l =>
    obtain rfl := Option.some.inj h
    have hbest := RunningBest.best_spec FileMetaData.largest
      (fun x y => show (internalCompare ucmp x y == .gt) = true ↔ _ from internalCompare_beq_gt)
      a.largest (a :: l)
    exact hbest.2.2 f hf

/-- A boundary file of `k` starts after `k` with the same user key. -/
def IsBoundaryFile (ucmp : Comparator) (k : InternalKey) (f : FileMetaData) : Prop :=
  internalCompare ucmp f.smallest k = .gt ∧ ucmp.compare f.smallest.userKey k.userKey = .eq

instance (ucmp : Comparator) (k : InternalKey) (f : FileMetaData) :
    Decidable (IsBoundaryFile ucmp k f) := inferInstanceAs (Decidable (_ ∧ _))

theorem findSmallestBoundaryFile_eq_none (h : ∀ f ∈ files, ¬ IsBoundaryFile ucmp k f) :
    findSmallestBoundaryFile ucmp files k = none := by
  unfold findSmallestBoundaryFile
  induction files with
  | nil => rfl
  | cons a l ih =>
    grind [List.mem_cons_self, IsBoundaryFile]

/-- **`AddBoundaryInputs` adds nothing**: no file of the level starts after the level's largest
key. -/
theorem addBoundaryInputs_eq_self (hord : ∀ f ∈ files, f.Ordered ucmp)
    (compactionFiles : List FileMetaData) :
    addBoundaryInputs ucmp files compactionFiles = compactionFiles := by
  unfold addBoundaryInputs
  cases hk : findLargestKey ucmp files with
  | none => rfl
  | some k =>
    have hnone : findSmallestBoundaryFile ucmp files k = none := by
      refine findSmallestBoundaryFile_eq_none fun f hf hb => ?_
      have hlt := internalCompare_eq_gt.mp hb.1
      have hle := (FileMetaData.ordered_iff.mp (hord f hf)).trans
        (largest_le_of_findLargestKey hk hf)
      exact absurd hlt hle.not_gt
    simp only [boundaryLoop, hnone]

/-! ## The inputs that the overlap queries select -/

/-- The inputs a compaction of `level` that starts with `inputs0` gets from the overlap queries: the
files of the next level that meet its range, and, if they fit, all files of this level that meet the
range of both. -/
def overlapInputs (opts : Options) (ucmp : Comparator) (v : Version) (level : ℕ)
    (inputs0 : List FileMetaData) : List FileMetaData × List FileMetaData :=
  let range := getRange ucmp inputs0
  let inputs1 := v.getOverlappingInputs ucmp (level + 1) (some range.1) (some range.2)
  let all := getRange ucmp (inputs0 ++ inputs1)
  let expanded0 := v.getOverlappingInputs ucmp level (some all.1) (some all.2)
  let newRange := getRange ucmp expanded0
  let expanded1 := v.getOverlappingInputs ucmp (level + 1) (some newRange.1) (some newRange.2)
  if inputs1 ≠ [] ∧ inputs0.length < expanded0.length ∧
      totalFileSize inputs1 + totalFileSize expanded0 < expandedCompactionByteSizeLimit opts ∧
      expanded1.length = inputs1.length then
    (expanded0, expanded1)
  else (inputs0, inputs1)

variable {v : Version}

theorem setupOtherInputs_inputs (opts : Options) (level : ℕ) (inputs0 : List FileMetaData)
    (hord : ∀ level, ∀ f ∈ v.files level, f.Ordered ucmp) :
    ((setupOtherInputs opts ucmp v level inputs0).inputs0,
      (setupOtherInputs opts ucmp v level inputs0).inputs1) =
      overlapInputs opts ucmp v level inputs0 := by
  simp only [setupOtherInputs, overlapInputs, addBoundaryInputs_eq_self (hord _)]
  grind

/-! ## Older versions left behind -/

/-- No file left out starts, with an older version, at the user key where an input ends. -/
def CleanBoundary (ucmp : Comparator) (levelFiles inputs : List FileMetaData) : Prop :=
  ∀ f ∈ levelFiles, f ∉ inputs → ∀ g ∈ inputs, ¬ IsBoundaryFile ucmp g.largest f

instance (ucmp : Comparator) (levelFiles inputs : List FileMetaData) :
    Decidable (CleanBoundary ucmp levelFiles inputs) :=
  inferInstanceAs (Decidable (∀ f ∈ levelFiles, _ → ∀ g ∈ inputs, _))

/-- A pair of input lists leaves no older version behind, in either level. In level 0, where files
overlap anyway, nothing is asked. -/
def CleanBoundaries (ucmp : Comparator) (v : Version) (level : ℕ)
    (inputs : List FileMetaData × List FileMetaData) : Prop :=
  (1 ≤ level → CleanBoundary ucmp (v.files level) inputs.1) ∧
    CleanBoundary ucmp (v.files (level + 1)) inputs.2

instance (ucmp : Comparator) (v : Version) (level : ℕ)
    (inputs : List FileMetaData × List FileMetaData) :
    Decidable (CleanBoundaries ucmp v level inputs) := inferInstanceAs (Decidable ((_ → _) ∧ _))

/-- What asks the version set for a compaction: the background thread, by size or by seeks, or a
manual compaction of a range. -/
inductive CompactionRequest where
  | pick (trigger : CompactionTrigger)
  | range (level : ℕ) (rangeBegin rangeEnd : Option InternalKey)

/-- The compaction made for a request. -/
def CompactionRequest.compaction (opts : Options) (ucmp : Comparator) (v : Version)
    (pointer : ℕ → Option InternalKey) : CompactionRequest → Option Compaction
  | .pick trigger => pickCompaction opts ucmp v pointer trigger
  | .range level b e => compactRange opts ucmp v level b e

/-- The level a request is about and the files it starts with. -/
def CompactionRequest.seed (opts : Options) (ucmp : Comparator) (v : Version)
    (pointer : ℕ → Option InternalKey) : CompactionRequest → Option (ℕ × List FileMetaData)
  | .pick trigger =>
    (pickFile ucmp v pointer trigger).map fun (level, f) => (level, pickSeed ucmp v level f)
  | .range level b e =>
    match rangeSeed opts ucmp v level b e with
    | [] => none
    | f :: files => some (level, f :: files)

theorem CompactionRequest.compaction_eq_map_seed (opts : Options) (ucmp : Comparator) (v : Version)
    (pointer : ℕ → Option InternalKey) (req : CompactionRequest) :
    req.compaction opts ucmp v pointer = (req.seed opts ucmp v pointer).map fun (level, files) =>
      setupOtherInputs opts ucmp v level files := by
  cases req with
  | pick trigger =>
    simp only [compaction, seed, pickCompaction, Option.map_map]
    rfl
  | range level b e =>
    grind [compaction, seed, compactRange]

/-- Two adjacent files of level 1 that share the user key `k`. -/
def sharedKeyVersion : Version :=
  ⟨fun level =>
    if level = 1 then
      [⟨4, 100, .ofParts (ascii "a") 10 .kTypeValue, .ofParts (ascii "k") 5 .kTypeValue⟩,
        ⟨5, 100, .ofParts (ascii "k") 4 .kTypeValue, .ofParts (ascii "z") 1 .kTypeValue⟩]
    else []⟩

/-- The size compaction of level 1 from its start. -/
def levelOneRequest : CompactionRequest := .pick ⟨some 1, none⟩

/-- **An older version is left behind**: the compaction takes the file that ends with version 5 of
`k` and leaves the one that starts with version 4. -/
theorem compaction_leaves_older_version :
    SortedLevel bytewiseComparator (sharedKeyVersion.files 1) ∧
      ∃ c, levelOneRequest.compaction .small bytewiseComparator sharedKeyVersion (fun _ => none)
          = some c ∧
        ¬ CleanBoundaries bytewiseComparator sharedKeyVersion c.level (c.inputs0, c.inputs1) :=
  ⟨by decide, _, rfl, by decide⟩

end RocketDb
