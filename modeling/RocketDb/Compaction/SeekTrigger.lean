import RocketDb.Engine.Lookup
import RocketDb.Format.InternalComparator
import RocketDb.Util.Env

/-! # Compactions that reads ask for (`db/version_set.cc`)

A read that looks into more than one file charges the first of them with a seek; a file that has used up its
seeks is recorded for compaction. Two callbacks of `ForEachOverlapping` do this, for `Version::Get` and for
`RecordReadSample`.

* **`visit`** — the visits, which the callback can end.
* **`seekFile_in_version`** — what is recorded is a file of the version with a level below it, so the request
  of `PickCompaction` is valid without a check. -/

namespace RocketDb

open Transition List

/-! ## Visiting files -/

section Visit

variable {σ α : Type*} {func : σ → α → σ × Bool} {R : List α → σ → Prop}

/-- Call `func` for one element after another until it returns false. -/
def visit (func : σ → α → σ × Bool) : σ → List α → σ
  | s, [] => s
  | s, x :: xs => if (func s x).2 then visit func (func s x).1 xs else (func s x).1

theorem visit_append_spec (hstep : ∀ seen s x, R seen s → R (seen ++ [x]) (func s x).1) {s : σ}
    (xs : List α) {seen : List α} (h : R seen s) :
    ∃ more, more <+: xs ∧ R (seen ++ more) (visit func s xs) := by
  induction xs generalizing s seen with
  | nil => exact ⟨[], nil_prefix, by rwa [append_nil]⟩
  | cons x xs ih =>
    rw [visit]
    split_ifs
    · obtain ⟨more, hmore, hR⟩ := ih (hstep seen s x h)
      grind
    · exact ⟨[x], ⟨xs, rfl⟩, hstep seen s x h⟩

/-- **What a callback keeps** about the elements it has seen holds in the end for a first part of the
list. -/
theorem visit_spec (hstep : ∀ seen s x, R seen s → R (seen ++ [x]) (func s x).1) {s : σ} (h : R [] s)
    (xs : List α) :
    ∃ seen, seen <+: xs ∧ R seen (visit func s xs) :=
  visit_append_spec hstep xs h

end Visit

variable {ucmp : Comparator} {v : Version} {userKey : Slice} {internalKey : InternalKey}
  {x y : ℕ × FileMetaData} {tableGet : FileMetaData → Status × SaverState} {seen : List (ℕ × FileMetaData)}
  {sequence : ℕ} {tables : ℕ → List Entry} {s : SeekState}

/-- **The order of the visits**: after a file of level 0 anything may come, after any other only a file of
a deeper level. -/
theorem pairwise_overlappingFiles (ucmp : Comparator) (v : Version) (userKey : Slice)
    (internalKey : InternalKey) :
    (overlappingFiles ucmp v userKey internalKey).Pairwise fun x y => x.1 = 0 ∨ x.1 < y.1 := by
  rw [overlappingFiles, pairwise_append]
  refine ⟨?_, ?_, ?_⟩
  · grind [pairwise_of_forall]
  · rw [pairwise_flatMap]
    constructor
    · exact fun level _ => pairwise_map.mpr deepFile_subsingleton
    · refine (pairwise_lt_range.sublist (drop_sublist 1 _)).imp ?_
      grind
  · grind

/-- A file can be charged with a seek: it is a file of the version with a level below. -/
def Chargeable (v : Version) (x : ℕ × FileMetaData) : Prop := x.2 ∈ v.files x.1 ∧ x.1 ≤ kNumLevels - 2

/-- **The first of two files that are visited** has a level below it. -/
theorem chargeable_of_two {rest : List (ℕ × FileMetaData)}
    (h : x :: y :: rest <+: overlappingFiles ucmp v userKey internalKey) : Chargeable v x := by
  have hx := mem_overlappingFiles (h.subset mem_cons_self)
  have hy := mem_overlappingFiles (h.subset (mem_cons_of_mem x mem_cons_self))
  have hxy := (pairwise_cons.mp
    ((pairwise_overlappingFiles ucmp v userKey internalKey).sublist h.sublist)).1 y mem_cons_self
  refine ⟨hx.2, ?_⟩
  have hlevels : kNumLevels = 7 := rfl
  omega

/-! ## The bookkeeping of reads -/

/-- The state of `Version::Get` during its visits. -/
structure GetState where
  /-- `stats->seek_file` with its level. -/
  seekFile : Option (ℕ × FileMetaData)
  /-- `last_file_read` with its level. -/
  lastFileRead : Option (ℕ × FileMetaData)
  saver : SaverState
  s : Status
  found : Bool

/-- `State::Match` of `Version::Get`: what the table cache answers, and what the saver holds then, is
given by `tableGet`. -/
def GetState.onMatch (userKey : Slice) (tableGet : FileMetaData → Status × SaverState) (state : GetState)
    (x : ℕ × FileMetaData) : GetState × Bool :=
  let (s, saver) := tableGet x.2
  let state : GetState :=
    ⟨if state.seekFile = none then state.lastFileRead else state.seekFile, some x, saver, s, state.found⟩
  if s.isOk = false then ({ state with found := true }, false)
  else
    match saver with
    | .kNotFound => (state, true)
    | .kFound _ => ({ state with found := true }, false)
    | .kDeleted => (state, false)
    | .kCorrupt =>
      ({ state with s := .corruption (ascii "corrupted key for ") userKey, found := true }, false)

/-- **`Version::Get`** with its statistics: the state after the visits. -/
def Version.get (ucmp : Comparator) (v : Version) (userKey : Slice) (sequence : ℕ)
    (tableGet : FileMetaData → Status × SaverState) : GetState :=
  visit (GetState.onMatch userKey tableGet) ⟨none, none, .kNotFound, .ok, false⟩
    (overlappingFiles ucmp v userKey (lookupKey userKey sequence))

/-- The status that `Version::Get` returns. -/
def GetState.result (state : GetState) : Status :=
  if state.found then state.s else .make .kNotFound [] []

/-- The status that goes with what the saver holds. -/
def SaverState.status (userKey : Slice) : SaverState → Status
  | .kFound _ => .ok
  | .kNotFound | .kDeleted => .make .kNotFound [] []
  | .kCorrupt => .corruption (ascii "corrupted key for ") userKey

/-- While nothing is found the next file is asked; the answer is the one of the model of reads. -/
theorem saver_visit (xs : List (ℕ × FileMetaData))
    (htables : ∀ x ∈ xs, tableGet x.2 = (.ok, lookupEntries ucmp userKey sequence (tables x.2.number)))
    (state : GetState) (hsaver : state.saver = .kNotFound) (hfound : state.found = false) :
    let final := visit (GetState.onMatch userKey tableGet) state xs
    final.saver = searchFiles ucmp tables userKey sequence (xs.map Prod.snd) ∧
      final.result = final.saver.status userKey := by
  induction xs generalizing state with
  | nil => exact ⟨hsaver, by rw [visit, GetState.result, hfound, hsaver]; rfl⟩
  | cons x xs ih =>
    rw [visit, map_cons, searchFiles, GetState.onMatch, htables x mem_cons_self]
    cases lookupEntries ucmp userKey sequence (tables x.2.number) with
    | kNotFound => exact ih (fun y hy => htables y (mem_cons_of_mem x hy)) _ rfl hfound
    | kFound value => exact ⟨rfl, rfl⟩
    | kDeleted =>
      refine ⟨rfl, ?_⟩
      -- a deletion ends the search without setting `found`
      simp only [GetState.result, hfound]
      rfl
    | kCorrupt => exact ⟨rfl, rfl⟩

/-- The state of `RecordReadSample` during its visits. -/
structure SampleState where
  seekFile : Option (ℕ × FileMetaData)
  matchCount : ℕ

/-- `State::Match` of `RecordReadSample`. -/
def SampleState.onMatch (state : SampleState) (x : ℕ × FileMetaData) : SampleState × Bool :=
  let state : SampleState :=
    ⟨if state.matchCount + 1 = 1 then some x else state.seekFile, state.matchCount + 1⟩
  (state, decide (state.matchCount < 2))

/-- The file that `RecordReadSample` charges. -/
def Version.sample (ucmp : Comparator) (v : Version) (internalKey : Slice) : Option (ℕ × FileMetaData) :=
  match parseSlice internalKey with
  | none => none
  | some ikey =>
    let state := visit SampleState.onMatch ⟨none, 0⟩
      (overlappingFiles ucmp v ikey.userKey (.ofSlice internalKey))
    if 2 ≤ state.matchCount then state.seekFile else none

/-- The statistics of the visits: the first file, once there were two. -/
def firstOfTwo (seen : List (ℕ × FileMetaData)) : Option (ℕ × FileMetaData) :=
  if 2 ≤ seen.length then seen.head? else none

theorem firstOfTwo_eq_some (h : firstOfTwo seen = some x) :
    ∃ y rest, seen = x :: y :: rest := by
  match seen, h with
  | x :: y :: rest, h => exact ⟨y, rest, by cases h; rfl⟩

theorem GetState.onMatch_fst (userKey : Slice) (tableGet : FileMetaData → Status × SaverState)
    (state : GetState) (x : ℕ × FileMetaData) :
    (state.onMatch userKey tableGet x).1.lastFileRead = some x ∧
      (state.onMatch userKey tableGet x).1.seekFile =
        if state.seekFile = none then state.lastFileRead else state.seekFile := by
  rw [onMatch]
  generalize tableGet x.2 = answer
  obtain ⟨s, saver⟩ := answer
  dsimp only
  by_cases hs : s.isOk = false
  · rw [if_pos hs]
    exact ⟨rfl, rfl⟩
  · rw [if_neg hs]
    cases saver <;> exact ⟨rfl, rfl⟩

theorem firstOfTwo_concat (seen : List (ℕ × FileMetaData)) (x : ℕ × FileMetaData) :
    firstOfTwo (seen ++ [x]) = if firstOfTwo seen = none then seen.getLast? else firstOfTwo seen := by
  match seen with
  | [] => rfl
  | [y] => rfl
  | y :: z :: rest =>
    grind [firstOfTwo]

theorem chargeable_of_firstOfTwo (hseen : seen <+: overlappingFiles ucmp v userKey internalKey)
    (h : firstOfTwo seen = some x) :
    Chargeable v x := by
  obtain ⟨y, rest, rfl⟩ := firstOfTwo_eq_some h
  exact chargeable_of_two hseen

theorem chargeable_get (h : (v.get ucmp userKey sequence tableGet).seekFile = some x) : Chargeable v x := by
  have hstep : ∀ seen (state : GetState) x,
      (state.seekFile = firstOfTwo seen ∧ state.lastFileRead = seen.getLast?) →
      (state.onMatch userKey tableGet x).1.seekFile = firstOfTwo (seen ++ [x]) ∧
        (state.onMatch userKey tableGet x).1.lastFileRead = (seen ++ [x]).getLast? := by
    rintro seen state x ⟨hseek, hlast⟩
    obtain ⟨hlast', hseek'⟩ := state.onMatch_fst userKey tableGet x
    grind [firstOfTwo_concat]
  obtain ⟨seen, hseen, hseek, -⟩ := visit_spec hstep (s := ⟨none, none, .kNotFound, .ok, false⟩)
    ⟨rfl, rfl⟩ (overlappingFiles ucmp v userKey (lookupKey userKey sequence))
  exact chargeable_of_firstOfTwo hseen (hseek.symm.trans h)

theorem chargeable_sample {internalKey : Slice} (h : v.sample ucmp internalKey = some x) :
    Chargeable v x := by
  have hstep : ∀ seen (state : SampleState) x,
      (state.matchCount = seen.length ∧ state.seekFile = seen.head?) →
      (state.onMatch x).1.matchCount = (seen ++ [x]).length ∧
        (state.onMatch x).1.seekFile = (seen ++ [x]).head? := by
    rintro seen state x ⟨hcount, hseek⟩
    rw [SampleState.onMatch]
    dsimp only
    rw [hcount, hseek]
    cases seen with
    | nil => exact ⟨rfl, rfl⟩
    | cons y rest => exact ⟨by simp, by simp⟩
  rw [Version.sample] at h
  split at h
  · cases h
  · rename_i ikey hparse
    obtain ⟨seen, hseen, hcount, hseek⟩ := visit_spec hstep (s := ⟨none, 0⟩) ⟨rfl, rfl⟩
      (overlappingFiles ucmp v ikey.userKey (.ofSlice internalKey))
    grind [chargeable_of_firstOfTwo, firstOfTwo]

/-! ## Recording a file -/

/-- The seeks left for each file, the file recorded for compaction with its level, and the statistics of
reads that have not been taken over yet. -/
structure SeekState where
  allowedSeeks : FileMetaData → ℤ
  fileToCompact : Option (ℕ × FileMetaData)
  pending : List (Option (ℕ × FileMetaData))

/-- `Version::UpdateStats`: whether a file was recorded, and the state. -/
def SeekState.updateStats (stats : Option (ℕ × FileMetaData)) (s : SeekState) : Bool × SeekState :=
  match stats with
  | none => (false, s)
  | some (level, f) =>
    let s := { s with allowedSeeks := Function.update s.allowedSeeks f (s.allowedSeeks f - 1) }
    if s.allowedSeeks f ≤ 0 ∧ s.fileToCompact = none then
      (true, { s with fileToCompact := some (level, f) })
    else (false, s)

/-- The calls on a version. `DBImpl::Get` reads without the mutex and takes over the statistics later, so
other calls may come between the two. -/
inductive SeekCall where
  | get (userKey : Slice) (sequence : ℕ) (tableGet : FileMetaData → Status × SaverState)
  | updateStats (i : ℕ)
  | recordReadSample (internalKey : Slice)

/-- One call. -/
def seekStep (ucmp : Comparator) (v : Version) (s : SeekState) : SeekCall → Option SeekState
  | .get userKey sequence tableGet =>
    some { s with pending := s.pending ++ [(v.get ucmp userKey sequence tableGet).seekFile] }
  | .updateStats i =>
    match s.pending[i]? with
    | none => none
    | some stats => some ({ s with pending := s.pending.eraseIdx i }.updateStats stats).2
  | .recordReadSample internalKey => some (s.updateStats (v.sample ucmp internalKey)).2

/-- What is recorded or still to be taken over can be charged. -/
structure SeekState.Ok (v : Version) (s : SeekState) : Prop where
  recorded : ∀ x, s.fileToCompact = some x → Chargeable v x
  pending : ∀ x, some x ∈ s.pending → Chargeable v x

theorem SeekState.Ok.updateStats (h : s.Ok v) {stats : Option (ℕ × FileMetaData)}
    (hstats : ∀ x, stats = some x → Chargeable v x) : (s.updateStats stats).2.Ok v := by
  match stats with
  | none => exact h
  | some (level, f) =>
    grind [SeekState.updateStats, Ok]

theorem SeekState.Ok.step {s s' : SeekState} (h : s.Ok v) {c : SeekCall}
    (hc : seekStep ucmp v s c = some s') : s'.Ok v := by
  cases c with
  | get userKey sequence tableGet =>
    cases hc
    grind [Ok, chargeable_get]
  | updateStats i =>
    rw [seekStep] at hc
    cases hi : s.pending[i]? with
    | none =>
      rw [hi] at hc
      cases hc
    | some stats =>
      rw [hi] at hc
      cases hc
      have hrest : SeekState.Ok v { s with pending := s.pending.eraseIdx i } :=
        ⟨h.recorded, fun x hx => h.pending x (mem_of_mem_eraseIdx hx)⟩
      refine hrest.updateStats ?_
      rintro x rfl
      exact h.pending x (mem_of_getElem? hi)
  | recordReadSample internalKey =>
    cases hc
    exact h.updateStats fun x hx => chargeable_sample hx

/-! ## The compaction of the file -/

theorem setupOtherInputs_congr (opts : Options) (ucmp : Comparator) {v v' : Version} {level : ℕ}
    (inputs0 : List FileMetaData) (hlevel : level + 1 < kNumLevels)
    (hv : ∀ l < kNumLevels, v'.files l = v.files l) :
    setupOtherInputs opts ucmp v' level inputs0 =
      { setupOtherInputs opts ucmp v level inputs0 with inputVersion := v' } := by
  have hgrand (b e : Option InternalKey) :
      (if level + 2 < kNumLevels then v'.getOverlappingInputs ucmp (level + 2) b e else []) =
        if level + 2 < kNumLevels then v.getOverlappingInputs ucmp (level + 2) b e else [] := by
    split_ifs with h
    · rw [Version.getOverlappingInputs, hv _ h, Version.getOverlappingInputs]
    · rfl
  simp only [setupOtherInputs, hgrand]
  simp only [Version.getOverlappingInputs, hv level (by omega), hv (level + 1) hlevel]
  rfl

theorem pickSeed_congr {v v' : Version} (level : ℕ) (f : FileMetaData)
    (hv : ∀ l < kNumLevels, v'.files l = v.files l) :
    pickSeed ucmp v' level f = pickSeed ucmp v level f := by
  rw [pickSeed, pickSeed, Version.getOverlappingInputs, hv 0 (by decide), Version.getOverlappingInputs]

theorem SeekState.Ok.valid_pick (h : s.Ok v) :
    (CompactionRequest.pick ⟨none, s.fileToCompact⟩).Valid v := by
  refine ⟨fun level hlevel => absurd hlevel (by simp), fun level f hf => ?_⟩
  obtain ⟨hmem, hle⟩ := h.recorded (level, f) hf
  grind [kNumLevels]

/-- **A file recorded for compaction is one of the version at its level, and there is a level below.** After
every sequence of reads and samples, however their statistics are taken over; so the compaction that
`PickCompaction` makes of it depends only on the levels that there are. -/
theorem seekFile_in_version (ucmp : Comparator) (v : Version) (allowedSeeks : FileMetaData → ℤ)
    (calls : List SeekCall) (s : SeekState)
    (hrun : run (seekStep ucmp v) ⟨allowedSeeks, none, []⟩ calls = some s) :
    (∀ level f, s.fileToCompact = some (level, f) → f ∈ v.files level ∧ level ≤ kNumLevels - 2) ∧
      ∀ (opts : Options) (pointer : ℕ → Option InternalKey) (v' : Version),
        (∀ level < kNumLevels, v'.files level = v.files level) →
        pickCompaction opts ucmp v' pointer ⟨none, s.fileToCompact⟩ =
          (pickCompaction opts ucmp v pointer ⟨none, s.fileToCompact⟩).map fun c =>
            { c with inputVersion := v' } := by
  have hinit : SeekState.Ok v ⟨allowedSeeks, none, []⟩ :=
    ⟨fun x hx => absurd hx (by simp), fun x hx => absurd hx (by simp)⟩
  have hok : s.Ok v := run_invariant (fun _ _ _ h hc => h.step hc) hinit hrun
  refine ⟨fun level f hf => hok.recorded _ hf, fun opts pointer v' hv => ?_⟩
  rw [pickCompaction, pickCompaction, pickFile, pickFile]
  dsimp only
  cases hf : s.fileToCompact with
  | none => rfl
  | some x =>
    have hlevel := (hok.valid_pick.2 x.1 x.2 hf).1
    grind [pickSeed_congr, setupOtherInputs_congr]

/-- A key is in the range of a file of level 0 and of one of level 1: a read of it charges the file of level
0, and a sample uses up its last seek. -/
theorem seekFile_in_version_two :
    let f : FileMetaData := ⟨8, 100, .ofParts [1] 5 .kTypeValue, .ofParts [9] 4 .kTypeValue⟩
    let g : FileMetaData := ⟨7, 100, .ofParts [2] 3 .kTypeValue, .ofParts [8] 2 .kTypeValue⟩
    let v : Version := ⟨fun level => if level = 0 then [f] else if level = 1 then [g] else []⟩
    let calls : List SeekCall := [.get [5] 9 fun _ => (.ok, .kNotFound),
      .recordReadSample (InternalKey.ofParts [5] 9 .kTypeValue).encode, .updateStats 0]
    (run (seekStep bytewiseComparator v) ⟨fun _ => 2, none, []⟩ calls).map SeekState.fileToCompact =
        some (some (0, f)) ∧
      (f ∈ v.files 0 ∧ 0 ≤ kNumLevels - 2) := by
  intro f g v calls
  have hrun : (run (seekStep bytewiseComparator v) ⟨fun _ => 2, none, []⟩ calls).map
      SeekState.fileToCompact = some (some (0, f)) := by decide
  obtain ⟨s, hs, hf⟩ := Option.map_eq_some_iff.mp hrun
  exact ⟨hrun, (seekFile_in_version bytewiseComparator v (fun _ => 2) calls s hs).1 0 f hf⟩

end RocketDb
