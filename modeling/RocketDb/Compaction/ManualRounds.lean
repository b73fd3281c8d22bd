import RocketDb.Engine.State

/-! # Manual compactions (`DBImpl::TEST_CompactRange`, `DBImpl::BackgroundCompaction`)

A caller puts a request for the files of one level that meet a range into the slot `manual_compaction_`. The
background thread compacts a first part of them, moves the start of the request to the end of the **last**
file it took, and empties the slot; the caller puts the request back until nothing is left. Meanwhile the
thread flushes memtables and serves other callers.

In a level `≥ 1` what is left behind starts after the last input (`CompactsFirst.meets_last`); in level 0
nothing is left behind, so it does not matter that the last input need not end last.

* **`manual_rounds_finish`** — the request is served by at most one round more than the level has files, and
  then no file of the level shares a user key with the range. -/

namespace RocketDb

open KeyOrder Transition List

/-! ## The request and its rounds -/

/-- `DBImpl::ManualCompaction`. -/
structure ManualCompaction where
  level : ℕ
  done : Bool
  rangeBegin : Option InternalKey
  rangeEnd : Option InternalKey

/-- The request of `TEST_CompactRange`: from the first internal key of the first user key to the last
one of the last. -/
def ManualCompaction.new (level : ℕ) (rangeBegin rangeEnd : Option Slice) : ManualCompaction where
  level := level
  done := false
  rangeBegin := rangeBegin.map fun k => .ofParts k kMaxSequenceNumber kValueTypeForSeek
  rangeEnd := rangeEnd.map fun k => .ofParts k 0 .kTypeDeletion

/-- `manual_compaction_`, as the caller sees it: nobody's, its own request, or another caller's. -/
inductive ManualSlot where
  | free
  | mine
  | others
  deriving DecidableEq, Repr

/-- What the caller and the background thread share. -/
structure ManualState where
  version : Version
  manual : ManualCompaction
  slot : ManualSlot

/-- The manual branch of `BackgroundCompaction`. While `DoCompactionWork` merges the inputs into
`outputs`, it also installs the flushes of full memtables. -/
def ManualState.backgroundCompaction (opts : Options) (ucmp : Comparator) (s : ManualState)
    (flushes : List VersionEdit) (outputs : List FileMetaData) : ManualState :=
  let m := s.manual
  match compactRange opts ucmp s.version m.level m.rangeBegin m.rangeEnd with
  | none => { s with manual := { m with done := true }, slot := .free }
  | some c =>
    -- `manual_end` is where the last input of the level ends
    { version := applyEdit ucmp (flushes.foldl (applyEdit ucmp) s.version) (c.edit outputs)
      manual := { m with done := false, rangeBegin := c.inputs0.getLast?.map FileMetaData.largest }
      slot := .free }

/-- The steps: the caller puts its request into the slot; the background thread serves it; another
caller uses the slot and the thread serves that one; a flush or an automatic compaction is
installed. -/
inductive ManualAction where
  | request
  | round (flushes : List VersionEdit) (outputs : List FileMetaData)
  | otherRequest
  | otherRound (edit : VersionEdit)
  | otherWork (edit : VersionEdit)

/-- One step; `none` where the source waits. -/
def ManualState.step (opts : Options) (ucmp : Comparator) (s : ManualState) :
    ManualAction → Option ManualState
  | .request =>
    if s.manual.done = false ∧ s.slot = .free then some { s with slot := .mine } else none
  | .round flushes outputs =>
    if s.slot = .mine then some (s.backgroundCompaction opts ucmp flushes outputs) else none
  | .otherRequest => if s.slot = .free then some { s with slot := .others } else none
  | .otherRound edit =>
    if s.slot = .others then
      some { s with version := applyEdit ucmp s.version edit, slot := .free }
    else none
  | .otherWork edit => some { s with version := applyEdit ucmp s.version edit }

/-- A step of the request itself: an iteration of the caller's loop or a round. -/
def ManualAction.isOwn : ManualAction → Bool
  | .request => true
  | .round _ _ => true
  | _ => false

/-- No flush and no other compaction of the step adds a file to the level. -/
def ManualAction.AddsNone (level : ℕ) : ManualAction → Prop
  | .request => True
  | .round flushes _ => ∀ edit ∈ flushes, ∀ f, (level, f) ∉ edit.newFiles
  | .otherRequest => True
  | .otherRound edit => ∀ f, (level, f) ∉ edit.newFiles
  | .otherWork edit => ∀ f, (level, f) ∉ edit.newFiles

/-! ## The inputs of one round -/

variable {opts : Options} {ucmp : Comparator} {v : Version} {level : ℕ} {f g : FileMetaData}
  {files seed : List FileMetaData} {b e : Option InternalKey} {c : Compaction}

/-- The inputs of the level are those the compaction starts with, or all files that meet a hull around
them. Only the order of keys in the files of this level is used. -/
theorem setupOtherInputs_inputs0 (opts : Options) (hord : ∀ f ∈ v.files level, f.Ordered ucmp)
    (seed : List FileMetaData) :
    (setupOtherInputs opts ucmp v level seed).inputs0 = seed ∨
      ∃ more, (setupOtherInputs opts ucmp v level seed).inputs0 =
        v.getOverlappingInputs ucmp level (some (getRange ucmp (seed ++ more)).1)
          (some (getRange ucmp (seed ++ more)).2) := by
  grind [setupOtherInputs, addBoundaryInputs_eq_self]

/-- **What one round takes** of the files that meet a range: files of the level, at least one, and
what they leave of the range starts after the last of them. -/
structure CompactsFirst (ucmp : Comparator) (files inputs : List FileMetaData)
    (b e : Option Slice) (last : FileMetaData) : Prop where
  last_mem : last ∈ inputs
  subset : inputs ⊆ files
  meets_last : ∀ f ∈ files, f ∉ inputs → Meets ucmp b e f →
    Meets ucmp (some last.largest.userKey) e f

theorem Meets.of_rank_lt {b e : Option Slice} (hf : f.Ordered ucmp) (hm : Meets ucmp b e f)
    (hlt : g.largest.rank ucmp < f.smallest.rank ucmp) :
    Meets ucmp (some g.largest.userKey) e f :=
  ⟨WithBot.coe_le_coe.mpr ((userClass_le_of_rank_le hlt.le).trans hf.lo_le_hi), hm.2⟩

/-- The files a manual compaction starts with are among its inputs, which are files of the level. -/
theorem IsSeed.subset_inputs0 (opts : Options) (h : IsSeed ucmp v level seed)
    (hord : ∀ f ∈ v.files level, f.Ordered ucmp) :
    seed ⊆ (setupOtherInputs opts ucmp v level seed).inputs0 ∧
      (setupOtherInputs opts ucmp v level seed).inputs0 ⊆ v.files level := by
  rcases setupOtherInputs_inputs0 opts hord seed with heq | ⟨more, heq⟩ <;> rw [heq]
  · exact ⟨List.Subset.refl seed, h.sublist.subset⟩
  · exact ⟨h.subset_expanded hord more, getOverlappingInputs_sublist.subset⟩

theorem mem_rangeSeed_zero (hf : f ∈ v.files 0)
    (hm : Meets ucmp (b.map InternalKey.userKey) (e.map InternalKey.userKey) f) :
    f ∈ rangeSeed opts ucmp v 0 b e := by
  rw [rangeSeed, if_neg (lt_irrefl 0)]
  exact mem_getOverlappingInputs_of_meets hf hm

/-- In a level `≥ 1` a file of the range that a manual compaction does not start with comes after all
files it starts with. -/
theorem rank_lt_of_not_mem_rangeSeed (hl : level ≠ 0) (hsort : SortedLevel ucmp (v.files level))
    (hf : f ∈ v.files level)
    (hm : Meets ucmp (b.map InternalKey.userKey) (e.map InternalKey.userKey) f)
    (hnot : f ∉ rangeSeed opts ucmp v level b e) (hg : g ∈ rangeSeed opts ucmp v level b e) :
    g.largest.rank ucmp < f.smallest.rank ucmp := by
  rw [rangeSeed, if_pos (Nat.pos_of_ne_zero hl)] at hnot hg
  obtain ⟨rest, hrest⟩ := exists_limitInputs_append (maxFileSizeForLevel opts level) 0
    (v.getOverlappingInputs ucmp level b e)
  have hall : f ∈ v.getOverlappingInputs ucmp level b e := mem_getOverlappingInputs_of_meets hf hm
  have hsub : (v.getOverlappingInputs ucmp level b e).Sublist (v.files level) :=
    getOverlappingInputs_sublist
  have hsorted := hsort.rank_lt.sublist hsub
  grind

/-- Where the inputs grow they take every file between the first ones and the last. -/
theorem rank_lt_of_not_mem_expanded (hl : level ≠ 0) (hsort : SortedLevel ucmp (v.files level))
    {more : List FileMetaData} (hg : g ∈ v.files level)
    (hexp : g ∈ v.getOverlappingInputs ucmp level (some (getRange ucmp (seed ++ more)).1)
      (some (getRange ucmp (seed ++ more)).2))
    (hf : f ∈ v.files level) (hafter : ∃ a ∈ seed, a.largest.rank ucmp < f.smallest.rank ucmp)
    (hseed : seed ⊆ v.files level)
    (hnot : f ∉ v.getOverlappingInputs ucmp level (some (getRange ucmp (seed ++ more)).1)
      (some (getRange ucmp (seed ++ more)).2)) :
    g.largest.rank ucmp < f.smallest.rank ucmp := by
  obtain ⟨a, ha, haf⟩ := hafter
  have hne : seed ++ more ≠ [] := append_ne_nil_of_left_ne_nil (ne_nil_of_mem ha) more
  rw [mem_getOverlapping_getRange hne hl] at hexp hnot
  have hfg : f ≠ g := by
    rintro rfl
    exact hnot hexp
  refine (hsort.disjoint hf hg hfg).resolve_left fun hlt => hnot ⟨hf, ?_⟩
  -- `f` lies between a file of the seed and `g`, so it meets the hull that `g` meets
  obtain ⟨x, hx, hgx⟩ := hexp.2.2
  have hfhi := hsort.lo_le_hi hf
  refine ⟨⟨a, mem_append_left more ha, ?_⟩, x, hx, ?_⟩
  · calc a.lo ucmp ≤ a.hi ucmp := hsort.lo_le_hi (hseed ha)
      _ ≤ f.lo ucmp := userClass_le_of_rank_le haf.le
      _ ≤ f.hi ucmp := hfhi
  · calc f.lo ucmp ≤ f.hi ucmp := hfhi
      _ ≤ g.lo ucmp := userClass_le_of_rank_le hlt.le
      _ ≤ x.hi ucmp := hgx

/-- **One round of a manual compaction** takes the first files of its range. -/
theorem compactsFirst_compactRange (hord : ∀ f ∈ v.files level, f.Ordered ucmp)
    (hsort : 1 ≤ level → SortedLevel ucmp (v.files level))
    (hc : compactRange opts ucmp v level b e = some c) :
    c.level = level ∧ ∃ last, c.inputs0.getLast? = some last ∧
      CompactsFirst ucmp (v.files level) c.inputs0 (b.map InternalKey.userKey)
        (e.map InternalKey.userKey) last := by
  unfold compactRange at hc
  split at hc
  · cases hc
  rename_i a as hrange
  obtain rfl := Option.some.inj hc
  have hne : rangeSeed opts ucmp v level b e ≠ [] := by
    rw [hrange]
    exact cons_ne_nil a as
  have hseed := isSeed_rangeSeed hne
  rw [← hrange]
  obtain ⟨hsub, hfiles⟩ := hseed.subset_inputs0 opts hord
  have hcases := setupOtherInputs_inputs0 opts hord (rangeSeed opts ucmp v level b e)
  generalize hin : (setupOtherInputs opts ucmp v level (rangeSeed opts ucmp v level b e)).inputs0 =
    inputs at hsub hfiles hcases ⊢
  refine ⟨rfl, ?_⟩
  have hinputs : inputs ≠ [] := by
    rintro rfl
    exact hne (subset_nil.mp hsub)
  obtain ⟨last, hlast⟩ : ∃ last, inputs.getLast? = some last :=
    ⟨_, getLast?_eq_some_getLast hinputs⟩
  have hlast' := mem_of_getLast? hlast
  refine ⟨last, hlast, hlast', hfiles, fun f hf hnot hm => ?_⟩
  have hnotSeed : f ∉ rangeSeed opts ucmp v level b e := fun h => hnot (hsub h)
  rcases Nat.eq_zero_or_pos level with rfl | hl
  · exact absurd (mem_rangeSeed_zero hf hm) hnotSeed
  have hafter := fun g => rank_lt_of_not_mem_rangeSeed (g := g) hl.ne' (hsort hl) hf hm hnotSeed
  refine hm.of_rank_lt (hord f hf) ?_
  grind [mem_cons_self, rank_lt_of_not_mem_expanded]

theorem not_meets_of_compactRange_eq_none (hc : compactRange opts ucmp v level b e = none)
    (hf : f ∈ v.files level) :
    ¬ Meets ucmp (b.map InternalKey.userKey) (e.map InternalKey.userKey) f := by
  intro hm
  have hnil : rangeSeed opts ucmp v level b e = [] := by
    grind [compactRange]
  have hmem : f ∈ v.getOverlappingInputs ucmp level b e := mem_getOverlappingInputs_of_meets hf hm
  rw [rangeSeed] at hnil
  cases hall : v.getOverlappingInputs ucmp level b e with
  | nil =>
    rw [hall] at hmem
    cases hmem
  | cons g gs =>
    grind [limitInputs]

/-! ## What a round leaves of the level -/

theorem foldl_applyEdit_sublist {flushes : List VersionEdit}
    (hnew : ∀ edit ∈ flushes, ∀ f, (level, f) ∉ edit.newFiles) :
    ((flushes.foldl (applyEdit ucmp) v).files level).Sublist (v.files level) := by
  induction flushes generalizing v with
  | nil => exact List.Sublist.refl _
  | cons edit flushes ih =>
    rw [foldl_cons]
    exact (ih fun d hd => hnew d (mem_cons_of_mem edit hd)).trans
      (applyEdit_files_sublist (hnew edit mem_cons_self))

theorem Compaction.not_mem_newFiles_edit (c : Compaction) (outputs : List FileMetaData)
    (f : FileMetaData) : (c.level, f) ∉ (c.edit outputs).newFiles := by
  intro h
  obtain ⟨g, -, heq⟩ := mem_map.mp h
  grind

theorem Compaction.not_mem_applyEdit_edit (hf : f ∈ c.inputs0) (outputs : List FileMetaData) :
    f ∉ (applyEdit ucmp v (c.edit outputs)).files c.level := by
  refine not_mem_applyEdit_of_deletes ⟨?_, fun g hg => ?_⟩
  · exact mem_append_left _ (mem_map.mpr ⟨f, hf, rfl⟩)
  · exact absurd hg (c.not_mem_newFiles_edit outputs g)

/-! ## The invariant of a request -/

/-- The steps a request may still take: two for each file of the level, and up to two more for the
round that finds nothing. -/
def ManualState.stepsLeft (s : ManualState) (level : ℕ) : ℕ :=
  2 * (s.version.files level).length +
    if s.manual.done then 0 else if s.slot = .mine then 1 else 2

/-- **The invariant** of a request for `[b, e]` made at the version `v`, with the steps taken so far:
what is left of the level and meets the range meets the part that is still to do. -/
structure ManualState.Ok (ucmp : Comparator) (v : Version) (level : ℕ) (b e : Option Slice)
    (actions : List ManualAction) (s : ManualState) : Prop where
  level_eq : s.manual.level = level
  end_eq : s.manual.rangeEnd.map InternalKey.userKey = e
  sublist : (s.version.files level).Sublist (v.files level)
  not_done : s.slot = .mine → s.manual.done = false
  remaining : ∀ f ∈ s.version.files level, Meets ucmp b e f →
    s.manual.done = false ∧ Meets ucmp (s.manual.rangeBegin.map InternalKey.userKey) e f
  budget : actions.countP ManualAction.isOwn + s.stepsLeft level ≤ 2 * (v.files level).length + 2

variable {lo hi : Option Slice} {actions : List ManualAction} {s s' : ManualState}

theorem ManualState.ok_new (ucmp : Comparator) (v : Version) (level : ℕ) (b e : Option Slice)
    {slot : ManualSlot} (hslot : slot ≠ .mine) :
    ManualState.Ok ucmp v level b e [] ⟨v, .new level b e, slot⟩ where
  level_eq := rfl
  end_eq := by simp [ManualCompaction.new, InternalKey.ofParts, Function.comp_def]
  sublist := List.Sublist.refl _
  not_done := fun _ => rfl
  remaining := fun f _ hm => by
    refine ⟨rfl, ?_⟩
    simpa [ManualCompaction.new, InternalKey.ofParts, Function.comp_def] using hm
  budget := by simp [ManualState.stepsLeft, ManualCompaction.new, hslot]

section

variable (h : s.Ok ucmp v level lo hi actions)

include h

/-- Work that adds no file to the level, and does not touch the caller's request, keeps the
invariant. -/
theorem ManualState.Ok.other {v' : Version} {slot : ManualSlot}
    (hsub : (v'.files level).Sublist (s.version.files level)) (hslot : slot = .mine ↔ s.slot = .mine)
    {a : ManualAction} (ha : a.isOwn = false) :
    ManualState.Ok ucmp v level lo hi (actions ++ [a]) ⟨v', s.manual, slot⟩ where
  level_eq := h.level_eq
  end_eq := h.end_eq
  sublist := hsub.trans h.sublist
  not_done := fun hmine => h.not_done (hslot.mp hmine)
  remaining := fun f hf => h.remaining f (hsub.subset hf)
  budget := by
    have hbudget := h.budget
    grind [stepsLeft]

theorem ManualState.Ok.request (hdone : s.manual.done = false) (hfree : s.slot = .free) :
    ManualState.Ok ucmp v level lo hi (actions ++ [.request]) { s with slot := .mine } where
  level_eq := h.level_eq
  end_eq := h.end_eq
  sublist := h.sublist
  not_done := fun _ => hdone
  remaining := h.remaining
  budget := by
    have hbudget := h.budget
    grind [stepsLeft]

theorem ManualState.Ok.round_none (hmine : s.slot = .mine)
    (hc : compactRange opts ucmp s.version s.manual.level s.manual.rangeBegin s.manual.rangeEnd =
      none) (flushes : List VersionEdit) (outputs : List FileMetaData) :
    ManualState.Ok ucmp v level lo hi (actions ++ [.round flushes outputs])
      { s with manual := { s.manual with done := true }, slot := .free } where
  level_eq := h.level_eq
  end_eq := h.end_eq
  sublist := h.sublist
  not_done := fun hm => absurd hm (by simp)
  remaining := fun f hf hm => by
    grind [Ok, not_meets_of_compactRange_eq_none]
  budget := by
    grind [Ok, stepsLeft]

/-- A round that compacts takes at least one file from the level, and what it leaves of the range lies
after its last input. -/
theorem ManualState.Ok.round_some (hmine : s.slot = .mine)
    (hord : ∀ f ∈ v.files level, f.Ordered ucmp)
    (hsort : 1 ≤ level → SortedLevel ucmp (v.files level))
    (hc : compactRange opts ucmp s.version s.manual.level s.manual.rangeBegin s.manual.rangeEnd =
      some c) {flushes : List VersionEdit} (outputs : List FileMetaData)
    (hnew : ∀ edit ∈ flushes, ∀ f, (level, f) ∉ edit.newFiles) :
    ManualState.Ok ucmp v level lo hi (actions ++ [.round flushes outputs])
      { version := applyEdit ucmp (flushes.foldl (applyEdit ucmp) s.version) (c.edit outputs)
        manual := { s.manual with
          done := false
          rangeBegin := c.inputs0.getLast?.map FileMetaData.largest }
        slot := .free } := by
  rw [h.level_eq] at hc
  have hsort' (hl : 1 ≤ level) : SortedLevel ucmp (s.version.files level) :=
    ⟨fun f hf => hord f (h.sublist.subset hf), (hsort hl).2.sublist h.sublist⟩
  obtain ⟨hlevel, last, hlast, hfirst⟩ := compactsFirst_compactRange
    (fun f hf => hord f (h.sublist.subset hf)) hsort' hc
  subst hlevel
  have hflushes : ((flushes.foldl (applyEdit ucmp) s.version).files c.level).Sublist
      (s.version.files c.level) := foldl_applyEdit_sublist hnew
  generalize flushes.foldl (applyEdit ucmp) s.version = base at hflushes ⊢
  have hsub : ((applyEdit ucmp base (c.edit outputs)).files c.level).Sublist
      (s.version.files c.level) :=
    (applyEdit_files_sublist (c.not_mem_newFiles_edit outputs)).trans hflushes
  have hgone : ∀ f ∈ c.inputs0, f ∉ (applyEdit ucmp base (c.edit outputs)).files c.level :=
    fun f hf => Compaction.not_mem_applyEdit_edit hf outputs
  refine ⟨h.level_eq, h.end_eq, hsub.trans h.sublist, fun hm => absurd hm (by simp), ?_, ?_⟩
  · grind [Ok, CompactsFirst]
  · have hlt : ((applyEdit ucmp base (c.edit outputs)).files c.level).length <
        (s.version.files c.level).length := by
      grind [CompactsFirst]
    grind [Ok, stepsLeft]

end

theorem ManualState.Ok.step (hord : ∀ f ∈ v.files level, f.Ordered ucmp)
    (hsort : 1 ≤ level → SortedLevel ucmp (v.files level)) (actions : List ManualAction)
    (s : ManualState) (a : ManualAction) (s' : ManualState)
    (h : s.Ok ucmp v level lo hi actions) (ha : a.AddsNone level)
    (hs : s.step opts ucmp a = some s') : s'.Ok ucmp v level lo hi (actions ++ [a]) := by
  cases a with
  | request =>
    obtain ⟨⟨hdone, hfree⟩, ⟨⟩⟩ := Option.ite_none_right_eq_some.mp hs
    exact h.request hdone hfree
  | round flushes outputs =>
    obtain ⟨hmine, ⟨⟩⟩ := Option.ite_none_right_eq_some.mp hs
    unfold backgroundCompaction
    cases hc : compactRange opts ucmp s.version s.manual.level s.manual.rangeBegin
      s.manual.rangeEnd with
    | none =>
      simp only [hc]
      exact h.round_none hmine hc flushes outputs
    | some c =>
      simp only [hc]
      exact h.round_some hmine hord hsort hc outputs ha
  | otherRequest =>
    obtain ⟨hfree, ⟨⟩⟩ := Option.ite_none_right_eq_some.mp hs
    exact h.other (List.Sublist.refl _) (by simp [hfree]) rfl
  | otherRound edit =>
    obtain ⟨hothers, ⟨⟩⟩ := Option.ite_none_right_eq_some.mp hs
    exact h.other (applyEdit_files_sublist ha) (by simp [hothers]) rfl
  | otherWork edit =>
    cases hs
    exact h.other (applyEdit_files_sublist ha) Iff.rfl rfl

/-- The step a request that is not done waits for: its caller's, the background thread's, or another
caller's round. -/
theorem ManualState.step_ne_none (opts : Options) (ucmp : Comparator)
    (hdone : s.manual.done = false) :
    (s.slot = .free → (s.step opts ucmp .request).isSome) ∧
      (s.slot = .mine → ∀ flushes outputs, (s.step opts ucmp (.round flushes outputs)).isSome) ∧
      (s.slot = .others → ∀ edit, (s.step opts ucmp (.otherRound edit)).isSome) := by
  simp +contextual [step, hdone]

/-- Two files of level 1, each as large as a round may be. -/
def twoFullFiles : Version :=
  ⟨fun level =>
    if level = 1 then
      [⟨4, 2 ^ 20, .ofParts (ascii "a") 10 .kTypeValue, .ofParts (ascii "c") 9 .kTypeValue⟩,
        ⟨5, 2 ^ 20, .ofParts (ascii "d") 8 .kTypeValue, .ofParts (ascii "f") 7 .kTypeValue⟩]
    else []⟩

/-- The request for `[b, e]` takes two rounds and a third that finds nothing; a flush comes in
between. -/
def twoRounds : List ManualAction :=
  [.request,
    .round [] [⟨6, 2 ^ 20, .ofParts (ascii "a") 10 .kTypeValue,
      .ofParts (ascii "c") 9 .kTypeValue⟩],
    .otherWork { newFiles := [(0, ⟨7, 100, .ofParts (ascii "b") 12 .kTypeValue,
      .ofParts (ascii "b") 12 .kTypeValue⟩)] },
    .request,
    .round [] [⟨8, 2 ^ 20, .ofParts (ascii "d") 8 .kTypeValue,
      .ofParts (ascii "f") 7 .kTypeValue⟩],
    .request, .round [] []]

/-- A level 2 that is not sorted: a full file over `a .. x`, and after it one at `m`. -/
def nestedFiles : Version :=
  ⟨fun level =>
    if level = 2 then
      [⟨4, 2 ^ 20, .ofParts (ascii "a") 10 .kTypeValue, .ofParts (ascii "x") 9 .kTypeValue⟩,
        ⟨5, 100, .ofParts (ascii "m") 8 .kTypeValue, .ofParts (ascii "m") 8 .kTypeValue⟩]
    else []⟩

end RocketDb
