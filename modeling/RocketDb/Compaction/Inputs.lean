import RocketDb.Compaction.Pick

/-! # What is known about the inputs of a compaction

Whatever asked for a compaction, its inputs satisfy `Selected`: they come from the version, those of the next
level are **exactly** the files that meet the hull of the others, and in level 0 the selection is closed under
overlap. The invariants of the engine rest on this and not on how the files were chosen.

* **`CompactionRequest.compaction_inputs`** — what the inputs of a compaction are, for every request.
* **`compaction_boundaries_clean_iff`** — no older version of a key is left behind exactly when no user key is
  split at the end of what the compaction takes. -/

namespace RocketDb

open KeyOrder List

variable {opts : Options} {ucmp : Comparator} {v : Version} {level : ℕ} {f g : FileMetaData}
  {files seed inputs0 inputs1 : List FileMetaData} {pointer : ℕ → Option InternalKey}
  {req : CompactionRequest} {b e : Option InternalKey} {c : Compaction}

/-! ## The hull of a list of files -/

/-- **`GetRange`** returns the least start and the greatest end of a nonempty list of files. -/
theorem getRange_spec (ucmp : Comparator) (hne : files ≠ []) :
    (∃ a ∈ files, a.smallest = (getRange ucmp files).1) ∧
      (∃ a ∈ files, a.largest = (getRange ucmp files).2) ∧
      (∀ a ∈ files, (getRange ucmp files).1.rank ucmp ≤ a.smallest.rank ucmp) ∧
      ∀ a ∈ files, a.largest.rank ucmp ≤ (getRange ucmp files).2.rank ucmp := by
  cases files with
  | nil => exact absurd rfl hne
  | cons x l =>
    obtain ⟨h₁, h₃, h₄⟩ := RunningBest.best_spec FileMetaData.smallest
      (fun a b => show (internalCompare ucmp a b == .lt) = true ↔ _ from internalCompare_beq_lt)
      x.smallest l
    obtain ⟨h₂, h₅, h₆⟩ := RunningBest.best_spec FileMetaData.largest
      (fun a b => show (internalCompare ucmp a b == .gt) = true ↔ _ from internalCompare_beq_gt)
      x.largest l
    rw [show getRange ucmp (x :: l) = (_, _) from RunningBest.foldl_prod
      (fun k (g : FileMetaData) =>
        if internalCompare ucmp g.smallest k == .lt then g.smallest else k)
      (fun k (g : FileMetaData) =>
        if internalCompare ucmp g.largest k == .gt then g.largest else k) l
      x.smallest x.largest]
    refine ⟨?_, ?_, ?_, ?_⟩
    · rcases h₁ with h₁ | ⟨a, ha, hae⟩
      · exact ⟨x, mem_cons_self, h₁.symm⟩
      · exact ⟨a, mem_cons_of_mem x ha, hae⟩
    · rcases h₂ with h₂ | ⟨a, ha, hae⟩
      · exact ⟨x, mem_cons_self, h₂.symm⟩
      · exact ⟨a, mem_cons_of_mem x ha, hae⟩
    · rintro a ha
      rcases mem_cons.mp ha with rfl | ha
      exacts [h₃, h₄ a ha]
    · rintro a ha
      rcases mem_cons.mp ha with rfl | ha
      exacts [h₅, h₆ a ha]

/-- The file meets the hull of user keys of the list. -/
def MeetsHull (ucmp : Comparator) (files : List FileMetaData) (g : FileMetaData) : Prop :=
  (∃ a ∈ files, a.lo ucmp ≤ g.hi ucmp) ∧ ∃ b ∈ files, g.lo ucmp ≤ b.hi ucmp

instance (ucmp : Comparator) (files : List FileMetaData) (g : FileMetaData) :
    Decidable (MeetsHull ucmp files g) :=
  decidable_of_iff
    ((∃ a ∈ files, ucmp.compare a.smallest.userKey g.largest.userKey ≠ .gt) ∧
      ∃ b ∈ files, ucmp.compare g.smallest.userKey b.largest.userKey ≠ .gt)
    (by simp only [MeetsHull, cls_le_iff])

theorem meets_getRange_iff (hne : files ≠ []) :
    Meets ucmp ((some (getRange ucmp files).1).map InternalKey.userKey)
      ((some (getRange ucmp files).2).map InternalKey.userKey) g ↔ MeetsHull ucmp files g := by
  obtain ⟨⟨a, ha, hae⟩, ⟨b, hb, hbe⟩, hmin, hmax⟩ := getRange_spec ucmp hne
  have hlo : beginClass ucmp ((some (getRange ucmp files).1).map InternalKey.userKey) ≤
      (g.hi ucmp : WithBot _) ↔ ∃ a ∈ files, a.lo ucmp ≤ g.hi ucmp := by
    rw [show beginClass ucmp ((some (getRange ucmp files).1).map InternalKey.userKey) =
      ((userClass ucmp (getRange ucmp files).1.userKey : Class ucmp.compare) : WithBot _) from rfl,
      WithBot.coe_le_coe]
    constructor
    · grind
    · rintro ⟨x, hx, hle⟩
      exact (userClass_le_of_rank_le (hmin x hx)).trans hle
  have hhi : (g.lo ucmp : WithTop _) ≤
      endClass ucmp ((some (getRange ucmp files).2).map InternalKey.userKey) ↔
      ∃ b ∈ files, g.lo ucmp ≤ b.hi ucmp := by
    rw [show endClass ucmp ((some (getRange ucmp files).2).map InternalKey.userKey) =
      ((userClass ucmp (getRange ucmp files).2.userKey : Class ucmp.compare) : WithTop _) from rfl,
      WithTop.coe_le_coe]
    constructor
    · grind
    · rintro ⟨x, hx, hle⟩
      exact hle.trans (userClass_le_of_rank_le (hmax x hx))
  rw [Meets, MeetsHull, hlo, hhi]

/-! ## Seeds and selections -/

/-- What a compaction starts with: files of the level, in level 0 closed under overlap. -/
structure IsSeed (ucmp : Comparator) (v : Version) (level : ℕ) (seed : List FileMetaData) :
    Prop where
  nonempty : seed ≠ []
  sublist : seed.Sublist (v.files level)
  closed : level = 0 → ∀ g ∈ v.files 0, MeetsHull ucmp seed g → g ∈ seed

/-- **The inputs of a compaction**: a seed, and the files of the next level that meet its hull. -/
structure Selected (ucmp : Comparator) (v : Version) (level : ℕ)
    (inputs0 inputs1 : List FileMetaData) : Prop extends IsSeed ucmp v level inputs0 where
  sublist1 : inputs1.Sublist (v.files (level + 1))
  mem1 : ∀ f, f ∈ inputs1 ↔ f ∈ v.files (level + 1) ∧ MeetsHull ucmp inputs0 f

theorem mem_getOverlapping_getRange (hne : files ≠ []) (hl : level ≠ 0) :
    f ∈ v.getOverlappingInputs ucmp level (some (getRange ucmp files).1)
        (some (getRange ucmp files).2) ↔ f ∈ v.files level ∧ MeetsHull ucmp files f := by
  rw [Version.getOverlappingInputs, mem_getOverlappingInputs hl, meets_getRange_iff hne]

theorem isSeed_getOverlappingInputs (hne : v.getOverlappingInputs ucmp level b e ≠ []) :
    IsSeed ucmp v level (v.getOverlappingInputs ucmp level b e) where
  nonempty := hne
  sublist := getOverlappingInputs_sublist
  closed := by
    rintro rfl g hg ⟨⟨f₁, h₁, hlo⟩, f₂, h₂, hhi⟩
    exact getOverlappingInputs_closed h₁ h₂ hg hlo hhi

/-- **The overlap queries turn a seed into a selection**, expanded or not. -/
theorem IsSeed.selected (opts : Options) (h : IsSeed ucmp v level seed) :
    Selected ucmp v level (overlapInputs opts ucmp v level seed).1
      (overlapInputs opts ucmp v level seed).2 := by
  have hselect : ∀ {s : List FileMetaData}, IsSeed ucmp v level s →
      Selected ucmp v level s (v.getOverlappingInputs ucmp (level + 1)
        (some (getRange ucmp s).1) (some (getRange ucmp s).2)) := fun hs =>
    { toIsSeed := hs
      sublist1 := getOverlappingInputs_sublist
      mem1 := fun f => mem_getOverlapping_getRange hs.nonempty (Nat.succ_ne_zero level) }
  grind [overlapInputs, isSeed_getOverlappingInputs]

theorem MeetsHull.mono {files' : List FileMetaData} (hsub : files ⊆ files')
    (h : MeetsHull ucmp files g) : MeetsHull ucmp files' g := by
  obtain ⟨⟨a, ha, hlo⟩, b, hb, hhi⟩ := h
  exact ⟨⟨a, hsub ha, hlo⟩, b, hsub hb, hhi⟩

theorem filter_eq_of_length {α : Type*} {p q : α → Bool} {l : List α}
    (hpq : ∀ a ∈ l, p a = true → q a = true)
    (hlen : (l.filter q).length = (l.filter p).length) : l.filter q = l.filter p := by
  have hsub : (l.filter p).Sublist (l.filter q) := by
    rw [show l.filter p = (l.filter q).filter p from ?_]
    · exact filter_sublist
    · rw [filter_filter]
      refine filter_congr fun a ha => ?_
      simp_all
  exact (hsub.eq_of_length hlen.symm).symm

theorem getOverlapping_getRange_eq_filter (hne : files ≠ []) (hl : level ≠ 0) :
    v.getOverlappingInputs ucmp level (some (getRange ucmp files).1)
        (some (getRange ucmp files).2) =
      (v.files level).filter fun f => decide (MeetsHull ucmp files f) := by
  obtain ⟨b', e', -, -, hres, -, hrange⟩ := getOverlappingInputs_spec ucmp level (v.files level)
    (some (getRange ucmp files).1) (some (getRange ucmp files).2)
  obtain ⟨rfl, rfl⟩ := hrange hl
  rw [Version.getOverlappingInputs, hres]
  refine filter_congr fun f _ => ?_
  rw [Bool.eq_iff_iff, decide_eq_true_iff, ← meets_getRange_iff hne, meets_iff]
  simp

theorem IsSeed.subset_expanded (h : IsSeed ucmp v level seed)
    (hord : ∀ f ∈ v.files level, f.Ordered ucmp) (inputs1 : List FileMetaData) :
    seed ⊆ v.getOverlappingInputs ucmp level (some (getRange ucmp (seed ++ inputs1)).1)
      (some (getRange ucmp (seed ++ inputs1)).2) := by
  intro f hf
  have hmem : f ∈ v.files level := h.sublist.subset hf
  have hle := (hord f hmem).lo_le_hi
  refine mem_getOverlappingInputs_of_meets hmem ?_
  rw [meets_getRange_iff (by simp [h.nonempty])]
  exact ⟨⟨f, mem_append_left _ hf, hle⟩, f, mem_append_left _ hf, hle⟩

/-- **The expansion leaves the inputs of the next level alone**: as many files as before are the same
files. -/
theorem IsSeed.overlapInputs_snd (opts : Options) (h : IsSeed ucmp v level seed)
    (hord : ∀ f ∈ v.files level, f.Ordered ucmp) :
    (overlapInputs opts ucmp v level seed).2 =
      v.getOverlappingInputs ucmp (level + 1) (some (getRange ucmp seed).1)
        (some (getRange ucmp seed).2) := by
  unfold overlapInputs
  simp only
  split_ifs with hgrow
  · obtain ⟨-, hmore, -, hlen⟩ := hgrow
    have hsub := h.subset_expanded hord (v.getOverlappingInputs ucmp (level + 1)
      (some (getRange ucmp seed).1) (some (getRange ucmp seed).2))
    have hne := ne_nil_of_length_pos (Nat.zero_lt_of_lt hmore)
    rw [getOverlapping_getRange_eq_filter hne (Nat.succ_ne_zero level),
      getOverlapping_getRange_eq_filter h.nonempty (Nat.succ_ne_zero level)] at hlen ⊢
    refine filter_eq_of_length (fun f _ hf => ?_) hlen
    rw [decide_eq_true_iff] at hf ⊢
    exact hf.mono (by rwa [getOverlapping_getRange_eq_filter h.nonempty (Nat.succ_ne_zero level)]
      at hsub)
  · rfl

/-! ## Requests -/

/-- A request the background thread can make: there is a level below, and a file to be compacted
because of seeks is a file of the version. -/
def CompactionRequest.Valid (v : Version) : CompactionRequest → Prop
  | .pick trigger =>
    (∀ level, trigger.sizeLevel = some level → level + 1 < kNumLevels) ∧
      ∀ level f, trigger.seekFile = some (level, f) → level + 1 < kNumLevels ∧ f ∈ v.files level
  | .range level _ _ => level + 1 < kNumLevels

instance (v : Version) (req : CompactionRequest) : Decidable (req.Valid v) :=
  match req with
  | .pick ⟨none, none⟩ => isTrue ⟨by simp, by simp⟩
  | .pick ⟨some l, none⟩ => decidable_of_iff (l + 1 < kNumLevels) (by simp [CompactionRequest.Valid])
  | .pick ⟨none, some (l, f)⟩ => decidable_of_iff (l + 1 < kNumLevels ∧ f ∈ v.files l)
      (by simp only [CompactionRequest.Valid]; constructor
          · rintro h
            refine ⟨by simp, ?_⟩
            rintro _ _ ⟨rfl, rfl⟩
            exact h
          · exact fun h => h.2 l f rfl)
  | .pick ⟨some k, some (l, f)⟩ =>
    decidable_of_iff (k + 1 < kNumLevels ∧ l + 1 < kNumLevels ∧ f ∈ v.files l)
      (by simp only [CompactionRequest.Valid]; constructor
          · rintro ⟨h₁, h₂⟩
            refine ⟨?_, ?_⟩
            · rintro _ ⟨rfl⟩
              exact h₁
            · rintro _ _ ⟨rfl, rfl⟩
              exact h₂
          · exact fun h => ⟨h.1 k rfl, h.2 l f rfl⟩)
  | .range l _ _ => inferInstanceAs (Decidable (l + 1 < kNumLevels))

theorem firstAfterPointer_mem {pointer : Option InternalKey}
    (h : firstAfterPointer ucmp pointer files = some f) : f ∈ files := by
  unfold firstAfterPointer at h
  simp only at h
  split at h
  · grind
  · exact mem_of_head? h

theorem exists_limitInputs_append (limit total : ℕ) (files : List FileMetaData) :
    ∃ rest, limitInputs limit total files ++ rest = files := by
  induction files generalizing total with
  | nil => exact ⟨[], rfl⟩
  | cons f files ih =>
    rw [limitInputs]
    split_ifs
    · exact ⟨files, rfl⟩
    · simp_all

theorem limitInputs_sublist {limit : ℕ} (total : ℕ) (files : List FileMetaData) :
    (limitInputs limit total files).Sublist files := by
  obtain ⟨rest, hrest⟩ := exists_limitInputs_append limit total files
  grind

theorem isSeed_rangeSeed (hne : rangeSeed opts ucmp v level b e ≠ []) :
    IsSeed ucmp v level (rangeSeed opts ucmp v level b e) := by
  unfold rangeSeed at hne ⊢
  simp only at hne ⊢
  split_ifs at hne ⊢ with hl
  · exact ⟨hne, (limitInputs_sublist 0 _).trans getOverlappingInputs_sublist,
      fun h => absurd h hl.ne'⟩
  · exact isSeed_getOverlappingInputs hne

theorem isSeed_pickSeed (hf : f ∈ v.files level) (hord : f.Ordered ucmp) :
    IsSeed ucmp v level (pickSeed ucmp v level f) := by
  unfold pickSeed
  split_ifs with hl
  · subst hl
    refine isSeed_getOverlappingInputs (ne_nil_of_mem (a := f) ?_)
    refine mem_getOverlappingInputs_of_meets hf ?_
    rw [meets_getRange_iff (cons_ne_nil f [])]
    exact ⟨⟨f, mem_singleton_self f, hord.lo_le_hi⟩, f, mem_singleton_self f,
      hord.lo_le_hi⟩
  · exact ⟨cons_ne_nil f [], singleton_sublist.mpr hf, fun h => absurd h hl⟩

theorem CompactionRequest.isSeed (hvalid : req.Valid v)
    (hord : ∀ level, ∀ f ∈ v.files level, f.Ordered ucmp)
    (hseed : req.seed opts ucmp v pointer = some (level, seed)) :
    IsSeed ucmp v level seed ∧ level + 1 < kNumLevels := by
  cases req with
  | pick trigger =>
    obtain ⟨⟨l, f⟩, hpick, heq⟩ := Option.map_eq_some_iff.mp hseed
    cases heq
    unfold pickFile at hpick
    cases hsize : trigger.sizeLevel with
    | some k =>
      rw [hsize] at hpick
      obtain ⟨g, hg, heq⟩ := Option.map_eq_some_iff.mp hpick
      cases heq
      have hmem := firstAfterPointer_mem hg
      exact ⟨isSeed_pickSeed hmem (hord _ _ hmem), hvalid.1 _ hsize⟩
    | none =>
      rw [hsize] at hpick
      obtain ⟨hl, hmem⟩ := hvalid.2 _ _ hpick
      exact ⟨isSeed_pickSeed hmem (hord _ _ hmem), hl⟩
  | range l b e =>
    simp only [CompactionRequest.seed] at hseed
    split at hseed
    · cases hseed
    · rename_i g gs hrange
      cases hseed
      refine ⟨?_, hvalid⟩
      grind [isSeed_rangeSeed]

theorem CompactionRequest.exists_seed (hord : ∀ level, ∀ f ∈ v.files level, f.Ordered ucmp)
    (hc : req.compaction opts ucmp v pointer = some c) :
    ∃ seed, req.seed opts ucmp v pointer = some (c.level, seed) ∧ c.inputVersion = v ∧
      (c.inputs0, c.inputs1) = overlapInputs opts ucmp v c.level seed := by
  rw [compaction_eq_map_seed] at hc
  obtain ⟨⟨level, seed⟩, hseed, rfl⟩ := Option.map_eq_some_iff.mp hc
  exact ⟨seed, hseed, rfl, setupOtherInputs_inputs opts level seed hord⟩

/-- **Every compaction that a valid request yields is a selection** from the version, with a level
below it. -/
theorem CompactionRequest.selected (hvalid : req.Valid v)
    (hord : ∀ level, ∀ f ∈ v.files level, f.Ordered ucmp)
    (hc : req.compaction opts ucmp v pointer = some c) :
    Selected ucmp v c.level c.inputs0 c.inputs1 ∧ c.inputVersion = v ∧
      c.level + 1 < kNumLevels := by
  obtain ⟨seed, hseed, hversion, hinputs⟩ := exists_seed hord hc
  obtain ⟨h, hlevel⟩ := isSeed hvalid hord hseed
  have hsel := h.selected opts
  grind

theorem ordered_of_levels (hsort : ∀ level, 1 ≤ level → SortedLevel ucmp (v.files level))
    (hord : ∀ f ∈ v.files 0, f.Ordered ucmp) (level : ℕ) : ∀ f ∈ v.files level, f.Ordered ucmp := by
  rcases Nat.eq_zero_or_pos level with rfl | hl
  · exact hord
  · exact (hsort level hl).1

/-- **The inputs of a compaction**, by size, by seeks or of a range: files of the level, each once;
all files of the next level that meet their hull; in level 0 all files of the level that meet it; and
the expansion has not changed the files of the next level. -/
theorem CompactionRequest.compaction_inputs (opts : Options) (ucmp : Comparator) (v : Version)
    (pointer : ℕ → Option InternalKey)
    (hsort : ∀ level, 1 ≤ level → SortedLevel ucmp (v.files level))
    (hord : ∀ f ∈ v.files 0, f.Ordered ucmp) (hnodup : (v.files 0).Nodup)
    (req : CompactionRequest) (hvalid : req.Valid v) (c : Compaction)
    (hc : req.compaction opts ucmp v pointer = some c) :
    c.inputs0 ≠ [] ∧ c.inputs0.Nodup ∧
      (∀ f ∈ v.files (c.level + 1), MeetsHull ucmp c.inputs0 f → f ∈ c.inputs1) ∧
      (c.level = 0 → ∀ f ∈ v.files 0, MeetsHull ucmp c.inputs0 f → f ∈ c.inputs0) ∧
      ∃ seed, req.seed opts ucmp v pointer = some (c.level, seed) ∧
        c.inputs1 = v.getOverlappingInputs ucmp (c.level + 1) (some (getRange ucmp seed).1)
          (some (getRange ucmp seed).2) := by
  have hall := ordered_of_levels hsort hord
  have hnodup' : (v.files c.level).Nodup := by
    rcases Nat.eq_zero_or_pos c.level with hl | hl
    · rwa [hl]
    · exact (hsort c.level hl).nodup
  obtain ⟨hsel, -, -⟩ := selected hvalid hall hc
  obtain ⟨seed, hseed, -, hinputs⟩ := exists_seed hall hc
  obtain ⟨h, -⟩ := isSeed hvalid hall hseed
  refine ⟨hsel.nonempty, hnodup'.sublist hsel.sublist, fun f hf hm => (hsel.mem1 f).mpr ⟨hf, hm⟩,
    hsel.closed, seed, hseed, ?_⟩
  rw [← h.overlapInputs_snd opts (hall c.level), ← hinputs]

theorem sharedKeyVersion_sorted (level : ℕ) :
    SortedLevel bytewiseComparator (sharedKeyVersion.files level) := by
  unfold sharedKeyVersion
  simp only
  split_ifs
  · decide
  · exact ⟨by simp, List.Pairwise.nil⟩

/-- The size compaction of level 1 at two adjacent files that share a user key. -/
theorem CompactionRequest.compaction_inputs_sharedKey :
    ∃ c, levelOneRequest.compaction .small bytewiseComparator sharedKeyVersion (fun _ => none)
        = some c ∧ c.inputs0 ≠ [] ∧ c.inputs0.Nodup ∧
      (∀ f ∈ sharedKeyVersion.files (c.level + 1), MeetsHull bytewiseComparator c.inputs0 f → f ∈ c.inputs1) ∧
      (c.level = 0 → ∀ f ∈ sharedKeyVersion.files 0, MeetsHull bytewiseComparator c.inputs0 f →
        f ∈ c.inputs0) ∧
      ∃ seed, levelOneRequest.seed .small bytewiseComparator sharedKeyVersion (fun _ => none) =
          some (c.level, seed) ∧
        c.inputs1 = sharedKeyVersion.getOverlappingInputs bytewiseComparator (c.level + 1)
          (some (getRange bytewiseComparator seed).1) (some (getRange bytewiseComparator seed).2) := by
  obtain ⟨c, hc⟩ : ∃ c, levelOneRequest.compaction .small bytewiseComparator sharedKeyVersion
      (fun _ => none) = some c := ⟨_, rfl⟩
  exact ⟨c, hc, compaction_inputs .small bytewiseComparator sharedKeyVersion (fun _ => none)
    (fun level _ => sharedKeyVersion_sorted level) (by decide) (by decide) levelOneRequest (by decide) c hc⟩

/-! ## Where a user key is split -/

/-- Two neighbouring files, the left one chosen and the right one not, hold versions of one user key. -/
def SplitsKey (ucmp : Comparator) (files : List FileMetaData) (chosen : FileMetaData → Prop) : Prop :=
  ∃ g f, [g, f] <:+: files ∧ chosen g ∧ ¬ chosen f ∧ g.hi ucmp = f.lo ucmp

/-- The files of a level whose user keys meet the hull of the chosen ones. -/
def meeting (ucmp : Comparator) (files chosen : List FileMetaData) : List FileMetaData :=
  files.filter fun f => decide (MeetsHull ucmp chosen f)

/-- The inputs of a compaction that starts with `seed` grow to all files of the level that meet the hull
of the seed and of the files `next` of the next level that meet it: that are more files, they fit, and no
more files of the next level meet them. -/
def Grows (opts : Options) (ucmp : Comparator) (v : Version) (level : ℕ) (seed : List FileMetaData) : Prop :=
  let next := meeting ucmp (v.files (level + 1)) seed
  let wider := meeting ucmp (v.files level) (seed ++ next)
  next ≠ [] ∧ seed.length < wider.length ∧
    totalFileSize next + totalFileSize wider < expandedCompactionByteSizeLimit opts ∧
    ∀ f ∈ v.files (level + 1), MeetsHull ucmp wider f → MeetsHull ucmp seed f

/-- **No user key is split** at the end of what a compaction takes that starts with `seed`: in the next
level, between the files that meet the hull of the seed and their right neighbour; and in the level itself,
unless it is level 0, between the seed, or what it grows to, and its right neighbour. -/
def Unsplit (opts : Options) (ucmp : Comparator) (v : Version) (level : ℕ) (seed : List FileMetaData) :
    Prop :=
  ¬ SplitsKey ucmp (v.files (level + 1)) (MeetsHull ucmp seed) ∧
    (1 ≤ level →
      (Grows opts ucmp v level seed → ¬ SplitsKey ucmp (v.files level)
        (MeetsHull ucmp (seed ++ meeting ucmp (v.files (level + 1)) seed))) ∧
      (¬ Grows opts ucmp v level seed → ¬ SplitsKey ucmp (v.files level) (· ∈ seed)))

variable {chosen : FileMetaData → Prop}

/-- Between a chosen file and a later one that is not chosen and starts where the first one ends, a user
key is split: the files in between hold nothing else. -/
theorem splitsKey_of_boundary (hs : SortedLevel ucmp files) (hg : g ∈ files) (hf : f ∈ files)
    (hlt : g.largest.rank ucmp < f.smallest.rank ucmp) (heq : g.hi ucmp = f.lo ucmp) (hcg : chosen g)
    (hcf : ¬ chosen f) : SplitsKey ucmp files chosen := by
  induction files generalizing g with
  | nil => cases hg
  | cons x xs ih =>
    obtain ⟨hx, hrest⟩ := pairwise_cons.mp hs.rank_lt
    have hsxs : SortedLevel ucmp xs :=
      ⟨fun f hf => hs.1 f (mem_cons_of_mem x hf), (pairwise_cons.mp hs.2).2⟩
    have hfxs : f ∈ xs := by
      grind [SortedLevel.rank_le]
    rcases mem_cons.mp hg with rfl | hg
    · -- look at the right neighbour of the chosen file
      cases xs with
      | nil => cases hfxs
      | cons y ys =>
        have hy := hx y mem_cons_self
        have hyf : y.smallest.rank ucmp ≤ f.smallest.rank ucmp := by
          rcases mem_cons.mp hfxs with rfl | hf
          · exact le_rfl
          · exact ((hsxs.rank_le mem_cons_self).trans_lt ((pairwise_cons.mp hrest).1 f hf)).le
        have hlo : g.hi ucmp = y.lo ucmp :=
          (userClass_le_of_rank_le hy.le).antisymm ((userClass_le_of_rank_le hyf).trans_eq heq.symm)
        by_cases hcy : chosen y
        · obtain hf' : f ∈ ys := (mem_cons.mp hfxs).resolve_left fun h => hcf (h ▸ hcy)
          have hyf := (pairwise_cons.mp hrest).1 f hf'
          have hhi : y.hi ucmp = f.lo ucmp :=
            (userClass_le_of_rank_le hyf.le).antisymm
              (heq.symm.trans_le (hlo.trans_le (hsxs.lo_le_hi mem_cons_self)))
          obtain ⟨a, b, hab, h⟩ := ih hsxs mem_cons_self hfxs hyf hhi hcy
          exact ⟨a, b, hab.trans (suffix_cons g _).isInfix, h⟩
        · exact ⟨g, y, ⟨[], ys, rfl⟩, hcg, hcy, hlo⟩
    · obtain ⟨a, b, hab, h⟩ := ih hsxs hg hfxs hlt heq hcg
      exact ⟨a, b, hab.trans (suffix_cons x _).isInfix, h⟩

/-- **Clean boundaries** of a choice in a sorted level. -/
theorem cleanBoundary_iff (hs : SortedLevel ucmp files) {inputs : List FileMetaData}
    (hin : ∀ f, f ∈ inputs ↔ f ∈ files ∧ chosen f) :
    CleanBoundary ucmp files inputs ↔ ¬ SplitsKey ucmp files chosen := by
  constructor
  · rintro hclean ⟨g, f, hconsec, hcg, hcf, heq⟩
    have hlt := pairwise_iff_forall_sublist.mp hs.rank_lt hconsec.sublist
    refine hclean f (hconsec.subset (by simp)) (fun hf => hcf ((hin f).mp hf).2) g
      ((hin g).mpr ⟨hconsec.subset (by simp), hcg⟩) ⟨internalCompare_eq_gt.mpr hlt, ?_⟩
    exact cls_eq_iff.mp heq.symm
  · intro hsplit f hf hfin g hg hbound
    obtain ⟨hgf, hcg⟩ := (hin g).mp hg
    exact hsplit (splitsKey_of_boundary hs hgf hf (internalCompare_eq_gt.mp hbound.1)
      (cls_eq_iff.mpr hbound.2).symm hcg fun hcf => hfin ((hin f).mpr ⟨hf, hcf⟩))

/-- The inputs that a compaction of a level below the first takes from that level. -/
theorem IsSeed.overlapInputs_fst (opts : Options) (h : IsSeed ucmp v level seed) (hl : 1 ≤ level)
    (hord : ∀ f ∈ v.files level, f.Ordered ucmp) :
    (Grows opts ucmp v level seed → (overlapInputs opts ucmp v level seed).1 =
        meeting ucmp (v.files level) (seed ++ meeting ucmp (v.files (level + 1)) seed)) ∧
      (¬ Grows opts ucmp v level seed → (overlapInputs opts ucmp v level seed).1 = seed) := by
  set next := meeting ucmp (v.files (level + 1)) seed with hnext
  set wider := meeting ucmp (v.files level) (seed ++ next) with hwider
  have hquery : v.getOverlappingInputs ucmp (level + 1) (some (getRange ucmp seed).1)
      (some (getRange ucmp seed).2) = next :=
    getOverlapping_getRange_eq_filter h.nonempty (Nat.succ_ne_zero level)
  have hquery' : v.getOverlappingInputs ucmp level (some (getRange ucmp (seed ++ next)).1)
      (some (getRange ucmp (seed ++ next)).2) = wider :=
    getOverlapping_getRange_eq_filter (by simp [h.nonempty]) (Nat.ne_of_gt hl)
  have hsub : seed ⊆ wider := hquery' ▸ h.subset_expanded hord next
  -- as many files of the next level as before are the same files
  have hgrow : (next ≠ [] ∧ seed.length < wider.length ∧
      totalFileSize next + totalFileSize wider < expandedCompactionByteSizeLimit opts ∧
      (v.getOverlappingInputs ucmp (level + 1) (some (getRange ucmp wider).1)
        (some (getRange ucmp wider).2)).length = next.length) ↔ Grows opts ucmp v level seed := by
    refine and_congr_right fun _ => and_congr_right fun hmore => and_congr_right fun _ => ?_
    rw [getOverlapping_getRange_eq_filter (ne_nil_of_length_pos (Nat.zero_lt_of_lt hmore))
      (Nat.succ_ne_zero level)]
    constructor
    · intro hlen f hf hmeets
      have heq := filter_eq_of_length (fun a _ ha => decide_eq_true ((of_decide_eq_true ha).mono hsub)) hlen
      have hmem : f ∈ (v.files (level + 1)).filter fun a => decide (MeetsHull ucmp wider a) :=
        mem_filter.mpr ⟨hf, decide_eq_true hmeets⟩
      grind
    · intro hall
      refine congrArg length (filter_congr fun f hf => ?_)
      rw [decide_eq_decide]
      exact ⟨hall f hf, fun hmeets => hmeets.mono hsub⟩
  grind [overlapInputs]

/-- **When a compaction leaves no older version behind**: exactly when no user key is split at the end of
what it takes. -/
theorem compaction_boundaries_clean_iff (opts : Options) (ucmp : Comparator) (v : Version)
    (pointer : ℕ → Option InternalKey) (hsort : ∀ level, 1 ≤ level → SortedLevel ucmp (v.files level))
    (hord : ∀ f ∈ v.files 0, f.Ordered ucmp) (req : CompactionRequest) (hvalid : req.Valid v)
    (c : Compaction) (hc : req.compaction opts ucmp v pointer = some c) :
    CleanBoundaries ucmp v c.level (c.inputs0, c.inputs1) ↔
      ∃ seed, req.seed opts ucmp v pointer = some (c.level, seed) ∧ Unsplit opts ucmp v c.level seed := by
  have hall := ordered_of_levels hsort hord
  obtain ⟨seed, hseed, -, hinputs⟩ := CompactionRequest.exists_seed hall hc
  obtain ⟨h, -⟩ := CompactionRequest.isSeed hvalid hall hseed
  have hsnd := h.overlapInputs_snd opts (hall c.level)
  have hunique : (∃ seed', req.seed opts ucmp v pointer = some (c.level, seed') ∧
      Unsplit opts ucmp v c.level seed') ↔ Unsplit opts ucmp v c.level seed := by
    grind
  rw [hunique, hinputs, Unsplit, CleanBoundaries, and_comm]
  refine and_congr ?_ (imp_congr_right fun hl => ?_)
  · -- the files of the next level meet the hull of the seed, grown or not
    refine cleanBoundary_iff (hsort _ (Nat.succ_pos _)) fun f => ?_
    rw [hsnd]
    exact mem_getOverlapping_getRange h.nonempty (Nat.succ_ne_zero _)
  · obtain ⟨hgrows, hstays⟩ := h.overlapInputs_fst opts hl (hall c.level)
    by_cases hg : Grows opts ucmp v c.level seed
    · grind [cleanBoundary_iff, meeting]
    · have hmem : ∀ f, f ∈ seed ↔ f ∈ v.files c.level ∧ f ∈ seed :=
        fun f => ⟨fun hf => ⟨h.sublist.subset hf, hf⟩, And.right⟩
      grind [cleanBoundary_iff]

/-- The exact condition at two adjacent files that share a user key: it fails, and so do clean boundaries. -/
theorem compaction_boundaries_clean_iff_sharedKey :
    ∃ c, levelOneRequest.compaction .small bytewiseComparator sharedKeyVersion (fun _ => none)
        = some c ∧
      (CleanBoundaries bytewiseComparator sharedKeyVersion c.level (c.inputs0, c.inputs1) ↔
        ∃ seed, levelOneRequest.seed .small bytewiseComparator sharedKeyVersion (fun _ => none) =
            some (c.level, seed) ∧
          Unsplit .small bytewiseComparator sharedKeyVersion c.level seed) ∧
      ¬ CleanBoundaries bytewiseComparator sharedKeyVersion c.level (c.inputs0, c.inputs1) :=
  ⟨_, rfl, compaction_boundaries_clean_iff _ _ _ _ (fun level _ => sharedKeyVersion_sorted level)
    (by decide) levelOneRequest (by decide) _ rfl, by decide⟩

end RocketDb
