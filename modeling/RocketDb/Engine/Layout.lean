import RocketDb.Version.Builder

/-! # Where the entries of a database are

The entries lie in *places*: the memtables and the table files. A **layout** is the contents of all places.

* **`Layout.Ok`** — places are sorted and share no key, files are what their metadata says, and those of a
  level below the first are disjoint and in order.
* **`Layout.Recent`** — a place that a read visits earlier holds only newer entries of a user key.
* **`Move`** — some places go away, and files with entries from them appear in one level; `Move.ok` and
  `Move.recent` say when the two invariants survive. -/

namespace RocketDb

open KeyOrder Newest List

/-- A place where entries are kept. -/
inductive Place where
  | mem
  | imm
  | file (level : ℕ) (f : FileMetaData)

/-- The contents of every place. -/
structure Layout where
  mem : List Entry
  imm : List Entry
  version : Version
  tables : ℕ → List Entry

/-- The places that are in use. -/
def Layout.Has (l : Layout) : Place → Prop
  | .mem => l.mem ≠ []
  | .imm => l.imm ≠ []
  | .file level f => f ∈ l.version.files level

/-- The entries in a place. -/
def Layout.entries (l : Layout) : Place → List Entry
  | .mem => l.mem
  | .imm => l.imm
  | .file _ f => l.tables f.number

/-- No key of one list occurs in the other. -/
def Apart (ucmp : Comparator) (es fs : List Entry) : Prop :=
  ∀ a ∈ es, ∀ b ∈ fs, a.key.rank ucmp ≠ b.key.rank ucmp

/-- The places are consistent with each other and with the metadata of the files. -/
structure Layout.Ok (ucmp : Comparator) (l : Layout) : Prop where
  sorted : ∀ p, l.Has p → SortedEntries ucmp (l.entries p)
  parsable : ∀ p, l.Has p → ∀ e ∈ l.entries p, e.parsable = true
  apart : ∀ p q, l.Has p → l.Has q → p ≠ q → Apart ucmp (l.entries p) (l.entries q)
  bounds : ∀ level, ∀ f ∈ l.version.files level, f.Bounds (l.tables f.number)
  levels : ∀ level, 1 ≤ level → SortedLevel ucmp (l.version.files level)
  nodup : ∀ level, (l.version.files level).Nodup
  numbers : ∀ i j, ∀ f ∈ l.version.files i, ∀ g ∈ l.version.files j,
    f.number = g.number → i = j ∧ f = g
  deep : ∀ level, kNumLevels ≤ level → l.version.files level = []

variable {ucmp : Comparator} {l l' : Layout} {f g : FileMetaData} {es : List Entry} {e : Entry}
  {level : ℕ} {files : List FileMetaData} {tables : ℕ → List Entry} {fs : List Entry} {mem : List Entry}

/-! ## Files and their tables -/

/-- The keys of a table are within the bounds of its file. -/
theorem FileMetaData.Bounds.rank_le (hb : f.Bounds es) (hs : SortedEntries ucmp es) (he : e ∈ es) :
    f.smallest.rank ucmp ≤ e.key.rank ucmp ∧ e.key.rank ucmp ≤ f.largest.rank ucmp := by
  obtain ⟨hhead, hlast⟩ := hb
  obtain ⟨a, ha, hak⟩ := Option.map_eq_some_iff.mp hhead
  obtain ⟨b, hb, hbk⟩ := Option.map_eq_some_iff.mp hlast
  rw [← hak, ← hbk]
  constructor
  · obtain ⟨tl, rfl⟩ := head?_eq_some_iff.mp ha
    rcases mem_cons.mp he with rfl | he
    · exact le_rfl
    · exact (rel_of_pairwise_cons hs.rank_lt he).le
  · obtain ⟨init, rfl⟩ := getLast?_eq_some_iff.mp hb
    rcases mem_append.mp he with he | he
    · exact ((pairwise_append.mp hs.rank_lt).2.2 e he b (mem_singleton_self b)).le
    · rw [mem_singleton.mp he]

theorem FileMetaData.Bounds.exists_mem (hb : f.Bounds es) :
    (∃ e ∈ es, e.key = f.smallest) ∧ ∃ e ∈ es, e.key = f.largest := by
  obtain ⟨a, ha, hak⟩ := Option.map_eq_some_iff.mp hb.1
  obtain ⟨b, hb, hbk⟩ := Option.map_eq_some_iff.mp hb.2
  exact ⟨⟨a, mem_of_mem_head? ha, hak⟩, ⟨b, mem_of_getLast? hb, hbk⟩⟩

theorem FileMetaData.Bounds.ordered (hb : f.Bounds es) (hs : SortedEntries ucmp es) :
    f.Ordered ucmp := by
  obtain ⟨⟨a, ha, hak⟩, -⟩ := hb.exists_mem
  exact FileMetaData.ordered_iff.mpr ((hb.rank_le hs ha).1.trans (hb.rank_le hs ha).2)

theorem FileMetaData.Bounds.class_mem (hb : f.Bounds es) (hs : SortedEntries ucmp es)
    (he : e ∈ es) :
    f.lo ucmp ≤ userClass ucmp e.key.userKey ∧ userClass ucmp e.key.userKey ≤ f.hi ucmp :=
  ⟨userClass_le_of_rank_le (hb.rank_le hs he).1, userClass_le_of_rank_le (hb.rank_le hs he).2⟩

/-- Files of a sorted run of entries are a sorted level. -/
theorem sortedLevel_of_flatMap (hs : SortedEntries ucmp (files.flatMap fun f => tables f.number))
    (hb : ∀ f ∈ files, f.Bounds (tables f.number)) : SortedLevel ucmp files := by
  have hp := pairwise_flatMap.mp hs
  refine ⟨fun f hf => (hb f hf).ordered (hp.1 f hf), ?_⟩
  refine hp.2.imp_of_mem fun {f g} hf hg hfg => ?_
  obtain ⟨-, a, ha, hak⟩ := (hb f hf).exists_mem
  obtain ⟨⟨b, hb, hbk⟩, -⟩ := (hb g hg).exists_mem
  rw [← hak, ← hbk]
  exact hfg a ha b hb

/-- And the other way round. -/
theorem SortedLevel.sortedEntries (h : SortedLevel ucmp files)
    (hs : ∀ f ∈ files, SortedEntries ucmp (tables f.number)) (hb : ∀ f ∈ files, f.Bounds (tables f.number)) :
    SortedEntries ucmp (files.flatMap fun f => tables f.number) := by
  rw [sortedEntries_iff, pairwise_flatMap]
  refine ⟨fun f hf => (hs f hf).rank_lt, h.rank_lt.imp_of_mem fun {f g} hf hg hfg a ha b hb' => ?_⟩
  have hfa := (hb f hf).rank_le (hs f hf) ha
  have hgb := (hb g hg).rank_le (hs g hg) hb'
  exact hfa.2.trans_lt (hfg.trans_le hgb.1)

/-- Files without a common user key have no common key. -/
theorem FileMetaData.Disjoint.apart (h : f.Disjoint ucmp g) (hf : f.Bounds es) (hg : g.Bounds fs)
    (hes : SortedEntries ucmp es) (hfs : SortedEntries ucmp fs) :
    Apart ucmp es fs := by
  intro a ha b hb hab
  have hfa := hf.rank_le hes ha
  have hgb := hg.rank_le hfs hb
  rcases h with h | h
  · grind
  · grind

theorem Apart.symm (h : Apart ucmp es fs) : Apart ucmp fs es :=
  fun a ha b hb hab => h b hb a ha hab.symm

/-- The files of a consistent layout are well formed. -/
theorem Layout.Ok.wellFormed (h : l.Ok ucmp) : l.version.WellFormed ucmp where
  ordered level f hf := (h.bounds level f hf).ordered (h.sorted (.file level f) hf)
  parsable level f hf := by
    obtain ⟨⟨a, ha, hak⟩, b, hb, hbk⟩ := (h.bounds level f hf).exists_mem
    refine ⟨?_, ?_⟩
    · rw [← hak]
      exact Entry.parsable_iff.mp (h.parsable (.file level f) hf a ha)
    · rw [← hbk]
      exact Entry.parsable_iff.mp (h.parsable (.file level f) hf b hb)
  sorted := h.levels

/-- A memtable with other keys may take the place of the current one. -/
theorem Layout.Ok.setMem (h : l.Ok ucmp) (hs : SortedEntries ucmp mem) (hp : ∀ e ∈ mem, e.parsable = true)
    (hapart : ∀ p, l.Has p → p ≠ .mem → Apart ucmp mem (l.entries p)) :
    ({ l with mem := mem } : Layout).Ok ucmp where
  sorted
    | .mem, _ => hs
    | .imm, hq => h.sorted .imm hq
    | .file i f, hq => h.sorted (.file i f) hq
  parsable
    | .mem, _ => hp
    | .imm, hq => h.parsable .imm hq
    | .file i f, hq => h.parsable (.file i f) hq
  apart
    | .mem, .mem, _, _, hne => absurd rfl hne
    | .mem, .imm, _, hq, _ => hapart .imm hq (by simp)
    | .mem, .file i f, _, hq, _ => hapart (.file i f) hq (by simp)
    | .imm, .mem, hq, _, _ => (hapart .imm hq (by simp)).symm
    | .file i f, .mem, hq, _, _ => (hapart (.file i f) hq (by simp)).symm
    | .imm, .imm, _, _, hne => absurd rfl hne
    | .imm, .file i f, hp, hq, hne => h.apart .imm (.file i f) hp hq hne
    | .file i f, .imm, hp, hq, hne => h.apart (.file i f) .imm hp hq hne
    | .file i f, .file j g, hp, hq, hne => h.apart (.file i f) (.file j g) hp hq hne
  bounds := h.bounds
  levels := h.levels
  nodup := h.nodup
  numbers := h.numbers
  deep := h.deep

/-- The memtable becomes the immutable one. -/
theorem Layout.Ok.switch (h : l.Ok ucmp) :
    ({ l with mem := [], imm := l.mem } : Layout).Ok ucmp where
  sorted
    | .mem, hq => absurd rfl hq
    | .imm, hq => h.sorted .mem hq
    | .file i f, hq => h.sorted (.file i f) hq
  parsable
    | .mem, hq => absurd rfl hq
    | .imm, hq => h.parsable .mem hq
    | .file i f, hq => h.parsable (.file i f) hq
  apart
    | .mem, _, hq, _, _ => absurd rfl hq
    | .imm, .mem, _, hq, _ => absurd rfl hq
    | .file _ _, .mem, _, hq, _ => absurd rfl hq
    | .imm, .imm, _, _, hne => absurd rfl hne
    | .imm, .file i f, hp, hq, _ => h.apart .mem (.file i f) hp hq (by simp)
    | .file i f, .imm, hp, hq, _ => h.apart (.file i f) .mem hp hq (by simp)
    | .file i f, .file j g, hp, hq, hne => h.apart (.file i f) (.file j g) hp hq hne
  bounds := h.bounds
  levels := h.levels
  nodup := h.nodup
  numbers := h.numbers
  deep := h.deep

/-! ## Moving entries between places -/

/-- The places `gone` are replaced by `files` of `level`, which hold entries from them. -/
structure Move (ucmp : Comparator) (l l' : Layout) (gone : Place → Prop) (level : ℕ)
    (files : List FileMetaData) : Prop where
  has_iff : ∀ p, l'.Has p ↔ l.Has p ∧ ¬ gone p ∨ ∃ f ∈ files, p = .file level f
  kept : ∀ p, l.Has p → ¬ gone p → l'.entries p = l.entries p
  source : ∀ f ∈ files, ∀ e ∈ l'.tables f.number, ∃ p, gone p ∧ l.Has p ∧ e ∈ l.entries p
  bounds : ∀ f ∈ files, f.Bounds (l'.tables f.number)
  sorted : ∀ f ∈ files, SortedEntries ucmp (l'.tables f.number)
  inOrder : SortedLevel ucmp files
  fresh : ∀ f ∈ files, ∀ i, ∀ g ∈ l.version.files i, ¬ gone (.file i g) → g.number ≠ f.number
  nodup : (files.map FileMetaData.number).Nodup

variable {gone : Place → Prop}

theorem eq_of_number_eq (hnd : (files.map FileMetaData.number).Nodup) (hf : f ∈ files)
    (hg : g ∈ files) (h : f.number = g.number) : f = g :=
  inj_on_of_nodup_map hnd hf hg h

section

variable (m : Move ucmp l l' gone level files)

include m

theorem Move.apart_kept (h : l.Ok ucmp) (hf : f ∈ files) {p : Place} (hp : l.Has p) (hstay : ¬ gone p) :
    Apart ucmp (l'.entries p) (l'.tables f.number) := by
  intro a ha b hb
  obtain ⟨q, hq, hhas, hbq⟩ := m.source f hf b hb
  rw [m.kept p hp hstay] at ha
  exact h.apart p q hp hhas (fun hpq => hstay (hpq ▸ hq)) a ha b hbq

/-- **A move keeps the layout consistent**, if the levels stay sorted. -/
theorem Move.ok (h : l.Ok ucmp) (hlevel : level < kNumLevels)
    (hlevels : ∀ i, 1 ≤ i → SortedLevel ucmp (l'.version.files i))
    (hnodup : ∀ i, (l'.version.files i).Nodup) : l'.Ok ucmp where
  sorted p hp := by
    rcases (m.has_iff p).mp hp with ⟨hp, hstay⟩ | ⟨f, hf, rfl⟩
    · rw [m.kept p hp hstay]
      exact h.sorted p hp
    · exact m.sorted f hf
  parsable p hp e he := by
    rcases (m.has_iff p).mp hp with ⟨hp, hstay⟩ | ⟨f, hf, rfl⟩
    · exact h.parsable p hp e (m.kept p hp hstay ▸ he)
    · obtain ⟨q, -, hhas, heq⟩ := m.source f hf e he
      exact h.parsable q hhas e heq
  apart p q hp hq hpq := by
    rcases (m.has_iff p).mp hp with ⟨hp, hstayp⟩ | ⟨f, hf, rfl⟩
    · rcases (m.has_iff q).mp hq with ⟨hq, hstayq⟩ | ⟨g, hg, rfl⟩
      · grind [Move, Layout.Ok]
      · exact m.apart_kept h hg hp hstayp
    · rcases (m.has_iff q).mp hq with ⟨hq, hstayq⟩ | ⟨g, hg, rfl⟩
      · exact (m.apart_kept h hf hq hstayq).symm
      · have hne : f ≠ g := fun hfg => hpq (hfg ▸ rfl)
        exact (m.inOrder.disjoint hf hg hne).apart (m.bounds f hf) (m.bounds g hg) (m.sorted f hf)
          (m.sorted g hg)
  bounds i f hf := by
    rcases (m.has_iff (.file i f)).mp hf with ⟨hf, hstay⟩ | ⟨g, hg, hfg⟩
    · have hkept : l'.tables f.number = l.tables f.number := m.kept (.file i f) hf hstay
      rw [hkept]
      exact h.bounds i f hf
    · cases hfg
      exact m.bounds f hg
  levels := hlevels
  nodup := hnodup
  numbers i j f hf g hg hfg := by
    rcases (m.has_iff (.file i f)).mp hf with ⟨hf, hstayf⟩ | ⟨f', hf', heq⟩
    · rcases (m.has_iff (.file j g)).mp hg with ⟨hg, -⟩ | ⟨g', hg', heq'⟩
      · exact h.numbers i j f hf g hg hfg
      · cases heq'
        exact absurd hfg (m.fresh g hg' i f hf hstayf)
    · cases heq
      rcases (m.has_iff (.file j g)).mp hg with ⟨hg, hstayg⟩ | ⟨g', hg', heq'⟩
      · exact absurd hfg.symm (m.fresh f hf' j g hg hstayg)
      · grind [eq_of_number_eq, Move]
  deep i hi := by
    refine eq_nil_iff_forall_not_mem.mpr fun f hf => ?_
    rcases (m.has_iff (.file i f)).mp hf with ⟨hf, -⟩ | ⟨g, -, hfg⟩
    · have hnil := h.deep i hi
      exact not_mem_nil (hnil ▸ (show f ∈ l.version.files i from hf))
    · cases hfg
      exact absurd hlevel (not_lt.mpr hi)

/-- A move brings no new entries. -/
theorem Move.forall_entries {P : Entry → Prop} (h : ∀ p, l.Has p → ∀ a ∈ l.entries p, P a) (p : Place)
    (hp : l'.Has p) :
    ∀ a ∈ l'.entries p, P a := by
  intro a ha
  rcases (m.has_iff p).mp hp with ⟨hp, hstay⟩ | ⟨f, hf, rfl⟩
  · exact h p hp a (m.kept p hp hstay ▸ ha)
  · obtain ⟨q, -, hq, haq⟩ := m.source f hf a ha
    exact h q hq a haq

end

/-- New tables may be written as long as those in use stay. -/
theorem Move.of_tables (h : ∀ i, ∀ f ∈ l.version.files i, tables f.number = l.tables f.number) :
    Move ucmp l { l with tables := tables } (fun _ => False) 0 [] where
  has_iff
    | .mem => by simp [Layout.Has]
    | .imm => by simp [Layout.Has]
    | .file i f => by simp [Layout.Has]
  kept
    | .mem, _, _ => rfl
    | .imm, _, _ => rfl
    | .file i f, hf, _ => h i f hf
  source := by simp
  bounds := by simp
  sorted := by simp
  inOrder := ⟨by simp, List.Pairwise.nil⟩
  fresh := by simp
  nodup := nodup_nil

/-- The version of `l'` is that of `l` after an edit which deletes the files that go away and adds
`files` to `level`. -/
structure Installs (ucmp : Comparator) (l l' : Layout) (edit : VersionEdit) (gone : Place → Prop)
    (level : ℕ) (files : List FileMetaData) : Prop where
  version_eq : l'.version = applyEdit ucmp l.version edit
  newFiles_eq : edit.newFiles = files.map fun f => (level, f)
  deletes_iff : ∀ i, ∀ f ∈ l.version.files i, edit.Deletes i f.number ↔ gone (.file i f)
  level_lt : level < kNumLevels
  nodup : (files.map FileMetaData.number).Nodup

variable {edit : VersionEdit} {i : ℕ}

section

variable (h : Installs ucmp l l' edit gone level files)

include h

theorem Installs.mem_newFiles :
    (i, f) ∈ edit.newFiles ↔ i = level ∧ f ∈ files := by
  rw [h.newFiles_eq, mem_map]
  grind

theorem Installs.distinctNumbers :
    DistinctNumbers edit.newFiles := by
  intro i
  grind [Installs, filesAt]

/-- The files after an edit: those that stay and the new ones. -/
theorem Installs.mem_files (hdeep : ∀ i, kNumLevels ≤ i → l.version.files i = []) :
    f ∈ l'.version.files i ↔
      f ∈ l.version.files i ∧ ¬ gone (.file i f) ∨ ∃ g ∈ files, Place.file i f = .file level g := by
  by_cases hi : i < kNumLevels
  · rw [h.version_eq, mem_applyEdit h.distinctNumbers hi, h.mem_newFiles]
    constructor
    · grind [Installs]
    · rintro (⟨hf, hstay⟩ | ⟨g, hg, heq⟩)
      · grind [Installs]
      · cases heq
        exact ⟨Or.inr ⟨rfl, hg⟩, fun hdel => hdel.2 f (h.mem_newFiles.mpr ⟨rfl, hg⟩) rfl⟩
  · grind [Installs, applyEdit_files_of_le]

theorem Installs.not_mem_of_new (m : Move ucmp l l' gone level files) (hf : (i, f) ∈ edit.newFiles) :
    f ∉ l.version.files i := by
  intro hmem
  have hstay : ¬ gone (.file i f) := fun hg => ((h.deletes_iff i f hmem).mpr hg).2 f hf rfl
  exact m.fresh f (h.mem_newFiles.mp hf).2 i f hmem hstay rfl

/-- A level stays sorted if the new files meet none that stay. -/
theorem Installs.sortedLevel
    (m : Move ucmp l l' gone level files) (hl : l.Ok ucmp)
    (hclear : 1 ≤ level → ∀ f ∈ files, ∀ g ∈ l.version.files level, ¬ gone (.file level g) →
      f.Disjoint ucmp g) (hi : 1 ≤ i) : SortedLevel ucmp (l'.version.files i) := by
  have hv := hl.levels i hi
  rw [h.version_eq]
  refine sortedLevel_applyEdit h.distinctNumbers hv (fun f => h.not_mem_of_new m) (fun f hf => ?_)
    fun f hf g hg hfg => ?_
  · rw [← h.version_eq] at hf
    rcases (h.mem_files hl.deep).mp hf with ⟨hf, -⟩ | ⟨g, hg, heq⟩
    · exact hv.1 f hf
    · cases heq
      exact m.inOrder.1 f hg
  · rw [← h.version_eq] at hf hg
    rcases (h.mem_files hl.deep).mp hf with ⟨hf, hstayf⟩ | ⟨f', hf', heq⟩
    · rcases (h.mem_files hl.deep).mp hg with ⟨hg, -⟩ | ⟨g', hg', heq'⟩
      · exact hv.disjoint hf hg hfg
      · cases heq'
        exact (hclear hi g hg' f hf hstayf).symm
    · cases heq
      rcases (h.mem_files hl.deep).mp hg with ⟨hg, hstayg⟩ | ⟨g', hg', heq'⟩
      · exact hclear hi f hf' g hg hstayg
      · cases heq'
        exact m.inOrder.disjoint hf' hg' hfg

/-- **An edit keeps the layout consistent** if the new files meet none that stay in their level. -/
theorem Installs.ok
    (m : Move ucmp l l' gone level files) (hl : l.Ok ucmp)
    (hclear : 1 ≤ level → ∀ f ∈ files, ∀ g ∈ l.version.files level, ¬ gone (.file level g) →
      f.Disjoint ucmp g) : l'.Ok ucmp :=
  m.ok hl h.level_lt (fun _ hi => h.sortedLevel m hl hclear hi) fun i => by
    rw [h.version_eq]
    exact nodup_applyEdit h.distinctNumbers (hl.nodup i) fun f => h.not_mem_of_new m

end

/-! ## Recency -/

/-- A read visits `p` before `q`. -/
def Place.Above : Place → Place → Prop
  | .mem, .mem => False
  | .mem, _ => True
  | .imm, .file _ _ => True
  | .file i f, .file j g => i < j ∨ i = 0 ∧ j = 0 ∧ g.number < f.number
  | _, _ => False

/-- A place visited earlier holds only newer entries of a user key. -/
def Layout.Recent (ucmp : Comparator) (l : Layout) : Prop :=
  ∀ p q, l.Has p → l.Has q → p.Above q → Older ucmp (l.entries q) (l.entries p)

/-- **A move keeps recency** if the new files are older than the places above them and newer than
those below. -/
theorem Move.recent (m : Move ucmp l l' gone level files) (h : l.Recent ucmp)
    (hsingle : level = 0 → ∀ f ∈ files, ∀ g ∈ files, f = g)
    (habove : ∀ p, l.Has p → ¬ gone p → ∀ f ∈ files, p.Above (.file level f) →
      Older ucmp (l'.tables f.number) (l.entries p))
    (hbelow : ∀ p, l.Has p → ¬ gone p → ∀ f ∈ files, (Place.file level f).Above p →
      Older ucmp (l.entries p) (l'.tables f.number)) : l'.Recent ucmp := by
  intro p q hp hq hpq
  rcases (m.has_iff p).mp hp with ⟨hp, hstayp⟩ | ⟨f, hf, rfl⟩
  · rw [m.kept p hp hstayp]
    rcases (m.has_iff q).mp hq with ⟨hq, hstayq⟩ | ⟨g, hg, rfl⟩
    · rw [m.kept q hq hstayq]
      exact h p q hp hq hpq
    · exact habove p hp hstayp g hg hpq
  · rcases (m.has_iff q).mp hq with ⟨hq, hstayq⟩ | ⟨g, hg, rfl⟩
    · rw [m.kept q hq hstayq]
      exact hbelow q hq hstayq f hf hpq
    · rcases hpq with hpq | ⟨hlevel, -, hlt⟩
      · exact absurd hpq (lt_irrefl _)
      · grind

/-- A memtable may be filled with newer entries. -/
theorem Layout.Recent.setMem (h : l.Recent ucmp)
    (hnew : ∀ p, l.Has p → p ≠ .mem → Older ucmp (l.entries p) mem) :
    ({ l with mem := mem } : Layout).Recent ucmp
  | .mem, .imm, _, hq, _ => hnew .imm hq (by simp)
  | .mem, .file i f, _, hq, _ => hnew (.file i f) hq (by simp)
  | .imm, .file i f, hp, hq, hpq => h .imm (.file i f) hp hq hpq
  | .file i f, .file j g, hp, hq, hpq => h (.file i f) (.file j g) hp hq hpq

theorem Layout.Recent.switch (h : l.Recent ucmp) :
    ({ l with mem := [], imm := l.mem } : Layout).Recent ucmp
  | .mem, _, hp, _, _ => absurd rfl hp
  | .imm, .file i f, hp, hq, _ => h .mem (.file i f) hp hq trivial
  | .file i f, .file j g, hp, hq, hpq => h (.file i f) (.file j g) hp hq hpq

/-- Entries of other user keys are no newer versions. -/
theorem older_of_class_ne
    (h : ∀ b ∈ fs, ∀ a ∈ es, userClass ucmp b.key.userKey ≠ userClass ucmp a.key.userKey) :
    Older ucmp fs es :=
  fun b hb a ha hcmp => absurd (cls_eq_iff.mpr hcmp) (h b hb a ha)

theorem older_of_class_lt (h : g.hi ucmp < f.lo ucmp ∨ f.hi ucmp < g.lo ucmp) (hf : f.Bounds es)
    (hg : g.Bounds fs) (hes : SortedEntries ucmp es) (hfs : SortedEntries ucmp fs) : Older ucmp fs es := by
  refine older_of_class_ne fun b hb a ha hcls => ?_
  have hfa := hf.class_mem hes ha
  have hgb := hg.class_mem hfs hb
  grind

theorem Older.mono {fs es' fs' : List Entry} (h : Older ucmp fs es) (hfs : ∀ b ∈ fs', b ∈ fs)
    (hes : ∀ a ∈ es', a ∈ es) : Older ucmp fs' es' :=
  fun b hb a ha => h b (hfs b hb) a (hes a ha)

/-! ## All entries -/

/-- The entries of all places. -/
def Layout.all (l : Layout) : List Entry :=
  l.mem ++ l.imm ++ (List.range kNumLevels).flatMap fun level =>
    (l.version.files level).flatMap fun f => l.tables f.number

/-- The entries of the database are those of its places. -/
theorem Layout.Ok.mem_all (h : l.Ok ucmp) : e ∈ l.all ↔ ∃ p, l.Has p ∧ e ∈ l.entries p := by
  simp only [all, mem_append, mem_flatMap, mem_range]
  constructor
  · rintro ((he | he) | ⟨level, -, f, hf, he⟩)
    · exact ⟨.mem, ne_nil_of_mem he, he⟩
    · exact ⟨.imm, ne_nil_of_mem he, he⟩
    · exact ⟨.file level f, hf, he⟩
  · rintro ⟨_ | _ | ⟨level, f⟩, hp, he⟩
    · exact Or.inl (Or.inl he)
    · exact Or.inl (Or.inr he)
    · refine Or.inr ⟨level, ?_, f, hp, he⟩
      by_contra hge
      have hnil := h.deep level (not_lt.mp hge)
      exact not_mem_nil (hnil ▸ (show f ∈ l.version.files level from hp))

/-- No two of them have the same key. -/
theorem Layout.Ok.distinct (h : l.Ok ucmp) (u : Slice) (s : ℕ) :
    Distinct (visible ucmp u s) Entry.version l.all := by
  intro a ha b hb hva hvb hver
  have hrank : a.key.rank ucmp = b.key.rank ucmp := by
    rw [InternalKey.rank, InternalKey.rank, versioned_eq_iff]
    exact ⟨(visible_iff.mp hva).2.1.trans (visible_iff.mp hvb).2.1.symm, hver⟩
  obtain ⟨p, hp, hap⟩ := h.mem_all.mp ha
  obtain ⟨q, hq, hbq⟩ := h.mem_all.mp hb
  by_cases hpq : p = q
  · subst hpq
    exact (h.sorted p hp).eq_of_rank_eq hap hbq hrank
  · exact absurd hrank (h.apart p q hp hq hpq a hap b hbq)

theorem Move.mem_all (m : Move ucmp l l' gone level files) (h : l.Ok ucmp) (h' : l'.Ok ucmp)
    (he : e ∈ l'.all) : e ∈ l.all := by
  obtain ⟨p, hp, hep⟩ := h'.mem_all.mp he
  rcases (m.has_iff p).mp hp with ⟨hp, hstay⟩ | ⟨f, hf, rfl⟩
  · exact h.mem_all.mpr ⟨p, hp, m.kept p hp hstay ▸ hep⟩
  · obtain ⟨q, -, hq, heq⟩ := m.source f hf e hep
    exact h.mem_all.mpr ⟨q, hq, heq⟩

end RocketDb
