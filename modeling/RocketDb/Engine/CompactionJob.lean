import RocketDb.Engine.Jobs

/-! # A running compaction

A compaction reads its inputs without the mutex while writes, memtable switches and flushes go on.

* **`JobOk`** — its inputs are still in the version, its outputs are not listed yet, and no other file of the
  output level reaches between its inputs. Only a flush can break this; `JobOk.flush` has the condition.
* **`JobOk.move`**, **`Compaction.move`** — at its end, the inputs are replaced by files of the next level. -/

namespace RocketDb

open KeyOrder List

variable {cfg : Config} {ucmp : Comparator} {l : Layout} {v v' : Version} {f g : FileMetaData}
  {e : Entry} {store store' : TableStore} {cs cs' : CompactionState} {c : Compaction}
  {inputs0 inputs1 outs : List FileMetaData} {level : ℕ} {tables : ℕ → List Entry}

/-! ## Files beside the inputs -/

/-- All inputs of a compaction. -/
def Compaction.inputs (c : Compaction) : List FileMetaData := c.inputs0 ++ c.inputs1

/-- The place is an input of the compaction. -/
def Compaction.IsInput (c : Compaction) : Place → Prop
  | .file i f => i = c.level ∧ f ∈ c.inputs0 ∨ i = c.level + 1 ∧ f ∈ c.inputs1
  | _ => False

/-- The file lies before all of the inputs or behind all of them. -/
def Outside (ucmp : Comparator) (inputs : List FileMetaData) (g : FileMetaData) : Prop :=
  (∀ a ∈ inputs, g.largest.rank ucmp < a.smallest.rank ucmp) ∨
    ∀ a ∈ inputs, a.largest.rank ucmp < g.smallest.rank ucmp

theorem not_meetsHull_iff {inputs : List FileMetaData} :
    ¬ MeetsHull ucmp inputs g ↔
      (∀ a ∈ inputs, g.hi ucmp < a.lo ucmp) ∨ ∀ a ∈ inputs, a.hi ucmp < g.lo ucmp := by
  grind [MeetsHull]

theorem outside_of_not_meetsHull {inputs : List FileMetaData} (h : ¬ MeetsHull ucmp inputs g) :
    Outside ucmp inputs g :=
  (not_meetsHull_iff.mp h).imp (fun h a ha => rank_lt_iff.mpr (Or.inl (h a ha)))
    fun h a ha => rank_lt_iff.mpr (Or.inl (h a ha))

/-- A file of the next level that is not an input is beside all inputs. -/
theorem Selected.outside (h : Selected ucmp v level inputs0 inputs1) (hv : v.WellFormed ucmp)
    (hg : g ∈ v.files (level + 1)) (hout : g ∉ inputs1) : Outside ucmp (inputs0 ++ inputs1) g := by
  have hsort := hv.sorted (level + 1) (by omega)
  have hlohi : g.lo ucmp ≤ g.hi ucmp := hsort.lo_le_hi hg
  have hmiss : ¬ MeetsHull ucmp inputs0 g := fun hm => hout ((h.mem1 g).mpr ⟨hg, hm⟩)
  have hside : ∀ a ∈ inputs1, g.Disjoint ucmp a ∧ MeetsHull ucmp inputs0 a := fun a ha => by
    grind [mem1, SortedLevel.disjoint]
  refine (not_meetsHull_iff.mp hmiss).imp (fun hleft a ha => ?_) fun hright a ha => ?_
  · rcases mem_append.mp ha with ha | ha
    · exact rank_lt_iff.mpr (Or.inl (hleft a ha))
    · obtain ⟨hd | hd, ⟨x, hx, hxa⟩, -⟩ := hside a ha
      · exact hd
      · have hag : a.hi ucmp ≤ g.lo ucmp := userClass_le_of_rank_le hd.le
        grind
  · rcases mem_append.mp ha with ha | ha
    · exact rank_lt_iff.mpr (Or.inl (hright a ha))
    · obtain ⟨hd | hd, -, ⟨x, hx, hax⟩⟩ := hside a ha
      · have hga : g.hi ucmp ≤ a.lo ucmp := userClass_le_of_rank_le hd.le
        grind
      · exact hd

/-! ## The merged inputs -/

/-- The merged inputs depend on the tables of the inputs only. -/
theorem inputEntries_congr {tables tables' : ℕ → List Entry}
    (h : ∀ f ∈ c.inputs, tables' f.number = tables f.number) :
    inputEntries ucmp tables' c = inputEntries ucmp tables c := by
  have h0 : ∀ f ∈ c.inputs0, tables' f.number = tables f.number := fun f hf =>
    h f (mem_append_left _ hf)
  have h1 : ∀ f ∈ c.inputs1, tables' f.number = tables f.number := fun f hf =>
    h f (mem_append_right _ hf)
  grind [inputEntries, map_congr_left]

/-- The inputs of a compaction are files of the version. -/
structure Compaction.Listed (v : Version) (c : Compaction) : Prop where
  mem0 : ∀ f ∈ c.inputs0, f ∈ v.files c.level
  mem1 : ∀ f ∈ c.inputs1, f ∈ v.files (c.level + 1)

theorem Selected.listed (h : Selected ucmp v c.level c.inputs0 c.inputs1) : c.Listed v :=
  ⟨fun _ hf => h.sublist.subset hf, fun _ hf => h.sublist1.subset hf⟩

theorem mem_inputEntries :
    e ∈ inputEntries ucmp tables c ↔ ∃ f ∈ c.inputs, e ∈ tables f.number := by
  rw [(inputEntries_perm tables c).mem_iff, Compaction.entries, mem_flatMap]
  rfl

theorem Compaction.Listed.exists_place (h : c.Listed l.version) (hf : f ∈ c.inputs) :
    ∃ i, c.IsInput (.file i f) ∧ l.Has (.file i f) := by
  rcases mem_append.mp hf with hf | hf
  · exact ⟨c.level, Or.inl ⟨rfl, hf⟩, h.mem0 f hf⟩
  · exact ⟨c.level + 1, Or.inr ⟨rfl, hf⟩, h.mem1 f hf⟩

theorem Compaction.Listed.number_mem (h : c.Listed v) (hf : f ∈ c.inputs) :
    ∃ i, f ∈ v.files i := by
  rcases mem_append.mp hf with hf | hf
  · exact ⟨c.level, h.mem0 f hf⟩
  · exact ⟨c.level + 1, h.mem1 f hf⟩

/-- No two inputs have a common key. -/
theorem Selected.distinctRanks (h : Selected ucmp l.version c.level c.inputs0 c.inputs1)
    (hl : l.Ok ucmp) : DistinctRanks ucmp (c.entries l.tables) := by
  have hne : ∀ i f, f ∈ l.version.files i →
      (l.tables f.number).Pairwise fun a b => a.key.rank ucmp ≠ b.key.rank ucmp :=
    fun i f hf => (hl.sorted (.file i f) hf).rank_lt.imp ne_of_lt
  have hpair : ∀ i, ∀ fs : List FileMetaData, fs.Sublist (l.version.files i) →
      fs.Pairwise fun f g => Apart ucmp (l.tables f.number) (l.tables g.number) := by
    intro i fs hsub
    have hnd : fs.Nodup := (hl.nodup i).sublist hsub
    refine hnd.imp_of_mem fun {f g} hf hg hfg => ?_
    exact hl.apart (.file i f) (.file i g) (hsub.subset hf) (hsub.subset hg) fun heq => by
      cases heq
      exact hfg rfl
  rw [DistinctRanks, Compaction.entries, pairwise_flatMap]
  refine ⟨fun f hf => ?_, ?_⟩
  · obtain ⟨i, hi⟩ := h.listed.number_mem hf
    exact hne i f hi
  · refine pairwise_append.mpr ⟨hpair _ _ h.sublist, hpair _ _ h.sublist1, ?_⟩
    intro f hf g hg
    exact hl.apart (.file c.level f) (.file (c.level + 1) g) (h.sublist.subset hf)
      (h.sublist1.subset hg) (by simp)

/-- So the merged inputs are in order. -/
theorem Selected.sortedEntries (h : Selected ucmp l.version c.level c.inputs0 c.inputs1)
    (hl : l.Ok ucmp) : SortedEntries ucmp (inputEntries ucmp l.tables c) := by
  have hconcat : ∀ i, 1 ≤ i → ∀ fs : List FileMetaData, fs.Sublist (l.version.files i) →
      SortedEntries ucmp (fs.flatMap fun f => l.tables f.number) := by
    intro i hi fs hsub
    have hsort : SortedLevel ucmp fs :=
      ⟨fun f hf => (hl.levels i hi).1 f (hsub.subset hf), (hl.levels i hi).2.sublist hsub⟩
    exact hsort.sortedEntries (fun f hf => hl.sorted (.file i f) (hsub.subset hf))
      fun f hf => hl.bounds i f (hsub.subset hf)
  refine sortedEntries_mergingIterator (fun es hes => ?_) ?_
  · rcases mem_append.mp hes with hes | hes
    · split_ifs at hes with hzero
      · obtain ⟨f, hf, rfl⟩ := mem_map.mp hes
        exact hl.sorted (.file c.level f) (h.sublist.subset hf)
      · rw [mem_singleton.mp hes]
        exact hconcat c.level (by omega) _ h.sublist
    · grind [Selected]
  · have hperm : (inputEntries ucmp l.tables c).Perm (c.entries l.tables) :=
      inputEntries_perm l.tables c
    exact (hperm.symm.trans (mergingIterator_perm _)).pairwise (h.distinctRanks hl) Ne.symm

/-! ## The invariant of a running compaction -/

/-- What holds between the iterations of a compaction, for the current version and tables. -/
structure JobOk (ucmp : Comparator) (v : Version) (store : TableStore) (cs : CompactionState) :
    Prop where
  selected : Selected ucmp cs.compaction.inputVersion cs.compaction.level cs.compaction.inputs0
    cs.compaction.inputs1
  base : cs.compaction.inputVersion.WellFormed ucmp
  level_lt : cs.compaction.level + 1 < kNumLevels
  listed : cs.compaction.Listed v
  outside : ∀ g ∈ v.files (cs.compaction.level + 1), g ∉ cs.compaction.inputs1 →
    Outside ucmp cs.compaction.inputs g
  outputs : OutputsOk store cs
  unlisted : ∀ i, ∀ f ∈ v.files i, f.number ∉ cs.numbers
  sorted : SortedEntries ucmp (inputEntries ucmp store.tables cs.compaction)
  split : cs.outputEntries store ++ cs.toKeep ucmp =
    keptEntries ucmp cs.smallestSnapshot
      (noFileCovers ucmp cs.compaction.inputVersion cs.compaction.level)
      (inputEntries ucmp store.tables cs.compaction)

/-- A compaction starts in order. -/
theorem JobOk.start (hsel : Selected ucmp l.version c.level c.inputs0 c.inputs1)
    (hbase : c.inputVersion = l.version) (hlevel : c.level + 1 < kNumLevels) (hl : l.Ok ucmp)
    (ht : store.tables = l.tables) (snap : ℕ) :
    JobOk ucmp l.version store (.start ucmp l.tables c snap) where
  selected := by
    change Selected ucmp c.inputVersion _ _ _
    rw [hbase]
    exact hsel
  base := by
    change c.inputVersion.WellFormed ucmp
    rw [hbase]
    exact hl.wellFormed
  level_lt := hlevel
  listed := hsel.listed
  outside g hg hout := hsel.outside hl.wellFormed hg hout
  outputs := ⟨by simp [CompactionState.start], by simp [CompactionState.start], nodup_nil,
    by simp [CompactionState.start, CompactionState.numbers]⟩
  unlisted i f _ := by simp [CompactionState.start, CompactionState.numbers]
  sorted := by
    rw [ht]
    exact hsel.sortedEntries hl
  split := by
    rw [ht]
    refine (nil_append _).trans (dropLoop_eq_keptEntries (hsel.sortedEntries hl) ?_)
    change ∀ i, 1 ≤ i → SortedLevel ucmp (c.inputVersion.files i)
    rw [hbase]
    exact hl.levels

theorem JobOk.inputEntries_eq (h : JobOk ucmp v store cs)
    (ht : ∀ i, ∀ f ∈ v.files i, store'.tables f.number = store.tables f.number) :
    inputEntries ucmp store'.tables cs.compaction = inputEntries ucmp store.tables cs.compaction :=
  inputEntries_congr fun f hf => by
    obtain ⟨i, hi⟩ := h.listed.number_mem hf
    exact ht i f hi

section

variable (hlt : ∀ i, ∀ f ∈ v.files i, f.number < store.nextFileNumber)

include hlt

theorem JobOk.tables_eq (h : JobOk ucmp v store cs)
    (hframe : OutputsFrame store store' cs cs') (i : ℕ) (hf : f ∈ v.files i) :
    store'.tables f.number = store.tables f.number :=
  hframe.tables_eq f.number (h.unlisted i f hf) (hlt i f hf)

/-- Any progress that keeps what is written together with what is still to be kept. -/
theorem JobOk.advance (h : JobOk ucmp v store cs)
    (hok : OutputsOk store' cs')
    (hframe : OutputsFrame store store' cs cs')
    (hsplit : cs'.outputEntries store' ++ cs'.toKeep ucmp =
      cs.outputEntries store ++ cs.toKeep ucmp) : JobOk ucmp v store' cs' := by
  have hin := h.inputEntries_eq fun i _ hf => h.tables_eq hlt hframe i hf
  grind [OutputsFrame.compaction_eq, JobOk, OutputsFrame.numbers_new, OutputsFrame.snapshot_eq]

/-- An entry of the inputs. -/
theorem JobOk.compactEntry (h : JobOk cfg.comparator v store cs)
    (hr : compactEntry cfg.options cfg.comparator cfg.sizes store cs = some (store', cs')) :
    JobOk cfg.comparator v store' cs' ∧ OutputsFrame store store' cs cs' := by
  obtain ⟨hok, hframe, hsplit, -⟩ := compactEntry_spec h.outputs hr
  exact ⟨h.advance hlt hok hframe hsplit, hframe⟩

/-- An output is closed. -/
theorem JobOk.close {sizes : TableSizes} (h : JobOk ucmp v store cs)
    (hr : finishCompactionOutputFile sizes store cs = (store', cs')) :
    JobOk ucmp v store' cs' ∧ OutputsFrame store store' cs cs' ∧ cs'.builder = none ∧
      cs'.input = cs.input := by
  obtain ⟨hok, hframe, hent, hb, hin, hdrop⟩ := finishCompactionOutputFile_spec h.outputs hr
  refine ⟨h.advance hlt hok hframe ?_, hframe, hb, hin⟩
  rw [hent, CompactionState.toKeep, CompactionState.toKeep, hframe.compaction_eq,
    hframe.snapshot_eq, hin, hdrop]

end

theorem JobOk.allocate (h : JobOk ucmp v store cs) : JobOk ucmp v store.allocate cs where
  selected := h.selected
  base := h.base
  level_lt := h.level_lt
  listed := h.listed
  outside := h.outside
  outputs := ⟨h.outputs.bounds, h.outputs.builder_bounds, h.outputs.nodup,
    fun n hn => (h.outputs.lt_next n hn).trans (Nat.lt_succ_self _)⟩
  unlisted := h.unlisted
  sorted := h.sorted
  split := h.split

/-- **A file from a flush** does not disturb the compaction unless it lands between its inputs in the
output level. -/
theorem JobOk.addFiles (h : JobOk ucmp v store cs) {n : ℕ} {es : List Entry} {i : ℕ}
    (hv : ∀ j f, f ∈ v'.files j ↔ f ∈ v.files j ∨ j = i ∧ f ∈ outs)
    (hn : ∀ j, ∀ f ∈ v.files j, f.number ≠ n) (hcs : n ∉ cs.numbers)
    (houts : ∀ f ∈ outs, f.number = n)
    (hclear : i = cs.compaction.level + 1 → ∀ f ∈ outs, ¬ MeetsHull ucmp cs.compaction.inputs f) :
    JobOk ucmp v' (store.write n es) cs where
  selected := h.selected
  base := h.base
  level_lt := h.level_lt
  listed := ⟨fun f hf => (hv _ f).mpr (Or.inl (h.listed.mem0 f hf)),
    fun f hf => (hv _ f).mpr (Or.inl (h.listed.mem1 f hf))⟩
  outside g hg hout := by
    grind [JobOk, outside_of_not_meetsHull]
  outputs := by
    refine ⟨fun f hf => ?_, h.outputs.builder_bounds, h.outputs.nodup, h.outputs.lt_next⟩
    have hne : f.number ≠ n := fun heq =>
      hcs (heq ▸ mem_append_left _ (mem_map_of_mem hf))
    rw [TableStore.write]
    grind [JobOk, OutputsOk.bounds]
  unlisted j f hf := by
    grind [JobOk]
  sorted := by
    rw [h.inputEntries_eq fun j f hf => Function.update_of_ne (hn j f hf) _ _]
    exact h.sorted
  split := by
    have hout : cs.outputEntries (store.write n es) = cs.outputEntries store := by
      rw [CompactionState.outputEntries, CompactionState.outputEntries]
      refine congrArg (· ++ _) (flatMap_congr fun f hf => Function.update_of_ne ?_ _ _)
      exact fun heq => hcs (heq ▸ mem_append_left _ (mem_map_of_mem hf))
    rw [h.inputEntries_eq fun j f hf => Function.update_of_ne (hn j f hf) _ _, hout]
    exact h.split

/-! ## Replacing the inputs -/

/-- The layout with an edited version. -/
def Layout.install (ucmp : Comparator) (edit : VersionEdit) (l : Layout) : Layout :=
  { l with version := applyEdit ucmp l.version edit }

variable {edit : VersionEdit}

/-- The edit replaces inputs by outputs. -/
theorem Compaction.Listed.installs (hc : c.Listed l.version) (hl : l.Ok ucmp)
    (hlevel : c.level + 1 < kNumLevels)
    (hnew : edit.newFiles = outs.map fun f => (c.level + 1, f))
    (hdel : edit.deletedFiles = c.inputs0.map (fun f => (c.level, f.number)) ++
      c.inputs1.map fun f => (c.level + 1, f.number))
    (hnd : (outs.map FileMetaData.number).Nodup)
    (hother : ∀ f ∈ outs, ∀ g ∈ c.inputs1, f.number ≠ g.number) :
    Installs ucmp l (l.install ucmp edit) edit c.IsInput (c.level + 1) outs where
  version_eq := rfl
  newFiles_eq := hnew
  deletes_iff i f hf := by
    have hmem : ∀ g, (i, g) ∈ edit.newFiles → i = c.level + 1 ∧ g ∈ outs := fun g hg => by
      grind
    rw [VersionEdit.Deletes, hdel, mem_append, mem_map, mem_map]
    constructor
    · rintro ⟨⟨g, hg, heq⟩ | ⟨g, hg, heq⟩, -⟩
      · obtain ⟨rfl, hnum⟩ := Prod.mk.inj heq
        obtain ⟨-, rfl⟩ := hl.numbers _ _ g (hc.mem0 g hg) f hf hnum
        exact Or.inl ⟨rfl, hg⟩
      · obtain ⟨rfl, hnum⟩ := Prod.mk.inj heq
        obtain ⟨-, rfl⟩ := hl.numbers _ _ g (hc.mem1 g hg) f hf hnum
        exact Or.inr ⟨rfl, hg⟩
    · rintro (⟨rfl, hin⟩ | ⟨rfl, hin⟩)
      · grind
      · grind
  level_lt := hlevel
  nodup := hnd

theorem Installs.has_iff (h : Installs ucmp l (l.install ucmp edit) edit c.IsInput level outs)
    (hl : l.Ok ucmp) (p : Place) :
    (l.install ucmp edit).Has p ↔
      l.Has p ∧ ¬ c.IsInput p ∨ ∃ f ∈ outs, p = .file level f := by
  cases p with
  | mem | imm => simp [Layout.Has, Layout.install, Compaction.IsInput]
  | file i f => exact h.mem_files hl.deep

theorem numbers_eq_of_closed (hb : cs.builder = none) :
    cs.numbers = cs.outputs.map FileMetaData.number := by
  simp [CompactionState.numbers, hb]

/-- **The outputs of a finished compaction** hold what the drop rule keeps. -/
theorem JobOk.flatMap_outputs (h : JobOk ucmp v store cs) (hb : cs.builder = none)
    (hin : cs.input = []) :
    (cs.outputs.flatMap fun f => store.tables f.number) =
      keptEntries ucmp cs.smallestSnapshot
        (noFileCovers ucmp cs.compaction.inputVersion cs.compaction.level)
        (inputEntries ucmp store.tables cs.compaction) := by
  rw [← h.split, CompactionState.outputEntries, CompactionState.toKeep, hb, hin]
  simp [dropLoop, Predecessor.loop]

/-- Every entry of an output was in an input. -/
theorem JobOk.mem_of_output (h : JobOk ucmp v store cs) (hb : cs.builder = none)
    (hin : cs.input = []) (hf : f ∈ cs.outputs) (he : e ∈ store.tables f.number) :
    ∃ g ∈ cs.compaction.inputs, e ∈ store.tables g.number := by
  have hmem : e ∈ cs.outputs.flatMap fun f => store.tables f.number :=
    mem_flatMap.mpr ⟨f, hf, he⟩
  rw [h.flatMap_outputs hb hin] at hmem
  exact mem_inputEntries.mp (mem_of_mem_keptEntries hmem)

theorem JobOk.installs (h : JobOk ucmp l.version store cs) (hl : l.Ok ucmp)
    (hb : cs.builder = none) :
    Installs ucmp l (l.install ucmp cs.edit) cs.edit cs.compaction.IsInput
      (cs.compaction.level + 1) cs.outputs :=
  h.listed.installs hl h.level_lt rfl rfl (numbers_eq_of_closed hb ▸ h.outputs.nodup)
    fun f hf g hg heq => h.unlisted _ g (h.listed.mem1 g hg) (by
      rw [← heq, numbers_eq_of_closed hb]
      exact mem_map_of_mem hf)

/-- **A finished compaction moves** entries of its inputs to its outputs. -/
theorem JobOk.move (h : JobOk ucmp l.version store cs) (hl : l.Ok ucmp)
    (ht : store.tables = l.tables) (hb : cs.builder = none) (hin : cs.input = []) :
    Move ucmp l (l.install ucmp cs.edit) cs.compaction.IsInput (cs.compaction.level + 1)
      cs.outputs where
  has_iff := (h.installs hl hb).has_iff hl
  kept
    | .mem, _, _ => rfl
    | .imm, _, _ => rfl
    | .file _ _, _, _ => rfl
  source f hf e he := by
    obtain ⟨g, hg, heg⟩ := h.mem_of_output hb hin hf (ht ▸ he)
    obtain ⟨i, hinput, hhas⟩ := h.listed.exists_place hg
    rw [ht] at heg
    exact ⟨.file i g, hinput, hhas, heg⟩
  bounds f hf := by
    have := h.outputs.bounds f hf
    rwa [ht] at this
  sorted f hf := by
    have hs : SortedEntries ucmp (cs.outputs.flatMap fun f => store.tables f.number) := by
      rw [h.flatMap_outputs hb hin]
      exact h.sorted.keptEntries
    have := (pairwise_flatMap.mp hs).1 f hf
    rwa [ht] at this
  inOrder := by
    refine sortedLevel_of_flatMap ?_ h.outputs.bounds
    rw [h.flatMap_outputs hb hin]
    exact h.sorted.keptEntries
  fresh f hf i g hg _ heq := h.unlisted i g hg (by
    rw [heq, numbers_eq_of_closed hb]
    exact mem_map_of_mem hf)
  nodup := numbers_eq_of_closed hb ▸ h.outputs.nodup

/-- A file that is beside the inputs is beside an output. -/
theorem Outside.disjoint {inputs : List FileMetaData}
    (h : Outside ucmp inputs g) (hf : f.Bounds (tables f.number))
    (hsource : ∀ e ∈ tables f.number, ∃ a ∈ inputs,
      a.smallest.rank ucmp ≤ e.key.rank ucmp ∧ e.key.rank ucmp ≤ a.largest.rank ucmp) :
    f.Disjoint ucmp g := by
  obtain ⟨⟨x, hx, hxk⟩, y, hy, hyk⟩ := hf.exists_mem
  obtain ⟨a, ha, hax, -⟩ := hsource x hx
  obtain ⟨b, hb, -, hyb⟩ := hsource y hy
  rw [hxk] at hax
  rw [hyk] at hyb
  rcases h with h | h
  · exact Or.inr ((h a ha).trans_le hax)
  · exact Or.inl (hyb.trans_lt (h b hb))

/-- **The outputs are installed.** -/
theorem JobOk.install_ok (h : JobOk ucmp l.version store cs) (hl : l.Ok ucmp)
    (ht : store.tables = l.tables) (hb : cs.builder = none) (hin : cs.input = []) :
    (l.install ucmp cs.edit).Ok ucmp := by
  have hm := h.move hl ht hb hin
  refine (h.installs hl hb).ok hm hl fun _ f hf g hg hstay => ?_
  have hout : g ∉ cs.compaction.inputs1 := fun hg1 => hstay (Or.inr ⟨rfl, hg1⟩)
  refine (h.outside g hg hout).disjoint (hm.bounds f hf) fun e he => ?_
  obtain ⟨a, ha, hea⟩ := h.mem_of_output hb hin hf (ht ▸ he)
  obtain ⟨i, -, hhas⟩ := h.listed.exists_place ha
  exact ⟨a, ha, (hl.bounds i a hhas).rank_le (hl.sorted (.file i a) hhas) (ht ▸ hea)⟩

/-! ## Trivial moves -/

theorem Compaction.inputs_of_isTrivialMove {opts : Options} (h : c.isTrivialMove opts = true) :
    ∃ f, c.inputs0 = [f] ∧ c.inputs1 = [] := by
  rw [isTrivialMove, Bool.and_eq_true, Bool.and_eq_true, decide_eq_true_iff, decide_eq_true_iff] at h
  obtain ⟨f, hf⟩ := length_eq_one_iff.mp h.1.1
  exact ⟨f, hf, eq_nil_of_length_eq_zero h.1.2⟩

section

variable (h : Selected ucmp l.version c.level c.inputs0 c.inputs1) (hl : l.Ok ucmp)
  (hlevel : c.level + 1 < kNumLevels)

include h hl hlevel

theorem Selected.moveInstalls (htriv : ∃ f, c.inputs0 = [f] ∧ c.inputs1 = []) :
    Installs ucmp l (l.install ucmp c.moveEdit) c.moveEdit c.IsInput (c.level + 1) c.inputs0 := by
  obtain ⟨f, hf, hnil⟩ := htriv
  refine h.listed.installs hl hlevel rfl ?_ (by simp [hf]) (by simp [hnil])
  rw [hnil]
  exact (append_nil _).symm

/-- A trivial move takes the entries of its file along. -/
theorem Selected.move (htriv : ∃ f, c.inputs0 = [f] ∧ c.inputs1 = []) :
    Move ucmp l (l.install ucmp c.moveEdit) c.IsInput (c.level + 1) c.inputs0 where
  has_iff := (h.moveInstalls hl hlevel htriv).has_iff hl
  kept
    | .mem, _, _ => rfl
    | .imm, _, _ => rfl
    | .file _ _, _, _ => rfl
  source f hf e he := ⟨.file c.level f, Or.inl ⟨rfl, hf⟩, h.listed.mem0 f hf, he⟩
  bounds f hf := hl.bounds c.level f (h.listed.mem0 f hf)
  sorted f hf := hl.sorted (.file c.level f) (h.listed.mem0 f hf)
  inOrder := by
    obtain ⟨f, hf, -⟩ := htriv
    refine ⟨fun g hg => hl.wellFormed.ordered c.level g (h.listed.mem0 g hg), ?_⟩
    rw [hf]
    exact pairwise_singleton _ _
  fresh f hf i g hg hstay heq := by
    obtain ⟨rfl, rfl⟩ := hl.numbers _ _ g hg f (h.listed.mem0 f hf) heq
    exact hstay (Or.inl ⟨rfl, hf⟩)
  nodup := by
    obtain ⟨f, hf, -⟩ := htriv
    simp [hf]

theorem Selected.move_ok (htriv : ∃ f, c.inputs0 = [f] ∧ c.inputs1 = []) :
    (l.install ucmp c.moveEdit).Ok ucmp := by
  have hm := h.move hl hlevel htriv
  refine (h.moveInstalls hl hlevel htriv).ok hm hl fun _ f hf g hg hstay => ?_
  have hout : g ∉ c.inputs1 := fun hg1 => hstay (Or.inr ⟨rfl, hg1⟩)
  refine (h.outside hl.wellFormed hg hout).disjoint (hm.bounds f hf) fun e he => ?_
  have hfile := h.listed.mem0 f hf
  exact ⟨f, mem_append_left _ hf,
    (hl.bounds c.level f hfile).rank_le (hl.sorted (.file c.level f) hfile) he⟩

end

end RocketDb
