import RocketDb.Engine.Writes

/-! # The background jobs as moves

A flush, a compaction and a trivial move take entries from some places of the layout and put them into files
of one level.

* **`FlushJob.move`** — a flush empties the immutable memtable.
* **`move_of_inputs`** — a finished compaction, or a trivial move, replaces its inputs. -/

namespace RocketDb

open KeyOrder

variable {cfg : Config} {ucmp : Comparator} {l l' : Layout} {f g : FileMetaData} {e : Entry}
  {level : ℕ} {outs inputs : List FileMetaData}

/-! ## Flush -/

/-- The files a flush adds: one, unless the memtable was empty. -/
def FlushJob.files (cfg : Config) (job : FlushJob) (mem : List Entry) : List FileMetaData :=
  if 0 < (job.output cfg mem).1.fileSize then [(job.output cfg mem).1] else []

variable {job : FlushJob} {mem : List Entry}

theorem FlushJob.newFiles_edit (cfg : Config) (job : FlushJob) (mem : List Entry) :
    (job.edit cfg mem).newFiles =
      (job.files cfg mem).map fun f => (job.level cfg (job.output cfg mem).1, f) := by
  rw [edit, files]
  simp only
  split_ifs <;> rfl

theorem FlushJob.mem_files (hf : f ∈ job.files cfg mem) :
    f = (job.output cfg mem).1 ∧ mem ≠ [] := by
  rw [files] at hf
  split_ifs at hf with hsize
  · refine ⟨List.mem_singleton.mp hf, fun hnil => ?_⟩
    subst hnil
    exact absurd hsize (lt_irrefl 0)
  · exact absurd hf List.not_mem_nil

theorem FlushJob.output_mem_files (cfg : Config) (job : FlushJob) (hmem : mem ≠ []) :
    (job.output cfg mem).1 ∈ job.files cfg mem := by
  grind [output, buildTable, TableSizes.finishedSize_pos, files]

theorem FlushJob.number_output (cfg : Config) (job : FlushJob) (mem : List Entry) :
    (job.output cfg mem).1.number = job.number := rfl

theorem FlushJob.entries_output (cfg : Config) (job : FlushJob) (mem : List Entry) :
    (job.output cfg mem).2 = prunedEntries (some ⟨cfg.comparator, job.smallestSnapshot⟩) mem :=
  buildTable_entries _ _ _ _

/-- The bounds of the file are those of its table. -/
theorem FlushJob.bounds_output (cfg : Config) (job : FlushJob) (hmem : mem ≠ []) :
    (job.output cfg mem).1.Bounds (job.output cfg mem).2 := by
  obtain ⟨hsmall, hlarge⟩ :=
    buildTable_bounds (some ⟨cfg.comparator, job.smallestSnapshot⟩) mem
  have hne : (job.output cfg mem).2 ≠ [] := by
    rw [entries_output]
    exact prunedEntries_ne_nil _ _ hmem
  obtain ⟨a, ha⟩ := Option.isSome_iff_exists.mp (List.isSome_head?.mpr hne)
  obtain ⟨b, hb⟩ := Option.isSome_iff_exists.mp (List.getLast?_isSome.mpr hne)
  refine ⟨?_, ?_⟩
  · rw [ha]
    exact congrArg some (hsmall a ha).symm
  · rw [hb]
    exact congrArg some (hlarge b hb).symm

/-- The layout after a flush. -/
def Layout.flushed (cfg : Config) (job : FlushJob) (l : Layout) : Layout where
  mem := l.mem
  imm := []
  version := applyEdit cfg.comparator l.version (job.edit cfg l.imm)
  tables := Function.update l.tables job.number (job.output cfg l.imm).2

theorem FlushJob.tables_flushed (cfg : Config) (job : FlushJob) (l : Layout)
    (hf : f ∈ job.files cfg l.imm) :
    (l.flushed cfg job).tables f.number =
      prunedEntries (some ⟨cfg.comparator, job.smallestSnapshot⟩) l.imm := by
  obtain ⟨rfl, -⟩ := mem_files hf
  rw [number_output, ← entries_output]
  exact Function.update_self _ _ _

theorem FlushJob.nodup_files (cfg : Config) (job : FlushJob) (mem : List Entry) :
    ((job.files cfg mem).map FileMetaData.number).Nodup := by
  rw [files]
  split_ifs <;> simp

/-- The edit of a flush adds its file. -/
theorem FlushJob.installs (cfg : Config) (job : FlushJob) (l : Layout) :
    Installs cfg.comparator l (l.flushed cfg job) (job.edit cfg l.imm) (· = .imm)
      (job.level cfg (job.output cfg l.imm).1) (job.files cfg l.imm) where
  version_eq := rfl
  newFiles_eq := job.newFiles_edit cfg l.imm
  deletes_iff i f _ := by
    refine ⟨fun h => absurd h.1 ?_, fun h => by cases h⟩
    exact List.not_mem_nil
  level_lt := lt_of_le_of_lt (Version.pickLevel_le _) (by decide)
  nodup := job.nodup_files cfg l.imm

/-- A flush moves the entries of the immutable memtable. -/
theorem FlushJob.move (hl : l.Ok cfg.comparator)
    (hnum : ∀ i, ∀ f ∈ l.version.files i, f.number < job.number) :
    Move cfg.comparator l (l.flushed cfg job) (· = .imm)
      (job.level cfg (job.output cfg l.imm).1) (job.files cfg l.imm) where
  has_iff
    | .mem => by simp [Layout.Has, Layout.flushed]
    | .imm => by simp [Layout.Has, Layout.flushed]
    | .file i f => (job.installs cfg l).mem_files hl.deep
  kept
    | .mem, _, _ => rfl
    | .imm, _, h => absurd rfl h
    | .file i f, h, _ => Function.update_of_ne (hnum i f h).ne _ _
  source f hf e he := by
    rw [job.tables_flushed cfg l hf] at he
    exact ⟨.imm, rfl, (mem_files hf).2, (prunedEntries_sublist l.imm).subset he⟩
  bounds f hf := by
    obtain ⟨rfl, hmem⟩ := mem_files hf
    rw [job.tables_flushed cfg l hf, ← entries_output]
    exact job.bounds_output cfg hmem
  sorted f hf := by
    rw [job.tables_flushed cfg l hf]
    exact (hl.sorted .imm (mem_files hf).2).sublist (prunedEntries_sublist _)
  inOrder := by
    rw [files]
    split_ifs with hsize
    · have hf : (job.output cfg l.imm).1 ∈ job.files cfg l.imm := by
        grind [files]
      have hmem := (mem_files hf).2
      refine ⟨fun f hf => ?_, List.pairwise_singleton _ _⟩
      rw [List.mem_singleton.mp hf]
      refine (job.bounds_output cfg hmem).ordered ?_
      rw [entries_output]
      exact (hl.sorted .imm hmem).sublist (prunedEntries_sublist _)
    · exact ⟨by simp, List.Pairwise.nil⟩
  fresh f hf i g hg _ := by
    rw [(mem_files hf).1, number_output]
    exact (hnum i g hg).ne
  nodup := job.nodup_files cfg l.imm

theorem not_meets_iff {a b : Slice} :
    ¬ Meets ucmp (some a) (some b) g ↔ g.hi ucmp < userClass ucmp a ∨ userClass ucmp b < g.lo ucmp := by
  rw [Meets, not_and_or]
  exact or_congr (not_le.trans WithBot.coe_lt_coe) (not_le.trans WithTop.coe_lt_coe)

/-- **A flushed file is apart** from the files of every level down to its own, unless that is
level 0. -/
theorem FlushJob.clear (hl : l.Ok cfg.comparator) (hbase : job.base = l.version)
    (hf : f ∈ job.files cfg l.imm) {i : ℕ} (hi : i ≤ job.level cfg (job.output cfg l.imm).1)
    (hpos : 0 < job.level cfg (job.output cfg l.imm).1) (hg : g ∈ l.version.files i) :
    g.hi cfg.comparator < f.lo cfg.comparator ∨ f.hi cfg.comparator < g.lo cfg.comparator := by
  obtain ⟨rfl, -⟩ := mem_files hf
  rw [level, hbase] at hi hpos
  exact not_meets_iff.mp (Version.pickLevel_free hl.wellFormed.parsable hl.wellFormed.sorted hi hpos
    g hg)

theorem FileMetaData.disjoint_of_class
    (h : g.hi ucmp < f.lo ucmp ∨ f.hi ucmp < g.lo ucmp) : f.Disjoint ucmp g :=
  (h.imp (fun h => rank_lt_iff.mpr (Or.inl h)) fun h => rank_lt_iff.mpr (Or.inl h)).symm

/-- A flush that started from the current version keeps the layout consistent. -/
theorem FlushJob.flushed_ok (hl : l.Ok cfg.comparator) (hbase : job.base = l.version)
    (hnum : ∀ i, ∀ f ∈ l.version.files i, f.number < job.number) :
    (l.flushed cfg job).Ok cfg.comparator :=
  (job.installs cfg l).ok (FlushJob.move hl hnum) hl fun hpos _ hf _ hg _ =>
    FileMetaData.disjoint_of_class (FlushJob.clear hl hbase hf le_rfl hpos hg)

end RocketDb
