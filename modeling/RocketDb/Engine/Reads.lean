import RocketDb.Engine.Levels
import RocketDb.Engine.Lookup
import RocketDb.Engine.Recency

/-! # Every read returns the newest write

**`Engine.Faithful`**: newer entries lie above older ones, and for every sequence number a reader can hold the
entries in the database read like the whole history of writes.

* **`get_returns_newest_write`** — in every run in which compactions leave no older version of a key behind
  (`CleanBoundaries`), nested flushes stay clear of the outputs, writes have fewer than `2 ^ 31` records and
  the sequence numbers do not run out, a read returns the newest write at or before its number.
* **`get_loses_write_of_nested_flush`** — a run in which a flush does not stay clear and a key is lost. -/

namespace RocketDb

open Newest Transition List

/-- The steps after which reads are still right. -/
def ReadsCondition (cfg : Config) (e : Engine) : Action → Prop
  | .write ops => ops.length < 2 ^ 31 ∧ e.readers.lastSequence + ops.length < kMaxSequenceNumber
  | .endFlush => e.FlushClear cfg
  | .startCompaction req =>
    ∀ x ∈ req.seed cfg.options cfg.comparator e.current e.compactPointer,
      CleanBoundaries cfg.comparator e.current x.1
        (overlapInputs cfg.options cfg.comparator e.current x.1 x.2)
  | _ => True

instance (cfg : Config) (e : Engine) : ∀ a, Decidable (ReadsCondition cfg e a)
  | .write ops => inferInstanceAs
      (Decidable (ops.length < 2 ^ 31 ∧ e.readers.lastSequence + ops.length < kMaxSequenceNumber))
  | .endFlush => inferInstanceAs (Decidable (e.FlushClear cfg))
  | .startCompaction _ => Option.decidableForallMem _
  | .switchMemTable | .beginFlush | .compactEntry | .finishCompaction | .getSnapshot _
  | .releaseSnapshot _ => instDecidableTrue

/-- **The entries in the database read like the history of writes.** -/
structure Engine.Faithful (cfg : Config) (e : Engine) : Prop extends Engine.Ok cfg e where
  recent : e.layout.Recent cfg.comparator
  snapshots : e.readers.Ok
  last_lt : e.readers.lastSequence < kMaxSequenceNumber
  written_le : ∀ a ∈ e.written, a.key.sequence ≤ e.readers.lastSequence
  written_sorted : e.written.Pairwise fun a b => a.key.sequence < b.key.sequence
  reads : ∀ u s, e.readers.Sees s →
    readAt cfg.comparator e.layout.all u s = readAt cfg.comparator e.written u s
  flushAbove : ∀ job, e.flush = some job → e.readers.Above job.smallestSnapshot
  jobAbove : ∀ cs, e.compaction = some cs →
    e.readers.Above cs.smallestSnapshot ∧ cs.smallestSnapshot < kMaxSequenceNumber
  jobRecent : ∀ cs, e.compaction = some cs → JobRecent cfg.comparator e.layout cs.compaction

variable {cfg : Config} {e e' : Engine} {a : Action} {req : CompactionRequest} {c : Compaction}
  {ucmp : Comparator} {r : Readers}

theorem Engine.Faithful.empty (cfg : Config) : Engine.empty.Faithful cfg where
  toOk := Engine.Ok.empty cfg
  recent p _ h := absurd h (Engine.not_has_empty p)
  snapshots := ⟨List.Pairwise.nil, fun _ h => absurd h not_mem_nil⟩
  last_lt := by decide
  written_le _ h := absurd h not_mem_nil
  written_sorted := List.Pairwise.nil
  reads _ _ _ := rfl
  flushAbove _ h := by cases h
  jobAbove _ h := by cases h
  jobRecent _ h := by cases h

/-! ## Writes -/

theorem distinct_of_sequences {es : List Entry} (u : Slice) (s : ℕ)
    (h : es.Pairwise fun a b => a.key.sequence < b.key.sequence) :
    Distinct (visible ucmp u s) Entry.version es := by
  intro a ha b hb _ _ hver
  by_contra hne
  have hp : es.Pairwise fun a b => a.version ≠ b.version :=
    h.imp fun h => (Entry.version_lt_of_sequence_lt h).ne
  have : Std.Symm fun a b : Entry => a.version ≠ b.version := ⟨fun _ _ h => Ne.symm h⟩
  exact hp.forall ha hb hne hver

/-- **A batch of newer entries** reads the same on top of two collections that read the same. -/
theorem readAt_batch {batch as ws : List Entry} {u : Slice} {s last : ℕ}
    (hbatch : batch.Pairwise fun a b => a.key.sequence < b.key.sequence)
    (hnew : ∀ b ∈ batch, last < b.key.sequence) (has : ∀ a ∈ as, a.key.sequence ≤ last)
    (hws : ∀ a ∈ ws, a.key.sequence ≤ last) (hread : readAt ucmp as u s = readAt ucmp ws u s) :
    readAt ucmp (batch ++ as) u s = readAt ucmp (batch ++ ws) u s := by
  cases h : newestVisible ucmp batch u s with
  | none => rw [readAt_append_of_none h, readAt_append_of_none h, hread]
  | some x =>
    have hold : ∀ es : List Entry, (∀ a ∈ es, a.key.sequence ≤ last) →
        newestVisible ucmp (batch ++ es) u s = some x := fun es hes =>
      newest_append_of_older (distinct_of_sequences u s hbatch) h fun b hb _ =>
        Entry.version_lt_of_sequence_lt ((hes b hb).trans_lt (hnew x (mem_of_newest h)))
    rw [readAt_of_newestVisible (hold as has), readAt_of_newestVisible (hold ws hws)]

section

variable (h : e.Faithful cfg)

include h

theorem Engine.Faithful.all_le :
    ∀ a ∈ e.layout.all, a.key.sequence ≤ e.readers.lastSequence := fun a ha => by
  obtain ⟨p, hp, hap⟩ := h.layout.mem_all.mp ha
  exact h.sequences p hp a hap

theorem Engine.Faithful.reads_advance {n s : ℕ} (hlast : e.readers.lastSequence ≤
      (e.readers.advance n).lastSequence) (u : Slice) (hs : (e.readers.advance n).Sees s) :
    readAt cfg.comparator e.layout.all u s = readAt cfg.comparator e.written u s := by
  rcases hs with rfl | hs
  · rw [readAt_of_sequence_le h.all_le hlast, readAt_of_sequence_le h.written_le hlast]
    exact h.reads u _ (Or.inl rfl)
  · exact h.reads u s (Or.inr hs)

/-- A write is seen at the new last sequence number and changes no read below it. -/
theorem Engine.Faithful.write (ops : List Op) (hlen : ops.length < 2 ^ 31)
    (hmax : e.readers.lastSequence + ops.length < kMaxSequenceNumber) :
    (e.write cfg ops).Faithful cfg := by
  have hok := h.toOk.write ops hlen hmax.le
  have hlast := lastSequence_write cfg hlen hmax.le
  have hle : e.readers.lastSequence ≤ (e.write cfg ops).readers.lastSequence :=
    (Nat.le_add_right _ _).trans hlast.ge
  have hsmall : e.readers.Small (.write ops.length) := ⟨hlen, hmax.trans (by decide)⟩
  have hbatch : ∀ a ∈ batchEntries (e.readers.lastSequence + 1) ops,
      e.readers.lastSequence < a.key.sequence ∧
        a.key.sequence ≤ e.readers.lastSequence + ops.length := fun a ha => by
    obtain ⟨-, hlo, hhi⟩ := batchEntries_spec (e.readers.lastSequence + 1) (by omega) ha
    exact ⟨by omega, by omega⟩
  have hpw : (batchEntries (e.readers.lastSequence + 1) ops).Pairwise
      fun a b => a.key.sequence < b.key.sequence := batchEntries_pairwise (by omega)
  have hsorted : (e.write cfg ops).written.Pairwise fun a b => a.key.sequence < b.key.sequence :=
    pairwise_append.mpr ⟨h.written_sorted, hpw, fun a ha b hb =>
      (h.written_le a ha).trans_lt (hbatch b hb).1⟩
  have hall : ∀ a, a ∈ batchEntries (e.readers.lastSequence + 1) ops ++ e.layout.all ↔
      a ∈ (e.write cfg ops).layout.all := fun a => by
    simp only [Layout.all, layout, Engine.write, mem_append, mem_insertInto]
    tauto
  refine ⟨hok, ?_, h.snapshots.call hsmall, hlast.trans_lt hmax, ?_, hsorted, fun u s hs => ?_, ?_, ?_, ?_⟩
  · refine h.recent.setMem fun p hp hne b hb a ha => ?_
    rcases mem_insertInto.mp ha with ha | ha
    · refine h.recent .mem p (ne_nil_of_mem ha) hp ?_ b hb a ha
      cases p with
      | mem => exact absurd rfl hne
      | imm => trivial
      | file i f => trivial
    · exact fun _ => UInt64.lt_iff_toNat_lt.mpr (Entry.version_lt_of_sequence_lt
        ((h.sequences p hp b hb).trans_lt (hbatch a ha).1))
  · intro a ha
    rcases mem_append.mp ha with ha | ha
    · exact (h.written_le a ha).trans hle
    · exact (hbatch a ha).2.trans hlast.ge
  · rw [← readAt_congr_mem (hok.layout.distinct u s) hall,
      readAt_batch hpw (fun b hb => (hbatch b hb).1) h.all_le h.written_le
        (h.reads_advance hle u hs)]
    grind [readAt_congr_mem, distinct_of_sequences, Engine.write]
  · exact fun job hjob => (h.flushAbove job hjob).call hsmall
  · exact fun cs hcs => ⟨(h.jobAbove cs hcs).1.call hsmall, (h.jobAbove cs hcs).2⟩
  · intro cs hcs p hp hstay
    cases p with
    | mem =>
      refine Or.inl fun b hb a ha => ?_
      obtain ⟨i, f, -, hf, hbf⟩ := (h.compaction cs hcs).listed.place_of_input
        (l := e.layout) hb
      rcases mem_insertInto.mp ha with ha | ha
      · exact h.recent .mem (.file i f) (ne_nil_of_mem ha) hf trivial b hbf a ha
      · exact fun _ => UInt64.lt_iff_toNat_lt.mpr (Entry.version_lt_of_sequence_lt
          ((h.sequences (.file i f) hf b hbf).trans_lt (hbatch a ha).1))
    | imm => exact h.jobRecent cs hcs .imm hp hstay
    | file i f => exact h.jobRecent cs hcs (.file i f) hp hstay

/-! ## The other foreground steps -/

theorem Engine.Faithful.switchMemTable (himm : e.imm = none) :
    e.switchMemTable.Faithful cfg where
  toOk := h.toOk.switchMemTable
  recent := h.recent.switch
  snapshots := h.snapshots
  last_lt := h.last_lt
  written_le := h.written_le
  written_sorted := h.written_sorted
  reads u s hs := by
    have hall : e.switchMemTable.layout.all = e.layout.all := by
      simp [Layout.all, layout, Engine.switchMemTable, TableStore.allocate, himm]
    rw [hall]
    exact h.reads u s hs
  flushAbove := h.flushAbove
  jobAbove := h.jobAbove
  jobRecent cs hcs
    | .mem, hp, _ => absurd rfl hp
    | .imm, hp, hstay => (h.jobRecent cs hcs .mem hp hstay).imp id fun ⟨_, _, heq, _⟩ => by cases heq
    | .file i f, hp, hstay => h.jobRecent cs hcs (.file i f) hp hstay

theorem Engine.Faithful.setReaders (hr : r.Ok) (hlast : r.lastSequence = e.readers.lastSequence)
    (hsees : ∀ s, r.Sees s → e.readers.Sees s) (habove : ∀ b, e.readers.Above b → r.Above b) :
    ({ e with readers := r } : Engine).Faithful cfg where
  toOk := h.toOk.readers hlast
  recent := h.recent
  snapshots := hr
  last_lt := hlast.symm ▸ h.last_lt
  written_le := hlast.symm ▸ h.written_le
  written_sorted := h.written_sorted
  reads u s hs := h.reads u s (hsees s hs)
  flushAbove job hjob := habove _ (h.flushAbove job hjob)
  jobAbove cs hcs := ⟨habove _ (h.jobAbove cs hcs).1, (h.jobAbove cs hcs).2⟩
  jobRecent := h.jobRecent

theorem Engine.Faithful.getSnapshot (id : ℕ) :
    ({ e with readers := e.readers.getSnapshot id } : Engine).Faithful cfg := by
  have hsmall : e.readers.Small (.getSnapshot id) := trivial
  refine h.setReaders (h.snapshots.call hsmall) rfl (fun s hs => ?_) fun b hb => hb.call hsmall
  rcases hs with rfl | ⟨a, ha, rfl⟩
  · exact Or.inl rfl
  · rcases mem_append.mp ha with ha | ha
    · exact Or.inr ⟨a, ha, rfl⟩
    · rw [mem_singleton.mp ha]
      exact Or.inl rfl

theorem Engine.Faithful.releaseSnapshot (id : ℕ) :
    ({ e with readers := e.readers.releaseSnapshot id } : Engine).Faithful cfg := by
  have hsmall : e.readers.Small (.releaseSnapshot id) := trivial
  refine h.setReaders (h.snapshots.call hsmall) rfl (fun s hs => ?_) fun b hb => hb.call hsmall
  exact hs.imp_right fun ⟨a, ha, has⟩ => ⟨a, mem_of_mem_filter ha, has⟩

/-! ## The background steps -/

theorem Engine.Faithful.beginFlush : e.beginFlush.Faithful cfg where
  toOk := h.toOk.beginFlush
  recent := h.recent
  snapshots := h.snapshots
  last_lt := h.last_lt
  written_le := h.written_le
  written_sorted := h.written_sorted
  reads := h.reads
  flushAbove job hjob := by
    cases hjob
    exact h.snapshots.above_smallestSnapshot
  jobAbove := h.jobAbove
  jobRecent := h.jobRecent

/-- A flush that stays clear of the running compaction changes no read. -/
theorem Engine.Faithful.endFlush {job : FlushJob} {mem : List Entry} (hjob : e.flush = some job)
    (himm : e.imm = some mem) (hclear : e.FlushClear cfg) :
    (e.endFlush cfg job mem).Faithful cfg := by
  have hflush := h.flush job hjob
  have hlayout := layout_endFlush cfg job himm
  have hmove := FlushJob.move h.layout hflush.newest
  refine ⟨h.toOk.endFlush hjob himm hclear, ?_, h.snapshots, h.last_lt, h.written_le, h.written_sorted,
    fun u s hs => ?_, ?_, h.jobAbove, ?_⟩
  · rw [hlayout]
    exact FlushJob.recent h.layout h.recent hflush.base hflush.newest
  · rw [hlayout, FlushJob.readAt_flushed h.layout hflush.base hflush.newest
      ((h.flushAbove job hjob).le_of_sees hs)]
    exact h.reads u s hs
  · intro job' hjob'
    cases hjob'
  · intro cs hcs
    rw [hlayout]
    have hin : inputEntries cfg.comparator (e.layout.flushed cfg job).tables cs.compaction =
        inputEntries cfg.comparator e.layout.tables cs.compaction :=
      inputEntries_congr fun f hf => by
        obtain ⟨i, hi⟩ := (h.compaction cs hcs).listed.number_mem hf
        exact Function.update_of_ne (hflush.newest i f hi).ne _ _
    intro p hp hstay
    rw [hin]
    rcases (hmove.has_iff p).mp hp with ⟨hp, hkept⟩ | ⟨f, hf, rfl⟩
    · rw [hmove.kept p hp hkept]
      exact h.jobRecent cs hcs p hp hstay
    · -- the flushed entries were above all files
      refine Or.inl fun b hb a ha => ?_
      obtain ⟨q, rfl, hq, haq⟩ := hmove.source f hf a ha
      obtain ⟨i, g, -, hg, hbg⟩ := (h.compaction cs hcs).listed.place_of_input
        (l := e.layout) hb
      exact h.recent .imm (.file i g) hq hg trivial b hbg a haq

end

theorem clean_of_request (hord : ∀ level, ∀ f ∈ e.current.files level, f.Ordered cfg.comparator)
    (hgood : ReadsCondition cfg e (.startCompaction req))
    (hc : req.compaction cfg.options cfg.comparator e.current e.compactPointer = some c) :
    CleanBoundaries cfg.comparator e.current c.level (c.inputs0, c.inputs1) := by
  rw [req.compaction_eq_map_seed] at hc
  obtain ⟨⟨level, seed⟩, hseed, rfl⟩ := Option.map_eq_some_iff.mp hc
  have hclean := hgood (level, seed) hseed
  rw [← setupOtherInputs_inputs cfg.options level seed hord] at hclean
  exact hclean

section

variable (h : e.Faithful cfg) (hflush : e.flush = none)

include h hflush

theorem Engine.Faithful.trivialMove (hidle : e.compaction = none) (hvalid : req.Valid e.current)
    (hc : req.compaction cfg.options cfg.comparator e.current e.compactPointer = some c)
    (htriv : c.isTrivialMove cfg.options = true) (hgood : ReadsCondition cfg e (.startCompaction req))
    (pointer : ℕ → Option InternalKey) :
    ({ e with
      compactPointer := pointer
      current := applyEdit cfg.comparator e.current c.moveEdit } : Engine).Faithful cfg := by
  have hord := h.layout.wellFormed.ordered
  obtain ⟨hsel, hbase, hlevel⟩ := req.selected hvalid hord hc
  have hone := c.inputs_of_isTrivialMove htriv
  have hrec := hsel.jobRecent (l := e.layout) hbase h.layout h.recent
    (clean_of_request hord hgood hc)
  refine ⟨h.toOk.trivialMove hflush hidle hvalid hc htriv pointer, ?_, h.snapshots, h.last_lt, h.written_le,
    h.written_sorted, fun u s hs => ?_, h.flushAbove, h.jobAbove, ?_⟩
  · exact recent_of_inputs (hsel.move h.layout hlevel hone) h.recent hrec
  · exact (hsel.readAt_move (l := e.layout) h.layout hlevel hone).trans (h.reads u s hs)
  · intro cs hcs
    rw [hidle] at hcs
    cases hcs

/-- A compaction may start if its inputs leave no older version behind. -/
theorem Engine.Faithful.startCompaction (hvalid : req.Valid e.current)
    (hc : req.compaction cfg.options cfg.comparator e.current e.compactPointer = some c)
    (hgood : ReadsCondition cfg e (.startCompaction req)) (pointer : ℕ → Option InternalKey) :
    ({ e with
      compactPointer := pointer
      compaction := some (.start cfg.comparator e.store.tables c
        e.readers.smallestSnapshot) } : Engine).Faithful cfg := by
  have hord := h.layout.wellFormed.ordered
  obtain ⟨hsel, hbase, hlevel⟩ := req.selected hvalid hord hc
  refine ⟨h.toOk.startCompaction hflush hvalid hc pointer _, h.recent, h.snapshots, h.last_lt, h.written_le,
    h.written_sorted, h.reads, h.flushAbove, ?_, ?_⟩
  · rintro _ ⟨rfl⟩
    exact ⟨h.snapshots.above_smallestSnapshot,
      h.snapshots.smallestSnapshot_le_lastSequence.trans_lt h.last_lt⟩
  · rintro _ ⟨rfl⟩
    exact hsel.jobRecent (l := e.layout) hbase h.layout h.recent (clean_of_request hord hgood hc)

theorem Engine.Faithful.advance {cs cs' : CompactionState} {store : TableStore}
    (hcs : e.compaction = some cs) (hframe : OutputsFrame e.store store cs cs')
    (hjob : JobOk cfg.comparator e.current store cs') :
    ({ e with store := store, compaction := some cs' } : Engine).Faithful cfg := by
  have hok := h.toOk.advance hflush hcs hframe hjob
  have htables : ∀ i, ∀ f ∈ e.layout.version.files i,
      store.tables f.number = e.layout.tables f.number :=
    fun i _ hf => (h.compaction cs hcs).tables_eq h.numbers hframe i hf
  have hmove : Move cfg.comparator e.layout { e.layout with tables := store.tables }
      (fun _ => False) 0 [] := .of_tables htables
  have hentries : ∀ p, e.layout.Has p →
      ({ e.layout with tables := store.tables } : Layout).entries p = e.layout.entries p :=
    fun p hp => hmove.kept p hp id
  have hhas : ∀ p, ({ e.layout with tables := store.tables } : Layout).Has p ↔ e.layout.Has p :=
    fun p => by simpa using hmove.has_iff p
  refine ⟨hok, ?_, h.snapshots, h.last_lt, h.written_le, h.written_sorted, fun u s hs => ?_, h.flushAbove, ?_,
    ?_⟩
  · exact hmove.recent h.recent (by simp) (by simp) (by simp)
  · refine Eq.trans ?_ (h.reads u s hs)
    refine readAt_congr_mem (h.layout.distinct u s) fun a => ⟨hmove.mem_all h.layout hok.layout, ?_⟩
    intro ha
    obtain ⟨p, hp, hap⟩ := h.layout.mem_all.mp ha
    exact hok.layout.mem_all.mpr ⟨p, (hhas p).mpr hp, (hentries p hp).symm ▸ hap⟩
  · rintro _ ⟨rfl⟩
    rw [hframe.snapshot_eq]
    exact h.jobAbove cs hcs
  · rintro _ ⟨rfl⟩
    rw [hframe.compaction_eq]
    intro p hp hstay
    have hin : inputEntries cfg.comparator store.tables cs.compaction =
        inputEntries cfg.comparator e.layout.tables cs.compaction :=
      (h.compaction cs hcs).inputEntries_eq htables
    have hp := (hhas p).mp hp
    change Older cfg.comparator (inputEntries cfg.comparator store.tables cs.compaction)
      (({ e.layout with tables := store.tables } : Layout).entries p) ∨ _
    rw [hentries p hp, hin]
    exact h.jobRecent cs hcs p hp hstay

/-- Installing the outputs of a compaction changes no read. -/
theorem Engine.Faithful.install {cs : CompactionState} (hcs : e.compaction = some cs)
    (hb : cs.builder = none) (hin : cs.input = []) :
    ({ e with
      current := applyEdit cfg.comparator e.current cs.edit
      compaction := none } : Engine).Faithful cfg := by
  have hjob := h.compaction cs hcs
  have hrec := h.jobRecent cs hcs
  obtain ⟨habove, hsnap⟩ := h.jobAbove cs hcs
  refine ⟨h.toOk.install hflush hcs hb hin, ?_, h.snapshots, h.last_lt, h.written_le, h.written_sorted,
    fun u s hs => ?_, h.flushAbove, ?_, ?_⟩
  · exact recent_of_inputs (hjob.move (l := e.layout) h.layout rfl hb hin) h.recent hrec
  · exact (hjob.readAt_install (l := e.layout) h.layout rfl hb hin hrec hsnap
      (habove.le_of_sees hs)).trans (h.reads u s hs)
  · intro cs hcs
    cases hcs
  · intro cs hcs
    cases hcs

end

/-! ## Every run -/

/-- **Every step keeps reads right.** -/
theorem Engine.Faithful.step (h : e.Faithful cfg) (hgood : ReadsCondition cfg e a)
    (hstep : step cfg e a = some e') : e'.Faithful cfg := by
  cases stepsTo_of_step hstep with
  | write ops => exact h.write ops hgood.1 hgood.2
  | switchMemTable himm => exact h.switchMemTable himm
  | beginFlush _ _ _ => exact h.beginFlush
  | endFlush job mem hjob himm => exact h.endFlush hjob himm hgood
  | noCompaction _ => exact h
  | trivialMove req c hflush hidle hvalid hc htriv =>
    exact h.trivialMove hflush hidle hvalid hc htriv hgood _
  | startCompaction req c hflush _ hvalid hc => exact h.startCompaction hflush hvalid hc hgood _
  | compactEntry cs cs' store hflush hcs hr =>
    obtain ⟨hjob, hframe⟩ := (h.compaction cs hcs).compactEntry h.numbers hr
    exact h.advance hflush hcs hframe hjob
  | finishCompaction cs cs' store hflush hcs hin hr =>
    obtain ⟨hjob, hframe, hb, hin'⟩ := (h.compaction cs hcs).close h.numbers hr
    exact (h.advance hflush hcs hframe hjob).install hflush rfl hb (hin'.trans hin)
  | getSnapshot id => exact h.getSnapshot id
  | releaseSnapshot id => exact h.releaseSnapshot id

theorem Engine.Faithful.run {as : List Action} (h : e.Faithful cfg)
    (hgood : Along (RocketDb.step cfg) (ReadsCondition cfg) e as)
    (hrun : run (RocketDb.step cfg) e as = some e') : e'.Faithful cfg :=
  run_induction (fun _ _ _ h hgood hstep => h.step hgood hstep) h hgood hrun

theorem Readers.Sees.le {s : ℕ} (h : r.Sees s) (hr : r.Ok) : s ≤ r.lastSequence := by
  rcases h with rfl | ⟨a, ha, rfl⟩
  · exact le_rfl
  · exact hr.bounded a ha

theorem Engine.Faithful.dbGet_eq (h : e.Faithful cfg) (u : Slice) {s : ℕ}
    (hs : e.readers.Sees s) :
    dbGet cfg e u s = .ofOption (readAt cfg.comparator e.written u s) := by
  rw [dbGet_eq_readAt h.layout h.recent ((hs.le h.snapshots).trans h.last_le), h.reads u s hs]

end RocketDb
