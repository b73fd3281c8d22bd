import RocketDb.Engine.CompactionJob

/-! # The steps of the engine, inverted

**`StepsTo`** lists what a step of the engine can do, one constructor for each way, with the conditions
under which the engine does it. Every invariant is proved by cases on it. -/

namespace RocketDb

/-- The entries of the engine by place. -/
def Engine.layout (e : Engine) : Layout := ⟨e.mem, e.imm.getD [], e.current, e.store.tables⟩

/-- What a step does. -/
inductive StepsTo (cfg : Config) (e : Engine) : Action → Engine → Prop where
  | write (ops : List Op) : StepsTo cfg e (.write ops) (e.write cfg ops)
  | switchMemTable (himm : e.imm = none) : StepsTo cfg e .switchMemTable e.switchMemTable
  | beginFlush (mem : List Entry) (himm : e.imm = some mem) (hflush : e.flush = none) :
      StepsTo cfg e .beginFlush e.beginFlush
  | endFlush (job : FlushJob) (mem : List Entry) (hflush : e.flush = some job)
      (himm : e.imm = some mem) : StepsTo cfg e .endFlush (e.endFlush cfg job mem)
  | noCompaction (req : CompactionRequest) : StepsTo cfg e (.startCompaction req) e
  | trivialMove (req : CompactionRequest) (c : Compaction) (hflush : e.flush = none)
      (hidle : e.compaction = none) (hvalid : req.Valid e.current)
      (hc : req.compaction cfg.options cfg.comparator e.current e.compactPointer = some c)
      (htriv : c.isTrivialMove cfg.options = true) :
      StepsTo cfg e (.startCompaction req)
        { e with
          compactPointer := Function.update e.compactPointer c.level (some c.compactPointer)
          current := applyEdit cfg.comparator e.current c.moveEdit }
  | startCompaction (req : CompactionRequest) (c : Compaction) (hflush : e.flush = none)
      (hidle : e.compaction = none) (hvalid : req.Valid e.current)
      (hc : req.compaction cfg.options cfg.comparator e.current e.compactPointer = some c) :
      StepsTo cfg e (.startCompaction req)
        { e with
          compactPointer := Function.update e.compactPointer c.level (some c.compactPointer)
          compaction := some
            (.start cfg.comparator e.store.tables c e.readers.smallestSnapshot) }
  | compactEntry (cs cs' : CompactionState) (store : TableStore) (hflush : e.flush = none)
      (hcs : e.compaction = some cs)
      (hr : RocketDb.compactEntry cfg.options cfg.comparator cfg.sizes e.store cs =
        some (store, cs')) :
      StepsTo cfg e .compactEntry { e with store := store, compaction := some cs' }
  | finishCompaction (cs cs' : CompactionState) (store : TableStore) (hflush : e.flush = none)
      (hcs : e.compaction = some cs) (hin : cs.input = [])
      (hr : finishCompactionOutputFile cfg.sizes e.store cs = (store, cs')) :
      StepsTo cfg e .finishCompaction
        { e with
          store := store
          current := applyEdit cfg.comparator e.current cs'.edit
          compaction := none }
  | getSnapshot (id : ℕ) :
      StepsTo cfg e (.getSnapshot id) { e with readers := e.readers.getSnapshot id }
  | releaseSnapshot (id : ℕ) :
      StepsTo cfg e (.releaseSnapshot id) { e with readers := e.readers.releaseSnapshot id }

variable {cfg : Config} {e e' : Engine} {a : Action}

theorem Engine.startCompaction_stepsTo {req : CompactionRequest} {c : Compaction}
    (hflush : e.flush = none) (hidle : e.compaction = none) (hvalid : req.Valid e.current)
    (hc : req.compaction cfg.options cfg.comparator e.current e.compactPointer = some c) :
    StepsTo cfg e (.startCompaction req) (e.startCompaction cfg req c) := by
  unfold startCompaction
  cases req with
  | pick trigger =>
    by_cases htriv : c.isTrivialMove cfg.options = true
    · simp only [Bool.not_false, Bool.true_and, if_pos htriv]
      exact .trivialMove _ c hflush hidle hvalid hc htriv
    · simp only [Bool.not_false, Bool.true_and, if_neg htriv]
      exact .startCompaction _ c hflush hidle hvalid hc
  | range level b r =>
    simp only [Bool.not_true, Bool.false_and]
    exact .startCompaction _ c hflush hidle hvalid hc

/-- **Inversion.** A step of the engine is one of the listed ones. -/
theorem stepsTo_of_step (h : step cfg e a = some e') : StepsTo cfg e a e' := by
  unfold step at h
  cases a with
  | write ops =>
    cases h
    exact .write ops
  | switchMemTable =>
    simp only at h
    split_ifs at h with hguard
    cases h
    exact .switchMemTable hguard.1
  | beginFlush =>
    simp only at h
    split at h
    · cases h
      rename_i mem himm hflush _
      exact .beginFlush mem himm hflush
    · split_ifs at h
      cases h
      rename_i mem _ himm hflush _ _
      exact .beginFlush mem himm hflush
    · cases h
  | endFlush =>
    simp only at h
    split at h
    · cases h
      rename_i job mem hflush himm
      exact .endFlush job mem hflush himm
    · cases h
  | startCompaction req =>
    simp only at h
    split at h
    · rename_i _ hflush hidle
      split_ifs at h with hvalid
      cases hc : req.compaction cfg.options cfg.comparator e.current e.compactPointer with
      | none =>
        rw [hc] at h
        cases h
        exact .noCompaction req
      | some c =>
        grind [Engine.startCompaction_stepsTo]
    · cases h
  | compactEntry =>
    simp only at h
    split at h
    · rename_i cs hflush hcs
      cases hr : compactEntry cfg.options cfg.comparator cfg.sizes e.store cs with
      | none =>
        rw [hr] at h
        cases h
      | some r =>
        rw [hr] at h
        cases h
        exact .compactEntry cs r.2 r.1 hflush hcs hr
    · cases h
  | finishCompaction =>
    simp only at h
    split at h
    · rename_i cs hflush hcs
      split_ifs at h with hin
      cases h
      exact .finishCompaction cs _ _ hflush hcs hin rfl
    · cases h
  | getSnapshot id =>
    cases h
    exact .getSnapshot id
  | releaseSnapshot id =>
    cases h
    exact .releaseSnapshot id

end RocketDb
