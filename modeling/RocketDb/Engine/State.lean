import RocketDb.Compaction.Inputs
import RocketDb.Compaction.Work
import RocketDb.Flush.BuildTable
import RocketDb.Lib.Transition
import RocketDb.Version.Builder
import Mathlib.Data.List.Sort

/-! # The engine (`db/db_impl.cc`)

The state of an open database between two critical sections of its mutex, and the steps other threads can
observe. A flush may run in the middle of a compaction, as `DoCompactionWork` does when a memtable fills up. A
memtable is switched only when the previous one is flushed, and one background job runs at a time.

* **`step`** — one step; `none` when the engine would not take it now.
* **`dbGet`** — `DBImpl::Get`: the memtables, then the levels of the current version. -/

namespace RocketDb

/-! ## Batches and memtables -/

/-- One record of a write batch. -/
inductive Op where
  | put (key value : Slice)
  | delete (key : Slice)
  deriving DecidableEq, Repr

/-- The entry that `MemTableInserter` adds for a record. -/
def Op.entry (seq : ℕ) : Op → Entry
  | .put key value => .ofParts key seq .kTypeValue value
  | .delete key => .ofParts key seq .kTypeDeletion []

/-- The entries of a batch, with consecutive sequence numbers from `seq` on. -/
def batchEntries (seq : ℕ) : List Op → List Entry
  | [] => []
  | op :: ops => op.entry seq :: batchEntries (seq + 1) ops

/-- `MemTable::Add`: insertion into the skip list, which is in internal-key order. -/
def insertEntry (ucmp : Comparator) (e : Entry) : List Entry → List Entry
  | [] => [e]
  | x :: xs =>
    if internalCompare ucmp x.key e.key = .lt then x :: insertEntry ucmp e xs else e :: x :: xs

/-- `WriteBatchInternal::InsertInto`. -/
def insertInto (ucmp : Comparator) (mem : List Entry) (es : List Entry) : List Entry :=
  es.foldl (fun mem e => insertEntry ucmp e mem) mem

/-! ## The state -/

/-- What is fixed while the database is open. -/
structure Config where
  options : Options
  comparator : Comparator
  sizes : TableSizes

/-- A flush in progress: the number of its table, the version and the bound captured with the mutex
held. -/
structure FlushJob where
  number : ℕ
  base : Version
  smallestSnapshot : ℕ

/-- The engine. `written` records every write for the specification; no step reads it. -/
structure Engine where
  mem : List Entry
  imm : Option (List Entry)
  readers : Readers
  current : Version
  compactPointer : ℕ → Option InternalKey
  store : TableStore
  logfileNumber : ℕ
  logNumber : ℕ
  flush : Option FlushJob
  compaction : Option CompactionState
  written : List Entry

/-- An empty database. -/
def Engine.empty : Engine where
  mem := []
  imm := none
  readers := .fresh 0
  current := .empty
  compactPointer := fun _ => none
  store := ⟨4, fun _ => []⟩
  logfileNumber := 3
  logNumber := 3
  flush := none
  compaction := none
  written := []

/-- The steps of the engine. -/
inductive Action where
  | write (ops : List Op)
  | switchMemTable
  | beginFlush
  | endFlush
  | startCompaction (req : CompactionRequest)
  | compactEntry
  | finishCompaction
  | getSnapshot (id : ℕ)
  | releaseSnapshot (id : ℕ)

/-- `config::kLO_SlowdownWritesTrigger`: with this many files in level 0 no memtable is switched. -/
def kL0SlowdownWritesTrigger : ℕ := 8

/-! ## The steps -/

variable (cfg : Config)

/-- `DBImpl::Write` of a batch. -/
def Engine.write (e : Engine) (ops : List Op) : Engine :=
  let es := batchEntries (e.readers.lastSequence + 1) ops
  { e with
    mem := insertInto cfg.comparator e.mem es
    readers := e.readers.advance ops.length
    written := e.written ++ es }

/-- The memtable switch of `MakeRoomForWrite`, to a new log. -/
def Engine.switchMemTable (e : Engine) : Engine :=
  { e with
    mem := []
    imm := some e.mem
    store := e.store.allocate
    logfileNumber := e.store.nextFileNumber }

/-- The first half of `CompactMemTable` and `WriteLevel0Table`, up to the release of the mutex. -/
def Engine.beginFlush (e : Engine) : Engine :=
  { e with
    store := e.store.allocate
    flush := some ⟨e.store.nextFileNumber, e.current, e.readers.smallestSnapshot⟩ }

/-- The table that a flush of `mem` builds. -/
def FlushJob.output (job : FlushJob) (mem : List Entry) : FileMetaData × List Entry :=
  buildTable cfg.sizes (some ⟨cfg.comparator, job.smallestSnapshot⟩) job.number mem

/-- The level that `WriteLevel0Table` chooses for a table. -/
def FlushJob.level (job : FlushJob) (f : FileMetaData) : ℕ :=
  job.base.pickLevelForMemTableOutput cfg.options cfg.comparator f.smallest.userKey
    f.largest.userKey

/-- The edit of a flush: a table, unless the memtable was empty. -/
def FlushJob.edit (job : FlushJob) (mem : List Entry) : VersionEdit :=
  let f := (job.output cfg mem).1
  { newFiles := if 0 < f.fileSize then [(job.level cfg f, f)] else [] }

/-- The second half of `CompactMemTable`: choose the level, install, drop the memtable. -/
def Engine.endFlush (e : Engine) (job : FlushJob) (mem : List Entry) : Engine :=
  { e with
    imm := none
    store := e.store.write job.number (job.output cfg mem).2
    current := applyEdit cfg.comparator e.current (job.edit cfg mem)
    logNumber := e.logfileNumber
    flush := none }

/-- The edit of a trivial move. -/
def Compaction.moveEdit (c : Compaction) : VersionEdit where
  compactPointers := [(c.level, c.compactPointer)]
  deletedFiles := c.inputs0.map fun f => (c.level, f.number)
  newFiles := c.inputs0.map fun f => (c.level + 1, f)

/-- `BackgroundCompaction` with a compaction at hand: move the file, or start to work. -/
def Engine.startCompaction (e : Engine) (req : CompactionRequest) (c : Compaction) : Engine :=
  let manual : Bool := match req with
    | .pick _ => false
    | .range _ _ _ => true
  let e := { e with
    compactPointer := Function.update e.compactPointer c.level (some c.compactPointer) }
  if !manual && c.isTrivialMove cfg.options then
    { e with current := applyEdit cfg.comparator e.current c.moveEdit }
  else
    let cs := CompactionState.start cfg.comparator e.store.tables c e.readers.smallestSnapshot
    { e with compaction := some cs }

/-- `InstallCompactionResults`: delete the inputs, add the outputs to the next level. -/
def Compaction.edit (c : Compaction) (outputs : List FileMetaData) : VersionEdit where
  compactPointers := [(c.level, c.compactPointer)]
  deletedFiles :=
    c.inputs0.map (fun f => (c.level, f.number)) ++
      c.inputs1.map (fun f => (c.level + 1, f.number))
  newFiles := outputs.map fun f => (c.level + 1, f)

/-- The edit of a compaction with the outputs that were closed. -/
def CompactionState.edit (cs : CompactionState) : VersionEdit := cs.compaction.edit cs.outputs

/-- The end of `DoCompactionWork`: close the last output and install. -/
def Engine.finishCompaction (e : Engine) (cs : CompactionState) : Engine :=
  let (store, cs) := finishCompactionOutputFile cfg.sizes e.store cs
  { e with
    store := store
    current := applyEdit cfg.comparator e.current cs.edit
    compaction := none }

/-- **One step of the engine.** -/
def step (e : Engine) : Action → Option Engine
  | .write ops => some (e.write cfg ops)
  | .switchMemTable =>
    if e.imm = none ∧ (e.current.files 0).length < kL0SlowdownWritesTrigger then
      some e.switchMemTable
    else none
  | .beginFlush =>
    -- a compaction looks for a memtable to flush only before an entry
    match e.imm, e.flush, e.compaction with
    | some _, none, none => some e.beginFlush
    | some _, none, some cs => if cs.input = [] then none else some e.beginFlush
    | _, _, _ => none
  | .endFlush =>
    match e.flush, e.imm with
    | some job, some mem => some (e.endFlush cfg job mem)
    | _, _ => none
  | .startCompaction req =>
    match e.imm, e.flush, e.compaction with
    | none, none, none =>
      if req.Valid e.current then
        match req.compaction cfg.options cfg.comparator e.current e.compactPointer with
        | none => some e
        | some c => some (e.startCompaction cfg req c)
      else none
    | _, _, _ => none
  | .compactEntry =>
    match e.flush, e.compaction with
    | none, some cs =>
      match RocketDb.compactEntry cfg.options cfg.comparator cfg.sizes e.store cs with
      | none => none
      | some (store, cs) => some { e with store := store, compaction := some cs }
    | _, _ => none
  | .finishCompaction =>
    match e.flush, e.compaction with
    | none, some cs => if cs.input = [] then some (e.finishCompaction cfg cs) else none
    | _, _ => none
  | .getSnapshot id => some { e with readers := e.readers.getSnapshot id }
  | .releaseSnapshot id => some { e with readers := e.readers.releaseSnapshot id }

/-! ## Reading -/

/-- The files of level 0 that cover the key, newest first. -/
def level0Files (ucmp : Comparator) (v : Version) (userKey : Slice) : List FileMetaData :=
  ((v.files 0).filter (FileMetaData.covers ucmp userKey)).insertionSort fun a b => b.number ≤ a.number

/-- The file of a deeper level that the binary search finds, unless all of it is past the key. -/
def deepFile (ucmp : Comparator) (v : Version) (userKey : Slice) (internalKey : InternalKey) (level : ℕ) :
    List FileMetaData :=
  match (v.files level)[findFile ucmp (v.files level) internalKey]? with
  | none => []
  | some f => if ucmp.compare userKey f.smallest.userKey = .lt then [] else [f]

/-- What `ForEachOverlapping` calls `func` with: the files of level 0, then at most one of each deeper
level. -/
def overlappingFiles (ucmp : Comparator) (v : Version) (userKey : Slice) (internalKey : InternalKey) :
    List (ℕ × FileMetaData) :=
  (level0Files ucmp v userKey).map (fun f => (0, f)) ++
    ((List.range kNumLevels).drop 1).flatMap fun level =>
      (deepFile ucmp v userKey internalKey level).map fun f => (level, f)

/-- The files `ForEachOverlapping` visits. -/
def forEachOverlapping (ucmp : Comparator) (v : Version) (userKey : Slice)
    (internalKey : InternalKey) : List FileMetaData :=
  (overlappingFiles ucmp v userKey internalKey).map Prod.snd

/-- The search of `Version::Get` stops at the first file that knows the key. -/
def searchFiles (ucmp : Comparator) (tables : ℕ → List Entry) (userKey : Slice) (s : ℕ) :
    List FileMetaData → SaverState
  | [] => .kNotFound
  | f :: files =>
    match lookupEntries ucmp userKey s (tables f.number) with
    | .kNotFound => searchFiles ucmp tables userKey s files
    | r => r

/-- **`Version::Get`**. -/
def versionGet (ucmp : Comparator) (v : Version) (tables : ℕ → List Entry) (userKey : Slice)
    (s : ℕ) : SaverState :=
  searchFiles ucmp tables userKey s (forEachOverlapping ucmp v userKey (lookupKey userKey s))

/-- The answer of a read. -/
inductive GetResult where
  | found (value : Slice)
  | notFound
  | corruption
  deriving DecidableEq, Repr

/-- The status of `Version::Get`. -/
def SaverState.result : SaverState → GetResult
  | .kFound value => .found value
  | .kNotFound => .notFound
  | .kDeleted => .notFound
  | .kCorrupt => .corruption

/-- A value or its absence. -/
def GetResult.ofOption : Option Slice → GetResult
  | some value => .found value
  | none => .notFound

/-- **`DBImpl::Get`** at sequence number `s`. -/
def dbGet (e : Engine) (userKey : Slice) (s : ℕ) : GetResult :=
  match memTableGet cfg.comparator userKey s e.mem with
  | some r => .ofOption r
  | none =>
    match e.imm.bind (memTableGet cfg.comparator userKey s) with
    | some r => .ofOption r
    | none => (versionGet cfg.comparator e.current e.store.tables userKey s).result

end RocketDb
