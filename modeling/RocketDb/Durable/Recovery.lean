import RocketDb.Version.Recover
import RocketDb.Wal.Reuse
import RocketDb.Write.Batch

/-! # Opening a database (`DBImpl::Recover`, `DB::Open`)

`Recover` takes the version and the numbers from the MANIFEST, replays the logs that may be newer in the order
of their numbers, and flushes what it reads to level 0. With `reuse_logs` it continues the last log, and may
leave the MANIFEST as it is.

* **`recoverLogFile`** — one log: the batches go to a memtable, which is flushed when it is full.
* **`Disk.openWith`** — `DB::Open`: the open database, or what is left on disk if it fails.

The MANIFEST is represented by what replaying it gives. -/

namespace RocketDb

open Log

/-! ## The disk -/

/-- What replaying a MANIFEST gives. -/
structure ManifestRecord where
  version : Version
  compactPointer : ℕ → Option InternalKey
  logNumber : ℕ
  nextFile : ℕ
  lastSequence : ℕ

/-- A MANIFEST with one more edit, which `LogAndApply` completes by the numbers. -/
def ManifestRecord.append (ucmp : Comparator) (m : ManifestRecord) (edit : VersionEdit)
    (logNumber nextFile lastSequence : ℕ) : ManifestRecord where
  version := applyEdit ucmp m.version edit
  compactPointer := applyCompactPointers m.compactPointer edit
  logNumber := logNumber
  nextFile := nextFile
  lastSequence := lastSequence

/-- A log file. -/
structure LogFile where
  number : ℕ
  contents : Slice

/-- What a crash leaves. `written` records the writes that are in a log or a table for the
specification; no step reads it. -/
structure Disk where
  manifest : ManifestRecord
  logs : List LogFile
  tables : ℕ → List Entry
  written : List Entry

/-- Create or overwrite a log. -/
def setLog (logs : List LogFile) (number : ℕ) (contents : Slice) : List LogFile :=
  ⟨number, contents⟩ :: logs.filter fun f => f.number != number

/-! ## Options and faults -/

/-- The options that recovery reads. -/
structure DbOptions where
  paranoidChecks : Bool
  reuseLogs : Bool
  writeBufferSize : ℕ
  /-- `ApproximateMemoryUsage` of a memtable, by its entries. -/
  memoryUsage : List Entry → ℕ

/-- What the environment does during `DB::Open`. -/
structure OpenEnv where
  /-- The failing reads of each log, `none` if it cannot be opened. -/
  reads : ℕ → Option (List (Option Status)) := fun _ => some []
  /-- The last log can be opened for appending. -/
  appends : Bool := true
  /-- `ReuseManifest` succeeds, provided `reuse_logs` is set. -/
  reusesManifest : Bool := true
  /-- An error, or the end of the process, before `DB::Open` is done; and whether the MANIFEST has got
  its edit by then. -/
  fails : Option Bool := none

/-- `DBImpl::MaybeIgnoreError`. -/
def DbOptions.maybeIgnoreError (opts : DbOptions) (s : Status) : Status :=
  if s.isOk || opts.paranoidChecks then s else .ok

/-! ## One log -/

/-- The database in the course of `Recover`. -/
structure Recovering where
  status : Status
  store : TableStore
  newFiles : List (ℕ × FileMetaData)
  maxSequence : ℕ
  saveManifest : Bool
  /-- `mem_`, `logfile_number_` and `log_`, once a log is continued. -/
  reused : Option (List Entry × ℕ × Writer)

/-- The variables of `RecoverLogFile`. -/
structure LogRecovery where
  db : Recovering
  mem : Option (List Entry)
  compactions : ℕ

variable (cfg : Config) (opts : DbOptions)

/-- `WriteLevel0Table` without a base version: the table goes to level 0. -/
def Recovering.writeLevel0Table (r : Recovering) (mem : List Entry) : Recovering :=
  let number := r.store.nextFileNumber
  let (f, entries) := buildTable cfg.sizes none number mem
  { r with
    store := r.store.allocate.write number entries
    newFiles := if 0 < f.fileSize then r.newFiles ++ [(0, f)] else r.newFiles
    saveManifest := true }

/-- `LogReporter::Corruption`: the first error stays; it counts only with `paranoid_checks`. -/
def LogRecovery.report (st : LogRecovery) (reason : Status) : LogRecovery :=
  if opts.paranoidChecks && st.db.status.isOk then { st with db := { st.db with status := reason } }
  else st

/-- The last sequence number of a batch, computed from its header. `Count` is an `int`, so it is
sign-extended. -/
def WriteBatch.lastSequence (b : WriteBatch) : ℕ :=
  (b.sequence + b.count.toInt32.toInt64.toUInt64 - 1).toNat

/-- The body of the loop for a record. -/
def LogRecovery.record (st : LogRecovery) (record : Slice) : LogRecovery :=
  if record.length < kBatchHeader then
    st.report opts (.corruption (ascii "log record too small") [])
  else
    let batch : WriteBatch := ⟨record⟩
    let (status, mem) := batch.insertInto cfg.comparator (st.mem.getD [])
    let status := opts.maybeIgnoreError status
    if status.isOk then
      let db := { st.db with maxSequence := max st.db.maxSequence batch.lastSequence }
      if opts.writeBufferSize < opts.memoryUsage mem then
        ⟨db.writeLevel0Table cfg mem, none, st.compactions + 1⟩
      else ⟨db, some mem, st.compactions⟩
    else ⟨{ st.db with status := status }, some mem, st.compactions⟩

/-- The loop over the records, each with the reports that come before it. -/
def LogRecovery.records (st : LogRecovery) : List (List Status × Slice) → LogRecovery
  | [] => st
  | x :: records =>
    let st := x.1.foldl (LogRecovery.report opts) st
    if st.db.status.isOk then (st.record cfg opts x.2).records records else st

/-- The error of `NewSequentialFile`. -/
def cannotOpen : Status := .error .kIOError (ascii "cannot open")

/-- **`RecoverLogFile`**. -/
def recoverLogFile (env : OpenEnv) (file : LogFile) (lastLog : Bool) (r : Recovering) :
    Option Recovering :=
  match env.reads file.number with
  | none => some { r with status := opts.maybeIgnoreError cannotOpen }
  | some faults =>
    ((Reader.new ⟨file.contents, faults⟩ true 0).events (file.contents.length + 1)).map fun ev =>
      let st := LogRecovery.records cfg opts ⟨r, none, 0⟩ ev.records
      let st := ev.trailing.foldl (LogRecovery.report opts) st
      if st.db.status.isOk then
        if opts.reuseLogs && lastLog && st.compactions == 0 && env.appends then
          { st.db with reused := some (st.mem.getD [], file.number,
              Writer.reuse (appendable file.contents) file.contents.length) }
        else
          match st.mem with
          | some mem => st.db.writeLevel0Table cfg mem
          | none => st.db
      else st.db

/-! ## All of them -/

/-- `MarkFileNumberUsed`. -/
def TableStore.markFileNumberUsed (store : TableStore) (number : ℕ) : TableStore :=
  if store.nextFileNumber ≤ number then { store with nextFileNumber := number + 1 } else store

/-- The loop of `DBImpl::Recover` over the logs. -/
def recoverLogs (env : OpenEnv) (r : Recovering) : List LogFile → Option Recovering
  | [] => some r
  | file :: files =>
    (recoverLogFile cfg opts env file files.isEmpty r).bind fun r =>
      if r.status.isOk then
        recoverLogs env { r with store := r.store.markFileNumberUsed file.number } files
      else some r

/-- The logs that `Recover` replays, in the order of their numbers. -/
def Disk.replayed (disk : Disk) : List LogFile :=
  (disk.logs.filter fun f => disk.manifest.logNumber ≤ f.number).insertionSort
    fun a b => a.number ≤ b.number

/-- `DBImpl::Recover`, after `VersionSet::Recover`. -/
def Disk.recover (disk : Disk) (env : OpenEnv) : Option Recovering :=
  recoverLogs cfg opts env
    { status := .ok
      store := ⟨disk.manifest.nextFile + 1, disk.tables⟩
      newFiles := []
      maxSequence := 0
      saveManifest := !(opts.reuseLogs && env.reusesManifest)
      reused := none } disk.replayed

/-! ## `DB::Open` -/

/-- The database with a log to write to: the one that is continued, or a new one. -/
def Recovering.memAndLog (r : Recovering) : TableStore × List Entry × ℕ × Writer :=
  match r.reused with
  | some (mem, number, log) => (r.store, mem, number, log)
  | none => (r.store.allocate, [], r.store.nextFileNumber, Writer.new ⟨[], 0, []⟩)

/-- What `DB::Open` comes to: the disk, and the engine with its log unless it fails. -/
structure Opened where
  disk : Disk
  open? : Option (Engine × Writer)

/-- `DB::Open` once `Recover` has returned. -/
def Disk.finishOpen (disk : Disk) (env : OpenEnv) (r : Recovering) : Opened :=
  let (store, mem, number, log) := r.memAndLog
  let lastSequence := max disk.manifest.lastSequence r.maxSequence
  let manifest :=
    if r.saveManifest then
      disk.manifest.append cfg.comparator { newFiles := r.newFiles } number store.nextFileNumber
        lastSequence
    else disk.manifest
  let left : Disk :=
    { disk with
      logs := if r.reused.isSome then disk.logs else setLog disk.logs number []
      tables := store.tables }
  if r.status.isOk then
    match env.fails with
    | some recorded =>
      ⟨if recorded then { left with manifest := manifest } else left, none⟩
    | none =>
      ⟨{ left with manifest := manifest },
        some ({ mem := mem
                imm := none
                readers := .fresh lastSequence
                current := manifest.version
                compactPointer := manifest.compactPointer
                store := store
                logfileNumber := number
                logNumber := manifest.logNumber
                flush := none
                compaction := none
                written := disk.written }, log)⟩
  else ⟨{ disk with tables := r.store.tables }, none⟩

/-- **`DB::Open`**. -/
def Disk.openWith (disk : Disk) (env : OpenEnv) : Option Opened :=
  (disk.recover cfg opts env).map (disk.finishOpen cfg env)

end RocketDb
