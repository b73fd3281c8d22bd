import RocketDb.Version.Replay

/-! # The files of a database and their numbers

Logs, tables and MANIFESTs are numbered from one counter, `next_file_number_`. The MANIFEST records it with
every edit, so after a restart the counter starts from a stale value and is moved past the logs that are
found. Which files are needed is spread over the versions in use, `pending_outputs_`, and two watermarks.

* **`DbFiles.step`** — one step of `DB::Open`, of a writer, of the background thread or of a reader, with the
  outcome of its file operations; or the end of the process.
* **`FileSession.obsoleteFiles`** — what `RemoveObsoleteFiles` deletes. -/

namespace RocketDb

/-! ## The directory -/

/-- A file of the database directory. -/
inductive DbFile where
  | log (number : ℕ)
  | table (number : ℕ)
  | descriptor (number : ℕ)
  deriving DecidableEq, Repr

/-- The database directory. -/
structure FileDirectory where
  files : List DbFile
  /-- The records that a reader finds in each MANIFEST. -/
  records : ℕ → List VersionEdit
  /-- The number of the MANIFEST that CURRENT names. -/
  current : ℕ

/-- The directory after `NewDB`. -/
def FileDirectory.newDB : FileDirectory where
  files := [.descriptor 1]
  records := fun n =>
    if n = 1 then [{ logNumber := some 0, nextFileNumber := some 2, lastSequence := some 0 }]
    else []
  current := 1

/-- The numbers of the logs. -/
def FileDirectory.logs (dir : FileDirectory) : List ℕ :=
  dir.files.filterMap fun
    | .log n => some n
    | _ => none

/-- Create a file. -/
def FileDirectory.create (dir : FileDirectory) (file : DbFile) : FileDirectory :=
  { dir with files := file :: dir.files.filter (· ≠ file) }

/-- Remove a file. -/
def FileDirectory.remove (dir : FileDirectory) (file : DbFile) : FileDirectory :=
  { dir with files := dir.files.filter (· ≠ file) }

/-! ## An open database -/

/-- A `Version` in the list of the version set. -/
structure LiveVersion where
  id : ℕ
  version : Version
  refs : ℕ
  /-- How many of the references are those of `Get`s and iterators. -/
  readers : ℕ

/-- A compaction: its input version and files, and the numbers of its outputs. -/
structure CompactionFiles where
  inputVersion : ℕ
  level : ℕ
  inputs : List (ℕ × FileMetaData)
  outputs : List ℕ

/-- Who calls `LogAndApply`. -/
inductive ApplyCaller where
  | opening
  | flush
  | compaction
  deriving DecidableEq, Repr

/-- A `LogAndApply` that has released the mutex. -/
structure Applying where
  edit : VersionEdit
  caller : ApplyCaller

/-- `DB::Open` in the course of `DBImpl::Recover`. -/
structure Opening where
  /-- The logs that are still to be replayed. -/
  logs : List ℕ
  /-- `RecoverLogFile` has flushed a memtable of the first of them. -/
  flushed : Bool
  newFiles : List (ℕ × FileMetaData)
  saveManifest : Bool
  reuseLogs : Bool

/-- A database that is open or about to be. -/
structure FileSession where
  nextFileNumber : ℕ
  manifestFileNumber : ℕ
  logNumber : ℕ
  /-- `descriptor_log_` is there. -/
  descriptor : Bool
  /-- The versions before the current one in the list of the version set. -/
  older : List LiveVersion
  current : LiveVersion
  logfileNumber : Option ℕ
  imm : Bool
  pendingOutputs : List ℕ
  /-- The number of the table that `WriteLevel0Table` builds. -/
  building : Option ℕ
  compaction : Option CompactionFiles
  applying : Option Applying
  /-- The files that `RemoveObsoleteFiles` has still to delete. -/
  deleting : List DbFile
  opening : Option Opening
  bgError : Bool

/-- The directory, and the database if there is a process. -/
structure DbFiles where
  dir : FileDirectory
  session : Option FileSession

/-- A new database, not opened yet. -/
def DbFiles.newDB : DbFiles := ⟨.newDB, none⟩

namespace FileSession

/-! ## Numbers -/

/-- `NewFileNumber`, for the counter. -/
def newFileNumber (s : FileSession) : FileSession :=
  { s with nextFileNumber := s.nextFileNumber + 1 }

/-- `ReuseFileNumber`. -/
def reuseFileNumber (s : FileSession) (number : ℕ) : FileSession :=
  if s.nextFileNumber = number + 1 then { s with nextFileNumber := number } else s

/-- `MarkFileNumberUsed`. -/
def markFileNumberUsed (s : FileSession) (number : ℕ) : FileSession :=
  if s.nextFileNumber ≤ number then { s with nextFileNumber := number + 1 } else s

/-! ## Versions -/

/-- The list of the version set. -/
def versions (s : FileSession) : List LiveVersion := s.older ++ [s.current]

/-- `Unref` of a version. One that nobody refers to any more is unlinked. -/
def unref (s : FileSession) (id : ℕ) : FileSession :=
  if id = s.current.id then
    { s with current := { s.current with refs := s.current.refs - 1 } }
  else
    { s with
      older := (s.older.map fun v => if v.id = id then { v with refs := v.refs - 1 } else v).filter
        fun v => v.refs ≠ 0 }

/-- `AppendVersion`. -/
def appendVersion (s : FileSession) (v : Version) : FileSession :=
  let old := { s.current with refs := s.current.refs - 1 }
  { s with
    older := if old.refs = 0 then s.older else s.older ++ [old]
    current := ⟨s.current.id + 1, v, 1, 0⟩ }

/-! ## `LogAndApply` -/

/-- The edit with the numbers that `LogAndApply` adds. -/
def complete (s : FileSession) (edit : VersionEdit) : VersionEdit :=
  { edit with
    logNumber := some (edit.logNumber.getD s.logNumber)
    nextFileNumber := some s.nextFileNumber }

/-- `LogAndApply` up to the release of the mutex. -/
def beginApply (s : FileSession) (caller : ApplyCaller) (edit : VersionEdit) : FileSession :=
  { s with applying := some ⟨s.complete edit, caller⟩ }

/-- `WriteSnapshot`. -/
def snapshot (s : FileSession) : VersionEdit := { newFiles := s.current.version.listing }

/-- The MANIFEST with a record more. A new one starts with a snapshot, and CURRENT names it then. -/
def recordEdit (s : FileSession) (dir : FileDirectory) (edit : VersionEdit) : FileDirectory :=
  let n := s.manifestFileNumber
  if s.descriptor then
    { dir with records := Function.update dir.records n (dir.records n ++ [edit]) }
  else
    { dir.create (.descriptor n) with
      records := Function.update dir.records n [s.snapshot, edit]
      current := n }

end FileSession

/-- How a `LogAndApply` ends: what it returns, and whether a reader finds the edit in the MANIFEST.
An edit that failed may be there, and one that did not may be out of reach behind a torn record. -/
structure ApplyResult where
  ok : Bool
  recorded : Bool
  deriving DecidableEq, Repr

namespace FileSession

variable (ucmp : Comparator)

/-- What the caller of `LogAndApply` does after a success. -/
def afterApply (s : FileSession) : ApplyCaller → FileSession
  | .opening => { s with opening := none }
  | .flush => { s with imm := false }
  | .compaction =>
    match s.compaction with
    | none => s
    | some c =>
      { s.unref c.inputVersion with
        pendingOutputs := s.pendingOutputs.filter (· ∉ c.outputs)
        compaction := none }

/-- What the caller of `LogAndApply` does after a failure. -/
def afterFailure (s : FileSession) (caller : ApplyCaller) : FileSession :=
  { (if caller = .compaction then s.afterApply .compaction else s) with bgError := true }

/-- The second half of `LogAndApply`, with what follows. A failed `DB::Open` is the end of the
session. -/
def endApply (s : FileSession) (dir : FileDirectory) (a : Applying) (result : ApplyResult) :
    DbFiles :=
  let idle := { s with applying := none }
  if result.ok then
    let installed := { idle.appendVersion (applyEdit ucmp s.current.version a.edit) with
      logNumber := a.edit.logNumber.getD 0
      descriptor := true }
    ⟨if result.recorded || !s.descriptor then s.recordEdit dir a.edit else dir,
      some (installed.afterApply a.caller)⟩
  else
    ⟨if result.recorded && s.descriptor then s.recordEdit dir a.edit else dir,
      if a.caller = .opening then none else some (idle.afterFailure a.caller)⟩

/-! ## Garbage collection -/

/-- The tables in use: `pending_outputs_` and `AddLiveFiles`. -/
def liveTables (s : FileSession) : List ℕ :=
  s.pendingOutputs ++ s.versions.flatMap fun v => v.version.listing.map fun f => f.2.number

/-- `RemoveObsoleteFiles` keeps the file. -/
def keeps (s : FileSession) : DbFile → Bool
  | .log n => s.logNumber ≤ n
  | .table n => n ∈ s.liveTables
  | .descriptor n => s.manifestFileNumber ≤ n

/-- The files that `RemoveObsoleteFiles` finds to delete. -/
def obsoleteFiles (s : FileSession) (dir : FileDirectory) : List DbFile :=
  dir.files.filter fun f => !s.keeps f

end FileSession

/-! ## The steps -/

/-- The steps of a database. -/
inductive FileAction where
  /-- `VersionSet::Recover`, and which logs `DBImpl::Recover` has to replay. -/
  | recover (reuseLogs reusesManifest : Bool)
  /-- `WriteLevel0Table` takes a number, in `RecoverLogFile` or in `CompactMemTable`. -/
  | beginTable
  /-- The table is built; `none` if there was nothing to write. In `CompactMemTable` this is also
  the beginning of `LogAndApply`. -/
  | endTable (table : Option (ℕ × FileMetaData))
  /-- `BuildTable` fails in `CompactMemTable`. -/
  | failTable
  /-- `RecoverLogFile` returns, and may have taken the log over. -/
  | endRecoverLog (reuse : Bool)
  /-- `DB::Open` creates a log. -/
  | newLog
  /-- `DB::Open` goes on to `LogAndApply`. -/
  | saveManifest
  /-- `DB::Open` returns without `LogAndApply`. -/
  | endOpen
  /-- The switch of `MakeRoomForWrite`, and whether the new log can be created. -/
  | switchLog (created : Bool)
  /-- `PickCompaction` or `CompactRange`. -/
  | startCompaction (level : ℕ) (inputs : List (ℕ × FileMetaData))
  /-- `OpenCompactionOutputFile`. -/
  | openOutput
  /-- `InstallCompactionResults`. -/
  | installCompaction (outputs : List FileMetaData)
  /-- The file of a trivial move goes to the next level. -/
  | trivialMove
  /-- The compaction fails before `LogAndApply`. -/
  | failCompaction
  | endApply (result : ApplyResult)
  /-- A `Get` or an iterator takes a reference of the current version. -/
  | ref
  /-- A reader gives its reference back. -/
  | unref (id : ℕ)
  /-- `RemoveObsoleteFiles` decides what to delete. -/
  | removeObsoleteFiles
  /-- It calls `RemoveFile`, which may fail. -/
  | removeFile (removed : Bool)
  /-- The process stops, or `DB::Open` fails; and whether an edit that was being written is in the
  MANIFEST. -/
  | crash (recorded : Bool)

namespace FileSession

/-- The background thread, or `DB::Open`, is not in the middle of something. -/
def Idle (s : FileSession) : Prop :=
  s.building = none ∧ s.applying.isNone ∧ s.deleting = []

instance decidableIdle (s : FileSession) : Decidable s.Idle :=
  inferInstanceAs (Decidable (_ ∧ _ ∧ _))

/-- `NewFileNumber` for a table, which goes to `pending_outputs_`. -/
def newTable (s : FileSession) : FileSession :=
  { s.newFileNumber with pendingOutputs := s.nextFileNumber :: s.pendingOutputs }

/-- The end of `WriteLevel0Table`. -/
def endTable (s : FileSession) (number : ℕ) : FileSession :=
  { s with building := none, pendingOutputs := s.pendingOutputs.filter (· ≠ number) }

/-- The edit of `CompactMemTable`. -/
def flushEdit (s : FileSession) (table : Option (ℕ × FileMetaData)) : VersionEdit where
  logNumber := s.logfileNumber
  prevLogNumber := some 0
  newFiles := table.toList

end FileSession

/-- The edit of a compaction: the inputs go, the outputs come. -/
def CompactionFiles.edit (c : CompactionFiles) (outputs : List FileMetaData) : VersionEdit where
  deletedFiles := c.inputs.map fun f => (f.1, f.2.number)
  newFiles := outputs.map fun f => (c.level + 1, f)

variable (ucmp : Comparator)

/-- **`VersionSet::Recover`** and the choice of logs in `DBImpl::Recover`. -/
def FileDirectory.recover (dir : FileDirectory) (reuseLogs reusesManifest : Bool) :
    Option FileSession :=
  let records := dir.records dir.current
  match lastSet VersionEdit.nextFileNumber none records,
    lastSet VersionEdit.logNumber none records with
  | some nextFile, some logNumber =>
    let reuse := reuseLogs && reusesManifest
    some
      { nextFileNumber := nextFile + 1
        manifestFileNumber := if reuse then dir.current else nextFile
        logNumber := logNumber
        descriptor := reuse
        older := []
        current := ⟨0, builderSaveTo ucmp .empty (builderOf ucmp records), 1, 0⟩
        logfileNumber := none
        imm := false
        pendingOutputs := []
        building := none
        compaction := none
        applying := none
        deleting := []
        opening := some
          { logs := (dir.logs.filter (logNumber ≤ ·)).insertionSort (· ≤ ·)
            flushed := false
            newFiles := []
            saveManifest := !reuse
            reuseLogs := reuseLogs }
        bgError := false }
  | _, _ => none

namespace FileSession

/-! ### `DB::Open` -/

/-- A table is built while a log is replayed. -/
def endRecoveryTable (s : FileSession) (o : Opening) (number : ℕ)
    (table : Option (ℕ × FileMetaData)) : FileSession :=
  { s.endTable number with
    opening := some { o with
      flushed := true
      newFiles := o.newFiles ++ table.toList.map fun f => (0, f.2)
      saveManifest := true } }

/-- `RecoverLogFile` is through with log `n`. -/
def endRecoverLog (s : FileSession) (o : Opening) (n : ℕ) (logs : List ℕ) (reuse : Bool) :
    FileSession :=
  { s.markFileNumberUsed n with
    logfileNumber := if reuse then some n else s.logfileNumber
    opening := some { o with logs := logs, flushed := false } }

/-- The steps of `DB::Open`. -/
def openStep (s : FileSession) (dir : FileDirectory) (o : Opening) :
    FileAction → Option (FileDirectory × FileSession)
  | .beginTable =>
    if o.logs ≠ [] ∧ s.Idle then
      some (dir.create (.table s.nextFileNumber), { s.newTable with building := s.nextFileNumber })
    else none
  | .endTable table =>
    match s.building with
    | some n =>
      if table.all fun f => f.2.number = n then some (dir, s.endRecoveryTable o n table) else none
    | none => none
  | .endRecoverLog reuse =>
    match o.logs with
    | n :: logs =>
      if s.Idle ∧ (reuse → o.reuseLogs ∧ logs = [] ∧ o.flushed = false) then
        some (dir, s.endRecoverLog o n logs reuse)
      else none
    | [] => none
  | .newLog =>
    if o.logs = [] ∧ s.logfileNumber = none then
      some (dir.create (.log s.nextFileNumber),
        { s.newFileNumber with logfileNumber := s.nextFileNumber })
    else none
  | .saveManifest =>
    if o.logs = [] ∧ s.logfileNumber.isSome ∧ o.saveManifest ∧ s.Idle then
      some (dir, s.beginApply .opening
        { logNumber := s.logfileNumber, prevLogNumber := some 0, newFiles := o.newFiles })
    else none
  | .endOpen =>
    if o.logs = [] ∧ s.logfileNumber.isSome ∧ o.saveManifest = false ∧ s.Idle then
      some (dir, { s with opening := none })
    else none
  | _ => none

/-! ### The open database -/

/-- The background thread is done with its compaction. -/
def failCompaction (s : FileSession) : FileSession := s.afterFailure .compaction

/-- A reader gives its reference back. -/
def readerUnref (s : FileSession) (id : ℕ) : FileSession :=
  let give (v : LiveVersion) := if v.id = id then { v with readers := v.readers - 1 } else v
  unref { s with older := s.older.map give, current := give s.current } id

/-- The steps of an open database. -/
def runStep (s : FileSession) (dir : FileDirectory) :
    FileAction → Option (FileDirectory × FileSession)
  | .switchLog created =>
    if s.imm = false then
      let n := s.nextFileNumber
      if created then
        some (dir.create (.log n), { s.newFileNumber with logfileNumber := some n, imm := true })
      else some (dir, s.newFileNumber.reuseFileNumber n)
    else none
  | .beginTable =>
    if s.imm ∧ s.Idle then
      some (dir.create (.table s.nextFileNumber), { s.newTable with building := s.nextFileNumber })
    else none
  | .endTable table =>
    match s.building with
    | some n =>
      if table.all fun f => f.2.number = n then
        some (dir, (s.endTable n).beginApply .flush (s.flushEdit table))
      else none
    | none => none
  | .failTable =>
    match s.building with
    | some n => some (dir.remove (.table n), { s.endTable n with bgError := true })
    | none => none
  | .startCompaction level inputs =>
    if s.compaction.isNone ∧ s.bgError = false ∧ s.Idle ∧
        ∀ f ∈ inputs, f ∈ s.current.version.listing then
      some (dir,
        { s with
          current := { s.current with refs := s.current.refs + 1 }
          compaction := some ⟨s.current.id, level, inputs, []⟩ })
    else none
  | .openOutput =>
    match s.compaction with
    | some c =>
      if s.Idle then
        some (dir.create (.table s.nextFileNumber),
          { s.newTable with
            compaction := some { c with outputs := c.outputs ++ [s.nextFileNumber] } })
      else none
    | none => none
  | .installCompaction outputs =>
    match s.compaction with
    | some c =>
      if s.Idle ∧ outputs.map FileMetaData.number = c.outputs then
        some (dir, s.beginApply .compaction (c.edit outputs))
      else none
    | none => none
  | .trivialMove =>
    match s.compaction with
    | some c =>
      if s.Idle ∧ c.outputs = [] then
        some (dir, s.beginApply .compaction (c.edit (c.inputs.map Prod.snd)))
      else none
    | none => none
  | .failCompaction =>
    if s.compaction.isSome ∧ s.Idle then some (dir, s.failCompaction) else none
  | .removeObsoleteFiles =>
    if s.Idle ∧ s.bgError = false then some (dir, { s with deleting := s.obsoleteFiles dir })
    else none
  | .removeFile removed =>
    match s.deleting with
    | f :: fs => some (if removed then dir.remove f else dir, { s with deleting := fs })
    | [] => none
  | .ref =>
    some (dir,
      { s with
        current := { s.current with
          refs := s.current.refs + 1
          readers := s.current.readers + 1 } })
  | .unref id =>
    if ∃ v ∈ s.versions, v.id = id ∧ 0 < v.readers then some (dir, s.readerUnref id) else none
  | _ => none

/-- The steps that only need the session and its directory. -/
def sessionStep (s : FileSession) (dir : FileDirectory) (a : FileAction) :
    Option (FileDirectory × FileSession) :=
  match s.opening with
  | some o => s.openStep dir o a
  | none => s.runStep dir a

/-- The steps of a session. -/
def step (s : FileSession) (dir : FileDirectory) : FileAction → Option DbFiles
  | .crash recorded =>
    match s.applying with
    | some a => some ⟨if recorded then s.recordEdit dir a.edit else dir, none⟩
    | none => some ⟨dir, none⟩
  | .endApply result =>
    match s.applying with
    | some a => some (s.endApply ucmp dir a result)
    | none => none
  | a => (s.sessionStep dir a).map fun r => ⟨r.1, some r.2⟩

end FileSession

/-- **One step of a database.** -/
def DbFiles.step (db : DbFiles) (a : FileAction) : Option DbFiles :=
  match db.session with
  | some s => s.step ucmp db.dir a
  | none =>
    match a with
    | .recover reuseLogs reusesManifest =>
      (db.dir.recover ucmp reuseLogs reusesManifest).map fun s => ⟨db.dir, some s⟩
    | _ => none

end RocketDb
