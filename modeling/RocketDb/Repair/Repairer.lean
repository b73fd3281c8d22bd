import RocketDb.Durable.Recovery
import RocketDb.Version.FileNames

/-! # Repairing a database (`db/repair.cc`)

`RepairDB` turns every log into a table, in the order in which the directory lists the logs, scans all tables
for their key ranges and sequence numbers, and writes a new MANIFEST that puts **every table into level 0**.
Errors with single files are logged and ignored.

* **`repairDB`** — the repair, as far as `DB::Open` will notice it.
* **`Disk.reopen`** — the engine after `DB::Open`. -/

namespace RocketDb

/-! ## The directory and the environment -/

/-- The directory of a closed database: the names of its files in the order of `GetChildren`, the
entries of each table, and the records that a reader finds in each log. -/
structure ClosedDirectory where
  children : List Slice
  tables : ℕ → List Entry
  logs : ℕ → List Slice

/-- The number in the name of a file of the given type. -/
def numberOf (type : FileType) (name : Slice) : Option ℕ :=
  match parseFileName name with
  | some (number, t) => if t = type then some number else none
  | none => none

/-- The numbers of the files of a type, as the directory lists them. -/
def ClosedDirectory.numbers (dir : ClosedDirectory) (type : FileType) : List ℕ :=
  dir.children.filterMap (numberOf type)

/-- What the environment does during a repair. -/
structure RepairEnv where
  /-- The status of `GetChildren`. -/
  listed : Status := .ok
  /-- A log can be opened. -/
  opensLog : ℕ → Bool := fun _ => true
  /-- `BuildTable` succeeds. -/
  builds : ℕ → Bool := fun _ => true
  /-- `GetFileSize` finds a table. The second name it is tried under is made of a wrong path. -/
  finds : ℕ → Bool := fun _ => true
  /-- The entries that an iterator gives of a table that it cannot read to the end. -/
  damaged : ℕ → Option (List Entry) := fun _ => none
  /-- A copy of a damaged table can be written and renamed. -/
  copies : ℕ → Bool := fun _ => true
  /-- The status of writing the MANIFEST and making it current. -/
  installed : Status := .ok

/-! ## The repairer -/

/-- `TableInfo`. -/
structure TableInfo where
  file : FileMetaData
  maxSequence : ℕ
  deriving DecidableEq, Repr

/-- The fields of a `Repairer`, with the table files. -/
structure Repairer where
  store : TableStore
  logs : List ℕ
  tableNumbers : List ℕ
  tables : List TableInfo

/-- A new `Repairer` of a directory. -/
def Repairer.new (dir : ClosedDirectory) : Repairer := ⟨⟨1, dir.tables⟩, [], [], []⟩

/-- The loop body of `FindFiles`. -/
def Repairer.findFile (r : Repairer) (name : Slice) : Repairer :=
  match parseFileName name with
  | none => r
  -- the number of a MANIFEST may be given again
  | some (_, .kDescriptorFile) => r
  | some (number, .kLogFile) =>
    { r with store := r.store.markFileNumberUsed number, logs := r.logs ++ [number] }
  | some (number, .kTableFile) =>
    { r with
      store := r.store.markFileNumberUsed number
      tableNumbers := r.tableNumbers ++ [number] }
  | some (number, _) => { r with store := r.store.markFileNumberUsed number }

/-- `FindFiles`. -/
def Repairer.findFiles (r : Repairer) (children : List Slice) : Repairer :=
  children.foldl Repairer.findFile r

/-! ## Logs -/

/-- The loop body of `ConverLogToTable`. A batch that cannot be read to its end is inserted up to
there. -/
def replayRecord (ucmp : Comparator) (mem : List Entry) (record : Slice) : List Entry :=
  if record.length < kBatchHeader then mem else (WriteBatch.insertInto ucmp ⟨record⟩ mem).2

/-- The memtable of a log. -/
def replayLog (ucmp : Comparator) (records : List Slice) : List Entry :=
  records.foldl (replayRecord ucmp) []

variable (cfg : Config) (env : RepairEnv)

/-- `ConverLogToTable`. The status is ignored, and the log is archived in any case. -/
def Repairer.convertLogToTable (dir : ClosedDirectory) (r : Repairer) (log : ℕ) : Repairer :=
  if env.opensLog log then
    let number := r.store.nextFileNumber
    let (f, entries) :=
      buildTable cfg.sizes none number (replayLog cfg.comparator (dir.logs log))
    if env.builds number then
      { r with
        store := r.store.allocate.write number entries
        tableNumbers := if 0 < f.fileSize then r.tableNumbers ++ [number] else r.tableNumbers }
    else { r with store := r.store.allocate }
  else r

/-- `ConverLogFilesToTables`. -/
def Repairer.convertLogFilesToTables (dir : ClosedDirectory) (r : Repairer) : Repairer :=
  r.logs.foldl (Repairer.convertLogToTable cfg env dir) r

/-! ## Tables -/

/-- The variables of the loop of `ScanTable`. -/
structure ScanState where
  empty : Bool
  smallest : InternalKey
  largest : InternalKey
  maxSequence : ℕ

/-- The loop body of `ScanTable`: a key that cannot be parsed is passed over. -/
def ScanState.scan (st : ScanState) (e : Entry) : ScanState :=
  match parseInternalKey e.key with
  | none => st
  | some parsed =>
    { empty := false
      smallest := if st.empty then e.key else st.smallest
      largest := e.key
      maxSequence :=
        if st.maxSequence < parsed.sequence then parsed.sequence else st.maxSequence }

/-- What `ScanTable` finds in a table with the given entries. -/
def scanEntries (number fileSize : ℕ) (entries : List Entry) : TableInfo :=
  let st := entries.foldl ScanState.scan ⟨true, ⟨[], 0⟩, ⟨[], 0⟩, 0⟩
  ⟨⟨number, fileSize, st.smallest, st.largest⟩, st.maxSequence⟩

/-- `RepairTable`: what can be read is copied to a new file, which takes the place of the old one. -/
def Repairer.repairTable (r : Repairer) (t : TableInfo) (entries : List Entry) : Repairer :=
  let r := { r with store := r.store.allocate }
  if entries ≠ [] ∧ env.copies t.file.number = true then
    { r with
      store := r.store.write t.file.number entries
      tables := r.tables ++
        [{ t with file := { t.file with fileSize := cfg.sizes.finishedSize entries } }] }
  else r

/-- `ScanTable`. -/
def Repairer.scanTable (r : Repairer) (number : ℕ) : Repairer :=
  if env.finds number then
    let entries := r.store.tables number
    let fileSize := cfg.sizes.finishedSize entries
    match env.damaged number with
    | none => { r with tables := r.tables ++ [scanEntries number fileSize entries] }
    | some readable => r.repairTable cfg env (scanEntries number fileSize readable) readable
  else r

/-- `ExtracMetaData`. -/
def Repairer.extractMetaData (r : Repairer) : Repairer :=
  r.tableNumbers.foldl (Repairer.scanTable cfg env) r

/-! ## The MANIFEST -/

/-- The loop of `WriteDescriptor` for the highest sequence number of the tables. -/
def highestSequence (tables : List TableInfo) (start : ℕ) : ℕ :=
  tables.foldl (fun maxSequence t => if maxSequence < t.maxSequence then t.maxSequence else maxSequence) start

/-- The edit of `WriteDescriptor`. -/
def Repairer.edit (r : Repairer) : VersionEdit where
  comparator := some cfg.comparator.name
  logNumber := some 0
  nextFileNumber := some r.store.nextFileNumber
  lastSequence := some (highestSequence r.tables 0)
  newFiles := r.tables.map fun t => (0, t.file)

/-- A MANIFEST with a single edit. -/
def ManifestRecord.ofEdit (ucmp : Comparator) (edit : VersionEdit) : ManifestRecord where
  version := applyEdit ucmp .empty edit
  compactPointer := applyCompactPointers (fun _ => none) edit
  logNumber := edit.logNumber.getD 0
  nextFile := edit.nextFileNumber.getD 0
  lastSequence := edit.lastSequence.getD 0

/-- `Repairer::Run` up to the MANIFEST, once the directory is listed. -/
def Repairer.repaired (dir : ClosedDirectory) : Repairer :=
  (((Repairer.new dir).findFiles dir.children).convertLogFilesToTables cfg env dir).extractMetaData
    cfg env

/-- **`RepairDB`**: the files that `DB::Open` will find. The logs are archived. -/
def repairDB (dbname : Slice) (dir : ClosedDirectory) : Except Status Disk :=
  if env.listed.isOk then
    if dir.children = [] then
      .error (.make .kIOError dbname (ascii "repair found no files"))
    else
      let r := Repairer.repaired cfg env dir
      if env.installed.isOk then
        .ok ⟨.ofEdit cfg.comparator (r.edit cfg), [], r.store.tables, []⟩
      else .error env.installed
  else .error env.listed

/-- The engine after `DB::Open`. -/
def Disk.reopen (opts : DbOptions) (openEnv : OpenEnv) (disk : Disk) : Option Engine :=
  (disk.openWith cfg opts openEnv).bind fun opened => opened.open?.map Prod.fst

end RocketDb
