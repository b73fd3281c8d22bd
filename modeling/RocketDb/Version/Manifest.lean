import RocketDb.Version.EditBytes
import RocketDb.Version.FileNames
import RocketDb.Version.History
import RocketDb.Version.Recover
import RocketDb.Wal.Crash
import RocketDb.Wal.Reuse

/-! # The MANIFEST (`VersionSet::LogAndApply`)

`LogAndApply` writes an edit to the MANIFEST before it installs the new version. The first call after
`Recover` starts a new MANIFEST with a snapshot, and makes CURRENT name it by renaming a temporary file.

* **`ManifestState.logAndApply`** — the function, with the directory after each of its file operations.
* **`newDB`**, **`ManifestState.reopen`** — a new database, and `Recover` with `ReuseManifest`.
* **`ManifestState.step`** — what can happen to a version set and its directory, crashes included. -/

namespace RocketDb

open Log

/-! ## Directories -/

/-- The files of a database. -/
abbrev Directory : Type := Slice → Option Slice

/-- The file now has the given contents. -/
def Directory.write (dir : Directory) (name contents : Slice) : Directory :=
  Function.update dir name (some contents)

/-- `Env::RemoveFile`. -/
def Directory.remove (dir : Directory) (name : Slice) : Directory := Function.update dir name none

/-- `Env::RenameFile`. -/
def Directory.rename (dir : Directory) (source target : Slice) : Directory :=
  Directory.remove (Function.update dir target (dir source)) source

/-- How the calls on a file end. -/
structure Faults where
  calls : List (Option (ℕ × Status))
  honest : HonestFaults calls

theorem honestFaults_nil : HonestFaults [] := by decide

/-- No call fails. -/
def Faults.none : Faults := ⟨[], honestFaults_nil⟩

/-- How the file operations of a call of `LogAndApply` end. -/
structure ApplyEnv where
  /-- What `has_next_file_number_` of the edit of `WriteSnapshot` happens to hold. -/
  hasNextFile : Bool := false
  /-- `NewWritableFile` for a new MANIFEST. -/
  create : Option (Code × Slice) := none
  /-- The calls on the MANIFEST. -/
  descriptor : Faults := .none
  /-- `NewWritableFile` for the temporary file. -/
  createTemp : Option (Code × Slice) := none
  /-- The calls on the temporary file. -/
  temp : Faults := .none
  /-- `RenameFile`. -/
  rename : Option (Code × Slice) := none
  /-- The calls of `RemoveFile` do their work: in `DoWriteStringToFile`, in `SetCurrentFile` and in
  `LogAndApply`. -/
  removeWritten : Bool := true
  removeTemp : Bool := true
  removeManifest : Bool := true

/-- The directories after each of some file operations, the last of them, and the status. -/
structure Written where
  disks : List Directory
  dir : Directory
  status : Status

/-- `WriteStringToFileSync`. -/
def writeStringToFileSync (dir : Directory) (data fname : Slice) (env : ApplyEnv) : Written :=
  match env.createTemp with
  | some (code, message) => ⟨[], dir, .error code message⟩
  | none =>
    let appended := WritableFile.append ⟨[], 0, env.temp.calls⟩ data
    let synced := if appended.2.isOk then appended.1.flush else appended
    let closed := if synced.2.isOk then synced.1.flush else synced
    let disks := [[], appended.1.contents, synced.1.contents, closed.1.contents].map (dir.write fname)
    let last := dir.write fname closed.1.contents
    if closed.2.isOk then ⟨disks, last, .ok⟩
    else
      let removed := if env.removeWritten then last.remove fname else last
      ⟨disks ++ [removed], removed, closed.2⟩

/-- `SetCurrentFile`. -/
def setCurrentFile (dir : Directory) (descriptorNumber : ℕ) (env : ApplyEnv) : Written :=
  let tmp := tempFileName descriptorNumber
  let written := writeStringToFileSync dir (descriptorFileName descriptorNumber ++ [newline]) tmp env
  let renamed : Written :=
    if written.status.isOk then
      match env.rename with
      | some (code, message) => ⟨written.disks, written.dir, .error code message⟩
      | none =>
        ⟨written.disks ++ [written.dir.rename tmp currentFileName],
          written.dir.rename tmp currentFileName, .ok⟩
    else written
  if renamed.status.isOk then renamed
  else
    let removed := if env.removeTemp then renamed.dir.remove tmp else renamed.dir
    ⟨renamed.disks ++ [removed], removed, renamed.status⟩

/-! ## `LogAndApply` -/

/-- The fields that `LogAndApply` sets before it writes the edit. -/
def VersionSet.complete (vs : VersionSet) (edit : VersionEdit) : VersionEdit :=
  { edit with
    logNumber := some (edit.logNumber.getD vs.logNumber)
    prevLogNumber := some (edit.prevLogNumber.getD vs.prevLogNumber)
    nextFileNumber := some vs.nextFileNumber
    lastSequence := some vs.lastSequence }

/-- The edit of `WriteSnapshot`, an object whose `has_next_file_number_` is `hasNextFile`. -/
def VersionSet.snapshot (ucmp : Comparator) (vs : VersionSet) (hasNextFile : Bool) : VersionEdit :=
  { VersionEdit.clear hasNextFile with
    comparator := some ucmp.name
    compactPointers := (List.range kNumLevels).filterMap fun level =>
      (vs.compactPointer level).map fun key => (level, key)
    newFiles := vs.current.listing }

/-- A version set with its directory. -/
structure ManifestState where
  vs : VersionSet
  dir : Directory
  /-- `descriptor_log_`. -/
  descriptor : Option Writer
  /-- A call on the file of `descriptor_log_` has failed. -/
  failed : Bool

/-- The part of `LogAndApply` that starts a new MANIFEST if there is none to append to. -/
def ManifestState.openDescriptor (ucmp : Comparator) (st : ManifestState) (vs : VersionSet)
    (env : ApplyEnv) : Option (List Directory × Option Writer × Status) :=
  match st.descriptor with
  | some w => some ([], some ⟨⟨w.dest.contents, w.dest.flushed, env.descriptor.calls⟩, w.blockOffset⟩, .ok)
  | none =>
    match env.create with
    | some (code, message) => some ([], none, .error code message)
    | none =>
      let w := Writer.new ⟨[], 0, env.descriptor.calls⟩
      let record := (vs.snapshot ucmp env.hasNextFile).encodeTo
      (w.addRecord record).map fun (w', s) =>
        (([] :: w.addTrace record).map (st.dir.write (descriptorFileName vs.manifestFileNumber)),
          some w', s)

/-- The part that writes the record of the edit and syncs the file. -/
def writeEdit (write : Slice → Directory) (log : Option Writer) (s : Status) (record : Slice) :
    Option (List Directory × Option Writer × Status) :=
  match log with
  | none => some ([], none, s)
  | some w =>
    if s.isOk then
      (w.addRecord record).map fun (w', s) =>
        if s.isOk then
          ((w.addTrace record ++ [w'.dest.flush.1.contents]).map write,
            some ⟨w'.dest.flush.1, w'.blockOffset⟩, w'.dest.flush.2)
        else ((w.addTrace record).map write, some w', s)
    else some ([], some w, s)

/-- What a call of `LogAndApply` does. -/
structure Applied where
  status : Status
  /-- The directory after each file operation. -/
  disks : List Directory
  next : ManifestState

/-- The directory with what has been written to the MANIFEST. -/
def Directory.withLog (dir : Directory) (manifest : Slice) : Option Writer → Directory
  | none => dir
  | some w => dir.write manifest w.dest.contents

/-- The end of `LogAndApply`: CURRENT, and the new version or what is left of the old one. -/
def ManifestState.finish (st : ManifestState) (vs : VersionSet) (installed : VersionSet)
    (env : ApplyEnv) (disks : List Directory) (log : Option Writer) (s : Status) : Applied :=
  let manifest := descriptorFileName vs.manifestFileNumber
  let dir := st.dir.withLog manifest log
  let current : Written :=
    if s.isOk && st.descriptor.isNone then setCurrentFile dir vs.manifestFileNumber env
    else ⟨[], dir, s⟩
  if current.status.isOk then
    ⟨.ok, disks ++ current.disks, { st with vs := installed, dir := current.dir, descriptor := log }⟩
  else if st.descriptor.isNone then
    let removed := if env.removeManifest then current.dir.remove manifest else current.dir
    ⟨current.status, disks ++ current.disks ++ [removed],
      { st with vs := vs, dir := removed, descriptor := none }⟩
  else
    ⟨current.status, disks ++ current.disks,
      { vs := vs, dir := current.dir, descriptor := log, failed := true }⟩

/-- **`VersionSet::LogAndApply`.** -/
def ManifestState.logAndApply (ucmp : Comparator) (st : ManifestState) (edit : VersionEdit)
    (env : ApplyEnv) : Option Applied :=
  let edit := st.vs.complete edit
  -- the builder sets the compaction pointers of the version set before anything is written
  let vs := { st.vs with compactPointer := applyCompactPointers st.vs.compactPointer edit }
  let installed := { vs with
    current := applyEdit ucmp st.vs.current edit
    logNumber := edit.logNumber.getD 0
    prevLogNumber := edit.prevLogNumber.getD 0 }
  match st.openDescriptor ucmp vs env with
  | none => none
  | some (disks, log, s) =>
    match writeEdit (st.dir.write (descriptorFileName vs.manifestFileNumber)) log s edit.encodeTo with
    | none => none
    | some (disks', log, s) => some (st.finish vs installed env (disks ++ disks') log s)

/-! ## Opening a database -/

/-- The edit of `NewDB`. -/
def newDBEdit (ucmp : Comparator) : VersionEdit :=
  { comparator := some ucmp.name, logNumber := some 0, nextFileNumber := some 2, lastSequence := some 0 }

/-- `DBImpl::NewDB` on an empty directory, without errors. -/
def newDB (ucmp : Comparator) : Option Directory :=
  ((Writer.new ⟨[], 0, []⟩).addRecord (newDBEdit ucmp).encodeTo).map fun (w, _) =>
    (setCurrentFile (Directory.write (fun _ => none) (descriptorFileName 1) w.dest.contents) 1 {}).dir

/-- The options and the outcome of opening a MANIFEST for appending. -/
structure OpenOptions where
  reuseLogs : Bool := false
  /-- `TargetFileSize`. -/
  maxFileSize : ℕ := 2 * 1048576
  /-- `NewAppendableFile` does its work. -/
  appends : Bool := true

/-- The MANIFEST that CURRENT names. -/
def Directory.manifest (dir : Directory) : Option Slice :=
  (dir currentFileName).bind fun current => dir current.dropLast

/-- `ReuseManifest`: the writer, and the number of the MANIFEST. -/
def reuseManifest (dir : Directory) (options : OpenOptions) : Option (Writer × ℕ) :=
  if options.reuseLogs then
    match (dir currentFileName).bind fun current => parseFileName current.dropLast, dir.manifest with
    | some (number, .kDescriptorFile), some contents =>
      if contents.length < options.maxFileSize && options.appends then
        some (Writer.reuse (appendable contents) contents.length, number)
      else none
    | _, _ => none
  else none

/-- **`VersionSet::Recover`** by a new version set. `memory` is what the flags of its edits happen to
hold. -/
def ManifestState.reopen (ucmp : Comparator) (dir : Directory) (memory : ℕ → Bool)
    (options : OpenOptions) : Option ManifestState :=
  match VersionSet.new.recover ucmp dir memory with
  | some (.ok, vs) =>
    match reuseManifest dir options with
    | none => some ⟨vs, dir, none, false⟩
    | some (w, number) => some ⟨{ vs with manifestFileNumber := number }, dir, some w, false⟩
  | _ => none

/-! ## Runs -/

/-- What happens to a version set and its directory. -/
inductive ManifestOp where
  /-- `NewFileNumber`. -/
  | newFileNumber
  /-- `MarkFileNumberUsed`. -/
  | markFileNumberUsed (number : ℕ)
  /-- `SetLastSequence`. -/
  | setLastSequence (seq : ℕ)
  /-- `SetupOtherInputs` sets the compaction pointer of a level. -/
  | setCompactPointer (level : ℕ) (key : InternalKey)
  | logAndApply (edit : VersionEdit) (env : ApplyEnv)
  /-- The version set goes away, and the directory is opened again. -/
  | reopen (memory : ℕ → Bool) (options : OpenOptions)
  /-- The process stops after some of the file operations of `LogAndApply`, and the directory is opened
  again. -/
  | crash (edit : VersionEdit) (env : ApplyEnv) (operations : ℕ) (memory : ℕ → Bool)
      (options : OpenOptions)

/-- One step. -/
def ManifestState.step (ucmp : Comparator) (st : ManifestState) : ManifestOp → Option ManifestState
  | .newFileNumber =>
    some { st with vs := { st.vs with nextFileNumber := (st.vs.nextFileNumber + 1) % 2 ^ 64 } }
  | .markFileNumberUsed number => some { st with vs := st.vs.markFileNumberUsed number }
  | .setLastSequence seq => some { st with vs := { st.vs with lastSequence := seq } }
  | .setCompactPointer level key =>
    some { st with
      vs := { st.vs with compactPointer := Function.update st.vs.compactPointer level (some key) } }
  | .logAndApply edit env => (st.logAndApply ucmp edit env).map Applied.next
  | .reopen memory options => ManifestState.reopen ucmp st.dir memory options
  | .crash edit env operations memory options =>
    (st.logAndApply ucmp edit env).bind fun applied =>
      ((st.dir :: applied.disks)[operations]?).bind fun dir =>
        ManifestState.reopen ucmp dir memory options

/-- A new database, opened for the first time. -/
def ManifestState.create (ucmp : Comparator) (memory : ℕ → Bool) (options : OpenOptions) :
    Option ManifestState :=
  (newDB ucmp).bind fun dir => ManifestState.reopen ucmp dir memory options

end RocketDb
