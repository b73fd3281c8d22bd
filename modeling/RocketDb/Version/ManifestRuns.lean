import RocketDb.Version.Atomic

/-! # Runs of a version set and its MANIFEST

Files get numbers, `LogAndApply` is called, with or without failures, the process stops anywhere in such a
call, and the directory is opened again.

* **`manifest_replay`** — after any sequence of successful calls, `Recover` gives the version in memory.
* **`logAndApply_crash_atomic`** — a crash in a call leaves the version before the edit or after it, in every
  run that makes no further call after a failure on the open MANIFEST.
* **`failed_edit_stays`** — after such a failure the MANIFEST holds an edit that memory does not. -/

namespace RocketDb

open Log Transition List

/-- The edits in the MANIFEST that CURRENT names. -/
def Directory.edits (dir : Directory) : List VersionEdit :=
  match dir.manifest with
  | none => []
  | some contents =>
    match (Reader.new ⟨contents, []⟩ true 0).events (contents.length + 1) with
    | none => []
    | some ev => ev.records.map fun x => (VersionEdit.decodeFrom false x.2).2

/-- The MANIFEST may be appended to: it consists of whole records, or it is not reused. -/
def Directory.CanReuse (dir : Directory) (options : OpenOptions) : Prop :=
  options.reuseLogs = true → ∃ records, dir.manifest = some (bytesOf 0 (logPieces 0 records))

/-- **A call of `LogAndApply` that the result is about**: no call on the open MANIFEST has failed, the
edit is legal, and zeros at the end of a block are not lost. -/
structure ManifestState.CanApply (ucmp : Comparator) (st : ManifestState) (e : VersionEdit)
    (env : ApplyEnv) : Prop where
  unfailed : st.failed = false
  legal : LegalEdit ucmp st.vs st.dir.edits e
  padKeeps : st.PadKeeps ucmp e env

/-- The steps of a run. -/
def ManifestState.Good (ucmp : Comparator) (st : ManifestState) : ManifestOp → Prop
  | .newFileNumber => st.vs.nextFileNumber + 1 < 2 ^ 64
  | .markFileNumberUsed number => number + 1 < 2 ^ 64
  | .setLastSequence _ => True
  | .setCompactPointer _ key => key.userKey.length + 8 < 2 ^ 32
  | .logAndApply e env => st.CanApply ucmp e env
  | .reopen _ options => st.dir.CanReuse options
  | .crash e env operations _ options => st.CanApply ucmp e env ∧
      ∃ r dir, st.logAndApply ucmp e env = some r ∧ (st.dir :: r.disks)[operations]? = some dir ∧
        dir.CanReuse options

/-- The steps of a run without failures and crashes. -/
def ManifestState.Succeeds (ucmp : Comparator) (st : ManifestState) : ManifestOp → Prop
  | .logAndApply e env =>
    st.CanApply ucmp e env ∧ ∀ r, st.logAndApply ucmp e env = some r → r.status = .ok
  | .reopen _ _ => True
  | .crash _ _ _ _ _ => False
  | op => st.Good ucmp op

variable {ucmp : Comparator} {e : VersionEdit} {dir : Directory} {m : Recorded} {st st' : ManifestState}
  {env : ApplyEnv} {options : OpenOptions} {memory : ℕ → Bool}

/-! ## Opening -/

section

variable (h : Stored ucmp dir m)

include h

theorem Stored.dir_manifest :
    dir.manifest = dir (descriptorFileName m.number) := by
  simp only [Directory.manifest, h.current, Option.bind_some, dropLast_concat]

theorem Stored.dir_edits : dir.edits = m.history := by
  obtain ⟨contents, hcontents, hevents⟩ := h.manifest
  simp only [Directory.edits, h.dir_manifest, hcontents]
  rw [ReadsAs] at hevents
  simp only [hevents, recordsOf, map_map]
  refine (map_congr_left fun e he => ?_).trans (map_id _)
  simp [VersionEdit.decodeFrom_encodeTo (h.sound.readable e he).encodable]

theorem Stored.whole {records : List Slice}
    (hwhole : dir.manifest = some (bytesOf 0 (logPieces 0 records))) :
    dir (descriptorFileName m.number) = some (manifestBytes m.history) := by
  obtain ⟨contents, hcontents, hevents⟩ := h.manifest
  rw [h.dir_manifest, hcontents] at hwhole
  obtain rfl := Option.some.inj hwhole
  rw [ReadsAs, events_whole] at hevents
  have hrecords := congrArg (fun ev => ev.map fun ev => ev.records.map Prod.snd) hevents
  simp only [Option.map_some, map_map, recordsOf, Option.some.injEq] at hrecords
  have hsame : records = m.history.map VersionEdit.encodeTo := by
    refine Eq.trans ?_ hrecords
    exact (map_id _).symm
  rw [hcontents, hsame]
  rfl

/-- **`Recover` gives a version set that agrees with the MANIFEST.** -/
theorem Stored.reopen (memory : ℕ → Bool) (hreuse : dir.CanReuse options) :
    ∃ st, ManifestState.reopen ucmp dir memory options = some st ∧ st.Holds ucmp m ∧
      st.failed = false ∧ st.dir = dir ∧ st.vs.nextFileNumber = m.nextFile + 1 ∧
      st.vs.lastSequence = m.lastSequence := by
  obtain ⟨pointer, hpointer, hrecover⟩ := h.recover memory
  simp only [ManifestState.reopen, hrecover]
  have hfresh : ManifestState.Holds ucmp ⟨⟨m.nextFile + 1, m.nextFile, m.lastSequence, m.logNumber,
      m.prevLogNumber, m.version, pointer⟩, dir, none, false⟩ m :=
    ⟨h, rfl, rfl, rfl, Nat.le_succ _, hpointer, fun _ => ⟨Nat.le_refl _, Nat.lt_succ_self _⟩,
      fun w hw => by cases hw⟩
  by_cases hlogs : options.reuseLogs = true
  · obtain ⟨records, hwhole⟩ := hreuse hlogs
    have hfile := h.whole hwhole
    have hnumber : m.number < 2 ^ 64 := by
      have := h.sound.number_lt
      have := h.sound.fits
      omega
    have hparse : ((dir currentFileName).bind fun current => parseFileName current.dropLast) =
        some (m.number, .kDescriptorFile) := by
      grind [current, parseFileName_descriptor]
    simp only [reuseManifest, hlogs, if_true, hparse, h.dir_manifest, hfile]
    split_ifs
    · refine ⟨_, rfl, ⟨h, rfl, rfl, rfl, Nat.le_succ _, hpointer, fun hn => (by cases hn),
        fun w hw => ?_⟩, rfl, rfl, rfl, rfl⟩
      obtain rfl := Option.some.inj hw
      exact ⟨rfl, Writer.follows_reuse _, hfile⟩
    · exact ⟨_, rfl, hfresh, rfl, rfl, rfl, rfl⟩
  · grind [reuseManifest]

end

/-! ## A new database -/

/-- Memory agrees with a MANIFEST that consists of whole records. -/
structure ManifestState.Agrees (ucmp : Comparator) (st : ManifestState) (m : Recorded) : Prop where
  holds : st.Holds ucmp m
  unfailed : st.failed = false
  whole : st.dir.manifest = some (manifestBytes m.history)

/-- What the MANIFEST of a new database says. -/
def newDBRecorded (ucmp : Comparator) : Recorded :=
  ⟨1, [], newDBEdit ucmp, 2, 0, 0, 0, .empty⟩

theorem newDBRecorded_sound (hname : ucmp.name.length < 2 ^ 32) :
    (newDBRecorded ucmp).Sound ucmp := by
  have hlistable : Version.empty.Listable ucmp := (represents_nil ucmp).listable
  have hencodable : (newDBEdit ucmp).Encodable :=
    { comparator := fun name hc => Option.some.inj hc ▸ hname
      logNumber := fun n hn => Option.some.inj hn ▸ (by decide)
      prevLogNumber := fun _ hn => by cases hn
      nextFileNumber := fun n hn => Option.some.inj hn ▸ (by decide)
      lastSequence := fun n hn => Option.some.inj hn ▸ (by decide)
      pointers := fun _ hx => absurd hx not_mem_nil
      deleted := fun _ hx => absurd hx not_mem_nil
      sorted := List.Pairwise.nil
      files := fun _ hx => absurd hx not_mem_nil }
  refine ⟨fun x hx => ?_, ?_, rfl, rfl, rfl, rfl, (by decide : 1 < 2), fun k hk => ?_,
    (by decide : 2 + 1 < 2 ^ 64)⟩
  · obtain rfl := mem_singleton.mp hx
    exact ⟨hencodable, fun _ hc => (Option.some.inj hc).symm⟩
  · exact represents_snapshot hlistable (by decide : [] = Version.empty.listing) rfl
  · exact absurd hk not_mem_nil

theorem setCurrentFile_ok (dir : Directory) (number : ℕ) (flag : Bool) :
    (setCurrentFile dir number { hasNextFile := flag }).status.isOk = true := rfl

/-- **`NewDB`** leaves a directory that can be opened. -/
theorem newDB_spec (hname : ucmp.name.length < 2 ^ 32) :
    ∃ dir, newDB ucmp = some dir ∧ Stored ucmp dir (newDBRecorded ucmp) ∧
      dir (descriptorFileName 1) = some (manifestBytes [newDBEdit ucmp]) := by
  obtain ⟨w, hadd, -, hcontents⟩ := Writer.addRecord_pieces
    (Writer.leftOver_new ⟨[], 0, []⟩ rfl) (newDBEdit ucmp).encodeTo
  obtain ⟨-, hmanifests, hcurrent⟩ := setCurrentFile_spec
    (Directory.write (fun _ => none) (descriptorFileName 1) w.dest.contents) 1 {}
  rw [setCurrentFile_ok, if_pos rfl] at hcurrent
  have hfile := (hmanifests 1).trans (Directory.write_self _ _ _)
  have hnew : newDB ucmp = some (setCurrentFile
      (Directory.write (fun _ => none) (descriptorFileName 1) w.dest.contents) 1 {}).dir := by
    rw [newDB, hadd]
    rfl
  have hbytes : w.dest.contents = manifestBytes [newDBEdit ucmp] := hcontents.trans (nil_append _)
  replace hfile := hfile.trans (congrArg some hbytes)
  exact ⟨_, hnew, ⟨newDBRecorded_sound hname, hcurrent, _, hfile,
    readsAs_manifestBytes [newDBEdit ucmp]⟩, hfile⟩

/-- A new database can be opened, and its MANIFEST consists of one record. -/
theorem create_spec (hname : ucmp.name.length < 2 ^ 32) (memory : ℕ → Bool) (options : OpenOptions) :
    ∃ st, ManifestState.create ucmp memory options = some st ∧ st.Agrees ucmp (newDBRecorded ucmp) ∧
      st.vs.nextFileNumber = 3 ∧ st.vs.lastSequence = 0 := by
  obtain ⟨dir, hnew, hstored, hfile⟩ := newDB_spec hname
  have hwhole : dir.manifest = some (manifestBytes [newDBEdit ucmp]) := hstored.dir_manifest.trans hfile
  have hreuse : dir.CanReuse options := fun _ => ⟨[newDBEdit ucmp].map VersionEdit.encodeTo, hwhole⟩
  obtain ⟨st, hopen, hholds, hfailed, hdir, hnext, hseq⟩ := hstored.reopen memory hreuse
  refine ⟨st, ?_, ⟨hholds, hfailed, hdir ▸ hwhole⟩, hnext, hseq⟩
  rw [ManifestState.create, hnew]
  exact hopen

/-! ## The invariant of runs -/

/-- The directory can be opened; and memory agrees with it if no call on the MANIFEST has failed. -/
structure ManifestState.Invariant (ucmp : Comparator) (st : ManifestState) : Prop where
  stored : ∃ m, Stored ucmp st.dir m
  holds : st.failed = false → ∃ m, st.Holds ucmp m

theorem ManifestState.Holds.invariant (h : st.Holds ucmp m) : st.Invariant ucmp :=
  ⟨⟨m, h.stored⟩, fun _ => ⟨m, h⟩⟩

theorem ManifestState.CanApply.logAndApply (h : st.CanApply ucmp e env)
    (hname : ucmp.name.length < 2 ^ 32) (hholds : st.Holds ucmp m) :
    ∃ r, st.logAndApply ucmp e env = some r ∧ r.Atomic ucmp st e m (st.recorded ucmp m e env) :=
  hholds.logAndApply hname (hholds.stored.dir_edits ▸ h.legal) h.padKeeps

/-- Steps that do not touch the files and leave the version and the log numbers alone. -/
theorem ManifestState.Holds.update (h : st.Holds ucmp m) (vs : VersionSet)
    (hcurrent : vs.current = st.vs.current) (hlog : vs.logNumber = st.vs.logNumber)
    (hprev : vs.prevLogNumber = st.vs.prevLogNumber)
    (hmanifest : vs.manifestFileNumber = st.vs.manifestFileNumber)
    (hnext : st.vs.nextFileNumber ≤ vs.nextFileNumber) (hpointers : PointersFit vs.compactPointer) :
    ManifestState.Holds ucmp { st with vs := vs } m where
  stored := h.stored
  current := hcurrent.trans h.current
  logNumber := hlog.trans h.logNumber
  prevLogNumber := hprev.trans h.prevLogNumber
  nextFile := h.nextFile.trans hnext
  pointers := hpointers
  newName hnone := by
    grind [Holds]
  follows w hw := by
    grind [follows]

theorem ManifestState.Invariant.update (h : st.Invariant ucmp) {vs : VersionSet}
    (hkeep : ∀ m, st.Holds ucmp m → ManifestState.Holds ucmp { st with vs := vs } m) :
    ManifestState.Invariant ucmp { st with vs := vs } :=
  ⟨h.stored, fun hfailed => (h.holds hfailed).imp hkeep⟩

theorem VersionSet.markFileNumberUsed_spec (vs : VersionSet) {n : ℕ} (h : n + 1 < 2 ^ 64) :
    vs.nextFileNumber ≤ (vs.markFileNumberUsed n).nextFileNumber ∧
      (vs.markFileNumberUsed n).logNumber = vs.logNumber ∧
      (vs.markFileNumberUsed n).prevLogNumber = vs.prevLogNumber ∧
      (vs.markFileNumberUsed n).manifestFileNumber = vs.manifestFileNumber ∧
      (vs.markFileNumberUsed n).compactPointer = vs.compactPointer := by
  grind [markFileNumberUsed]

/-- Steps that only change the version set. -/
def ManifestOp.inMemory : ManifestOp → Bool
  | .newFileNumber => true
  | .markFileNumberUsed _ => true
  | .setLastSequence _ => true
  | .setCompactPointer _ _ => true
  | _ => false

/-- A step that only changes the version set keeps it in agreement with the MANIFEST. -/
theorem ManifestState.step_inMemory {op : ManifestOp} (hop : op.inMemory = true) (hgood : st.Good ucmp op) :
    ∃ vs, st.step ucmp op = some { st with vs := vs } ∧
      ∀ m, st.Holds ucmp m → ManifestState.Holds ucmp { st with vs := vs } m := by
  cases op with
  | newFileNumber =>
    refine ⟨_, rfl, fun m hm => hm.update _ rfl rfl rfl rfl ?_ hm.pointers⟩
    simp only [Nat.mod_eq_of_lt (show st.vs.nextFileNumber + 1 < 2 ^ 64 from hgood)]
    exact Nat.le_succ _
  | markFileNumberUsed n =>
    obtain ⟨hle, hlog, hprev, hmanifest, hpointer⟩ := st.vs.markFileNumberUsed_spec hgood
    exact ⟨_, rfl, fun m hm => hm.update _ (VersionSet.current_markFileNumberUsed _ _) hlog hprev
      hmanifest hle (hpointer ▸ hm.pointers)⟩
  | setLastSequence seq =>
    exact ⟨_, rfl, fun m hm => hm.update _ rfl rfl rfl rfl (Nat.le_refl _) hm.pointers⟩
  | setCompactPointer level key =>
    exact ⟨_, rfl, fun m hm =>
      hm.update _ rfl rfl rfl rfl (Nat.le_refl _) (hm.pointers.update level hgood)⟩
  | logAndApply e env => cases hop
  | reopen memory options => cases hop
  | crash e env k memory options => cases hop

/-- **One step of a run**: it does not get stuck, and the directory can still be opened. -/
theorem ManifestState.Invariant.step (hname : ucmp.name.length < 2 ^ 32) (st : ManifestState)
    (op : ManifestOp) (h : st.Invariant ucmp) (hgood : st.Good ucmp op) :
    ∃ st', st.step ucmp op = some st' ∧ st'.Invariant ucmp := by
  cases op with
  | newFileNumber | markFileNumberUsed n | setLastSequence seq | setCompactPointer level key =>
    obtain ⟨vs, hstep, hkeep⟩ := st.step_inMemory rfl hgood
    exact ⟨_, hstep, h.update hkeep⟩
  | logAndApply e env =>
    obtain ⟨m, hm⟩ := h.holds hgood.unfailed
    obtain ⟨r, hr, hatomic⟩ := hgood.logAndApply hname hm
    refine ⟨r.next, by rw [ManifestState.step, hr]; rfl, ⟨?_, fun hfailed => ?_⟩⟩
    · rcases hatomic.disks _ mem_cons_self with hs | hs <;> exact ⟨_, hs⟩
    · grind [Applied.Atomic]
  | reopen memory options =>
    obtain ⟨m, hm⟩ := h.stored
    obtain ⟨st', hopen, hholds, -⟩ := hm.reopen memory hgood
    exact ⟨st', hopen, hholds.invariant⟩
  | crash e env operations memory options =>
    obtain ⟨hcan, r, dir, hr, hdir, hreuse⟩ := hgood
    obtain ⟨m, hm⟩ := h.holds hcan.unfailed
    obtain ⟨r', hr', hatomic⟩ := hcan.logAndApply hname hm
    obtain rfl := Option.some.inj (hr.symm.trans hr')
    have hstored : ∃ m, Stored ucmp dir m := by
      rcases mem_cons.mp (mem_of_getElem? hdir) with rfl | hmem
      · exact ⟨m, hm.stored⟩
      · grind [Applied.Atomic]
    obtain ⟨m', hm'⟩ := hstored
    obtain ⟨st', hopen, hholds, -⟩ := hm'.reopen memory hreuse
    refine ⟨st', ?_, hholds.invariant⟩
    simp only [ManifestState.step, hr, Option.bind_some, hdir, hopen]

/-! ## Calls without failures -/

theorem Log.Writer.LeftOver.padKeeps {w : Writer} {lo : ℕ} (h : w.LeftOver lo) : w.padKeeps = true := by
  simp [Writer.padKeeps, WritableFile.keeps, h.faults]

/-- **A call in which nothing fails returns OK.** -/
theorem ManifestState.Holds.logAndApply_ok (h : st.Holds ucmp m) (e : VersionEdit) (flag : Bool) :
    st.PadKeeps ucmp e { hasNextFile := flag } ∧
      ∀ r, st.logAndApply ucmp e { hasNextFile := flag } = some r → r.status = .ok := by
  have hopen : ∃ disks w lo, st.openDescriptor ucmp (st.vs.pointed e) { hasNextFile := flag } =
      some (disks, some w, .ok) ∧ w.LeftOver lo := by
    rw [openDescriptor]
    cases hd : st.descriptor with
    | some w => exact ⟨_, _, _, rfl, rfl, (h.follows w hd).2.1.place⟩
    | none =>
      obtain ⟨w, hadd, hleft, -⟩ := Writer.addRecord_pieces
        (Writer.leftOver_new ⟨[], 0, Faults.none.calls⟩ rfl) ((st.vs.pointed e).snapshot ucmp flag).encodeTo
      exact ⟨_, w, _, by simp only [hadd, Option.map_some]; rfl, hleft⟩
  obtain ⟨disks, w, lo, hopen, hleft⟩ := hopen
  obtain ⟨w', hadd, hleft', -⟩ := Writer.addRecord_pieces hleft (st.vs.complete e).encodeTo
  refine ⟨fun disks' w'' hopen' => ?_, fun r hr => ?_⟩
  · have hsame := Option.some.inj (hopen.symm.trans hopen')
    obtain rfl : w = w'' := Option.some.inj (congrArg (fun p => p.2.1) hsame)
    exact hleft.padKeeps
  · have hsync : w'.dest.flush.2 = .ok := by rw [WritableFile.flush, hleft'.faults]
    have hedit : writeEdit (st.dir.write (descriptorFileName st.vs.manifestFileNumber)) (some w) .ok
        (st.vs.complete e).encodeTo = some
          ((w.addTrace (st.vs.complete e).encodeTo ++ [w'.dest.flush.1.contents]).map
            (st.dir.write (descriptorFileName st.vs.manifestFileNumber)),
            some ⟨w'.dest.flush.1, w'.blockOffset⟩, .ok) := by
      grind [writeEdit, Status.isOk_ok]
    rw [logAndApply_eq hopen hedit] at hr
    grind [finish, setCurrentFile_ok]

/-! ## Examples -/

/-- A table. -/
def exampleTable (number : ℕ) : FileMetaData :=
  ⟨number, 100, .ofParts (ascii "a") 1 .kTypeValue, .ofParts (ascii "b") 2 .kTypeValue⟩

/-- The edit that adds the first table. -/
def firstEdit : VersionEdit := { newFiles := [(0, exampleTable 3)] }

theorem firstEdit_succeeds (hholds : st.Holds bytewiseComparator (newDBRecorded bytewiseComparator))
    (hfailed : st.failed = false) (hnext : st.vs.nextFileNumber = 4) (hseq : st.vs.lastSequence = 0)
    (flag : Bool) :
    st.Succeeds bytewiseComparator (.logAndApply firstEdit { hasNextFile := flag }) := by
  have hlog : st.vs.logNumber = 0 := hholds.logNumber
  have hprev : st.vs.prevLogNumber = 0 := hholds.prevLogNumber
  have hcomplete : st.vs.complete firstEdit = { firstEdit with
      logNumber := some 0, prevLogNumber := some 0, nextFileNumber := some 4, lastSequence := some 0 } := by
    rw [VersionSet.complete, hlog, hprev, hnext, hseq]
    rfl
  have hencodable : (st.vs.complete firstEdit).Encodable := by
    rw [hcomplete]
    constructor <;> decide
  obtain ⟨hpad, hok⟩ := hholds.logAndApply_ok firstEdit flag
  refine ⟨⟨hfailed, ?_, hpad⟩, hok⟩
  rw [hholds.stored.dir_edits]
  refine ⟨?_, hencodable, ⟨by decide, fun level f hf => Or.inl not_mem_nil⟩, ?_, ?_⟩
  · intro name hc
    cases hc
  · rw [hnext]
    decide
  · rw [hnext]
    decide

/-- The first number is given out, and the first table can be added. -/
theorem newFileNumber_firstEdit {st₀ : ManifestState}
    (h : st₀.Agrees bytewiseComparator (newDBRecorded bytewiseComparator))
    (hnext : st₀.vs.nextFileNumber = 3) (hseq : st₀.vs.lastSequence = 0) (flag : Bool) :
    st₀.Good bytewiseComparator .newFileNumber ∧
      ∃ st, st₀.step bytewiseComparator .newFileNumber = some st ∧ st.vs.current = .empty ∧
        st.Succeeds bytewiseComparator (.logAndApply firstEdit { hasNextFile := flag }) := by
  have hgood : st₀.vs.nextFileNumber + 1 < 2 ^ 64 := by rw [hnext]; decide
  have hholds := h.holds.update
    { st₀.vs with nextFileNumber := (st₀.vs.nextFileNumber + 1) % 2 ^ 64 } rfl rfl rfl rfl
    (by simp only [Nat.mod_eq_of_lt hgood]; exact Nat.le_succ _) h.holds.pointers
  refine ⟨hgood, _, rfl, h.holds.current, firstEdit_succeeds hholds h.unfailed ?_ hseq flag⟩
  grind

/-- The first table of a new database. -/
def firstTable : List ManifestOp := [.newFileNumber, .logAndApply firstEdit {}]

/-! ## Crashes -/

/-- The version set has the given version and log numbers. -/
def VersionSet.Says (vs : VersionSet) (current : Version) (logNumber prevLogNumber : ℕ) : Prop :=
  vs.current = current ∧ vs.logNumber = logNumber ∧ vs.prevLogNumber = prevLogNumber

theorem Stored.says (h : Stored ucmp dir m) (memory : ℕ → Bool) :
    ∃ vs, VersionSet.new.recover ucmp dir memory = some (.ok, vs) ∧
      vs.Says m.version m.logNumber m.prevLogNumber := by
  obtain ⟨pointer, -, hrecover⟩ := h.recover memory
  exact ⟨_, hrecover, rfl, rfl, rfl⟩

theorem ManifestState.recorded_spec (ucmp : Comparator) (st : ManifestState) (m : Recorded)
    (e : VersionEdit) (env : ApplyEnv) :
    (st.recorded ucmp m e env).version = applyEdit ucmp m.version (st.vs.complete e) ∧
      (st.recorded ucmp m e env).logNumber = e.logNumber.getD st.vs.logNumber ∧
      (st.recorded ucmp m e env).prevLogNumber = e.prevLogNumber.getD st.vs.prevLogNumber ∧
      (st.recorded ucmp m e env).lastSequence = st.vs.lastSequence := by
  rw [recorded]
  cases st.descriptor <;> exact ⟨rfl, rfl, rfl, rfl⟩

/-- **Updates of the MANIFEST are atomic**, in every run all of whose steps are good: no call of
`LogAndApply` comes after a failure on the MANIFEST that is still open, edits are legal, zeros at the end
of a block are not lost, and a MANIFEST is reused only if it consists of whole records. In every state
that is reached, and for every call and everything that may fail in it: wherever the process stops,
`Recover` returns OK and gives the version and the log numbers before the edit or those after it; and a
call that returns an error leaves the version and the log numbers as they were, and CURRENT as well if it
has started a new MANIFEST. -/
theorem logAndApply_crash_atomic (hname : ucmp.name.length < 2 ^ 32) (memory : ℕ → Bool)
    (options : OpenOptions) (ops : List ManifestOp) {st₀ : ManifestState}
    (hcreate : ManifestState.create ucmp memory options = some st₀)
    (hgood : Along (ManifestState.step ucmp) (ManifestState.Good ucmp) st₀ ops) :
    ∃ st, run (ManifestState.step ucmp) st₀ ops = some st ∧
      ∀ e env, st.CanApply ucmp e env → ∃ r, st.logAndApply ucmp e env = some r ∧
        (∀ dir ∈ st.dir :: r.disks, ∀ memory, ∃ vs,
          VersionSet.new.recover ucmp dir memory = some (.ok, vs) ∧
            (vs.Says st.vs.current st.vs.logNumber st.vs.prevLogNumber ∨
              vs.Says (applyEdit ucmp st.vs.current (st.vs.complete e))
                (e.logNumber.getD st.vs.logNumber) (e.prevLogNumber.getD st.vs.prevLogNumber))) ∧
        (r.status.isOk = false →
          r.next.vs.Says st.vs.current st.vs.logNumber st.vs.prevLogNumber ∧
            (st.descriptor = none → r.next.dir currentFileName = st.dir currentFileName)) := by
  obtain ⟨st₁, hcreate', hagrees, -⟩ := create_spec hname memory options
  obtain rfl := Option.some.inj (hcreate.symm.trans hcreate')
  obtain ⟨st, hrun, hinv⟩ := run_progress (ManifestState.Invariant.step hname) hagrees.holds.invariant hgood
  refine ⟨st, hrun, fun e env hcan => ?_⟩
  obtain ⟨m, hm⟩ := hinv.holds hcan.unfailed
  obtain ⟨r, hr, hatomic⟩ := hcan.logAndApply hname hm
  obtain ⟨hversion, hlog, hprev, -⟩ := st.recorded_spec ucmp m e env
  refine ⟨r, hr, fun dir hdir memory => ?_, fun hs => ⟨?_, fun hnone => ?_⟩⟩
  · have hstored : Stored ucmp dir m ∨ Stored ucmp dir (st.recorded ucmp m e env) := by
      rcases mem_cons.mp hdir with rfl | hdir
      · exact Or.inl hm.stored
      · exact hatomic.disks dir (mem_cons_of_mem _ hdir)
    rcases hstored with hs | hs
    · obtain ⟨vs, hrecover, hsays⟩ := hs.says memory
      refine ⟨vs, hrecover, Or.inl ?_⟩
      rwa [hm.current, hm.logNumber, hm.prevLogNumber]
    · obtain ⟨vs, hrecover, hsays⟩ := hs.says memory
      refine ⟨vs, hrecover, Or.inr ?_⟩
      rwa [hversion, hlog, hprev, ← hm.current] at hsays
  · rw [hatomic.error hs]
    exact ⟨rfl, rfl, rfl⟩
  · exact (hatomic.started hs hnone).2.2

/-- A crash anywhere in the call that adds the first table and starts a new MANIFEST: there is no table then,
or this one. All unset flags happen to be true. -/
theorem logAndApply_crash_atomic_example :
    ∃ st₀ st r, ManifestState.create bytewiseComparator (fun _ => true) {} = some st₀ ∧
      run (ManifestState.step bytewiseComparator) st₀ [.newFileNumber] = some st ∧
      st.logAndApply bytewiseComparator firstEdit { hasNextFile := true } = some r ∧ r.status = .ok ∧
      ∀ dir ∈ st.dir :: r.disks, ∃ vs,
        VersionSet.new.recover bytewiseComparator dir (fun _ => true) = some (.ok, vs) ∧
          (vs.current.files 0 = [] ∨ vs.current.files 0 = [exampleTable 3]) := by
  have hname : bytewiseComparator.name.length < 2 ^ 32 := by decide
  obtain ⟨st₀, hcreate, hagrees, hnext, hseq⟩ := create_spec hname (fun _ => true) {}
  obtain ⟨hgood, st, hstep, hcurrent, hcan, hok⟩ := newFileNumber_firstEdit hagrees hnext hseq true
  obtain ⟨st', hrun, hatomic⟩ := logAndApply_crash_atomic hname (fun _ => true) {} [.newFileNumber] hcreate
    ⟨hgood, by split <;> trivial⟩
  have hsame : run (ManifestState.step bytewiseComparator) st₀ [.newFileNumber] = some st := by
    rw [run, hstep]
    rfl
  obtain rfl := Option.some.inj (hsame.symm.trans hrun)
  obtain ⟨r, hr, hdisks, -⟩ := hatomic firstEdit { hasNextFile := true } hcan
  refine ⟨st₀, st, r, hcreate, hrun, hr, hok r hr, fun dir hdir => ?_⟩
  obtain ⟨vs, hrecover, ⟨hbefore, -⟩ | ⟨hafter, -⟩⟩ := hdisks dir hdir fun _ => true
  · refine ⟨vs, hrecover, Or.inl ?_⟩
    rw [hbefore, hcurrent]
    rfl
  · refine ⟨vs, hrecover, Or.inr ?_⟩
    rw [hafter, hcurrent]
    exact (by decide : (applyEdit bytewiseComparator .empty firstEdit).files 0 = [exampleTable 3])

/-- `Sync` fails after the record of an edit. -/
def syncFault : List (Option (ℕ × Status)) :=
  [none, none, none, some (0, .error .kIOError (ascii "sync"))]

theorem honestFaults_syncFault : HonestFaults syncFault := by decide

/-- The first table, and a second one for which `Sync` fails. -/
def failedRun : List ManifestOp :=
  firstTable ++ [.newFileNumber, .logAndApply { newFiles := [(0, exampleTable 4)] }
    { descriptor := ⟨syncFault, honestFaults_syncFault⟩ }]

/-- **A failed edit stays in the MANIFEST.** When the next call starts, before its first file operation,
`Recover` gives a version with the table of the failed edit, which is neither in the version before the
call nor in the one after it; and so it is after the call has returned OK. -/
theorem failed_edit_stays :
    ∃ st₀ st r vs vs', ManifestState.create bytewiseComparator (fun _ => false) {} = some st₀ ∧
      run (ManifestState.step bytewiseComparator) st₀ failedRun = some st ∧
      st.logAndApply bytewiseComparator {} {} = some r ∧
      VersionSet.new.recover bytewiseComparator st.dir (fun _ => false) = some (.ok, vs) ∧
      vs.current.files 0 ≠ st.vs.current.files 0 ∧
      vs.current.files 0 ≠ (applyEdit bytewiseComparator st.vs.current (st.vs.complete {})).files 0 ∧
      r.status = .ok ∧
      VersionSet.new.recover bytewiseComparator r.next.dir (fun _ => false) = some (.ok, vs') ∧
      vs'.current.files 0 ≠ r.next.vs.current.files 0 := by
  have hcheck : ((ManifestState.create bytewiseComparator (fun _ => false) {}).any fun st₀ =>
      (run (ManifestState.step bytewiseComparator) st₀ failedRun).any fun st =>
        (st.logAndApply bytewiseComparator {} {}).any fun r =>
          (VersionSet.new.recover bytewiseComparator st.dir fun _ => false).any fun p =>
            (VersionSet.new.recover bytewiseComparator r.next.dir fun _ => false).any fun q =>
              decide (p.1 = .ok ∧ q.1 = .ok ∧ p.2.current.files 0 ≠ st.vs.current.files 0 ∧
                p.2.current.files 0 ≠
                  (applyEdit bytewiseComparator st.vs.current (st.vs.complete {})).files 0 ∧
                r.status = .ok ∧ q.2.current.files 0 ≠ r.next.vs.current.files 0)) = true := by
    decide +kernel
  grind [Option.any_eq_true]

/-! ## Replay -/

/-- Steps that write to the MANIFEST. -/
def ManifestOp.writes : ManifestOp → Bool
  | .logAndApply _ _ => true
  | .crash _ _ _ _ _ => true
  | _ => false

theorem ManifestState.step_dir {op : ManifestOp} (hop : op.writes = false)
    (h : st.step ucmp op = some st') : st'.dir = st.dir := by
  cases op with
  | logAndApply e env => cases hop
  | crash e env k memory options => cases hop
  | reopen memory options =>
    grind [step, ManifestState.reopen]
  | newFileNumber | markFileNumberUsed n | setLastSequence seq | setCompactPointer level key => cases h; rfl

theorem ManifestState.run_dir {ops : List ManifestOp} (hops : ∀ op ∈ ops, op.writes = false)
    (h : run (ManifestState.step ucmp) st ops = some st') : st'.dir = st.dir := by
  induction ops generalizing st with
  | nil => cases h; rfl
  | cons op ops ih =>
    obtain ⟨st₁, hstep, hrest⟩ := run_cons_eq_some.mp h
    grind [step_dir, mem_cons_self]

/-- The MANIFEST that is appended to consists of its records. -/
theorem ManifestState.Holds.manifest_eq (h : st.Holds ucmp m) (hopen : st.descriptor.isSome = true) :
    st.dir.manifest = some (manifestBytes m.history) := by
  obtain ⟨w, hw⟩ := Option.isSome_iff_exists.mp hopen
  obtain ⟨-, hfollows, hfile⟩ := h.follows w hw
  rw [h.stored.dir_manifest, hfile, hfollows.contents]

theorem ManifestState.Agrees.canReuse (h : st.Agrees ucmp m) (options : OpenOptions) :
    st.dir.CanReuse options :=
  fun _ => ⟨m.history.map VersionEdit.encodeTo, h.whole⟩

theorem ManifestState.Succeeds.good {op : ManifestOp} (h : st.Succeeds ucmp op) (hop : op.inMemory = true) :
    st.Good ucmp op := by
  cases op with
  | newFileNumber | markFileNumberUsed n | setLastSequence seq | setCompactPointer level key => exact h
  | logAndApply e env | reopen memory options | crash e env k memory options => cases hop

/-- **A step without failures** keeps memory and the MANIFEST in agreement. -/
theorem ManifestState.Agrees.step (hname : ucmp.name.length < 2 ^ 32) (st : ManifestState)
    (op : ManifestOp) (h : ∃ m, st.Agrees ucmp m) (hgood : st.Succeeds ucmp op) :
    ∃ st', st.step ucmp op = some st' ∧ ∃ m, st'.Agrees ucmp m := by
  obtain ⟨m, hm⟩ := h
  cases op with
  | logAndApply e env =>
    obtain ⟨r, hr, hatomic⟩ := CanApply.logAndApply hgood.1 hname hm.holds
    obtain ⟨hfailed, hopen, hholds⟩ := hatomic.ok (by rw [hgood.2 r hr]; rfl)
    exact ⟨r.next, by rw [ManifestState.step, hr]; rfl, _, hholds, hfailed.trans hm.unfailed,
      hholds.manifest_eq hopen⟩
  | crash e env k memory options => exact hgood.elim
  | reopen memory options =>
    obtain ⟨st', hopen, hholds, hfresh, hdir, -⟩ := hm.holds.stored.reopen memory (hm.canReuse options)
    exact ⟨st', hopen, m, hholds, hfresh, hdir ▸ hm.whole⟩
  | newFileNumber | markFileNumberUsed n | setLastSequence seq | setCompactPointer level key =>
    obtain ⟨vs, hstep, hkeep⟩ := st.step_inMemory rfl (hgood.good rfl)
    exact ⟨_, hstep, m, hkeep m hm.holds, hm.unfailed, hm.whole⟩

theorem recorded_sequence (hname : ucmp.name.length < 2 ^ 32) {st₀ st₁ : ManifestState}
    (hagrees : ∃ m, st₀.Agrees ucmp m) {before after : List ManifestOp}
    (hgood : Along (ManifestState.step ucmp) (ManifestState.Succeeds ucmp) st₀
      (before ++ .logAndApply e env :: after))
    (hrun : run (ManifestState.step ucmp) st₀ (before ++ .logAndApply e env :: after) = some st)
    (hafter : ∀ op ∈ after, op.writes = false)
    (hbefore : run (ManifestState.step ucmp) st₀ before = some st₁) :
    ∃ m, Stored ucmp st.dir m ∧ m.lastSequence = st₁.vs.lastSequence := by
  obtain ⟨hgood₁, hgood₂⟩ := along_append.mp hgood
  obtain ⟨st₂, hrun₂, m, hm⟩ := run_progress (ManifestState.Agrees.step hname) hagrees hgood₁
  obtain rfl := Option.some.inj (hrun₂.symm.trans hbefore)
  obtain ⟨⟨hcan, hok⟩, -⟩ := hgood₂ st₂ hbefore
  obtain ⟨r, hr, hatomic⟩ := hcan.logAndApply hname hm.holds
  rw [run_append, hbefore, Option.bind_some] at hrun
  obtain ⟨st₃, hstep, hrest⟩ := run_cons_eq_some.mp hrun
  rw [ManifestState.step, hr] at hstep
  obtain rfl : r.next = st₃ := Option.some.inj hstep
  have hstored := (hatomic.ok (by rw [hok r hr]; rfl)).2.2.stored
  rw [← ManifestState.run_dir hafter hrest] at hstored
  exact ⟨_, hstored, (st₂.recorded_spec ucmp m e env).2.2.2⟩

/-- **Replaying the MANIFEST reproduces memory.** A database is created and opened, and `LogAndApply` is
called any number of times, with reopenings and all other steps in between, and every call returns OK.
Then `Recover` on the directory returns OK. It gives the files of the current version in the same order
in every level, the same log numbers, the sequence number recorded by the last call, and a next file
number above that of every table. -/
theorem manifest_replay (hname : ucmp.name.length < 2 ^ 32) (memory : ℕ → Bool) (options : OpenOptions)
    (ops : List ManifestOp) {st₀ : ManifestState}
    (hcreate : ManifestState.create ucmp memory options = some st₀)
    (hgood : Along (ManifestState.step ucmp) (ManifestState.Succeeds ucmp) st₀ ops) :
    ∃ st vs, run (ManifestState.step ucmp) st₀ ops = some st ∧
      VersionSet.new.recover ucmp st.dir (fun _ => false) = some (.ok, vs) ∧
      (∀ level, vs.current.files level = st.vs.current.files level) ∧
      vs.logNumber = st.vs.logNumber ∧ vs.prevLogNumber = st.vs.prevLogNumber ∧
      (∀ level, ∀ f ∈ st.vs.current.files level, f.number < vs.nextFileNumber) ∧
      ∀ before e env after st₁, ops = before ++ .logAndApply e env :: after →
        (∀ op ∈ after, op.writes = false) → run (ManifestState.step ucmp) st₀ before = some st₁ →
        vs.lastSequence = st₁.vs.lastSequence := by
  obtain ⟨st₀', hcreate', hagrees, -⟩ := create_spec hname memory options
  obtain rfl := Option.some.inj (hcreate.symm.trans hcreate')
  obtain ⟨st, hrun, m, hm, -, -⟩ := run_progress (ManifestState.Agrees.step hname) ⟨_, hagrees⟩ hgood
  obtain ⟨pointer, -, hrecover⟩ := hm.stored.recover fun _ => false
  refine ⟨st, _, hrun, hrecover, fun level => ?_, hm.logNumber.symm, hm.prevLogNumber.symm,
    fun level f hf => ?_, fun before e env after st₁ hops hafter hbefore => ?_⟩
  · rw [hm.current]
  · rw [hm.current] at hf
    have hrep := hm.stored.sound.represents
    exact (hm.stored.sound.used_lt _ (hrep.used (hrep.mem_added hf))).trans (Nat.lt_succ_self _)
  · subst hops
    obtain ⟨m', hstored, hseq⟩ := recorded_sequence hname ⟨_, hagrees⟩ hgood hrun hafter hbefore
    obtain ⟨pointer', -, hrecover'⟩ := hstored.recover fun _ => false
    grind

/-- The first table of a new database is there again after replay, also by a version set that goes on with the
old MANIFEST. -/
theorem manifest_replay_example :
    ∃ st₀ st vs, ManifestState.create bytewiseComparator (fun _ => false) {} = some st₀ ∧
      run (ManifestState.step bytewiseComparator) st₀
        (firstTable ++ [.reopen (fun _ => false) { reuseLogs := true }]) = some st ∧
      VersionSet.new.recover bytewiseComparator st.dir (fun _ => false) = some (.ok, vs) ∧
      vs.current.files 0 = [exampleTable 3] ∧ st.descriptor.isSome = true ∧
      ∀ level, ∀ f ∈ st.vs.current.files level, f.number < vs.nextFileNumber := by
  have hname : bytewiseComparator.name.length < 2 ^ 32 := by decide
  obtain ⟨st₀, hcreate, hagrees, hnext, hseq⟩ := create_spec hname (fun _ => false) {}
  obtain ⟨hgood, st₁, hstep, -, hsucceeds⟩ := newFileNumber_firstEdit hagrees hnext hseq false
  have halong : Along (ManifestState.step bytewiseComparator) (ManifestState.Succeeds bytewiseComparator) st₀
      (firstTable ++ [.reopen (fun _ => false) { reuseLogs := true }]) := by
    refine ⟨hgood, ?_⟩
    rw [hstep]
    refine ⟨hsucceeds, ?_⟩
    split
    · trivial
    · exact ⟨trivial, by split <;> trivial⟩
  obtain ⟨st, vs, hrun, hrecover, hfiles, -, -, hnumbers, -⟩ := manifest_replay hname (fun _ => false) {}
    _ hcreate halong
  have hcheck : ((ManifestState.create bytewiseComparator (fun _ => false) {}).any fun st₀ =>
      (run (ManifestState.step bytewiseComparator) st₀
        (firstTable ++ [.reopen (fun _ => false) { reuseLogs := true }])).any fun st =>
          decide (st.vs.current.files 0 = [exampleTable 3] ∧ st.descriptor.isSome = true)) = true := by
    decide +kernel
  rw [hcreate, Option.any_some, hrun, Option.any_some, decide_eq_true_iff] at hcheck
  exact ⟨st₀, st, vs, hcreate, hrun, hrecover, (hfiles 0).trans hcheck.1, hcheck.2, hnumbers⟩

end RocketDb
