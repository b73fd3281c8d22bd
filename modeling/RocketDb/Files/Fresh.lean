import RocketDb.Files.State

/-! # File numbers stay fresh

The counter is above every number in use. `DB::Open` starts from the last record of the MANIFEST, which is
above all tables that the MANIFEST names and above its log number; newer logs are met one by one, and each
moves the counter past itself.

* **`FileDirectory.Recorded`** — the last record of the MANIFEST is above what the MANIFEST names.
* **`FileSession.Fresh`** — the counter is above what the session uses.
* **`DbFiles.numbers_fresh`** — both hold in every run, across restarts. -/

namespace RocketDb

open List

/-- The tables of a version have numbers below `n`. -/
def Version.Below (v : Version) (n : ℕ) : Prop := ∀ level, ∀ f ∈ v.files level, f.number < n

/-- The tables that an edit adds have numbers below `n`. -/
def VersionEdit.Below (e : VersionEdit) (n : ℕ) : Prop := ∀ f ∈ e.newFiles, f.2.number < n

/-- **The MANIFEST ends with a record** whose next file number `n` is above every number that the
MANIFEST names, and above the number of the MANIFEST. -/
structure FileDirectory.Recorded (dir : FileDirectory) (n : ℕ) : Prop where
  last : ∃ init last l, dir.records dir.current = init ++ [last] ∧
    last.nextFileNumber = some n ∧ last.logNumber = some l ∧ l < n
  tables : ∀ e ∈ dir.records dir.current, e.Below n
  descriptor : dir.current < n

/-- The edit of a `LogAndApply` in progress has the next file number `n`, which is above its own
numbers. -/
structure Applying.Below (a : Applying) (n : ℕ) : Prop where
  nextFile : a.edit.nextFileNumber = some n
  log : ∃ l, a.edit.logNumber = some l ∧ l < n
  tables : a.edit.Below n

namespace FileSession

/-- **The counter is above every number in use.** -/
structure Fresh (s : FileSession) (dir : FileDirectory) : Prop where
  recorded : ∃ n, dir.Recorded n ∧ n ≤ s.nextFileNumber ∧
    ∀ a ∈ s.applying, ∃ m, n ≤ m ∧ m ≤ s.nextFileNumber ∧ a.Below m ∧
      s.current.version.Below m ∧ s.manifestFileNumber < m
  /-- `DB::Open` has replayed all logs before it calls `LogAndApply`. -/
  replayed : ∀ a ∈ s.applying, a.caller = .opening →
    s.logfileNumber.isSome ∧ ∀ o ∈ s.opening, o.logs = []
  descriptor : s.descriptor → s.manifestFileNumber = dir.current
  versions : ∀ v ∈ s.versions, v.version.Below s.nextFileNumber
  pending : ∀ n ∈ s.pendingOutputs, n < s.nextFileNumber
  building : ∀ n ∈ s.building, n < s.nextFileNumber
  inputs : ∀ c ∈ s.compaction, ∀ f ∈ c.inputs, f.2.number < s.nextFileNumber
  outputs : ∀ c ∈ s.compaction, ∀ n ∈ c.outputs, n < s.nextFileNumber
  newFiles : ∀ o ∈ s.opening, ∀ f ∈ o.newFiles, f.2.number < s.nextFileNumber
  logfile : ∀ n ∈ s.logfileNumber, n < s.nextFileNumber
  logNumber : s.logNumber < s.nextFileNumber
  manifest : s.manifestFileNumber < s.nextFileNumber
  /-- A log that is found is above the counter only until it is replayed. -/
  logs : ∀ n ∈ dir.logs, n < s.nextFileNumber ∨ ∃ o ∈ s.opening, n ∈ o.logs
  hasLog : s.opening = none → s.logfileNumber.isSome

end FileSession

variable {ucmp : Comparator} {dir dir' : FileDirectory} {s s' : FileSession} {n m : ℕ} {e : VersionEdit}
  {v : Version} {f : FileMetaData} {level : ℕ}

theorem Version.Below.mono (h : v.Below n) (hnm : n ≤ m) : v.Below m :=
  fun level f hf => (h level f hf).trans_le hnm

theorem VersionEdit.Below.mono (h : e.Below n) (hnm : n ≤ m) : e.Below m :=
  fun f hf => (h f hf).trans_le hnm

/-- An edit brings no number that is not its own. -/
theorem Version.Below.applyEdit (hv : v.Below n) (he : e.Below n) :
    (applyEdit ucmp v e).Below n := by
  intro level f hf
  obtain hold | hnew := mem_of_mem_applyEdit hf
  · exact hv level f hold
  · exact he _ hnew

theorem Version.Below.listing (hv : v.Below n) : ∀ f ∈ v.listing, f.2.number < n := by
  rintro ⟨level, f⟩ hf
  exact hv level f (mem_listing.mp hf).2

theorem mem_addedFiles_builderApply {b : ℕ → LevelState} (h : f ∈ (builderApply ucmp b e level).addedFiles) :
    f ∈ (b level).addedFiles ∨ (level, f) ∈ e.newFiles := by
  obtain hold | hnew := mem_foldl_addFile e.newFiles h
  · rw [(foldl_deleteFile (n := 0) e.deletedFiles).1] at hold
    exact .inl hold
  · exact .inr hnew

/-- The files that `Recover` finds were added by some edit. -/
theorem mem_recovered {edits : List VersionEdit}
    (h : f ∈ (builderSaveTo ucmp .empty (builderOf ucmp edits)).files level) :
    ∃ e ∈ edits, (level, f) ∈ e.newFiles := by
  have hadded : f ∈ (builderOf ucmp edits level).addedFiles := by
    simp only [builderSaveTo] at h
    split_ifs at h
    · rw [mem_filter, TwoWayMerge.twoWayMerge_eq, mem_merge] at h
      exact h.1.resolve_left not_mem_nil
    · cases h
  -- the records go into one builder, one after the other
  have hfold : ∀ b : ℕ → LevelState, f ∈ (edits.foldl (builderApply ucmp) b level).addedFiles →
      f ∈ (b level).addedFiles ∨ ∃ e ∈ edits, (level, f) ∈ e.newFiles := by
    clear h hadded
    induction edits with
    | nil => exact fun b hf => .inl hf
    | cons e edits ih =>
      intro b hf
      obtain hold | ⟨e', he', hf'⟩ := ih _ hf
      · grind [mem_addedFiles_builderApply, mem_cons_self]
      · exact .inr ⟨e', mem_cons_of_mem _ he', hf'⟩
  exact (hfold emptyBuilder hadded).resolve_left not_mem_nil

namespace FileDirectory

theorem mem_logs : n ∈ dir.logs ↔ .log n ∈ dir.files := by
  grind [logs]

variable {file : DbFile}

/-- A new log is the only one that a directory gains. -/
theorem mem_logs_create (h : n ∈ (dir.create file).logs) :
    file = .log n ∨ n ∈ dir.logs := by
  rw [mem_logs] at h ⊢
  obtain heq | hold := mem_cons.mp h
  · exact .inl heq.symm
  · exact .inr (mem_of_mem_filter hold)

theorem mem_logs_remove (h : n ∈ (dir.remove file).logs) : n ∈ dir.logs := by
  rw [mem_logs] at h ⊢
  exact mem_of_mem_filter h

/-- What a MANIFEST records depends on its records alone. -/
theorem Recorded.congr (h : dir.Recorded n) (hrecords : dir'.records = dir.records)
    (hcurrent : dir'.current = dir.current) : dir'.Recorded n := by
  obtain ⟨hlast, htables, hdesc⟩ := h
  constructor
  · rwa [hrecords, hcurrent]
  · rwa [hrecords, hcurrent]
  · rwa [hcurrent]

end FileDirectory

namespace FileSession

/-- An edit that is written records numbers below the counter. -/
theorem recorded_recordEdit {a : Applying} (ha : a.Below m) (hcurrent : s.current.version.Below m)
    (hmanifest : s.manifestFileNumber < m) (hdir : dir.Recorded n) (hnm : n ≤ m)
    (hdesc : s.descriptor → s.manifestFileNumber = dir.current) :
    (s.recordEdit dir a.edit).Recorded m := by
  obtain ⟨l, hl, hlm⟩ := ha.log
  simp only [recordEdit]
  split <;> rename_i hreuse
  · rw [hdesc hreuse]
    constructor
    · exact ⟨dir.records dir.current, a.edit, l, Function.update_self .., ha.nextFile, hl, hlm⟩
    · simp only [Function.update_self, mem_append, mem_singleton]
      rintro e (hold | rfl)
      · exact (hdir.tables e hold).mono hnm
      · exact ha.tables
    · exact hdir.descriptor.trans_le hnm
  · constructor
    · exact ⟨[s.snapshot], a.edit, l, Function.update_self .., ha.nextFile, hl, hlm⟩
    · simp only [Function.update_self, mem_cons, not_mem_nil, or_false]
      rintro e (rfl | rfl)
      · exact hcurrent.listing
      · exact ha.tables
    · exact hmanifest

namespace Fresh

section

variable (h : s.Fresh dir)

include h

/-- The counter may be raised. -/
theorem raise (hle : s.nextFileNumber ≤ m) :
    Fresh { s with nextFileNumber := m } dir where
  recorded := by
    obtain ⟨n, hrec, hn, happly⟩ := h.recorded
    grind
  replayed := h.replayed
  descriptor := h.descriptor
  versions := fun v hv => (h.versions v hv).mono hle
  pending := fun n hn => (h.pending n hn).trans_le hle
  building := fun n hn => (h.building n hn).trans_le hle
  inputs := fun c hc f hf => (h.inputs c hc f hf).trans_le hle
  outputs := fun c hc n hn => (h.outputs c hc n hn).trans_le hle
  newFiles := fun o ho f hf => (h.newFiles o ho f hf).trans_le hle
  logfile := fun n hn => (h.logfile n hn).trans_le hle
  logNumber := h.logNumber.trans_le hle
  manifest := h.manifest.trans_le hle
  logs := fun n hn => (h.logs n hn).imp_left (Nat.lt_of_lt_of_le · hle)
  hasLog := h.hasLog

/-- Files may go, and others than logs may come. -/
theorem changeDir (hrecords : dir'.records = dir.records) (hcurrent : dir'.current = dir.current)
    (hlogs : ∀ n ∈ dir'.logs, n ∈ dir.logs) :
    s.Fresh dir' := by
  obtain ⟨n, hrec, hrest⟩ := h.recorded
  exact { h with
    recorded := ⟨n, hrec.congr hrecords hcurrent, hrest⟩
    descriptor := fun hd => (h.descriptor hd).trans hcurrent.symm
    logs := fun n hn => h.logs n (hlogs n hn) }

theorem createTable (number : ℕ) : s.Fresh (dir.create (.table number)) :=
  h.changeDir rfl rfl fun n hn => (FileDirectory.mem_logs_create hn).resolve_left (by simp)

theorem removeFile (file : DbFile) : s.Fresh (dir.remove file) :=
  h.changeDir rfl rfl fun _ => FileDirectory.mem_logs_remove

/-- A new table takes the next number. -/
theorem newTable : s.newTable.Fresh (dir.create (.table s.nextFileNumber)) := by
  have hraise := (h.raise (Nat.le_succ _)).createTable s.nextFileNumber
  refine { hraise with pending := ?_ }
  exact forall_mem_cons.mpr ⟨Nat.lt_succ_self _, hraise.pending⟩

/-- So does a new log. -/
theorem newLog :
    Fresh { s.newFileNumber with logfileNumber := some s.nextFileNumber }
      (dir.create (.log s.nextFileNumber)) := by
  have hraise := h.raise (Nat.le_succ _)
  obtain ⟨n, hrec, hrest⟩ := hraise.recorded
  refine { hraise with
    recorded := ⟨n, hrec.congr rfl rfl, hrest⟩
    replayed := fun a ha hc => ⟨rfl, (h.replayed a ha hc).2⟩
    logfile := ?_
    logs := fun k hk => ?_
    hasLog := fun _ => rfl }
  · rintro k ⟨⟩
    exact Nat.lt_succ_self _
  · obtain heq | hold := FileDirectory.mem_logs_create hk
    · obtain rfl := DbFile.log.inj heq
      exact .inl (Nat.lt_succ_self _)
    · exact hraise.logs k hold

theorem endTable (number : ℕ) : (s.endTable number).Fresh dir :=
  { h with
    pending := fun n hn => h.pending n (mem_of_mem_filter hn)
    building := fun n hn => by cases hn }

/-- `LogAndApply` begins with an edit of numbers that are in use. -/
theorem beginApply {caller : ApplyCaller} {edit : VersionEdit}
    (hlog : ∀ l ∈ edit.logNumber, l < s.nextFileNumber) (htables : edit.Below s.nextFileNumber)
    (hopening : caller = .opening → s.logfileNumber.isSome ∧ ∀ o ∈ s.opening, o.logs = []) :
    (s.beginApply caller edit).Fresh dir := by
  obtain ⟨n, hrec, hn, -⟩ := h.recorded
  refine { h with
    recorded := ⟨n, hrec, hn, ?_⟩
    replayed := by
      rintro a ⟨⟩
      exact hopening }
  rintro a ⟨⟩
  refine ⟨s.nextFileNumber, hn, le_rfl, ⟨rfl, ⟨_, rfl, ?_⟩, htables⟩, ?_, h.manifest⟩
  · cases hl : edit.logNumber with
    | none => exact h.logNumber
    | some l => exact hlog l hl
  · exact h.versions s.current (mem_append_right _ mem_cons_self)

end

theorem markFileNumberUsed_eq (s : FileSession) (n : ℕ) :
    s.markFileNumberUsed n = { s with nextFileNumber := max s.nextFileNumber (n + 1) } := by
  unfold FileSession.markFileNumberUsed
  split <;> rename_i hn
  · rw [max_eq_right (hn.trans (Nat.le_succ n))]
  · rw [max_eq_left (Nat.lt_of_not_le hn)]

/-- A log that was replayed moves the counter past itself. -/
theorem endRecoverLog (h : s.Fresh dir) {o : Opening} (ho : s.opening = some o)
    (hidle : s.applying = none) {logs : List ℕ} (hlogs : o.logs = n :: logs) (reuse : Bool) :
    (s.endRecoverLog o n logs reuse).Fresh dir := by
  rw [FileSession.endRecoverLog, markFileNumberUsed_eq]
  have hraise := h.raise (le_max_left s.nextFileNumber (n + 1))
  have hlt : n < max s.nextFileNumber (n + 1) := Nat.lt_of_lt_of_le (Nat.lt_succ_self n) (le_max_right ..)
  refine { hraise with replayed := ?_, newFiles := ?_, logfile := ?_, logs := ?_, hasLog := nofun }
  · rintro a ha
    rw [hidle] at ha
    cases ha
  · rintro o' ⟨⟩
    exact hraise.newFiles o ho
  · grind [Fresh]
  · intro k hk
    obtain hk' | ⟨o', ho', hk'⟩ := hraise.logs k hk
    · exact .inl hk'
    · obtain rfl := Option.some.inj (ho.symm.trans ho')
      rw [hlogs] at hk'
      obtain rfl | hk' := mem_cons.mp hk'
      · exact .inl hlt
      · exact .inr ⟨_, rfl, hk'⟩

variable {a : FileAction}

section

variable (h : s.Fresh dir)

include h

/-- The steps of `DB::Open`. -/
theorem openStep {o : Opening} (ho : s.opening = some o) (hstep : s.openStep dir o a = some (dir', s')) :
    s'.Fresh dir' := by
  cases a <;> simp only [FileSession.openStep, reduceCtorEq] at hstep
  case beginTable =>
    split at hstep <;> cases hstep
    have hnew := h.newTable
    refine { hnew with building := ?_ }
    rintro n ⟨⟩
    exact Nat.lt_succ_self _
  case endTable table =>
    split at hstep <;> try contradiction
    rename_i n hn
    split at hstep <;> cases hstep
    rename_i htable
    have hend := h.endTable n
    refine { hend with replayed := ?_, newFiles := ?_, logs := ?_, hasLog := nofun }
    · rintro a ha hc
      refine ⟨(h.replayed a ha hc).1, ?_⟩
      rintro o' ⟨⟩
      exact (h.replayed a ha hc).2 o ho
    · rintro o' ⟨⟩ f hf
      obtain hold | hnew := mem_append.mp hf
      · exact h.newFiles o ho f hold
      · obtain ⟨g, hg, rfl⟩ := mem_map.mp hnew
        have hnum : g.2.number = n := by
          grind
        exact hnum ▸ h.building n hn
    · exact fun k hk => (h.logs k hk).imp_right fun ⟨o', ho', hk'⟩ => by
        obtain rfl := Option.some.inj (ho.symm.trans ho')
        exact ⟨_, rfl, hk'⟩
  case endRecoverLog reuse =>
    split at hstep <;> try contradiction
    rename_i n logs hlogs
    split at hstep <;> cases hstep
    rename_i hidle
    exact h.endRecoverLog ho (by simpa using hidle.1.2.1) hlogs reuse
  case newLog =>
    split at hstep <;> cases hstep
    exact h.newLog
  case saveManifest =>
    split at hstep <;> cases hstep
    rename_i hready
    refine h.beginApply (fun l hl => h.logfile l hl) (fun f hf => h.newFiles o ho f hf)
      fun _ => ⟨hready.2.1, ?_⟩
    rintro o' ho'
    obtain rfl := Option.some.inj (ho.symm.trans ho')
    exact hready.1
  case endOpen =>
    split at hstep <;> cases hstep
    rename_i hready
    refine { h with
      replayed := fun a ha hc => ⟨hready.2.1, nofun⟩
      newFiles := nofun
      logs := fun k hk => ?_
      hasLog := fun _ => hready.2.1 }
    obtain hlt | ⟨o', ho', hk'⟩ := h.logs k hk
    · exact .inl hlt
    · obtain rfl := Option.some.inj (ho.symm.trans ho')
      rw [hready.1] at hk'
      cases hk'

/-- Versions may come and go, as long as their numbers are in use. -/
theorem changeVersions {older : List LiveVersion} (current : LiveVersion)
    (holder : ∀ v ∈ older, v.version.Below s.nextFileNumber)
    (hcurrent : current.version = s.current.version) :
    Fresh { s with older := older, current := current } dir := by
  have hcur := h.versions s.current (mem_append_right _ mem_cons_self)
  refine { h with
    recorded := hcurrent ▸ h.recorded
    versions := fun v hv => ?_ }
  obtain hold | hnew := mem_append.mp hv
  · exact holder v hold
  · grind

theorem older_below :
    ∀ v ∈ s.older, v.version.Below s.nextFileNumber :=
  fun v hv => h.versions v (mem_append_left _ hv)

theorem unref (id : ℕ) : (s.unref id).Fresh dir := by
  unfold FileSession.unref
  split
  · exact h.changeVersions _ h.older_below rfl
  · refine h.changeVersions _ (fun v hv => ?_) rfl
    obtain ⟨x, hx, rfl⟩ := mem_map.mp (mem_of_mem_filter hv)
    split <;> exact h.older_below x hx

theorem readerUnref (id : ℕ) : (s.readerUnref id).Fresh dir := by
  refine (h.changeVersions _ (fun v hv => ?_) ?_).unref id
  · obtain ⟨x, hx, rfl⟩ := mem_map.mp hv
    split <;> exact h.older_below x hx
  · dsimp only
    split <;> rfl

end

theorem unref_nextFileNumber (s : FileSession) (id : ℕ) :
    (s.unref id).nextFileNumber = s.nextFileNumber := by
  unfold FileSession.unref
  split <;> rfl

section

variable (h : s.Fresh dir)

include h

theorem afterApply_compaction : (s.afterApply .compaction).Fresh dir := by
  simp only [FileSession.afterApply]
  split
  · exact h
  · rename_i c hc
    have hunref := h.unref c.inputVersion
    refine { hunref with pending := fun n hn => ?_, inputs := nofun, outputs := nofun }
    rw [unref_nextFileNumber]
    exact h.pending n (mem_of_mem_filter hn)

theorem afterFailure (caller : ApplyCaller) :
    (s.afterFailure caller).Fresh dir := by
  unfold FileSession.afterFailure
  split
  · exact { h.afterApply_compaction with }
  · exact { h with }

/-- The steps of an open database. -/
theorem runStep (hstep : s.runStep dir a = some (dir', s')) : s'.Fresh dir' := by
  cases a <;> simp only [FileSession.runStep, reduceCtorEq] at hstep
  case switchLog created =>
    split at hstep <;> try contradiction
    split at hstep <;> cases hstep
    · exact { h.newLog with }
    · simpa [FileSession.reuseFileNumber, FileSession.newFileNumber] using h
  case beginTable =>
    split at hstep <;> cases hstep
    have hnew := h.newTable
    refine { hnew with building := ?_ }
    rintro n ⟨⟩
    exact Nat.lt_succ_self _
  case endTable table =>
    split at hstep <;> try contradiction
    rename_i n hn
    split at hstep <;> cases hstep
    rename_i htable
    refine (h.endTable n).beginApply (fun l hl => h.logfile l hl) ?_ nofun
    intro f hf
    have hnum : f.2.number = n := by
      grind [flushEdit]
    exact hnum ▸ h.building n hn
  case failTable =>
    split at hstep <;> cases hstep
    exact { (h.endTable _).removeFile _ with }
  case startCompaction level inputs =>
    split at hstep <;> cases hstep
    rename_i hready
    have hcur := h.versions s.current (mem_append_right _ mem_cons_self)
    have href := h.changeVersions { s.current with refs := s.current.refs + 1 } h.older_below rfl
    refine { href with inputs := ?_, outputs := ?_ }
    · rintro c ⟨⟩ f hf
      exact hcur.listing f (hready.2.2.2 f hf)
    · rintro c ⟨⟩ k hk
      cases hk
  case openOutput =>
    split at hstep <;> try contradiction
    rename_i c hc
    split at hstep <;> cases hstep
    have hnew := h.newTable
    refine { hnew with inputs := ?_, outputs := ?_ }
    · rintro c' ⟨⟩
      exact hnew.inputs c hc
    · rintro c' ⟨⟩ k hk
      obtain hold | hlast := mem_append.mp hk
      · exact hnew.outputs c hc k hold
      · obtain rfl := mem_singleton.mp hlast
        exact Nat.lt_succ_self _
  case installCompaction outputs =>
    split at hstep <;> try contradiction
    rename_i c hc
    split at hstep <;> cases hstep
    rename_i hready
    refine h.beginApply nofun ?_ nofun
    intro f hf
    obtain ⟨g, hg, rfl⟩ := mem_map.mp hf
    exact h.outputs c hc _ (hready.2 ▸ mem_map_of_mem hg)
  case trivialMove =>
    split at hstep <;> try contradiction
    rename_i c hc
    split at hstep <;> cases hstep
    refine h.beginApply nofun ?_ nofun
    intro f hf
    obtain ⟨g, hg, rfl⟩ := mem_map.mp hf
    obtain ⟨x, hx, rfl⟩ := mem_map.mp hg
    exact h.inputs c hc x hx
  case failCompaction =>
    split at hstep <;> cases hstep
    exact h.afterFailure _
  case removeObsoleteFiles =>
    split at hstep <;> cases hstep
    exact { h with }
  case removeFile removed =>
    split at hstep <;> cases hstep
    split
    · exact { h.removeFile _ with }
    · exact { h with }
  case ref =>
    cases hstep
    exact h.changeVersions _ h.older_below rfl
  case unref id =>
    split at hstep <;> cases hstep
    exact h.readerUnref id

theorem endIdle : Fresh { s with applying := none } dir := by
  obtain ⟨n, hrec, hn, -⟩ := h.recorded
  exact { h with
    recorded := ⟨n, hrec, hn, fun a ha => absurd ha (Option.not_mem_none a)⟩
    replayed := fun a ha => absurd ha (Option.not_mem_none a) }

/-- `LogAndApply` has written the MANIFEST. -/
theorem endRecorded {a : Applying} (ha : s.applying = some a) :
    Fresh { s with applying := none, descriptor := true } (s.recordEdit dir a.edit) := by
  obtain ⟨n, hrec, hn, happly⟩ := h.recorded
  obtain ⟨m, hnm, hm, hbelow, hcur, hman⟩ := happly a ha
  have hedit := recorded_recordEdit hbelow hcur hman hrec hnm h.descriptor
  refine { h with
    recorded := ⟨m, hedit, hm, fun a ha => absurd ha (Option.not_mem_none a)⟩
    replayed := fun a ha => absurd ha (Option.not_mem_none a)
    descriptor := fun _ => ?_
    logs := fun k hk => h.logs k ?_ }
  · grind [recordEdit, Fresh]
  · simp only [recordEdit] at hk
    split at hk
    · exact hk
    · exact (FileDirectory.mem_logs_create hk).resolve_left (by simp)

/-- The new version becomes the current one. -/
theorem appendVersion (hidle : s.applying = none) {v : Version} (hv : v.Below s.nextFileNumber) :
    (s.appendVersion v).Fresh dir := by
  have hcur := h.versions s.current (mem_append_right _ mem_cons_self)
  obtain ⟨n, hrec, hn, -⟩ := h.recorded
  refine { h with
    recorded := ⟨n, hrec, hn, fun a ha => absurd (hidle.symm.trans ha) (by simp)⟩
    versions := fun x hx => ?_ }
  obtain hold | hnew := mem_append.mp hx
  · simp only [FileSession.appendVersion] at hold
    split at hold
    · exact h.older_below x hold
    · obtain hold | hlast := mem_append.mp hold
      · exact h.older_below x hold
      · obtain rfl := mem_singleton.mp hlast
        exact hcur
  · obtain rfl := mem_singleton.mp hnew
    exact hv

theorem afterApply (caller : ApplyCaller)
    (hopening : caller = .opening → s.logfileNumber.isSome ∧ ∀ o ∈ s.opening, o.logs = []) :
    (s.afterApply caller).Fresh dir := by
  cases caller with
  | opening =>
    have hready := hopening rfl
    refine { h with
      replayed := fun a ha hc => ⟨hready.1, nofun⟩
      newFiles := nofun
      logs := fun k hk => .inl ?_
      hasLog := fun _ => hready.1 }
    obtain hlt | ⟨o, ho, hk'⟩ := h.logs k hk
    · exact hlt
    · rw [hready.2 o ho] at hk'
      cases hk'
  | flush => exact { h with }
  | compaction => exact h.afterApply_compaction

end

end Fresh

end FileSession

namespace DbFiles

/-- **The numbers of a database are fresh**: the MANIFEST is in order, and so is the session if there
is one. -/
structure Fresh (db : DbFiles) : Prop where
  dir : ∃ n, db.dir.Recorded n
  session : ∀ s ∈ db.session, s.Fresh db.dir

/-- A database that `NewDB` has made. -/
theorem fresh_newDB : Fresh .newDB where
  dir := by
    have hrecords : FileDirectory.newDB.records FileDirectory.newDB.current =
        [] ++ [{ logNumber := some 0, nextFileNumber := some 2, lastSequence := some 0 }] := rfl
    refine ⟨2, ⟨[], _, 0, hrecords, rfl, rfl, by decide⟩, ?_, by decide⟩
    intro e he
    change e ∈ FileDirectory.newDB.records FileDirectory.newDB.current at he
    rw [hrecords] at he
    obtain rfl := mem_singleton.mp he
    exact fun f hf => absurd hf not_mem_nil
  session := fun s hs => absurd hs (Option.not_mem_none s)

/-- `VersionSet::Recover` starts above what the MANIFEST names. -/
theorem fresh_recover {reuseLogs reusesManifest : Bool} (hdir : dir.Recorded n)
    (h : dir.recover ucmp reuseLogs reusesManifest = some s) : s.Fresh dir := by
  have hdir' := hdir
  obtain ⟨⟨init, last, l, hrecords, hnext, hlog, hl⟩, htables, hcurrent⟩ := hdir
  have hnextFile : lastSet VersionEdit.nextFileNumber none (dir.records dir.current) = some n := by
    rw [hrecords, lastSet_concat, hnext, Option.some_or]
  have hlogNumber : lastSet VersionEdit.logNumber none (dir.records dir.current) = some l := by
    rw [hrecords, lastSet_concat, hlog, Option.some_or]
  have hbelow : (builderSaveTo ucmp .empty (builderOf ucmp (dir.records dir.current))).Below n := by
    intro level f hf
    obtain ⟨e, he, hfe⟩ := mem_recovered hf
    exact htables e he _ hfe
  simp only [FileDirectory.recover, hnextFile, hlogNumber, Option.some.injEq] at h
  subst h
  refine
    { recorded := ⟨n, hdir', Nat.le_succ n, nofun⟩
      replayed := nofun
      descriptor := fun hd => if_pos hd
      versions := ?_
      pending := nofun
      building := nofun
      inputs := nofun
      outputs := nofun
      newFiles := ?_
      logfile := nofun
      logNumber := Nat.lt_succ_of_lt hl
      manifest := ?_
      logs := ?_
      hasLog := nofun }
  · intro v hv
    obtain rfl := mem_singleton.mp hv
    exact hbelow.mono (Nat.le_succ n)
  · rintro o ⟨⟩ f hf
    cases hf
  · grind
  · intro k hk
    obtain hlt | hge := Nat.lt_or_ge k l
    · exact .inl (Nat.lt_succ_of_lt (hlt.trans hl))
    · simp_all

/-- `LogAndApply` ends, with any result. -/
theorem fresh_endApply (h : s.Fresh dir) {a : Applying} (ha : s.applying = some a)
    (result : ApplyResult) : (s.endApply ucmp dir a result).Fresh := by
  obtain ⟨n, hrec, hn, happly⟩ := h.recorded
  obtain ⟨m, hnm, hm, hbelow, hcur, hman⟩ := happly a ha
  obtain ⟨l, hl, hlm⟩ := hbelow.log
  have hreplayed := h.replayed a ha
  have hversion : (applyEdit ucmp s.current.version a.edit).Below s.nextFileNumber :=
    (hcur.applyEdit hbelow.tables).mono hm
  unfold FileSession.endApply
  dsimp only
  split
  · -- success: the version is installed
    have hrecorded : FileSession.Fresh { s with applying := none, descriptor := true }
        (if result.recorded || !s.descriptor then s.recordEdit dir a.edit else dir) := by
      split <;> rename_i hres
      · exact h.endRecorded ha
      · have hdesc : s.descriptor = true := by simp_all
        exact hdesc ▸ h.endIdle
    have hlog : FileSession.Fresh
        { s with applying := none, descriptor := true, logNumber := a.edit.logNumber.getD 0 }
        (if result.recorded || !s.descriptor then s.recordEdit dir a.edit else dir) :=
      { hrecorded with logNumber := hl ▸ hlm.trans_le hm }
    have hdone := (hlog.appendVersion rfl hversion).afterApply a.caller hreplayed
    obtain ⟨k, hk, -⟩ := hlog.recorded
    exact ⟨⟨k, hk⟩, fun s' hs' => Option.some.inj hs' ▸ hdone⟩
  · have hrecorded : FileSession.Fresh { s with applying := none }
        (if result.recorded && s.descriptor then s.recordEdit dir a.edit else dir) := by
      split <;> rename_i hres
      · have hdesc : s.descriptor = true := by simp_all
        exact hdesc ▸ h.endRecorded ha
      · exact h.endIdle
    obtain ⟨k, hk, -⟩ := hrecorded.recorded
    by_cases hopen : a.caller = .opening
    · simp only [if_pos hopen]
      exact ⟨⟨k, hk⟩, fun s' hs' => absurd hs' (Option.not_mem_none s')⟩
    · simp only [if_neg hopen]
      exact ⟨⟨k, hk⟩, fun s' hs' => Option.some.inj hs' ▸ hrecorded.afterFailure a.caller⟩

/-- **Every step of a session keeps numbers fresh.** -/
theorem fresh_sessionStep (h : s.Fresh dir) {a : FileAction} {db' : DbFiles}
    (hstep : s.step ucmp dir a = some db') : db'.Fresh := by
  have hdir : ∃ n, dir.Recorded n := h.recorded.imp fun _ h => h.1
  have hsession : ∀ b : FileAction,
      (s.sessionStep dir b).map (fun r => (⟨r.1, some r.2⟩ : DbFiles)) = some db' → db'.Fresh := by
    intro b hb
    obtain ⟨⟨dir', s'⟩, hr, rfl⟩ := Option.map_eq_some_iff.mp hb
    have hfresh : s'.Fresh dir' := by
      unfold FileSession.sessionStep at hr
      split at hr <;> rename_i ho
      · exact h.openStep ho hr
      · exact h.runStep hr
    exact ⟨hfresh.recorded.imp fun _ h => h.1, fun x hx => Option.some.inj hx ▸ hfresh⟩
  cases a with
  | crash recorded =>
    simp only [FileSession.step] at hstep
    split at hstep <;> cases hstep
    · rename_i a ha
      refine ⟨?_, fun x hx => absurd hx (Option.not_mem_none x)⟩
      dsimp only
      split
      · exact (h.endRecorded ha).recorded.imp fun _ h => h.1
      · exact hdir
    · exact ⟨hdir, fun x hx => absurd hx (Option.not_mem_none x)⟩
  | endApply result =>
    grind [FileSession.step, fresh_endApply]
  | _ => exact hsession _ hstep

/-- So does every step, a crash and a restart among them. -/
theorem Fresh.step {db db' : DbFiles} {a : FileAction} (h : db.Fresh)
    (hstep : db.step ucmp a = some db') : db'.Fresh := by
  obtain ⟨n, hdir⟩ := h.dir
  unfold DbFiles.step at hstep
  split at hstep
  · exact fresh_sessionStep (h.session _ ‹_›) hstep
  · split at hstep <;> try contradiction
    obtain ⟨s, hs, rfl⟩ := Option.map_eq_some_iff.mp hstep
    exact ⟨⟨n, hdir⟩, fun s' hs' => Option.some.inj hs' ▸ fresh_recover hdir hs⟩

/-- **File numbers stay fresh.** In every run of a database, across restarts: once `DB::Open` has
finished, the counter is above every table of a linked version, every pending output, the log, the
MANIFEST, and every log in the directory; and while it recovers, above every table of the recovered
version and every table built in the course of it. So the number that `NewFileNumber` would return
names none of them. -/
theorem numbers_fresh {as : List FileAction} {db : DbFiles}
    (hrun : Transition.run (step ucmp) newDB as = some db) (hs : db.session = some s) :
    (∀ v ∈ s.versions, ∀ level, ∀ f ∈ v.version.files level, f.number < s.nextFileNumber) ∧
      (∀ n ∈ s.pendingOutputs, n < s.nextFileNumber) ∧
      (s.opening = none →
        (∃ n, s.logfileNumber = some n ∧ n < s.nextFileNumber) ∧
          s.manifestFileNumber < s.nextFileNumber ∧ ∀ n ∈ db.dir.logs, n < s.nextFileNumber) ∧
      ∀ o, s.opening = some o → ∀ f ∈ o.newFiles, f.2.number < s.nextFileNumber := by
  have hfresh := (Transition.run_invariant (fun _ _ _ => Fresh.step) fresh_newDB hrun).session s hs
  refine ⟨hfresh.versions, hfresh.pending, fun hopen => ⟨?_, hfresh.manifest, fun n hn => ?_⟩,
    hfresh.newFiles⟩
  · obtain ⟨n, hn⟩ := Option.isSome_iff_exists.mp (hfresh.hasLog hopen)
    exact ⟨n, hn, hfresh.logfile n hn⟩
  · refine (hfresh.logs n hn).resolve_right ?_
    rintro ⟨o, ho, -⟩
    exact absurd (hopen.symm.trans ho) (by simp)

/-- A database is opened and switches to log 4, and the process stops while table 5 is built. The
MANIFEST only knows that numbers from 4 on are free. The next `DB::Open` makes 4 the number of its
MANIFEST, replays logs 3 and 4, builds table 5 again and creates log 6; then a log cannot be
created. -/
def restartRun : List FileAction :=
  [.recover false false, .newLog, .saveManifest, .endApply ⟨true, true⟩, .switchLog true, .beginTable,
    .crash false,
    .recover false false, .beginTable,
    .endTable (some (0, ⟨5, 1, ⟨[], 0⟩, ⟨[], 0⟩⟩)), .endRecoverLog false, .endRecoverLog false,
    .newLog, .saveManifest, .endApply ⟨true, true⟩, .switchLog false]

/-- Where `restartRun` leads. -/
def RestartEnd (db : DbFiles) : Prop :=
  db.session.any (fun s => s.opening.isNone && s.nextFileNumber == 7 && s.manifestFileNumber == 4)

instance decidableRestartEnd (db : DbFiles) : Decidable (RestartEnd db) :=
  inferInstanceAs (Decidable (_ = true))

/-- A database is written to, crashes and is opened again: its numbers are above those of its logs. -/
theorem numbers_fresh_restartRun :
    ∃ db s, Transition.run (step bytewiseComparator) newDB restartRun = some db ∧
      db.session = some s ∧ s.opening = none ∧ s.nextFileNumber = 7 ∧ s.manifestFileNumber = 4 ∧
      ∀ n ∈ db.dir.logs, n < s.nextFileNumber := by
  have hreach : ∃ db, Transition.run (step bytewiseComparator) newDB restartRun = some db ∧
      RestartEnd db := Transition.reaches_of_any (by decide +kernel)
  obtain ⟨db, hrun, hend⟩ := hreach
  cases hs : db.session with
  | none => simp [RestartEnd, hs] at hend
  | some s =>
    obtain ⟨⟨hopen, hnext⟩, hmanifest⟩ :
        (s.opening = none ∧ s.nextFileNumber = 7) ∧ s.manifestFileNumber = 4 := by
      simpa [RestartEnd, hs] using hend
    have hfresh := numbers_fresh hrun hs
    exact ⟨db, s, hrun, hs, hopen, hnext, hmanifest, (hfresh.2.2.1 hopen).2.2⟩

end DbFiles

end RocketDb
