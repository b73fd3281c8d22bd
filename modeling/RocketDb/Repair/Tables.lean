import RocketDb.Engine.Lookup
import RocketDb.Repair.Repairer

/-! # Reads after a repair

Without faults the tables of a repaired database are those that were found and one for each log that is not
empty, numbered after them in the order of the listing. All are in level 0, where the highest number wins.

* **`ClosedDirectory.ranked`** — the contents of the logs and tables as `Get` will meet them.
* **`dbGet_reopen`** — after the repair `Get` answers with the first of them that knows the key. -/

namespace RocketDb

open KeyOrder Newest List

variable {cfg : Config} {ucmp : Comparator} {dir : ClosedDirectory} {r : Repairer} {u : Slice} {s : ℕ}
  {next : ℕ}

/-! ## The files that are found -/

theorem TableStore.le_markFileNumberUsed (store : TableStore) (n : ℕ) :
    store.nextFileNumber ≤ (store.markFileNumberUsed n).nextFileNumber ∧
      n < (store.markFileNumberUsed n).nextFileNumber := by
  grind [markFileNumberUsed]

@[simp] theorem TableStore.tables_markFileNumberUsed (store : TableStore) (n : ℕ) :
    (store.markFileNumberUsed n).tables = store.tables := by
  rw [markFileNumberUsed]
  split_ifs <;> rfl

/-- `FindFiles` sorts the names by kind and keeps the next file number above the tables. -/
theorem Repairer.findFile_spec (r : Repairer) (name : Slice) :
    (r.findFile name).logs = r.logs ++ (numberOf .kLogFile name).toList ∧
      (r.findFile name).tableNumbers = r.tableNumbers ++ (numberOf .kTableFile name).toList ∧
      (r.findFile name).store.tables = r.store.tables ∧ (r.findFile name).tables = r.tables ∧
      r.store.nextFileNumber ≤ (r.findFile name).store.nextFileNumber ∧
      ∀ n ∈ numberOf .kTableFile name, n < (r.findFile name).store.nextFileNumber := by
  unfold findFile numberOf
  cases parseFileName name with
  | none => simp
  | some x =>
    obtain ⟨number, type⟩ := x
    have hmark := r.store.le_markFileNumberUsed number
    cases type <;> simp [hmark]

/-- **`FindFiles`** collects the logs and tables of the listing, and the next file number is beyond
them. -/
theorem Repairer.findFiles_spec (r : Repairer) (children : List Slice) :
    (r.findFiles children).logs = r.logs ++ children.filterMap (numberOf .kLogFile) ∧
      (r.findFiles children).tableNumbers =
        r.tableNumbers ++ children.filterMap (numberOf .kTableFile) ∧
      (r.findFiles children).store.tables = r.store.tables ∧
      (r.findFiles children).tables = r.tables ∧
      r.store.nextFileNumber ≤ (r.findFiles children).store.nextFileNumber ∧
      ∀ n ∈ children.filterMap (numberOf .kTableFile),
        n < (r.findFiles children).store.nextFileNumber := by
  induction children generalizing r with
  | nil => simp [findFiles]
  | cons name children ih =>
    obtain ⟨hlogs, htables, hstore, hinfos, hle, hlt⟩ := r.findFile_spec name
    obtain ⟨hlogs', htables', hstore', hinfos', hle', hlt'⟩ := ih (r.findFile name)
    have hcons : ∀ type, (name :: children).filterMap (numberOf type) =
        (numberOf type name).toList ++ children.filterMap (numberOf type) := fun type => by
      rw [filterMap_cons]
      cases numberOf type name <;> rfl
    have hfold : r.findFiles (name :: children) = (r.findFile name).findFiles children := rfl
    rw [hfold, hcons, hcons]
    refine ⟨by rw [hlogs', hlogs, append_assoc], by rw [htables', htables,
      append_assoc], hstore'.trans hstore, hinfos'.trans hinfos, hle.trans hle', ?_⟩
    intro n hn
    rcases mem_append.mp hn with hn | hn
    · exact (hlt n (Option.mem_toList.mp hn)).trans_le hle'
    · exact hlt' n hn

/-! ## The tables of the logs -/

theorem prunedEntries_build (sizes : TableSizes) (number : ℕ) (mem : List Entry) :
    (buildTable sizes none number mem).2 = mem ∧
      (0 < (buildTable sizes none number mem).1.fileSize ↔ mem ≠ []) := by
  grind [buildTable_entries, prunedEntries_none, buildTable, TableSizes.finishedSize_pos]

theorem Repairer.convertLogToTable_eq (cfg : Config) (dir : ClosedDirectory) (r : Repairer) (log : ℕ) :
    r.convertLogToTable cfg {} dir log =
      { r with
        store := r.store.allocate.write r.store.nextFileNumber
          (replayLog cfg.comparator (dir.logs log))
        tableNumbers := r.tableNumbers ++
          if replayLog cfg.comparator (dir.logs log) = [] then [] else [r.store.nextFileNumber] } := by
  grind [prunedEntries_build, convertLogToTable]

/-- The tables of logs, with their numbers. -/
def logTables (ucmp : Comparator) (dir : ClosedDirectory) (next : ℕ) (logs : List ℕ) :
    List (List Entry × ℕ) :=
  ((logs.map fun n => replayLog ucmp (dir.logs n)).zipIdx next).filter fun x => x.1 ≠ []

theorem logTables_cons (next log : ℕ) (logs : List ℕ) :
    logTables ucmp dir next (log :: logs) =
      (if replayLog ucmp (dir.logs log) = [] then []
        else [(replayLog ucmp (dir.logs log), next)]) ++ logTables ucmp dir (next + 1) logs := by
  grind [logTables]

theorem le_of_mem_logTables {logs : List ℕ} {x : List Entry × ℕ} (h : x ∈ logTables ucmp dir next logs) :
    next ≤ x.2 :=
  le_snd_of_mem_zipIdx (mem_filter.mp h).1

theorem Repairer.foldl_convert (cfg : Config) (dir : ClosedDirectory) (r : Repairer) (logs : List ℕ) :
    let r' := logs.foldl (Repairer.convertLogToTable cfg {} dir) r
    let made := logTables cfg.comparator dir r.store.nextFileNumber logs
    r'.tableNumbers = r.tableNumbers ++ made.map Prod.snd ∧ r'.tables = r.tables ∧
      (∀ x ∈ made, r'.store.tables x.2 = x.1) ∧
      ∀ n < r.store.nextFileNumber, r'.store.tables n = r.store.tables n := by
  induction logs generalizing r with
  | nil => simp [logTables]
  | cons log logs ih =>
    intro r' made
    have hr' : r' = logs.foldl (convertLogToTable cfg {} dir)
        (r.convertLogToTable cfg {} dir log) := rfl
    have hone := convertLogToTable_eq cfg dir r log
    obtain ⟨hnumbers, hinfos, hmade, hold⟩ := ih (r.convertLogToTable cfg {} dir log)
    rw [← hr'] at hnumbers hinfos hmade hold
    have hnext : (r.convertLogToTable cfg {} dir log).store.nextFileNumber =
        r.store.nextFileNumber + 1 := by rw [hone]; rfl
    rw [hnext] at hnumbers hmade hold
    have hcons : made = _ := logTables_cons r.store.nextFileNumber log logs
    have hnew : r'.store.tables r.store.nextFileNumber =
        replayLog cfg.comparator (dir.logs log) := by
      rw [hold _ (Nat.lt_succ_self _), hone]
      exact Function.update_self ..
    refine ⟨?_, ?_, ?_, fun n hn => ?_⟩
    · rw [hnumbers, hone, hcons, map_append, ← append_assoc]
      split_ifs <;> rfl
    · rw [hinfos, hone]
    · rw [hcons]
      intro x hx
      rcases mem_append.mp hx with hx | hx
      · simp_all
      · exact hmade x hx
    · rw [hold n (hn.trans (Nat.lt_succ_self _)), hone]
      exact Function.update_of_ne hn.ne _ _

/-! ## What the scan finds -/

/-- The scan finds the first and the last key and bounds the sequence numbers. -/
theorem foldl_scan_bounds {es : List Entry} (hpars : ∀ e ∈ es, e.parsable = true) (st : ScanState) :
    (st.empty = true → es ≠ [] →
        es.head?.map Entry.key = some (es.foldl ScanState.scan st).smallest) ∧
      (st.empty = false → (es.foldl ScanState.scan st).smallest = st.smallest) ∧
      (es ≠ [] → es.getLast?.map Entry.key = some (es.foldl ScanState.scan st).largest) ∧
      st.maxSequence ≤ (es.foldl ScanState.scan st).maxSequence ∧
      ∀ e ∈ es, e.key.sequence ≤ (es.foldl ScanState.scan st).maxSequence := by
  induction es generalizing st with
  | nil => simp
  | cons e es ih =>
    obtain ⟨parsed, hparse⟩ := Option.isSome_iff_exists.mp (hpars e mem_cons_self)
    obtain ⟨-, hseq, -⟩ := parseInternalKey_eq_some.mp hparse
    have hscan : st.scan e = ⟨false, if st.empty then e.key else st.smallest, e.key,
        if st.maxSequence < parsed.sequence then parsed.sequence else st.maxSequence⟩ := by
      rw [ScanState.scan, hparse]
    obtain ⟨-, hsmall, hlarge, hle, hmax⟩ :=
      ih (fun a ha => hpars a (mem_cons_of_mem e ha)) (st.scan e)
    have hge : st.maxSequence ≤ (st.scan e).maxSequence ∧
        e.key.sequence ≤ (st.scan e).maxSequence := by
      rw [hscan, hseq]
      dsimp only
      split_ifs <;> omega
    rw [foldl_cons]
    refine ⟨fun hempty _ => ?_, fun hempty => ?_, fun _ => ?_, hge.1.trans hle, ?_⟩
    · grind
    · grind
    · grind
    · grind

/-- The description of a table. -/
def tableInfo (sizes : TableSizes) (x : List Entry × ℕ) : TableInfo :=
  scanEntries x.2 (sizes.finishedSize x.1) x.1

variable {sizes : TableSizes} {x : List Entry × ℕ} {files : List FileMetaData} {v : Version}
  {openEnv : OpenEnv}

theorem tableInfo_bounds (sizes : TableSizes) (hpars : ∀ e ∈ x.1, e.parsable = true) (hne : x.1 ≠ []) :
    (tableInfo sizes x).file.Bounds x.1 := by
  obtain ⟨hsmall, -, hlarge, -⟩ := foldl_scan_bounds hpars ⟨true, ⟨[], 0⟩, ⟨[], 0⟩, 0⟩
  exact ⟨hsmall rfl hne, hlarge hne⟩

theorem foldl_scan_le (es : List Entry) (st : ScanState) (h : st.maxSequence ≤ kMaxSequenceNumber) :
    (es.foldl ScanState.scan st).maxSequence ≤ kMaxSequenceNumber := by
  induction es generalizing st with
  | nil => exact h
  | cons e es ih =>
    refine ih (st.scan e) ?_
    unfold ScanState.scan
    split
    · exact h
    · rename_i parsed hparse
      obtain ⟨-, hseq, -⟩ := parseInternalKey_eq_some.mp hparse
      have := e.key.sequence_le
      dsimp only
      split_ifs <;> omega

theorem le_tableInfo (sizes : TableSizes) (hpars : ∀ e ∈ x.1, e.parsable = true) {e : Entry} (he : e ∈ x.1) :
    e.key.sequence ≤ (tableInfo sizes x).maxSequence :=
  (foldl_scan_bounds hpars ⟨true, ⟨[], 0⟩, ⟨[], 0⟩, 0⟩).2.2.2.2 e he

theorem Repairer.foldl_scan (cfg : Config) (r : Repairer) (numbers : List ℕ) :
    numbers.foldl (Repairer.scanTable cfg {}) r =
      { r with
        tables := r.tables ++ numbers.map fun n => tableInfo cfg.sizes (r.store.tables n, n) } := by
  induction numbers generalizing r with
  | nil => simp
  | cons n numbers ih =>
    rw [foldl_cons, ih, map_cons]
    simp [scanTable, tableInfo]

/-! ## All tables -/

/-- The tables after a repair, in the order of their descriptions: those that are found, and those of
the logs from the number `next` on. -/
def ClosedDirectory.allTables (ucmp : Comparator) (dir : ClosedDirectory) (next : ℕ) :
    List (List Entry × ℕ) :=
  ((dir.numbers .kTableFile).map fun n => (dir.tables n, n)) ++
    logTables ucmp dir next (dir.numbers .kLogFile)

/-- **The outcome of a repair.** -/
theorem repaired_spec (cfg : Config) (dir : ClosedDirectory) :
    ∃ next, (∀ n ∈ dir.numbers .kTableFile, n < next) ∧
      (Repairer.repaired cfg {} dir).tables =
        (dir.allTables cfg.comparator next).map (tableInfo cfg.sizes) ∧
      ∀ x ∈ dir.allTables cfg.comparator next,
        (Repairer.repaired cfg {} dir).store.tables x.2 = x.1 := by
  obtain ⟨hlogs, htables, hstore, hinfos, -, hlt⟩ :=
    (Repairer.new dir).findFiles_spec dir.children
  set found := (Repairer.new dir).findFiles dir.children with hfound
  have hlogs : found.logs = dir.numbers .kLogFile := hlogs
  have htables : found.tableNumbers = dir.numbers .kTableFile := htables
  obtain ⟨hnumbers, hinfos', hmade, hold⟩ :=
    Repairer.foldl_convert cfg dir found (dir.numbers .kLogFile)
  have hrepaired : Repairer.repaired cfg {} dir =
      (found.convertLogFilesToTables cfg {} dir).tableNumbers.foldl (Repairer.scanTable cfg {})
        (found.convertLogFilesToTables cfg {} dir) := rfl
  rw [Repairer.convertLogFilesToTables, hlogs, Repairer.foldl_scan] at hrepaired
  rw [hrepaired]
  have hstores : ∀ x ∈ dir.allTables cfg.comparator found.store.nextFileNumber,
      ((dir.numbers .kLogFile).foldl (Repairer.convertLogToTable cfg {} dir) found).store.tables
        x.2 = x.1 := by
    intro x hx
    rcases mem_append.mp hx with hx | hx
    · obtain ⟨n, hn, rfl⟩ := mem_map.mp hx
      exact (hold n (hlt n hn)).trans (congrFun hstore n)
    · exact hmade x hx
  refine ⟨found.store.nextFileNumber, hlt, ?_, hstores⟩
  have hsnd : (dir.allTables cfg.comparator found.store.nextFileNumber).map Prod.snd =
      found.tableNumbers ++ (logTables cfg.comparator dir found.store.nextFileNumber
        (dir.numbers .kLogFile)).map Prod.snd := by
    rw [htables, ClosedDirectory.allTables, map_append, map_map]
    exact congrArg (· ++ _) (map_id _)
  dsimp only
  rw [hinfos', hinfos, hnumbers, ← hsnd, map_map]
  exact map_congr_left fun x hx => by rw [Function.comp_apply, hstores x hx]

/-- **The contents of the logs and tables as `Get` will rank them**: the logs from the last one listed
to the first, then the tables from the highest number to the lowest. -/
def ClosedDirectory.ranked (ucmp : Comparator) (dir : ClosedDirectory) : List (List Entry) :=
  ((dir.numbers .kLogFile).map fun n => replayLog ucmp (dir.logs n)).reverse ++
    ((dir.numbers .kTableFile).insertionSort (· ≥ ·)).map dir.tables

/-- The tables from the highest number to the lowest. -/
def ClosedDirectory.rankedTables (ucmp : Comparator) (dir : ClosedDirectory) (next : ℕ) :
    List (List Entry × ℕ) :=
  (logTables ucmp dir next (dir.numbers .kLogFile)).reverse ++
    ((dir.numbers .kTableFile).insertionSort (· ≥ ·)).map fun n => (dir.tables n, n)

theorem rankedTables_perm (ucmp : Comparator) (dir : ClosedDirectory) (next : ℕ) :
    (dir.rankedTables ucmp next).Perm (dir.allTables ucmp next) :=
  ((reverse_perm _).append ((perm_insertionSort _ _).map _)).trans perm_append_comm

/-- The tables are ranked from the highest number to the lowest. -/
theorem rankedTables_pairwise (ucmp : Comparator) (hnodup : (dir.numbers .kTableFile).Nodup)
    (hlt : ∀ n ∈ dir.numbers .kTableFile, n < next) :
    (dir.rankedTables ucmp next).Pairwise fun x y => y.2 < x.2 := by
  refine pairwise_append.mpr ⟨pairwise_reverse.mpr ?_, pairwise_map.mpr ?_, ?_⟩
  · refine List.Pairwise.filter _ ?_
    rw [← pairwise_map (f := Prod.snd) (R := (· < ·)), zipIdx_map_snd]
    exact pairwise_lt_range'
  · have hsorted := pairwise_insertionSort (· ≥ ·) (dir.numbers .kTableFile)
    have hnd := (perm_insertionSort (· ≥ ·) (dir.numbers .kTableFile)).nodup_iff.mpr hnodup
    exact (hsorted.and hnd).imp fun h => lt_of_le_of_ne h.1 h.2.symm
  · intro x hx y hy
    obtain ⟨n, hn, rfl⟩ := mem_map.mp hy
    exact (hlt n ((mem_insertionSort _).mp hn)).trans_le
      (le_of_mem_logTables (mem_reverse.mp hx))

theorem findSome?_filter_eq {α β : Type*} {g g' : α → Option β} {p : α → Bool} {l : List α}
    (hkeep : ∀ a ∈ l, p a = true → g a = g' a) (hdrop : ∀ a ∈ l, p a = false → g' a = none) :
    (l.filter p).findSome? g = l.findSome? g' := by
  induction l with
  | nil => rfl
  | cons a l ih =>
    grind

/-- Logs that gave no table do not matter to a search. -/
theorem findSome?_rankedTables (next : ℕ) {g : List Entry → Option Entry} (hg : g [] = none) :
    ((dir.rankedTables ucmp next).map Prod.fst).findSome? g = (dir.ranked ucmp).findSome? g := by
  have hlogs : (((logTables ucmp dir next (dir.numbers .kLogFile)).reverse).map
      Prod.fst).findSome? g =
        ((dir.numbers .kLogFile).map fun n => replayLog ucmp (dir.logs n)).reverse.findSome? g := by
    rw [logTables, ← filter_reverse, findSome?_map,
      findSome?_filter_eq fun x _ _ => rfl, ← findSome?_map, map_reverse,
      zipIdx_map_fst]
    grind
  rw [ClosedDirectory.rankedTables, ClosedDirectory.ranked, map_append, findSome?_append,
    findSome?_append, hlogs, map_map]
  rfl

/-! ## The version after `DB::Open` -/

/-- A version whose files are the given ones, all in level 0. -/
structure Version.Flat (v : Version) (files : List FileMetaData) : Prop where
  mem_iff : ∀ f, f ∈ v.files 0 ↔ f ∈ files
  nodup : (v.files 0).Nodup
  deep : ∀ level, level ≠ 0 → v.files level = []

theorem Version.Flat.applyEdit_empty (h : v.Flat files) (ucmp : Comparator) :
    (applyEdit ucmp v {}).Flat files := by
  have hd : DistinctNumbers ({} : VersionEdit).newFiles := fun _ => nodup_nil
  have hmem : ∀ level < kNumLevels, ∀ f, f ∈ (applyEdit ucmp v {}).files level ↔
      f ∈ v.files level := fun level hlevel f => by
    rw [mem_applyEdit hd hlevel]
    simp [VersionEdit.Deletes]
  refine ⟨fun f => (hmem 0 (by decide) f).trans (h.mem_iff f), nodup_applyEdit hd h.nodup ?_, ?_⟩
  · intro f hf
    cases hf
  · intro level hne
    rcases lt_or_ge level kNumLevels with hlevel | hlevel
    · refine eq_nil_iff_forall_not_mem.mpr fun f hf => ?_
      grind [Flat]
    · exact applyEdit_files_of_le hlevel

/-- An edit with files of level 0 only makes a flat version. -/
theorem flat_of_edit (ucmp : Comparator) (edit : VersionEdit) (files : List FileMetaData)
    (hnew : edit.newFiles = files.map fun f => (0, f))
    (hnumbers : (files.map FileMetaData.number).Nodup) (hdel : edit.deletedFiles = []) :
    (applyEdit ucmp .empty edit).Flat files := by
  have hmemNew : ∀ level f, (level, f) ∈ edit.newFiles ↔ level = 0 ∧ f ∈ files := by
    grind
  have hd : DistinctNumbers edit.newFiles := by
    intro level
    grind [filesAt]
  have hmem : ∀ level < kNumLevels, ∀ f, f ∈ (applyEdit ucmp .empty edit).files level ↔
      level = 0 ∧ f ∈ files := fun level hlevel f => by
    rw [mem_applyEdit hd hlevel, hmemNew]
    simp [VersionEdit.Deletes, hdel, Version.empty]
  refine ⟨fun f => (hmem 0 (by decide) f).trans (and_iff_right rfl),
    nodup_applyEdit hd nodup_nil fun f _ hf => not_mem_nil hf, fun level hne => ?_⟩
  rcases lt_or_ge level kNumLevels with hlevel | hlevel
  · exact eq_nil_iff_forall_not_mem.mpr fun f hf => hne ((hmem level hlevel f).mp hf).1
  · exact applyEdit_files_of_le hlevel

/-- **`DB::Open` without logs** takes over what the MANIFEST says. -/
theorem Disk.reopen_of_noLogs (disk : Disk) (h : disk.logs = []) (cfg : Config) (opts : DbOptions)
    (hfails : openEnv.fails = none) :
    ∃ e, disk.reopen cfg opts openEnv = some e ∧ e.mem = [] ∧ e.imm = none ∧
      e.readers.lastSequence = disk.manifest.lastSequence ∧ e.store.tables = disk.tables ∧
      (e.current = disk.manifest.version ∨
        e.current = applyEdit cfg.comparator disk.manifest.version {}) := by
  have hreplayed : disk.replayed = [] := by rw [replayed, h]; rfl
  simp only [reopen, openWith, recover, hreplayed, recoverLogs, Option.map_some,
    Option.bind_some, finishOpen, Recovering.memAndLog, Status.isOk_ok, if_true, hfails]
  refine ⟨_, rfl, rfl, rfl, Nat.max_zero _, rfl, ?_⟩
  cases opts.reuseLogs && openEnv.reusesManifest with
  | true => exact Or.inl rfl
  | false => exact Or.inr rfl

/-! ## `Get` after the repair -/

theorem Version.Flat.level0Files_eq (h : v.Flat files)
    (hdesc : files.Pairwise fun f g => g.number < f.number) (u : Slice) :
    level0Files ucmp v u = files.filter (FileMetaData.covers ucmp u) := by
  have hanti : Std.Antisymm fun f g : FileMetaData => g.number < f.number :=
    ⟨fun _ _ hfg hgf => absurd hfg hgf.asymm⟩
  have hirrefl : Std.Irrefl fun f g : FileMetaData => g.number < f.number :=
    ⟨fun _ => lt_irrefl _⟩
  have hsym : Std.Symm fun f g : FileMetaData => f.number ≠ g.number := ⟨fun _ _ => Ne.symm⟩
  have hnumbers : ∀ f ∈ files, ∀ g ∈ files, f ≠ g → f.number ≠ g.number := fun f hf g hg hne =>
    (hdesc.imp fun hlt => hlt.ne').forall hf hg hne
  have hmem : ∀ f, f ∈ level0Files ucmp v u ↔ f ∈ files.filter (FileMetaData.covers ucmp u) := by
    intro f
    rw [level0Files, mem_insertionSort, mem_filter, mem_filter, h.mem_iff]
  refine List.Pairwise.eq_of_mem_iff ?_ (hdesc.filter _) hmem
  have hsorted : (level0Files ucmp v u).Pairwise fun a b => b.number ≤ a.number :=
    pairwise_insertionSort _ _
  have hnd : (level0Files ucmp v u).Nodup :=
    (perm_insertionSort _ _).nodup_iff.mpr (h.nodup.filter _)
  refine (hsorted.and hnd).imp_of_mem fun {f g} hf hg hfg => lt_of_le_of_ne hfg.1 ?_
  grind

/-- `ForEachOverlapping` in a flat version. -/
theorem Version.Flat.forEachOverlapping_eq (h : v.Flat files)
    (hdesc : files.Pairwise fun f g => g.number < f.number) (u : Slice) (key : InternalKey) :
    forEachOverlapping ucmp v u key = files.filter (FileMetaData.covers ucmp u) := by
  have hdeep : ((List.range kNumLevels).drop 1).flatMap (deepFile ucmp v u key) = [] := by
    refine flatMap_eq_nil_iff.mpr fun level hlevel => ?_
    have : ∀ i ∈ (List.range kNumLevels).drop 1, i ≠ 0 := by decide
    rw [deepFile, h.deep level (this level hlevel)]
    rfl
  rw [RocketDb.forEachOverlapping_eq, hdeep, append_nil, h.level0Files_eq hdesc]

/-- The contents of every log and every table are sorted and can be parsed. -/
def ClosedDirectory.Readable (ucmp : Comparator) (dir : ClosedDirectory) : Prop :=
  ∀ es ∈ dir.ranked ucmp, SortedEntries ucmp es ∧ ∀ e ∈ es, e.parsable = true

theorem mem_ranked_of_mem_allTables {x : List Entry × ℕ} (hx : x ∈ dir.allTables ucmp next) :
    x.1 ∈ dir.ranked ucmp := by
  rcases mem_append.mp hx with hx | hx
  · obtain ⟨n, hn, rfl⟩ := mem_map.mp hx
    exact mem_append_right _ (mem_map_of_mem ((mem_insertionSort _).mpr hn))
  · refine mem_append_left _ (mem_reverse.mpr ?_)
    have := mem_map_of_mem (f := Prod.fst) (mem_filter.mp hx).1
    rwa [zipIdx_map_fst] at this

/-- A table whose file does not cover the key has no answer. -/
theorem newestVisible_of_not_covers (hsort : SortedEntries ucmp x.1)
    (hpars : ∀ e ∈ x.1, e.parsable = true) (h : (tableInfo sizes x).file.covers ucmp u = false) :
    newestVisible ucmp x.1 u s = none := by
  refine newest_eq_none_iff.mpr fun e he => ?_
  by_contra hvis
  rw [Bool.not_eq_false] at hvis
  have hbounds := (tableInfo_bounds sizes hpars (ne_nil_of_mem he)).class_mem hsort he
  rw [(visible_iff.mp hvis).2.1] at hbounds
  rw [FileMetaData.covers_iff.mpr hbounds] at h
  cases h

/-- **`Version::Get` in a flat version**: the first table from the highest number on that knows the key
answers, if the reader sees all entries. -/
theorem Version.Flat.versionGet_eq {tables : List (List Entry × ℕ)} (store : ℕ → List Entry)
    (h : v.Flat (tables.map fun x => (tableInfo sizes x).file))
    (hdesc : tables.Pairwise fun x y => y.2 < x.2) (hstore : ∀ x ∈ tables, store x.2 = x.1)
    (hgood : ∀ x ∈ tables, SortedEntries ucmp x.1 ∧ ∀ e ∈ x.1, e.parsable = true)
    (hseq : ∀ x ∈ tables, ∀ e ∈ x.1, e.key.sequence ≤ s) (hs : s ≤ kMaxSequenceNumber) (u : Slice) :
    versionGet ucmp v store u s = .ofEntry ((tables.map Prod.fst).findSome? fun es =>
      newestVisible ucmp es u kMaxSequenceNumber) := by
  have hcontents : ∀ f ∈ tables.map fun x => (tableInfo sizes x).file,
      ∃ x ∈ tables, f = (tableInfo sizes x).file ∧ store f.number = x.1 := by
    intro f hf
    obtain ⟨x, hx, rfl⟩ := mem_map.mp hf
    exact ⟨x, hx, rfl, hstore x hx⟩
  have hall : (tables.map fun x => (tableInfo sizes x).file).map (fun f => store f.number) =
      tables.map Prod.fst := by
    rw [map_map]
    exact map_congr_left fun x hx => hstore x hx
  rw [versionGet, h.forEachOverlapping_eq (pairwise_map.mpr hdesc), searchFiles_eq hs]
  · rw [← hall, findSome?_map, findSome?_map, findSome?_filter_eq]
    · intro f hf _
      obtain ⟨x, hx, -, hfx⟩ := hcontents f hf
      grind [newestVisible_of_sequence_le]
    · intro f hf hcov
      obtain ⟨x, hx, rfl, hfx⟩ := hcontents f hf
      grind [newestVisible_of_not_covers]
  · intro f hf
    obtain ⟨x, hx, -, hfx⟩ := hcontents f (mem_filter.mp hf).1
    rw [hfx]
    exact hgood x hx

/-- The loop finds a number that no table exceeds, and none that is higher than all of them. -/
theorem highestSequence_spec (infos : List TableInfo) (start : ℕ) :
    start ≤ highestSequence infos start ∧ (∀ t ∈ infos, t.maxSequence ≤ highestSequence infos start) ∧
      ∀ bound, start ≤ bound → (∀ t ∈ infos, t.maxSequence ≤ bound) →
        highestSequence infos start ≤ bound := by
  induction infos generalizing start with
  | nil => simp [highestSequence]
  | cons t infos ih =>
    have hstep : highestSequence (t :: infos) start =
        highestSequence infos (if start < t.maxSequence then t.maxSequence else start) := rfl
    obtain ⟨hle, hmem, hbound⟩ := ih (if start < t.maxSequence then t.maxSequence else start)
    rw [hstep]
    refine ⟨by split_ifs at hle ⊢ <;> omega, ?_, fun bound hstart hall => hbound bound ?_ ?_⟩
    · grind
    · have := hall t mem_cons_self
      split_ifs <;> omega
    · exact fun a ha => hall a (mem_cons_of_mem t ha)

/-- What a repair without faults leaves. -/
def repairedDisk (cfg : Config) (dir : ClosedDirectory) : Disk :=
  ⟨.ofEdit cfg.comparator ((Repairer.repaired cfg {} dir).edit cfg), [],
    (Repairer.repaired cfg {} dir).store.tables, []⟩

theorem lastSequence_repairedDisk_le (cfg : Config) (dir : ClosedDirectory) :
    (repairedDisk cfg dir).manifest.lastSequence ≤ kMaxSequenceNumber := by
  obtain ⟨next, -, htables, -⟩ := repaired_spec cfg dir
  refine (highestSequence_spec (Repairer.repaired cfg {} dir).tables 0).2.2 _ (Nat.zero_le _) ?_
  rw [htables]
  intro t ht
  obtain ⟨x, -, rfl⟩ := mem_map.mp ht
  exact foldl_scan_le _ _ (Nat.zero_le _)

theorem repairDB_eq (cfg : Config) (dbname : Slice) (hchildren : dir.children ≠ []) :
    repairDB cfg {} dbname dir = .ok (repairedDisk cfg dir) := by
  simp only [repairDB, Status.isOk_ok, if_true, if_neg hchildren]
  rfl

/-- **The tables of a repaired database**: all in level 0, each described by its contents, with a last
sequence number that no entry exceeds. -/
theorem repairedDisk_spec (cfg : Config) (hnodup : (dir.numbers .kTableFile).Nodup)
    (hreadable : dir.Readable cfg.comparator) :
    ∃ tables : List (List Entry × ℕ), (tables.Pairwise fun x y => y.2 < x.2) ∧
      (repairedDisk cfg dir).manifest.version.Flat
        (tables.map fun x => (tableInfo cfg.sizes x).file) ∧
      (∀ x ∈ tables, (repairedDisk cfg dir).tables x.2 = x.1 ∧ x.1 ∈ dir.ranked cfg.comparator ∧
        ∀ e ∈ x.1, e.key.sequence ≤ (repairedDisk cfg dir).manifest.lastSequence) ∧
      ∀ g : List Entry → Option Entry, g [] = none →
        (tables.map Prod.fst).findSome? g = (dir.ranked cfg.comparator).findSome? g := by
  obtain ⟨next, hlt, htables, hstore⟩ := repaired_spec cfg dir
  have hperm := rankedTables_perm cfg.comparator dir next
  have hdesc := rankedTables_pairwise cfg.comparator hnodup hlt
  refine ⟨dir.rankedTables cfg.comparator next, hdesc, ?_, fun x hx => ?_,
    fun g hg => findSome?_rankedTables next hg⟩
  · have hflat := flat_of_edit cfg.comparator ((Repairer.repaired cfg {} dir).edit cfg)
      ((dir.allTables cfg.comparator next).map fun x => (tableInfo cfg.sizes x).file)
      (by rw [Repairer.edit, htables, map_map, map_map]; rfl) ?_ rfl
    · exact ⟨fun f => (hflat.mem_iff f).trans (hperm.map _).mem_iff.symm, hflat.nodup, hflat.deep⟩
    · rw [map_map]
      refine (hperm.map _).nodup_iff.mp ?_
      exact (pairwise_map.mpr (hdesc.imp fun h => h.ne') :)
  · have hx := hperm.mem_iff.mp hx
    refine ⟨hstore x hx, mem_ranked_of_mem_allTables hx, fun e he => ?_⟩
    have hpars := (hreadable x.1 (mem_ranked_of_mem_allTables hx)).2
    refine (le_tableInfo cfg.sizes hpars he).trans
      ((highestSequence_spec (Repairer.repaired cfg {} dir).tables 0).2.1 _ ?_)
    rw [htables]
    exact mem_map_of_mem hx

/-- **`Get` after a repair** without faults answers with the first log or table in the ranking that
knows the key. -/
theorem dbGet_reopen (cfg : Config) (hnodup : (dir.numbers .kTableFile).Nodup)
    (hreadable : dir.Readable cfg.comparator) (opts : DbOptions) (hfails : openEnv.fails = none) :
    ∃ e, (repairedDisk cfg dir).reopen cfg opts openEnv = some e ∧
      ∀ u, dbGet cfg e u e.readers.lastSequence =
        .ofOption (((dir.ranked cfg.comparator).findSome? fun es =>
          newestVisible cfg.comparator es u kMaxSequenceNumber).bind Entry.read) := by
  obtain ⟨tables, hdesc, hflat, hspec, hfind⟩ := repairedDisk_spec cfg hnodup hreadable
  obtain ⟨e, hreopen, hmem, himm, hlast, hstore, hcurrent⟩ :=
    (repairedDisk cfg dir).reopen_of_noLogs rfl cfg opts hfails
  refine ⟨e, hreopen, fun u => ?_⟩
  have hs : e.readers.lastSequence ≤ kMaxSequenceNumber :=
    hlast ▸ lastSequence_repairedDisk_le cfg dir
  have hflat : e.current.Flat (tables.map fun x => (tableInfo cfg.sizes x).file) := by
    rcases hcurrent with h | h
    · exact h ▸ hflat
    · exact h ▸ hflat.applyEdit_empty cfg.comparator
  have hget := hflat.versionGet_eq e.store.tables hdesc (fun x hx => hstore ▸ (hspec x hx).1)
    (fun x hx => hreadable x.1 (hspec x hx).2.1) (fun x hx => hlast ▸ (hspec x hx).2.2) hs u
  rw [dbGet, hmem, himm, hget, hfind]
  · exact result_ofEntry _
  · rfl

end RocketDb
