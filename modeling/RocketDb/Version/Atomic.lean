import RocketDb.Version.Replay

/-! # `LogAndApply` and crashes

* **`ManifestState.Holds`** — the version set and the MANIFEST agree.
* **`ManifestState.Holds.logAndApply`** — what a call does, whatever fails and wherever it stops. -/

namespace RocketDb

open Log List

variable {ucmp : Comparator} {edits : List VersionEdit} {e : VersionEdit} {dir dir' : Directory}
  {m m' : Recorded} {w : Writer} {env : ApplyEnv} {st : ManifestState}

/-! ## Writing to the MANIFEST -/

/-- The writer stands at the end of a MANIFEST with the given edits. -/
structure Log.Writer.Follows (w : Writer) (edits : List VersionEdit) : Prop where
  contents : w.dest.contents = manifestBytes edits
  flushed : w.dest.flushed = w.dest.contents.length
  place : w.At (manifestRoom edits)

theorem Log.Writer.follows_new (faults : List (Option (ℕ × Status))) :
    (Writer.new ⟨[], 0, faults⟩).Follows [] :=
  ⟨rfl, rfl, Or.inr ⟨rfl, rfl⟩⟩

theorem Log.Writer.padKeeps_new (dest : WritableFile) : (Writer.new dest).padKeeps = true := by
  have hpads : (Writer.new dest).pads = false :=
    decide_eq_false (show ¬ (0 < kBlockSize - 0 ∧ kBlockSize - 0 < kHeaderSize) by decide)
  rw [padKeeps, hpads]
  rfl

theorem Log.Writer.follows_reuse (edits : List VersionEdit) :
    (Writer.reuse (appendable (manifestBytes edits)) (manifestBytes edits).length).Follows edits :=
  ⟨rfl, rfl, Writer.at_reuse (fit_logPieces 0 (edits.map VersionEdit.encodeTo)) _⟩

/-- A writer with the faults of the next call. -/
def Log.Writer.withFaults (w : Writer) (faults : List (Option (ℕ × Status))) : Writer :=
  ⟨⟨w.dest.contents, w.dest.flushed, faults⟩, w.blockOffset⟩

theorem Log.Writer.Follows.withFaults (h : w.Follows edits) (faults : List (Option (ℕ × Status))) :
    (w.withFaults faults).Follows edits := ⟨h.contents, h.flushed, h.place⟩

/-- The record of an edit: the file always ends inside it, and OK means that it is whole. -/
theorem Log.Writer.Follows.addRecord (h : w.Follows edits) (hhonest : HonestFaults w.dest.faults)
    (hpad : w.padKeeps = true) (e : VersionEdit) :
    ∃ w' s, w.addRecord e.encodeTo = some (w', s) ∧
      (∀ c ∈ w'.dest.contents :: w.addTrace e.encodeTo,
        ∃ n, c = manifestBytes edits ++ (editBytes edits e).take n) ∧
      (s.isOk = true → HonestFaults w'.dest.faults ∧ w'.Follows (edits ++ [e])) := by
  obtain ⟨w', s, hadd, htrace, hok⟩ := addRecord_trace h.place hhonest h.flushed hpad e.encodeTo
  rw [h.contents] at htrace hok
  refine ⟨w', s, hadd, htrace, fun hs => ?_⟩
  obtain ⟨hhonest', hcontents, hflushed, hplace⟩ := hok hs
  exact ⟨hhonest', (manifestBytes_concat edits e) ▸ hcontents, hflushed,
    (manifestRoom_concat edits e) ▸ hplace⟩

/-- On the way the file holds a first part of the new record, and all of it if the call returns OK. -/
theorem writeEdit_spec (h : w.Follows edits) (hhonest : HonestFaults w.dest.faults)
    (hpad : w.padKeeps = true) (e : VersionEdit) (write : Slice → Directory) :
    ∃ cs w' s, writeEdit write (some w) .ok e.encodeTo = some (cs.map write, some w', s) ∧
      (∀ c ∈ w'.dest.contents :: cs, ∃ n, c = manifestBytes edits ++ (editBytes edits e).take n) ∧
      (s.isOk = true → w'.Follows (edits ++ [e])) := by
  obtain ⟨w', s, hadd, htrace, hok⟩ := h.addRecord hhonest hpad e
  simp only [writeEdit, Status.isOk_ok, if_true, hadd, Option.map_some]
  cases hs : s.isOk with
  | false => exact ⟨_, w', s, rfl, htrace, fun h => absurd (hs.symm.trans h) (by simp)⟩
  | true =>
    obtain ⟨hhonest', hfollows⟩ := hok hs
    have hflush := (WritableFile.flush_honest hhonest').2
    -- everything has been flushed, so that a failing `Sync` loses nothing
    have hkept : w'.dest.flush.1.contents = w'.dest.contents := by
      grind [Writer.Follows, take_of_length_le]
    refine ⟨w.addTrace e.encodeTo ++ [w'.dest.flush.1.contents], ⟨w'.dest.flush.1, w'.blockOffset⟩,
      w'.dest.flush.2, rfl, fun c hc => ?_, fun hsync => ⟨?_, ?_, ?_⟩⟩
    · refine htrace c ?_
      grind
    · exact hkept.trans hfollows.contents
    · grind
    · exact hfollows.place

/-! ## CURRENT -/

theorem Directory.write_self (dir : Directory) (name c : Slice) : dir.write name c name = some c :=
  Function.update_self _ _ _

theorem Directory.write_manifest_current (dir : Directory) (n : ℕ) (c : Slice) :
    dir.write (descriptorFileName n) c currentFileName = dir currentFileName :=
  Function.update_of_ne (descriptorFileName_ne_current n).symm _ _

/-- The MANIFESTs are the same. -/
def SameManifests (dir dir' : Directory) : Prop :=
  ∀ n, dir' (descriptorFileName n) = dir (descriptorFileName n)

/-- CURRENT is the same, too. -/
def SameNames (dir dir' : Directory) : Prop :=
  SameManifests dir dir' ∧ dir' currentFileName = dir currentFileName

theorem write_temp (dir : Directory) (number : ℕ) (x : Option Slice) :
    SameNames dir (Function.update dir (tempFileName number) x) :=
  ⟨fun n => Function.update_of_ne (tempFileName_ne_descriptor number n).symm _ _,
    Function.update_of_ne (tempFileName_ne_current number).symm _ _⟩

/-- The temporary file: nothing that matters changes, and OK means that the file is there. -/
theorem writeStringToFileSync_spec (dir : Directory) (number : ℕ) (data : Slice) (env : ApplyEnv) :
    (∀ d ∈ (writeStringToFileSync dir data (tempFileName number) env).dir ::
        (writeStringToFileSync dir data (tempFileName number) env).disks, SameNames dir d) ∧
    ((writeStringToFileSync dir data (tempFileName number) env).status.isOk = true →
      (writeStringToFileSync dir data (tempFileName number) env).dir (tempFileName number) = some data) := by
  have hwrite (c : Slice) : SameNames dir (dir.write (tempFileName number) c) := write_temp dir number _
  have hremove (c : Slice) :
      SameNames dir ((dir.write (tempFileName number) c).remove (tempFileName number)) := by
    rw [Directory.remove, Directory.write, Function.update_idem]
    exact write_temp dir number _
  rw [writeStringToFileSync]
  cases env.createTemp with
  | some error =>
    refine ⟨fun d hd => ?_, fun h => absurd h Bool.false_ne_true⟩
    obtain rfl : d = dir := by simpa using hd
    exact ⟨fun _ => rfl, rfl⟩
  | none =>
    obtain ⟨-, hhonest₁, happend⟩ := WritableFile.append_honest
      (show HonestFaults (⟨[], 0, env.temp.calls⟩ : WritableFile).faults from env.temp.honest) data
    simp only
    generalize WritableFile.append ⟨[], 0, env.temp.calls⟩ data = appended at *
    have hsynced : ∃ synced, (if appended.2.isOk = true then appended.1.flush else appended) = synced ∧
        (synced.2.isOk = true → HonestFaults synced.1.faults ∧ synced.1.contents = data) := by
      grind [WritableFile.flush_honest]
    obtain ⟨synced, hsync, hok₂⟩ := hsynced
    rw [hsync]
    generalize hclose : (if synced.2.isOk = true then synced.1.flush else synced) = closed
    have hok₃ : closed.2.isOk = true → closed.1.contents = data := by
      grind [WritableFile.flush_honest]
    by_cases hs : closed.2.isOk = true
    · rw [if_pos hs]
      refine ⟨fun d hd => ?_, fun _ => ?_⟩
      · grind
      · exact (dir.write_self _ _).trans (congrArg some (hok₃ hs))
    · grind

/-- **`SetCurrentFile`**: CURRENT is the old one until it is the new one, and it is the new one if and
only if OK is returned. -/
theorem setCurrentFile_spec (dir : Directory) (number : ℕ) (env : ApplyEnv) :
    (∀ d ∈ (setCurrentFile dir number env).disks, SameManifests dir d ∧
      (d currentFileName = dir currentFileName ∨
        d currentFileName = some (descriptorFileName number ++ [newline]))) ∧
    SameManifests dir (setCurrentFile dir number env).dir ∧
    (setCurrentFile dir number env).dir currentFileName =
      if (setCurrentFile dir number env).status.isOk then some (descriptorFileName number ++ [newline])
      else dir currentFileName := by
  obtain ⟨hsame, hdata⟩ := writeStringToFileSync_spec dir number
    (descriptorFileName number ++ [newline]) env
  rw [setCurrentFile]
  generalize writeStringToFileSync dir (descriptorFileName number ++ [newline]) (tempFileName number)
    env = written at *
  have hdir := hsame written.dir mem_cons_self
  have hdisks (d : Directory) (hd : d ∈ written.disks) := hsame d (mem_cons_of_mem _ hd)
  have hremoved : SameNames dir
      (if env.removeTemp = true then written.dir.remove (tempFileName number) else written.dir) := by
    split_ifs
    · obtain ⟨hm, hc⟩ := write_temp written.dir number none
      exact ⟨fun n => (hm n).trans (hdir.1 n), hc.trans hdir.2⟩
    · exact hdir
  by_cases hs : written.status.isOk = true
  · simp only [hs, if_true]
    cases env.rename with
    | some error =>
      simp only [Status.isOk, Bool.false_eq_true, if_false, mem_append, mem_singleton]
      refine ⟨?_, hremoved.1, hremoved.2⟩
      rintro d (hd | rfl)
      exacts [(hdisks d hd).imp_right Or.inl, hremoved.imp_right Or.inl]
    | none =>
      simp only [Status.isOk, if_true, mem_append, mem_singleton]
      obtain ⟨hm, hc⟩ := write_temp
        (Function.update written.dir currentFileName (written.dir (tempFileName number))) number none
      have hm' : SameManifests dir (written.dir.rename (tempFileName number) currentFileName) :=
        fun n => (hm n).trans
          ((Function.update_of_ne (descriptorFileName_ne_current n) _ _).trans (hdir.1 n))
      have hc' : written.dir.rename (tempFileName number) currentFileName currentFileName =
          some (descriptorFileName number ++ [newline]) :=
        hc.trans ((Function.update_self _ _ _).trans (hdata hs))
      refine ⟨?_, hm', hc'⟩
      rintro d (hd | rfl)
      exacts [(hdisks d hd).imp_right Or.inl, ⟨hm', Or.inr hc'⟩]
  · simp only [if_neg hs, mem_append, mem_singleton]
    refine ⟨?_, hremoved.1, hremoved.2⟩
    rintro d (hd | rfl)
    exacts [(hdisks d hd).imp_right Or.inl, hremoved.imp_right Or.inl]

/-! ## One call -/

/-- **The version set and the MANIFEST agree.** -/
structure ManifestState.Holds (ucmp : Comparator) (st : ManifestState) (m : Recorded) : Prop where
  stored : Stored ucmp st.dir m
  current : st.vs.current = m.version
  logNumber : st.vs.logNumber = m.logNumber
  prevLogNumber : st.vs.prevLogNumber = m.prevLogNumber
  nextFile : m.nextFile ≤ st.vs.nextFileNumber
  pointers : PointersFit st.vs.compactPointer
  /-- A new MANIFEST will have another name. -/
  newName : st.descriptor = none →
    m.nextFile ≤ st.vs.manifestFileNumber ∧ st.vs.manifestFileNumber < st.vs.nextFileNumber
  /-- What is appended follows the edits of the MANIFEST. -/
  follows : ∀ w, st.descriptor = some w → st.vs.manifestFileNumber = m.number ∧
    w.Follows m.history ∧ st.dir (descriptorFileName m.number) = some w.dest.contents

/-- The version set of a call that fails: the builder has already set the compaction pointers. -/
def VersionSet.pointed (vs : VersionSet) (e : VersionEdit) : VersionSet :=
  { vs with compactPointer := applyCompactPointers vs.compactPointer (vs.complete e) }

/-- The version set of a call that returns OK. -/
def VersionSet.installed (ucmp : Comparator) (vs : VersionSet) (e : VersionEdit) : VersionSet :=
  { vs.pointed e with
    current := applyEdit ucmp vs.current (vs.complete e)
    logNumber := e.logNumber.getD vs.logNumber
    prevLogNumber := e.prevLogNumber.getD vs.prevLogNumber }

/-- The zeros at the end of a block of the MANIFEST reach the file. `AddRecord` does not look at the status of
that `Append`; on a file of the operating system it is OK, since the record before it left the buffer empty
(`PosixWritableFile.append_fits`). -/
def ManifestState.PadKeeps (ucmp : Comparator) (st : ManifestState) (e : VersionEdit) (env : ApplyEnv) :
    Prop :=
  ∀ disks w, st.openDescriptor ucmp (st.vs.pointed e) env = some (disks, some w, .ok) → w.padKeeps = true

theorem ManifestState.logAndApply_eq {disks disks' : List Directory} {log log' : Option Writer}
    {s s' : Status}
    (hopen : st.openDescriptor ucmp (st.vs.pointed e) env = some (disks, log, s))
    (hedit : writeEdit (st.dir.write (descriptorFileName st.vs.manifestFileNumber)) log s
      (st.vs.complete e).encodeTo = some (disks', log', s')) :
    st.logAndApply ucmp e env = some (st.finish (st.vs.pointed e) (st.vs.installed ucmp e) env
      (disks ++ disks') log' s') := by
  simp only [logAndApply]
  rw [← VersionSet.pointed, hopen]
  simp only [hedit]
  rfl

/-- **What a call of `LogAndApply` does**: every directory it leaves behind on its way says `m` or
`m'`. -/
structure Applied.Atomic (ucmp : Comparator) (st : ManifestState) (e : VersionEdit) (r : Applied)
    (m m' : Recorded) : Prop where
  disks : ∀ d ∈ r.next.dir :: r.disks, Stored ucmp d m ∨ Stored ucmp d m'
  ok : r.status.isOk = true →
    r.next.failed = st.failed ∧ r.next.descriptor.isSome = true ∧ r.next.Holds ucmp m'
  error : r.status.isOk = false → r.next.vs = st.vs.pointed e
  appended : r.status.isOk = false → st.descriptor ≠ none → r.next.failed = true
  started : r.status.isOk = false → st.descriptor = none → r.next.failed = st.failed ∧
    r.next.Holds ucmp m ∧ r.next.dir currentFileName = st.dir currentFileName

theorem ManifestState.Holds.pointersFit (h : st.Holds ucmp m)
    (he : LegalEdit ucmp st.vs m.history e) : PointersFit (st.vs.pointed e).compactPointer :=
  h.pointers.apply fun x hx => (he.encodable.pointers x hx).2

/-- A MANIFEST that is cut in its last record is the old one or the new one. -/
theorem Stored.write_cut (h : Stored ucmp dir m) (h' : m'.Sound ucmp) (hnumber : m'.number = m.number)
    (hhistory : m'.history = m.history ++ [e]) (n : ℕ) :
    Stored ucmp (dir.write (descriptorFileName m.number)
        (manifestBytes m.history ++ (editBytes m.history e).take n)) m ∨
      Stored ucmp (dir.write (descriptorFileName m.number)
        (manifestBytes m.history ++ (editBytes m.history e).take n)) m' := by
  have hcurrent (c : Slice) : dir.write (descriptorFileName m.number) c currentFileName =
      some (descriptorFileName m.number ++ [newline]) :=
    (dir.write_manifest_current m.number c).trans h.current
  rcases readsAs_cut m.history e n with hreads | hreads
  · exact Or.inl ⟨h.sound, hcurrent _, _, dir.write_self _ _, hreads⟩
  · refine Or.inr ⟨h', ?_, _, ?_, hhistory ▸ hreads⟩
    · rw [hnumber, hcurrent]
    · rw [hnumber]
      exact dir.write_self _ _

/-- The MANIFEST is open: one record is appended. -/
theorem ManifestState.Holds.logAndApply_append (h : st.Holds ucmp m) (hw : st.descriptor = some w)
    (he : LegalEdit ucmp st.vs m.history e) (hpad : st.PadKeeps ucmp e env) :
    ∃ r, st.logAndApply ucmp e env = some r ∧ r.Atomic ucmp st e m (m.append ucmp st.vs e) := by
  obtain ⟨hnumber, hfollows, hfile⟩ := h.follows w hw
  have hopen : st.openDescriptor ucmp (st.vs.pointed e) env =
      some ([], some (w.withFaults env.descriptor.calls), .ok) := by
    rw [openDescriptor, hw]
    rfl
  have hsound := Recorded.sound_append h.stored.sound h.current h.nextFile he
  obtain ⟨cs, w', s, hwrite, htrace, hok⟩ := writeEdit_spec
    (hfollows.withFaults env.descriptor.calls) env.descriptor.honest (hpad _ _ hopen)
    (st.vs.complete e) (st.dir.write (descriptorFileName st.vs.manifestFileNumber))
  refine ⟨_, logAndApply_eq hopen hwrite, ?_⟩
  have hsome : st.descriptor.isNone = false := by rw [hw]; rfl
  have hdisks : ∀ d ∈ st.dir.write (descriptorFileName st.vs.manifestFileNumber) w'.dest.contents ::
      cs.map (st.dir.write (descriptorFileName st.vs.manifestFileNumber)),
      Stored ucmp d m ∨ Stored ucmp d (m.append ucmp st.vs e) := by
    intro d hd
    rw [← map_cons (f := st.dir.write _)] at hd
    obtain ⟨c, hc, rfl⟩ := mem_map.mp hd
    obtain ⟨n, rfl⟩ := htrace c hc
    rw [hnumber]
    exact h.stored.write_cut hsound rfl rfl n
  simp only [finish, hsome, Bool.and_false, Bool.false_eq_true, if_false, append_nil, nil_append]
  cases hs : s.isOk with
  | true =>
    rw [if_pos rfl]
    refine ⟨hdisks, fun _ => ⟨rfl, rfl, ?_⟩, fun hbad => absurd hbad (by simp),
      fun hbad => absurd hbad (by simp), fun hbad => absurd hbad (by simp)⟩
    have hfollows' := hok hs
    have hcontents : st.dir.write (descriptorFileName st.vs.manifestFileNumber) w'.dest.contents
        (descriptorFileName m.number) = some w'.dest.contents := by
      rw [hnumber]
      exact st.dir.write_self _ _
    refine ⟨⟨hsound, ?_, _, hcontents, ?_⟩, ?_, rfl, rfl, Nat.le_refl _, h.pointersFit he,
      fun hnone => (by cases hnone), fun w'' hw'' => ?_⟩
    · exact (st.dir.write_manifest_current st.vs.manifestFileNumber w'.dest.contents).trans
        h.stored.current
    · rw [hfollows'.contents]
      exact readsAs_manifestBytes _
    · exact congrArg (applyEdit ucmp · _) h.current
    · obtain rfl := Option.some.inj hw''
      exact ⟨hnumber, hfollows', hcontents⟩
  | false =>
    rw [if_neg Bool.false_ne_true]
    exact ⟨hdisks, fun hgood => absurd (hs.symm.trans hgood) (by simp), fun _ => rfl, fun _ _ => rfl,
      fun _ hnone => absurd (hw.symm.trans hnone) (by simp)⟩

/-- The directories differ in one MANIFEST at most, as far as CURRENT and MANIFESTs go. -/
def OnlyManifest (number : ℕ) (dir dir' : Directory) : Prop :=
  dir' currentFileName = dir currentFileName ∧
    ∀ n ≠ number, dir' (descriptorFileName n) = dir (descriptorFileName n)

theorem OnlyManifest.trans {number : ℕ} {d d' d'' : Directory} (h : OnlyManifest number d d')
    (h' : OnlyManifest number d' d'') : OnlyManifest number d d'' :=
  ⟨h'.1.trans h.1, fun n hn => (h'.2 n hn).trans (h.2 n hn)⟩

theorem onlyManifest_update (number : ℕ) (dir : Directory) (x : Option Slice) :
    OnlyManifest number dir (Function.update dir (descriptorFileName number) x) :=
  ⟨Function.update_of_ne (descriptorFileName_ne_current number).symm _ _,
    fun _ hn => Function.update_of_ne (fun heq => hn (descriptorFileName_inj.mp heq)) _ _⟩

theorem Stored.onlyManifest {number : ℕ} (h : Stored ucmp dir m) (hne : m.number ≠ number)
    (hsame : OnlyManifest number dir dir') : Stored ucmp dir' m :=
  h.frame hsame.1 (hsame.2 _ hne)

section

variable (h : st.Holds ucmp m) (hnone : st.descriptor = none) (he : LegalEdit ucmp st.vs m.history e)

include h hnone he

theorem ManifestState.Holds.abandon (hsame : OnlyManifest st.vs.manifestFileNumber st.dir dir) :
    ManifestState.Holds ucmp ⟨st.vs.pointed e, dir, none, st.failed⟩ m where
  stored := h.stored.onlyManifest (h.stored.sound.number_lt.trans_le (h.newName hnone).1).ne hsame
  current := h.current
  logNumber := h.logNumber
  prevLogNumber := h.prevLogNumber
  nextFile := h.nextFile
  pointers := h.pointersFit he
  newName _ := h.newName hnone
  follows w hw := by cases hw

/-- A call that fails and leaves CURRENT alone is atomic. -/
theorem ManifestState.Holds.atomic_error {r : Applied} (hs : r.status.isOk = false)
    (hnext : ∃ d, OnlyManifest st.vs.manifestFileNumber st.dir d ∧
      r.next = ⟨st.vs.pointed e, d, none, st.failed⟩)
    (hdisks : ∀ d ∈ r.disks, Stored ucmp d m ∨ Stored ucmp d m') : r.Atomic ucmp st e m m' := by
  obtain ⟨d, hsame, hnext⟩ := hnext
  have hholds := h.abandon hnone he hsame
  rw [← hnext] at hholds
  refine ⟨fun x hx => ?_, fun hok => absurd (hs.symm.trans hok) (by simp), fun _ => ?_,
    fun _ hsome => absurd hnone hsome, fun _ _ => ⟨?_, hholds, ?_⟩⟩
  · grind [Holds]
  · rw [hnext]
  · rw [hnext]
  · rw [hnext]
    exact hsame.1

theorem ManifestState.Holds.finish_error {s : Status} (hs : s.isOk = false) {disks : List Directory}
    (hdisks : ∀ d ∈ disks, OnlyManifest st.vs.manifestFileNumber st.dir d) (log : Option Writer)
    (installed : VersionSet) :
    (st.finish (st.vs.pointed e) installed env disks log s).Atomic ucmp st e m m' := by
  have hne := (h.stored.sound.number_lt.trans_le (h.newName hnone).1).ne
  have hdir : OnlyManifest st.vs.manifestFileNumber st.dir
      (st.dir.withLog (descriptorFileName st.vs.manifestFileNumber) log) := by
    cases log with
    | none => exact ⟨rfl, fun _ _ => rfl⟩
    | some w => exact onlyManifest_update _ _ _
  have hremoved : OnlyManifest st.vs.manifestFileNumber st.dir (if env.removeManifest = true then
      (st.dir.withLog (descriptorFileName st.vs.manifestFileNumber) log).remove
        (descriptorFileName st.vs.manifestFileNumber)
      else st.dir.withLog (descriptorFileName st.vs.manifestFileNumber) log) := by
    split_ifs
    · exact hdir.trans (onlyManifest_update _ _ _)
    · exact hdir
  have hisNone : st.descriptor.isNone = true := by rw [hnone]; rfl
  simp only [finish, hs, Bool.false_and, Bool.false_eq_true, if_false, hisNone, if_true, append_nil]
  refine h.atomic_error hnone he hs ⟨_, hremoved, rfl⟩ fun d hd => ?_
  rcases mem_append.mp hd with hd | hd
  · exact Or.inl (h.stored.onlyManifest hne (hdisks d hd))
  · obtain rfl := mem_singleton.mp hd
    exact Or.inl (h.stored.onlyManifest hne hremoved)

theorem ManifestState.Holds.finish_ok {disks : List Directory}
    (hdisks : ∀ d ∈ disks, OnlyManifest st.vs.manifestFileNumber st.dir d)
    (hsound : (m.restart ucmp st.vs ((st.vs.pointed e).snapshot ucmp env.hasNextFile) e).Sound ucmp)
    (hw : w.Follows ([(st.vs.pointed e).snapshot ucmp env.hasNextFile] ++ [st.vs.complete e])) :
    (st.finish (st.vs.pointed e) (st.vs.installed ucmp e) env disks (some w) .ok).Atomic ucmp st e m
      (m.restart ucmp st.vs ((st.vs.pointed e).snapshot ucmp env.hasNextFile) e) := by
  have hne := (h.stored.sound.number_lt.trans_le (h.newName hnone).1).ne
  have hisNone : st.descriptor.isNone = true := by rw [hnone]; rfl
  have hwritten : OnlyManifest st.vs.manifestFileNumber st.dir
      (st.dir.write (descriptorFileName st.vs.manifestFileNumber) w.dest.contents) :=
    onlyManifest_update _ _ _
  have hself := st.dir.write_self (descriptorFileName st.vs.manifestFileNumber) w.dest.contents
  simp only [finish, Directory.withLog, Status.isOk_ok, hisNone, Bool.and_self, if_true,
    show (st.vs.pointed e).manifestFileNumber = st.vs.manifestFileNumber from rfl]
  generalize st.dir.write (descriptorFileName st.vs.manifestFileNumber) w.dest.contents = dir at *
  obtain ⟨hdisks', hmanifests, hcurrent⟩ := setCurrentFile_spec dir st.vs.manifestFileNumber env
  generalize setCurrentFile dir st.vs.manifestFileNumber env = current at *
  -- a directory with the new MANIFEST, once CURRENT names it
  have hnew (d : Directory) (hsame : SameManifests dir d) (hname : d currentFileName =
        some (descriptorFileName st.vs.manifestFileNumber ++ [newline])) :
      Stored ucmp d (m.restart ucmp st.vs ((st.vs.pointed e).snapshot ucmp env.hasNextFile) e) ∧
        d (descriptorFileName st.vs.manifestFileNumber) = some w.dest.contents := by
    have hfile := (hsame _).trans hself
    refine ⟨⟨hsound, hname, _, hfile, ?_⟩, hfile⟩
    rw [hw.contents]
    exact readsAs_manifestBytes _
  -- and one whose CURRENT is still the old one
  have hold (d : Directory) (hsame : SameManifests dir d)
      (hname : d currentFileName = dir currentFileName) :
      OnlyManifest st.vs.manifestFileNumber st.dir d :=
    hwritten.trans ⟨hname, fun n _ => hsame n⟩
  have hall (d : Directory) (hd : d ∈ disks ++ current.disks) : Stored ucmp d m ∨
      Stored ucmp d (m.restart ucmp st.vs ((st.vs.pointed e).snapshot ucmp env.hasNextFile) e) := by
    rcases mem_append.mp hd with hd | hd
    · exact Or.inl (h.stored.onlyManifest hne (hdisks d hd))
    · obtain ⟨hsame, hname | hname⟩ := hdisks' d hd
      · exact Or.inl (h.stored.onlyManifest hne (hold d hsame hname))
      · exact Or.inr (hnew d hsame hname).1
  cases hs : current.status.isOk with
  | true =>
    rw [hs, if_pos rfl] at hcurrent
    obtain ⟨hstored, hfile⟩ := hnew _ hmanifests hcurrent
    rw [if_pos rfl]
    refine ⟨fun d hd => ?_, fun _ => ⟨rfl, rfl, ?_⟩, fun hbad => absurd hbad (by simp),
      fun hbad => absurd hbad (by simp), fun hbad => absurd hbad (by simp)⟩
    · grind
    · refine ⟨hstored, ?_, rfl, rfl, Nat.le_refl _, h.pointersFit he, fun hn => (by cases hn),
        fun w' hw' => ?_⟩
      · exact congrArg (applyEdit ucmp · _) h.current
      · obtain rfl := Option.some.inj hw'
        exact ⟨rfl, hw, hfile⟩
  | false =>
    rw [hs, if_neg Bool.false_ne_true] at hcurrent
    have hsame := hold _ hmanifests hcurrent
    have hremoved : OnlyManifest st.vs.manifestFileNumber st.dir (if env.removeManifest = true then
        current.dir.remove (descriptorFileName st.vs.manifestFileNumber) else current.dir) := by
      split_ifs
      · exact hsame.trans (onlyManifest_update _ _ _)
      · exact hsame
    rw [if_neg Bool.false_ne_true]
    refine h.atomic_error hnone he hs ⟨_, hremoved, rfl⟩ fun d hd => ?_
    rcases mem_append.mp hd with hd | hd
    · exact hall d hd
    · obtain rfl := mem_singleton.mp hd
      exact Or.inl (h.stored.onlyManifest hne hremoved)

end

/-- **A new MANIFEST is written** and CURRENT is set to it at the end. -/
theorem ManifestState.Holds.logAndApply_restart (h : st.Holds ucmp m) (hnone : st.descriptor = none)
    (hname : ucmp.name.length < 2 ^ 32) (he : LegalEdit ucmp st.vs m.history e)
    (hpad : st.PadKeeps ucmp e env) :
    ∃ r, st.logAndApply ucmp e env = some r ∧
      r.Atomic ucmp st e m (m.restart ucmp st.vs ((st.vs.pointed e).snapshot ucmp env.hasNextFile) e) := by
  have hwrite (c : Slice) : OnlyManifest st.vs.manifestFileNumber st.dir
      (st.dir.write (descriptorFileName st.vs.manifestFileNumber) c) := onlyManifest_update _ _ _
  cases hcreate : env.create with
  | some error =>
    have hopen : st.openDescriptor ucmp (st.vs.pointed e) env =
        some ([], none, .error error.1 error.2) := by
      rw [openDescriptor, hnone, hcreate]
    exact ⟨_, logAndApply_eq hopen rfl,
      h.finish_error hnone he rfl (fun d hd => absurd hd not_mem_nil) _ _⟩
  | none =>
    obtain ⟨w, s, hadd, -, hok⟩ := (Writer.follows_new env.descriptor.calls).addRecord
      env.descriptor.honest (Writer.padKeeps_new _) ((st.vs.pointed e).snapshot ucmp env.hasNextFile)
    have hopen : st.openDescriptor ucmp (st.vs.pointed e) env = some
        (([] :: (Writer.new ⟨[], 0, env.descriptor.calls⟩).addTrace
          ((st.vs.pointed e).snapshot ucmp env.hasNextFile).encodeTo).map
            (st.dir.write (descriptorFileName st.vs.manifestFileNumber)), some w, s) := by
      rw [openDescriptor, hnone, hcreate]
      simp only [hadd, Option.map_some]
      rfl
    have hdisks (cs : List Slice) : ∀ d ∈
        cs.map (st.dir.write (descriptorFileName st.vs.manifestFileNumber)),
        OnlyManifest st.vs.manifestFileNumber st.dir d := by
      grind
    cases s with
    | error code message =>
      have hedit : writeEdit (st.dir.write (descriptorFileName st.vs.manifestFileNumber)) (some w)
          (.error code message) (st.vs.complete e).encodeTo =
            some ([], some w, .error code message) := rfl
      refine ⟨_, logAndApply_eq hopen hedit, ?_⟩
      rw [append_nil]
      exact h.finish_error hnone he rfl (hdisks _) _ _
    | ok =>
      obtain ⟨hhonest, hfollows⟩ := hok rfl
      obtain ⟨cs, w', s', hedit, -, hok'⟩ := writeEdit_spec hfollows hhonest (hpad _ _ hopen)
        (st.vs.complete e) (st.dir.write (descriptorFileName st.vs.manifestFileNumber))
      refine ⟨_, logAndApply_eq hopen hedit, ?_⟩
      rw [← map_append]
      cases s' with
      | error code message => exact h.finish_error hnone he rfl (hdisks _) _ _
      | ok =>
        have hreadable := Recorded.readable_snapshot h.stored.sound
          (show (st.vs.pointed e).current = m.version from h.current) hname (h.pointersFit he) env.hasNextFile
        have hsound := Recorded.sound_restart h.stored.sound h.current h.nextFile
          (h.newName hnone).2 he hreadable (congrArg Version.listing h.current) rfl
        exact h.finish_ok hnone he (hdisks _) hsound (hok' rfl)

/-- What the MANIFEST says after a call that returns OK. -/
def ManifestState.recorded (ucmp : Comparator) (st : ManifestState) (m : Recorded) (e : VersionEdit)
    (env : ApplyEnv) : Recorded :=
  match st.descriptor with
  | some _ => m.append ucmp st.vs e
  | none => m.restart ucmp st.vs ((st.vs.pointed e).snapshot ucmp env.hasNextFile) e

/-- **One call of `LogAndApply`.** -/
theorem ManifestState.Holds.logAndApply (h : st.Holds ucmp m) (hname : ucmp.name.length < 2 ^ 32)
    (he : LegalEdit ucmp st.vs m.history e) (hpad : st.PadKeeps ucmp e env) :
    ∃ r, st.logAndApply ucmp e env = some r ∧ r.Atomic ucmp st e m (st.recorded ucmp m e env) := by
  rw [recorded]
  cases hd : st.descriptor with
  | some w => exact h.logAndApply_append hd he hpad
  | none => exact h.logAndApply_restart hd hname he hpad

end RocketDb
