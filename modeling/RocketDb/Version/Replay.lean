import RocketDb.Version.Manifest

/-! # What a MANIFEST says

* **`Recorded`** — the edits of a MANIFEST, and the version and the numbers they stand for.
* **`Stored`** — a directory whose CURRENT names such a MANIFEST; `Stored.recover`: `Recover` gives them back.
* **`Recorded.sound_append`**, **`Recorded.sound_restart`** — a legal edit may be appended, or written to a
  new MANIFEST after a snapshot. -/

namespace RocketDb

open Log List

/-! ## Replaying edits -/

/-- The last value that the edits give to a field. -/
def lastSet (field : VersionEdit → Option ℕ) (start : Option ℕ) (edits : List VersionEdit) : Option ℕ :=
  edits.foldl (fun x e => (field e).or x) start

/-- An edit that `Recover` can read. -/
structure VersionEdit.Readable (ucmp : Comparator) (e : VersionEdit) : Prop where
  encodable : e.Encodable
  comparator : ∀ name ∈ e.comparator, name = ucmp.name

/-- The keys of compaction pointers fit the format. -/
def PointersFit (pointer : ℕ → Option InternalKey) : Prop :=
  ∀ level key, pointer level = some key → key.userKey.length + 8 < 2 ^ 32

variable {ucmp : Comparator} {edits : List VersionEdit} {e : VersionEdit} {memory : ℕ → Bool}
  {st : Replay} {dir dir' : Directory} {n : ℕ} {pointer : ℕ → Option InternalKey}

theorem lastSet_concat (field : VersionEdit → Option ℕ) (start : Option ℕ) (edits : List VersionEdit)
    (e : VersionEdit) :
    lastSet field start (edits ++ [e]) = (field e).or (lastSet field start edits) := by
  rw [lastSet, foldl_append]
  rfl

theorem Replay.record_readable (h : e.Readable ucmp) (st : Replay) (hasNextFile : Bool) :
    st.record ucmp hasNextFile e.encodeTo =
      { status := .ok
        logNumber := e.logNumber.or st.logNumber
        prevLogNumber := e.prevLogNumber.or st.prevLogNumber
        nextFile := (e.nextFileNumber.or (if hasNextFile then some 0 else none)).or st.nextFile
        lastSequence := e.lastSequence.or st.lastSequence
        builder := builderApply ucmp st.builder e
        compactPointer := applyCompactPointers st.compactPointer e } := by
  have hstatus : ∀ x, recordStatus ucmp (.ok, { e with nextFileNumber := x }) = .ok := by
    intro x
    simp only [recordStatus, Status.isOk, if_true, checkComparator]
    cases hc : e.comparator with
    | none => rfl
    | some name => simp [h.comparator name hc]
  rw [record]
  simp only [VersionEdit.decodeFrom_encodeTo h.encodable, hstatus, Status.isOk, if_true]
  rfl

theorem replayRecords_append (i : ℕ) (st : Replay) (xs ys : List (List Status × Slice)) :
    replayRecords ucmp memory i st (xs ++ ys) =
      replayRecords ucmp memory (i + xs.length) (replayRecords ucmp memory i st xs) ys := by
  induction xs generalizing i st with
  | nil => rfl
  | cons x xs ih =>
    grind [replayRecords]

/-- The records of edits, as the reader hands them out. -/
def recordsOf (edits : List VersionEdit) : List (List Status × Slice) :=
  edits.map fun e => ([], e.encodeTo)

theorem recordsOf_append (edits more : List VersionEdit) :
    recordsOf (edits ++ more) = recordsOf edits ++ recordsOf more := map_append

theorem replayRecords_edits (memory : ℕ → Bool) (h : ∀ e ∈ edits, e.Readable ucmp)
    (hst : st.status = .ok) (i : ℕ) :
    (replayRecords ucmp memory i st (recordsOf edits)).status = .ok ∧
      (replayRecords ucmp memory i st (recordsOf edits)).logNumber =
        lastSet VersionEdit.logNumber st.logNumber edits ∧
      (replayRecords ucmp memory i st (recordsOf edits)).prevLogNumber =
        lastSet VersionEdit.prevLogNumber st.prevLogNumber edits ∧
      (replayRecords ucmp memory i st (recordsOf edits)).lastSequence =
        lastSet VersionEdit.lastSequence st.lastSequence edits ∧
      (replayRecords ucmp memory i st (recordsOf edits)).builder =
        edits.foldl (builderApply ucmp) st.builder ∧
      (replayRecords ucmp memory i st (recordsOf edits)).compactPointer =
        edits.foldl applyCompactPointers st.compactPointer := by
  induction edits generalizing i st with
  | nil => exact ⟨hst, rfl, rfl, rfl, rfl, rfl⟩
  | cons e edits ih =>
    have hcons : replayRecords ucmp memory i st (recordsOf (e :: edits)) =
        replayRecords ucmp memory (i + 1) (st.record ucmp (memory i) e.encodeTo)
          (recordsOf edits) := rfl
    rw [hcons, Replay.record_readable (h e mem_cons_self)]
    exact ih (fun x hx => h x (mem_cons_of_mem e hx)) rfl (i + 1)

theorem PointersFit.update (h : PointersFit pointer) (level : ℕ) {key : InternalKey}
    (hkey : key.userKey.length + 8 < 2 ^ 32) :
    PointersFit (Function.update pointer level (some key)) := by
  intro level' key' hsome
  rcases eq_or_ne level' level with rfl | hne
  · grind
  · rw [Function.update_of_ne hne] at hsome
    exact h level' key' hsome

theorem PointersFit.apply (h : PointersFit pointer)
    (he : ∀ x ∈ e.compactPointers, x.2.userKey.length + 8 < 2 ^ 32) :
    PointersFit (applyCompactPointers pointer e) := by
  rw [applyCompactPointers]
  revert he
  induction e.compactPointers generalizing pointer with
  | nil => exact fun _ => h
  | cons x xs ih =>
    intro he
    exact ih (h.update x.1 (he x mem_cons_self)) fun y hy => he y (mem_cons_of_mem x hy)

theorem PointersFit.foldl (h : PointersFit pointer) (hedits : ∀ e ∈ edits, e.Readable ucmp) :
    PointersFit (edits.foldl applyCompactPointers pointer) := by
  induction edits generalizing pointer with
  | nil => exact h
  | cons e edits ih =>
    refine ih (h.apply fun x hx => ?_) fun x hx => hedits x (mem_cons_of_mem e hx)
    exact ((hedits e mem_cons_self).encodable.pointers x hx).2

/-! ## MANIFESTs -/

/-- What a MANIFEST says. -/
structure Recorded where
  /-- The number in its name. -/
  number : ℕ
  /-- The edits before the last one, and the last one. -/
  earlier : List VersionEdit
  last : VersionEdit
  nextFile : ℕ
  lastSequence : ℕ
  logNumber : ℕ
  prevLogNumber : ℕ
  version : Version

/-- The edits of a MANIFEST. -/
def Recorded.history (m : Recorded) : List VersionEdit := m.earlier ++ [m.last]

/-- **The edits stand for the version and the numbers.** -/
structure Recorded.Sound (ucmp : Comparator) (m : Recorded) : Prop where
  readable : ∀ e ∈ m.history, e.Readable ucmp
  represents : Represents ucmp m.history m.version
  logNumber : lastSet VersionEdit.logNumber none m.history = some m.logNumber
  prevLogNumber : (lastSet VersionEdit.prevLogNumber none m.history).getD 0 = m.prevLogNumber
  lastSequence : lastSet VersionEdit.lastSequence none m.history = some m.lastSequence
  nextFile : m.last.nextFileNumber = some m.nextFile
  number_lt : m.number < m.nextFile
  used_lt : ∀ k ∈ usedNumbers m.history, k < m.nextFile
  fits : m.nextFile + 1 < 2 ^ 64

/-- The bytes of a MANIFEST with the given edits. -/
def manifestBytes (edits : List VersionEdit) : Slice :=
  bytesOf 0 (logPieces 0 (edits.map VersionEdit.encodeTo))

/-- The bytes left in the last block of such a MANIFEST. -/
def manifestRoom (edits : List VersionEdit) : ℕ :=
  leftOver 0 (logPieces 0 (edits.map VersionEdit.encodeTo))

/-- The bytes that a further edit adds. -/
def editBytes (edits : List VersionEdit) (e : VersionEdit) : Slice :=
  bytesOf (manifestRoom edits) (logPieces (manifestRoom edits) [e.encodeTo])

theorem manifestBytes_concat (edits : List VersionEdit) (e : VersionEdit) :
    manifestBytes (edits ++ [e]) = manifestBytes edits ++ editBytes edits e := by
  rw [manifestBytes, map_append, logPieces_append, bytesOf_append]
  rfl

theorem manifestRoom_concat (edits : List VersionEdit) (e : VersionEdit) :
    manifestRoom (edits ++ [e]) =
      leftOver (manifestRoom edits) (logPieces (manifestRoom edits) [e.encodeTo]) := by
  rw [manifestRoom, map_append, logPieces_append, leftOver_append]
  rfl

/-- The reader hands out the edits, and reports nothing. -/
def ReadsAs (contents : Slice) (edits : List VersionEdit) : Prop :=
  (Reader.new ⟨contents, []⟩ true 0).events (contents.length + 1) = some ⟨recordsOf edits, []⟩

theorem readsAs_manifestBytes (edits : List VersionEdit) : ReadsAs (manifestBytes edits) edits := by
  rw [ReadsAs, manifestBytes, events_whole, map_map]
  rfl

theorem readsAs_cut (edits : List VersionEdit) (e : VersionEdit) (n : ℕ) :
    ReadsAs (manifestBytes edits ++ (editBytes edits e).take n) edits ∨
      ReadsAs (manifestBytes edits ++ (editBytes edits e).take n) (edits ++ [e]) := by
  obtain ⟨kept, hkept, hevents⟩ := events_cut (edits.map VersionEdit.encodeTo)
    e.encodeTo n rfl
  rcases hkept with rfl | rfl
  · refine Or.inl (hevents.trans ?_)
    rw [map_map]
    rfl
  · refine Or.inr (hevents.trans ?_)
    rw [← map_singleton, ← map_append, map_map]
    rfl

/-- **CURRENT names a MANIFEST that says `m`.** -/
structure Stored (ucmp : Comparator) (dir : Directory) (m : Recorded) : Prop where
  sound : m.Sound ucmp
  current : dir currentFileName = some (descriptorFileName m.number ++ [newline])
  manifest : ∃ contents, dir (descriptorFileName m.number) = some contents ∧ ReadsAs contents m.history

theorem Stored.frame {m : Recorded} (h : Stored ucmp dir m)
    (hcurrent : dir' currentFileName = dir currentFileName)
    (hmanifest : dir' (descriptorFileName m.number) = dir (descriptorFileName m.number)) :
    Stored ucmp dir' m :=
  ⟨h.sound, hcurrent.trans h.current, hmanifest ▸ h.manifest⟩

/-- **`Recover` gives what the MANIFEST says.** -/
theorem Stored.recover {m : Recorded} (h : Stored ucmp dir m) (memory : ℕ → Bool) :
    ∃ pointer, PointersFit pointer ∧ VersionSet.new.recover ucmp dir memory = some (.ok,
      { nextFileNumber := m.nextFile + 1
        manifestFileNumber := m.nextFile
        lastSequence := m.lastSequence
        logNumber := m.logNumber
        prevLogNumber := m.prevLogNumber
        current := m.version
        compactPointer := pointer }) := by
  obtain ⟨contents, hcontents, hevents⟩ := h.manifest
  have hcurrent : dir (ascii "CURRENT") = some (descriptorFileName m.number ++ [newline]) := h.current
  have hnext : (replayRecords ucmp memory 0 (.start .new) (recordsOf m.history)).nextFile =
      some m.nextFile := by
    have hreadable : m.last.Readable ucmp := h.sound.readable m.last (by simp [Recorded.history])
    rw [Recorded.history, recordsOf_append, replayRecords_append]
    simp only [recordsOf, map_cons, map_nil, replayRecords, foldl_nil,
      Replay.record_readable hreadable, h.sound.nextFile, Option.some_or]
  obtain ⟨hstatus, hlog, hprev, hlast, hbuilder, hpointer⟩ := replayRecords_edits
    memory h.sound.readable (show (Replay.start .new).status = .ok from rfl) 0
  replace hlog := hlog.trans h.sound.logNumber
  replace hprev := (congrArg (Option.getD · 0) hprev).trans h.sound.prevLogNumber
  replace hlast := hlast.trans h.sound.lastSequence
  have hversion : builderSaveTo ucmp .empty
      (replayRecords ucmp memory 0 (.start .new) (recordsOf m.history)).builder = m.version := by
    rw [hbuilder]
    exact Version.ext (funext h.sound.represents.saveTo)
  refine ⟨_, PointersFit.foldl (show PointersFit fun _ => none from fun _ _ hkey => by cases hkey)
    h.sound.readable, ?_⟩
  simp only [VersionSet.recover, hcurrent, getLast?_append, getLast?_singleton,
    Option.some_or, if_true, dropLast_concat, hcontents, replayLoop_eq _ _ hevents,
    Option.map_some, foldl_nil]
  generalize replayRecords ucmp memory 0 (.start .new) (recordsOf m.history) = r at *
  have hmissing : r.missing.isOk = true := by simp [isOk_missing, hnext, hlog, hlast]
  have hcompact : (VersionSet.install ucmp .new r).2.compactPointer = r.compactPointer := by
    simp only [VersionSet.install, VersionSet.markFileNumberUsed]
    split_ifs <;> rfl
  rw [VersionSet.install] at hcompact ⊢
  simp only [hstatus, Status.isOk_ok, hmissing, if_true] at hcompact ⊢
  rw [hcompact, VersionSet.current_markFileNumberUsed, VersionSet.current_markFileNumberUsed]
  simp only [hlog, hprev, hlast, hnext, Option.getD_some, Nat.mod_eq_of_lt h.sound.fits, hpointer]
  rw [← hversion]
  rfl

/-! ## One more edit -/

/-- What the MANIFEST says after an edit has been appended. -/
def Recorded.append (ucmp : Comparator) (m : Recorded) (vs : VersionSet) (e : VersionEdit) : Recorded where
  number := m.number
  earlier := m.history
  last := vs.complete e
  nextFile := vs.nextFileNumber
  lastSequence := vs.lastSequence
  logNumber := e.logNumber.getD vs.logNumber
  prevLogNumber := e.prevLogNumber.getD vs.prevLogNumber
  version := applyEdit ucmp m.version (vs.complete e)

/-- What a new MANIFEST says: a snapshot and the edit. -/
def Recorded.restart (ucmp : Comparator) (m : Recorded) (vs : VersionSet) (snapshot e : VersionEdit) :
    Recorded :=
  { m.append ucmp vs e with number := vs.manifestFileNumber, earlier := [snapshot] }

/-- **An edit that may be applied**: the format can hold it, it adds files that are new or moved, and
their numbers have been given out. -/
structure LegalEdit (ucmp : Comparator) (vs : VersionSet) (edits : List VersionEdit) (e : VersionEdit) :
    Prop where
  comparator : ∀ name ∈ e.comparator, name = ucmp.name
  encodable : (vs.complete e).Encodable
  legal : e.Legal vs.current (usedNumbers edits)
  allocated : ∀ k ∈ e.numbers, k < vs.nextFileNumber
  fits : vs.nextFileNumber + 1 < 2 ^ 64

variable {vs : VersionSet} {m : Recorded}

theorem LegalEdit.readable (h : LegalEdit ucmp vs edits e) : (vs.complete e).Readable ucmp :=
  ⟨h.encodable, h.comparator⟩

theorem lastSet_complete (vs : VersionSet) (edits : List VersionEdit) (e : VersionEdit) :
    lastSet VersionEdit.logNumber none (edits ++ [vs.complete e]) =
        some (e.logNumber.getD vs.logNumber) ∧
      lastSet VersionEdit.prevLogNumber none (edits ++ [vs.complete e]) =
        some (e.prevLogNumber.getD vs.prevLogNumber) ∧
      lastSet VersionEdit.lastSequence none (edits ++ [vs.complete e]) = some vs.lastSequence := by
  refine ⟨?_, ?_, ?_⟩ <;> rw [lastSet_concat] <;> rfl

section

variable (h : m.Sound ucmp) (hversion : vs.current = m.version)

include h hversion

/-- **An edit may be appended.** -/
theorem Recorded.sound_append (hnext : m.nextFile ≤ vs.nextFileNumber)
    (he : LegalEdit ucmp vs m.history e) : (m.append ucmp vs e).Sound ucmp := by
  obtain ⟨hlog, hprev, hlast⟩ := lastSet_complete vs m.history e
  refine ⟨fun x hx => ?_, ?_, hlog, ?_, hlast, rfl, h.number_lt.trans_le hnext, fun k hk => ?_, he.fits⟩
  · rcases mem_append.mp hx with hx | hx
    · exact h.readable x hx
    · obtain rfl := mem_singleton.mp hx
      exact he.readable
  · have hlegal : (vs.complete e).Legal m.version (usedNumbers m.history) :=
      hversion ▸ ⟨he.legal.once, he.legal.origin⟩
    exact h.represents.applyEdit hlegal
  · exact congrArg (Option.getD · 0) hprev
  · rcases mem_usedNumbers_append.mp hk with hk | hk
    · exact (h.used_lt k hk).trans_le hnext
    · rw [usedNumbers, flatMap_singleton] at hk
      exact he.allocated k hk

/-- A snapshot can be read back, whatever its unset flag happens to hold. -/
theorem Recorded.readable_snapshot (hname : ucmp.name.length < 2 ^ 32)
    (hpointers : PointersFit vs.compactPointer) (hasNextFile : Bool) :
    (vs.snapshot ucmp hasNextFile).Readable ucmp where
  encodable :=
    { comparator := fun name hc => Option.some.inj hc ▸ hname
      logNumber := fun _ hn => by cases hn
      prevLogNumber := fun _ hn => by cases hn
      nextFileNumber := fun n hn => by
        cases hasNextFile with
        | true => exact Option.some.inj hn ▸ (by decide)
        | false => cases hn
      lastSequence := fun _ hn => by cases hn
      pointers := fun x hx => by
        obtain ⟨level, hlevel, hkey⟩ := mem_filterMap.mp hx
        obtain ⟨key, hpointer, rfl⟩ := Option.map_eq_some_iff.mp hkey
        exact ⟨mem_range.mp hlevel, hpointers level key hpointer⟩
      deleted := fun _ hx => absurd hx not_mem_nil
      sorted := List.Pairwise.nil
      files := fun x hx => by
        obtain ⟨hlevel, hf⟩ := mem_listing.mp hx
        rw [hversion] at hf
        obtain ⟨e, he, hfe⟩ := h.represents.origin x.1 x.2 (h.represents.mem_added hf)
        exact (h.readable e he).encodable.files x hfe }
  comparator := fun _ hc => (Option.some.inj hc).symm

/-- **A new MANIFEST may start with a snapshot.** -/
theorem Recorded.sound_restart (hnext : m.nextFile ≤ vs.nextFileNumber)
    (hnumber : vs.manifestFileNumber < vs.nextFileNumber) (he : LegalEdit ucmp vs m.history e)
    {snapshot : VersionEdit} (hreadable : snapshot.Readable ucmp)
    (hfiles : snapshot.newFiles = m.version.listing) (hdeleted : snapshot.deletedFiles = []) :
    (m.restart ucmp vs snapshot e).Sound ucmp := by
  obtain ⟨hlog, hprev, hlast⟩ := lastSet_complete vs [snapshot] e
  have hused (k : ℕ) (hk : k ∈ usedNumbers [snapshot]) : k ∈ usedNumbers m.history := by
    rw [usedNumbers, flatMap_singleton] at hk
    obtain ⟨level, f, hf, rfl⟩ := VersionEdit.mem_numbers.mp hk
    rw [hfiles] at hf
    exact h.represents.used (h.represents.mem_added (mem_listing.mp hf).2)
  refine ⟨fun x hx => ?_, ?_, hlog, ?_, hlast, rfl, hnumber, fun k hk => ?_, he.fits⟩
  · rcases mem_append.mp hx with hx | hx
    · obtain rfl := mem_singleton.mp hx
      exact hreadable
    · obtain rfl := mem_singleton.mp hx
      exact he.readable
  · have hlegal : (vs.complete e).Legal m.version (usedNumbers [snapshot]) := by
      refine ⟨he.legal.once, fun level f hf => ?_⟩
      rcases he.legal.origin level f hf with hfresh | hmoved
      · exact Or.inl fun hk => hfresh (hused _ hk)
      · exact Or.inr (hversion ▸ hmoved)
    exact (represents_snapshot h.represents.listable hfiles hdeleted).applyEdit hlegal
  · exact congrArg (Option.getD · 0) hprev
  · rcases mem_usedNumbers_append.mp hk with hk | hk
    · exact (h.used_lt k (hused k hk)).trans_le hnext
    · rw [usedNumbers, flatMap_singleton] at hk
      exact he.allocated k hk

end

end RocketDb
