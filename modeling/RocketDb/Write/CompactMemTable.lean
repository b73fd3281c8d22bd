import Mathlib.Data.List.Infix
import RocketDb.Write.GroupCommit

/-! # Forcing a flush (`DBImpl::TEST_CompactMemTable`)

`TEST_CompactMemTable` calls `Write` without a batch and then waits until `imm_` is gone. As a leader, the
writer without a batch makes `MakeRoomForWrite` switch to a new memtable, so what was acknowledged before goes
to a table. But `BuildBatchGroup` also takes writers without a batch into the group of another leader; then
nobody switches the memtable, and the call returns OK all the same.

* **`WriteState.Forced`** — a writer without a batch seals what was acknowledged before it.
* **`WriteState.Filled`** — the memtables have the records of their batches, and the tables have them or newer
  ones: a flush leaves out what was overwritten.
* **`WriteState.compactMemTable_flushes`** — if no leader takes a writer without a batch, what was
  acknowledged before the call is in a table when the call returns OK. -/

namespace RocketDb

open List

namespace WriteState

/-- The batches in the tables. -/
def flushed (s : WriteState) : List NumberedWrite := s.tables.flatMap MemTableState.writes

/-- The batches in the tables and in `imm_`. -/
def sealed (s : WriteState) : List NumberedWrite :=
  s.flushed ++ s.imm.elim [] MemTableState.writes

/-- A leader that finds room has no writer without a batch within its reach. -/
def NoNullInReach (s : WriteState) : WriteAction → Prop
  | .makeRoom _ env =>
    s.bgError.isOk → env.full = false →
      match s.queue with
      | [] => True
      | w :: rest =>
        w.batch.isSome → ∀ ws ∈ rest.inits, InReach w ws → ∀ x ∈ ws, x.batch.isSome
  | _ => True

instance decidableNoNullInReach (s : WriteState) (a : WriteAction) :
    Decidable (s.NoNullInReach a) := by
  unfold NoNullInReach
  cases a with
  | makeRoom i env => cases s.queue <;> infer_instance
  | _ => infer_instance

/-- The batches acknowledged before the call of `w` are among `ws`. -/
def EarlierIn (s : WriteState) (w : DBWriter) (ws : List NumberedWrite) : Prop :=
  ∀ x ∈ s.before w.id, x.batch.isSome → x ∈ ws.map Prod.fst

/-- A writer without a batch is past the switch of the memtable. -/
def PastSwitch (s : WriteState) (w : DBWriter) : Prop :=
  (∃ allowDelay, s.pc w.id = some (.makeRoom false allowDelay)) ∨
    s.pc w.id = some (.returned .ok)

/-- **A writer without a batch switches the memtable before it returns OK.** -/
structure Forced (s : WriteState) : Prop where
  /-- No group has a writer without a batch. -/
  batches : ∀ w rest g, s.queue = w :: rest → s.pc w.id = some (.unlocked g) →
    ∀ x ∈ w :: g.followers, x.batch.isSome
  notDone : ∀ w ∈ s.left, w.batch = none → s.done w.id = none
  before : ∀ w ∈ s.arrived, ∀ x ∈ s.before w.id, x ∈ s.acknowledged
  called : ∀ i, s.compacted i ≠ none → s.pc i ≠ none
  sealed : ∀ w ∈ s.arrived, w.batch = none → s.PastSwitch w → s.EarlierIn w s.sealed
  flushed : ∀ w ∈ s.arrived, w.batch = none → s.compacted w.id = some .ok →
    s.EarlierIn w s.flushed

variable {ucmp : Comparator} {s s' : WriteState} {w : DBWriter} {rest : List DBWriter}
  {status : Status}

theorem EarlierIn.mono {ws ws' : List NumberedWrite} (h : s.EarlierIn w ws)
    (hbefore : s'.before w.id = s.before w.id)
    (hsub : ∀ x ∈ ws.map Prod.fst, x ∈ ws'.map Prod.fst) : s'.EarlierIn w ws' := by
  grind [EarlierIn]

theorem writes_eq_sealed (himm : s.imm = none) : s.writes = s.flushed ++ s.mem.writes := by
  simp [writes, flushed, himm]

theorem sealed_eq_flushed (himm : s.imm = none) : s.sealed = s.flushed := by
  simp [sealed, himm]

theorem flushed_installTable (s : WriteState) (mem : MemTableState) (table : FileMetaData × List Entry) :
    (s.installTable mem table).flushed = s.flushed ++ mem.writes := by
  simp [flushed, installTable]

namespace Forced

theorem setPc (h : s.Forced) {i : ℕ} {q : WriterPc}
    (hgroup : ∀ w rest g, s.queue = w :: rest → w.id = i → q = .unlocked g →
      ∀ x ∈ w :: g.followers, x.batch.isSome)
    (hpast : ∀ w ∈ s.arrived, w.id = i → w.batch = none →
      (∃ allowDelay, q = .makeRoom false allowDelay) ∨ q = .returned .ok →
        s.EarlierIn w s.sealed) :
    (s.setPc i q).Forced := by
  refine { h with batches := ?_, called := ?_, sealed := ?_ }
  · intro w rest g hq hpc
    by_cases hid : w.id = i
    · rw [hid, setPc_self] at hpc
      exact hgroup w rest g hq hid (Option.some.inj hpc)
    · rw [setPc_of_ne _ _ hid] at hpc
      exact h.batches w rest g hq hpc
  · intro j hj
    by_cases hid : j = i
    · rw [hid, setPc_self]
      exact Option.some_ne_none _
    · rw [setPc_of_ne _ _ hid]
      exact h.called j hj
  · intro w hw hnull hplace
    by_cases hid : w.id = i
    · refine hpast w hw hid hnull ?_
      grind [PastSwitch, setPc_self]
    · refine h.sealed w hw hnull ?_
      simpa only [PastSwitch, setPc_of_ne _ _ hid] using hplace

theorem setWaiting (h : s.Forced) (i : ℕ) (b : Bool) : (s.setPc i (.waiting b)).Forced :=
  h.setPc (fun _ _ _ _ _ hq => by cases hq) fun _ _ _ _ hq => by simp at hq

theorem setPhase (h : s.Forced) (hq : s.queue = w :: rest) {g : CommitGroup}
    (hpc : s.pc w.id = some (.unlocked g)) (phase : GroupPhase) :
    (s.setPc w.id (.unlocked { g with phase := phase })).Forced := by
  refine h.setPc ?_ fun _ _ _ _ hplace => by simp at hplace
  rintro x rest' g' hq' hid ⟨rfl⟩
  obtain ⟨rfl, -⟩ := List.cons.inj (hq.symm.trans hq')
  exact h.batches w rest g hq hpc

theorem enter (hok : s.Ok) (h : s.Forced) (hpc : s.pc w.id = none) : (s.enter w).Forced := by
  have hset : (s.setPc w.id (.waiting true)).Forced := h.setWaiting w.id true
  have hcompacted : s.compacted w.id = none := by
    by_contra hne
    exact h.called w.id hne hpc
  have hne : ∀ x ∈ s.arrived, x.id ≠ w.id := fun x hx hid => by
    grind [Ok.exists_pc]
  -- the new call has only just begun, and the others see what they saw
  have hbefore : ∀ x ∈ s.arrived, (s.enter w).before x.id = s.before x.id :=
    fun x hx => Function.update_of_ne (hne x hx) ..
  have hself : (s.enter w).before w.id = s.acknowledged := Function.update_self ..
  refine { hset with batches := ?_, before := ?_, sealed := ?_, flushed := ?_ }
  · intro x rest g hq hpc'
    cases hqueue : s.queue with
    | nil =>
      grind [WriteState.enter, setPc_self]
    | cons front rest' =>
      obtain ⟨rfl, -⟩ : front = x ∧ rest' ++ [w] = rest := by
        simpa [WriteState.enter, hqueue] using hq
      exact hset.batches front rest' g hqueue hpc'
  · intro x hx y hy
    obtain hold | hnew := mem_append.mp hx
    · rw [hbefore x hold] at hy
      exact h.before x hold y hy
    · obtain rfl := mem_singleton.mp hnew
      rwa [hself] at hy
  · intro x hx hnull hpast
    obtain hold | hnew := mem_append.mp hx
    · exact (hset.sealed x hold hnull hpast).mono (hbefore x hold) fun _ => id
    · obtain rfl := mem_singleton.mp hnew
      have hpc' : (s.enter x).pc x.id = some (.waiting true) := setPc_self s x.id _
      simp [PastSwitch, hpc'] at hpast
  · intro x hx hnull hret
    obtain hold | hnew := mem_append.mp hx
    · exact (h.flushed x hold hnull hret).mono (hbefore x hold) fun _ => id
    · obtain rfl := mem_singleton.mp hnew
      exact absurd (hcompacted.symm.trans hret) (by simp)

theorem release (hok : s.Ok) (h : s.Forced) (followers : List DBWriter)
    (hq : s.queue = w :: (followers ++ rest)) (status : Status)
    (hbatch : ∀ x ∈ followers, x.batch.isSome)
    (hw : w.batch = none → status = .ok → s.EarlierIn w s.sealed) :
    (s.release w followers rest status).Forced := by
  have harr : w ∈ s.arrived := hok.mem_of_queue (hq ▸ mem_cons_self)
  refine { h with batches := ?_, notDone := ?_, before := ?_, called := ?_, sealed := ?_ }
  · intro x rest' g hq' hpc
    obtain ⟨-, b, hb⟩ := hok.waits_release followers hq status (x := x)
      (by rw [show rest = x :: rest' from hq']; exact mem_cons_self)
    exact absurd (hpc.symm.trans hb) (by simp)
  · intro x hx hnull
    have hout : x.id ∉ followers.map DBWriter.id := by
      intro hin
      obtain ⟨y, hy, hid⟩ := mem_map.mp hin
      have hxarr : x ∈ s.arrived := (hok.release followers hq status).mem_of_left hx
      obtain rfl := hok.eq_of_id (hok.mem_of_queue (hq ▸ by simp [hy])) hxarr hid
      simpa [hnull] using hbatch y hy
    obtain hleft | hgroup := mem_append.mp hx
    · exact (if_neg hout).trans (h.notDone x hleft hnull)
    · obtain rfl | hfollow := mem_cons.mp hgroup
      · exact (if_neg hout).trans (hok.leads x _ hq).1
      · exact absurd (mem_map_of_mem hfollow) hout
  · grind [Forced, WriteState.release]
  · intro i hi
    by_cases hid : i = w.id
    · simp [WriteState.release, hid]
    · obtain heq | ⟨b, c, hb, hc⟩ := Ok.rewaits_release s followers rest status hid
      · rw [heq]
        exact h.called i hi
      · rw [hc]
        exact Option.some_ne_none _
  · intro x hx hnull hpast
    by_cases hid : x.id = w.id
    · obtain rfl := hok.eq_of_id hx harr hid
      have hplace : (s.release x followers rest status).pc x.id = some (.returned status) :=
        if_pos rfl
      refine hw hnull ?_
      simpa [PastSwitch, hplace] using hpast
    · refine h.sealed x hx hnull ?_
      obtain heq | ⟨b, c, hb, hc⟩ := Ok.rewaits_release s followers rest status hid
      · rwa [PastSwitch, heq] at hpast
      · simp [PastSwitch, hc] at hpast

/-- The switch seals everything that was acknowledged. -/
theorem switchMemTable (hacked : s.Acked) (h : s.Forced) (himm : s.imm = none)
    (w : DBWriter) (allowDelay : Bool) (status : Status) :
    (s.switchMemTable w.id allowDelay status).Forced := by
  let sealedState := { s with imm := some s.mem, mem := .empty, bgError := status }
  have hall : ∀ x ∈ s.arrived, sealedState.EarlierIn x sealedState.sealed := by
    intro x hx y hy hbatch
    have hmem := hacked.acknowledged y (h.before x hx y hy) hbatch
    rwa [writes_eq_sealed himm] at hmem
  have hsealed : sealedState.Forced := { h with sealed := fun x hx _ _ => hall x hx }
  exact hsealed.setPc (i := w.id) (q := .makeRoom false allowDelay)
    (fun _ _ _ _ _ hq => by cases hq) (fun x hx _ _ _ => hall x hx)

theorem called_update (h : s.Forced) {i : ℕ} {p : WriterPc} (hpc : s.pc i = some p)
    (status : Option Status) (j : ℕ) (hj : Function.update s.compacted i status j ≠ none) :
    s.pc j ≠ none := by
  grind [Forced]

/-- **A step that starts no group with a writer without a batch** keeps the promise. -/
theorem moves (hok : s.Ok) (hacked : s.Acked) {a : WriteAction} (h : s.Forced)
    (hgood : s.NoNullInReach a) (hmove : Moves ucmp s a s') : s'.Forced := by
  cases hmove with
  | enter hpc => exact h.enter hok hpc
  | wake hpc => exact h.setWaiting _ _
  | @returns w status hw hpc hdone =>
    have hleft := hok.mem_left hw hdone
    have hset : (s.setPc w.id (.returned status)).Forced := by
      refine h.setPc (fun _ _ _ _ _ hq => by cases hq) ?_
      grind [Ok.eq_of_id, Forced]
    refine { hset with before := ?_ }
    intro x hx y hy
    have hold := h.before x hx y hy
    grind [WriteState.returns]
  | @lead w rest hq hpc =>
    refine h.setPc (fun _ _ _ _ _ hq => by cases hq) ?_
    grind [Ok]
  | sleep hw hpc hdone hq => exact h.setWaiting _ _
  | fail hq hpc hstatus hcause =>
    exact h.release hok [] hq _ (by simp) fun _ hst => by rw [hst] at hstatus; cases hstatus
  | @delay w rest force env hq hpc =>
    refine h.setPc (fun _ _ _ _ _ hq => by cases hq) ?_
    intro x hx hid hnull hplace
    obtain rfl : force = false := by simpa using hplace
    exact h.sealed x hx hnull (.inl ⟨true, hid ▸ hpc⟩)
  | @startGroup w rest allowDelay env hq hpc hbatch hfull hbg =>
    -- a group takes in no null batch: none is in reach of its leader
    refine h.setPc ?_ fun _ _ _ _ hplace => by simp at hplace
    rintro x rest' g hq' hid ⟨rfl⟩
    obtain ⟨rfl, rfl⟩ := List.cons.inj (hq.symm.trans hq')
    refine forall_mem_cons.mpr ⟨hbatch, ?_⟩
    have hreach := hgood hbg hfull
    grind [mem_inits, buildBatchGroup_front, buildBatchGroup_inReach]
  | leaveNull hq hpc hbatch =>
    refine h.release hok [] hq _ (by simp) fun hnull _ => ?_
    exact h.sealed _ (hok.mem_of_queue (hq ▸ mem_cons_self)) hnull (.inl ⟨_, hpc⟩)
  | wait hq hpc => exact h
  | switchMemTable hq hpc himm =>
    exact h.switchMemTable hacked himm _ _ _
  | addRecord hq hpc hphase => exact { h.setPhase hq hpc _ with }
  | sync hq hpc hphase hsync => exact h.setPhase hq hpc _
  | insert hq hpc hphase => exact { h.setPhase hq hpc _ with }
  | @finish w rest g status hq hpc hresult =>
    obtain ⟨rest', bg, rfl, -, heq⟩ := hok.finish_eq hq hpc status
    rw [heq]
    have hbatch := h.batches w _ g hq hpc
    have hrel := h.release hok g.followers hq status
      (fun x hx => hbatch x (mem_cons_of_mem _ hx))
      (fun hnull _ => by simpa [hnull] using hbatch w mem_cons_self)
    exact { hrel with }
  | @flush mem env himm =>
    -- the sealed writes stay the same, and those of the immutable memtable join the flushed ones
    have heq := flushed_installTable s mem (env.table ucmp mem)
    have hsealed : (s.installTable mem (env.table ucmp mem)).sealed = s.sealed := by
      rw [sealed_eq_flushed rfl, heq, WriteState.sealed, himm, Option.elim]
    refine { h with sealed := ?_, flushed := ?_ }
    · intro w hw hnull hpast
      rw [hsealed]
      exact h.sealed w hw hnull hpast
    · intro w hw hnull hret
      rw [heq]
      refine (h.flushed w hw hnull hret).mono rfl fun x hx => ?_
      rw [map_append]
      exact mem_append_left _ hx
  | flushFail hstatus =>
    unfold recordBackgroundError
    split
    · exact { h with }
    · exact h
  | stillFlushing => exact h
  | @compactFail i hpc hbg =>
    refine { h with called := ?_, flushed := ?_ }
    · exact h.called_update hpc _
    · intro w hw hnull hret
      by_cases hid : w.id = i
      · simp_all
      · exact h.flushed w hw hnull (by simpa [hid] using hret)
  | @compactDone i hpc himm =>
    -- without an immutable memtable all that was sealed is flushed
    refine { h with called := ?_, flushed := ?_ }
    · exact h.called_update hpc _
    · intro w hw hnull hret
      by_cases hid : w.id = i
      · have hsealed := h.sealed w hw hnull (.inr (hid ▸ hpc))
        rw [sealed_eq_flushed himm] at hsealed
        exact hsealed
      · exact h.flushed w hw hnull (by simpa [hid] using hret)

end Forced

/-! ## What the tables hold -/

theorem pairwise_insertEntry {mem : List Entry} (e : Entry)
    (h : mem.Pairwise fun a b => a.key.rank ucmp ≤ b.key.rank ucmp) :
    (insertEntry ucmp e mem).Pairwise fun a b => a.key.rank ucmp ≤ b.key.rank ucmp := by
  induction mem with
  | nil => exact pairwise_singleton _ _
  | cons y ys ih =>
    obtain ⟨hy, hys⟩ := pairwise_cons.mp h
    rw [insertEntry]
    split_ifs with hlt
    · refine pairwise_cons.mpr ⟨fun x hx => ?_, ih hys⟩
      rcases mem_insertEntry.mp hx with rfl | hx
      · exact (internalCompare_eq_lt.mp hlt).le
      · exact hy x hx
    · have hle := internalCompare_ne_lt.mp hlt
      grind

end WriteState

/-- **A memtable has the records of its batches**, in the order of the keys. -/
structure MemTableState.Filled (ucmp : Comparator) (t : MemTableState) : Prop where
  sorted : t.entries.Pairwise fun a b => a.key.rank ucmp ≤ b.key.rank ucmp
  holds : ∀ x ∈ t.writes, ∀ e ∈ x.entries, e ∈ t.entries

theorem MemTableState.filled_empty (ucmp : Comparator) : MemTableState.empty.Filled ucmp :=
  ⟨.nil, fun _ hx => absurd hx not_mem_nil⟩

variable {ucmp : Comparator}

/-- `InsertInto` with the records of some batches. -/
theorem MemTableState.Filled.insertInto {t : MemTableState} (h : t.Filled ucmp) (ws : List NumberedWrite) :
    MemTableState.Filled ucmp
      ⟨RocketDb.insertInto ucmp t.entries (ws.flatMap NumberedWrite.entries), t.writes ++ ws⟩ where
  sorted := by
    rw [RocketDb.insertInto]
    generalize ws.flatMap NumberedWrite.entries = es
    refine foldlRecOn es _ h.sorted fun mem hmem e _ => WriteState.pairwise_insertEntry e hmem
  holds x hx e he := by
    grind [insertInto_perm, Filled]

/-- A flush keeps every record of the batches, or a newer one of the same user key. -/
theorem MemTableState.Filled.represented {t : MemTableState} (h : t.Filled ucmp) (env : FlushEnv)
    {x : NumberedWrite} (hx : x ∈ t.writes) {e : Entry} (he : e ∈ x.entries) :
    0 < (env.table ucmp t).1.fileSize ∧ Represented ucmp (env.table ucmp t).2 e := by
  have hmem := h.holds x hx e he
  refine ⟨?_, ?_⟩
  · rw [FlushEnv.table, buildTable]
    simp only [if_neg (ne_nil_of_mem hmem)]
    exact env.sizes.finishedSize_pos _
  · rw [FlushEnv.table, buildTable_entries]
    exact represented_prunedEntries h.sorted hmem

namespace WriteState

/-- **The memtables and the tables have the records of the batches.** -/
structure Filled (ucmp : Comparator) (s : WriteState) : Prop where
  mem : s.mem.Filled ucmp
  imm : ∀ t, s.imm = some t → t.Filled ucmp
  files : ∀ x ∈ s.flushed, ∀ e ∈ x.entries, ∃ file ∈ s.files, Represented ucmp file.2 e

variable {s s' : WriteState} {w : DBWriter}

/-- **Every step**, failed or not, of batches that fit keeps the records. -/
theorem Filled.moves (hok : s.Ok) (hsized : s.Sized) (h : s.Filled ucmp) {a : WriteAction}
    (hmove : Moves ucmp s a s') : s'.Filled ucmp := by
  cases hmove with
  | @insert w rest g hq hpc hphase =>
    refine { h with mem := ?_ }
    have hmem := h.mem.insertInto (numberedWrites (s.lastSequence + 1) (w :: g.followers))
    simp only [WriteState.insert, hsized.insertInto_eq hok hq hpc]
    rwa [flatMap_entries_numberedWrites] at hmem
  | switchMemTable hq hpc himm =>
    refine { h with mem := MemTableState.filled_empty ucmp, imm := ?_ }
    rintro t ⟨rfl⟩
    exact h.mem
  | @flush mem env himm =>
    refine ⟨h.mem, ?_, ?_⟩
    · intro t ht
      cases ht
    intro x hx e he
    rw [flushed_installTable] at hx
    rcases mem_append.mp hx with hx | hx
    · obtain ⟨file, hfile, hrep⟩ := h.files x hx e he
      grind [installTable]
    · obtain ⟨hsize, hrep⟩ := (h.imm mem himm).represented env hx he
      grind [installTable]
  | @finish w rest g status hq hpc hresult =>
    obtain ⟨rest', bg, rfl, -, heq⟩ := hok.finish_eq hq hpc status
    rw [heq]
    exact { h with }
  | flushFail hstatus =>
    unfold recordBackgroundError
    split
    · exact { h with }
    · exact h
  | _ => exact { h with }

/-! ## Whole runs -/

variable {tables : List MemTableState} {mem : MemTableState} {lastSequence : ℕ}

theorem forced_opened (tables : List MemTableState) (mem : MemTableState) (lastSequence : ℕ) :
    (opened tables mem lastSequence).Forced where
  batches := fun _ _ _ hq => by cases hq
  notDone := fun _ _ _ => rfl
  before := fun _ _ _ hx => by cases hx
  called := fun _ hc => absurd rfl hc
  sealed := fun _ _ _ _ _ hx => by cases hx
  flushed := fun _ _ _ _ _ hx => by cases hx

theorem filled_opened (hmem : mem.Filled ucmp) (htables : ∀ t ∈ tables, t.Filled ucmp) :
    (opened tables mem lastSequence).Filled ucmp where
  mem := hmem
  imm := fun _ ht => by cases ht
  files := fun x hx e he => by
    obtain ⟨t, ht, hx⟩ := mem_flatMap.mp hx
    refine ⟨_, mem_map_of_mem ht, Or.inl ?_⟩
    rw [buildTable_entries, prunedEntries_none]
    exact (htables t ht).holds x hx e he

/-- A step of a batch that fits, in which no leader takes a writer without a batch. -/
def Flushing (s : WriteState) (a : WriteAction) : Prop := s.NoNullInReach a ∧ s.Fitting a

instance (s : WriteState) (a : WriteAction) : Decidable (s.Flushing a) :=
  inferInstanceAs (Decidable (s.NoNullInReach a ∧ s.Fitting a))

/-- Room in the memtable, and no error. -/
def roomy : RoomEnv := ⟨0, false, .ok, .ok⟩

/-- A writer of one record. -/
def putWriter (id : ℕ) : DBWriter := ⟨id, some [.put [] []], false⟩

/-- The writer of `TEST_CompactMemTable`. -/
def nullWriter (id : ℕ) : DBWriter := ⟨id, none, false⟩

/-- A writer that has the queue to itself writes its batch. -/
def writeAlone (id : ℕ) : List WriteAction :=
  [.enter (putWriter id), .check id, .makeRoom id roomy, .addRecord id .ok, .insert id, .finish id]

/-- A write, another one of the same key, and then a forced flush alone in the queue. -/
def flushRun : List WriteAction :=
  writeAlone 0 ++ writeAlone 1 ++
    [.enter (nullWriter 2), .check 2, .makeRoom 2 roomy, .makeRoom 2 roomy, .compactMemTable 2,
      .flush { smallestSnapshot := 2 }, .compactMemTable 2]

/-- A write, and then a forced flush that waits in the queue behind another write. The steps that
the code takes without giving up the mutex follow each other. -/
def absorbedRun : List WriteAction :=
  writeAlone 0 ++
    -- writer 1 is in the section without the mutex when 2 and 3 arrive
    [.enter (putWriter 1), .check 1, .makeRoom 1 roomy,
      .enter (putWriter 2), .check 2, .enter (nullWriter 3), .check 3,
      .addRecord 1 .ok, .insert 1, .finish 1] ++
    -- writer 2 takes writer 3 into its group
    [.check 2, .makeRoom 2 roomy, .addRecord 2 .ok, .insert 2, .finish 2,
      .check 3, .compactMemTable 3]

end WriteState

end RocketDb
