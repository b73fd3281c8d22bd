import RocketDb.Write.Groups

/-! # Group commit

In a run without errors every batch is logged and inserted once, in the order of the queue and with
consecutive sequence numbers. A leader reads the number of records as an `int`, so a batch of `2 ^ 31` records
sets the last sequence number back: the batches have to fit.

* **`WriteState.Sized`** — the batches in the queue fit, and the group at work has its numbers.
* **`WriteState.Clean`** — no call has met an error.
* **`WriteState.Committed`** — log, memtables and last sequence number, by the writers that have left the
  queue. -/

namespace RocketDb

open List

/-! ## Runs without errors -/

/-- The step does not fail. -/
def WriteAction.Succeeds : WriteAction → Prop
  | .makeRoom _ env => env.newLog = .ok ∧ env.closeLog = .ok
  | .addRecord _ status | .sync _ status => status = .ok
  | .flush env => env.status = .ok
  | _ => True

instance : ∀ a : WriteAction, Decidable a.Succeeds
  | .makeRoom _ env => inferInstanceAs (Decidable (env.newLog = .ok ∧ env.closeLog = .ok))
  | .addRecord _ status | .sync _ status => inferInstanceAs (Decidable (status = .ok))
  | .flush env => inferInstanceAs (Decidable (env.status = .ok))
  | .enter _ | .wake _ | .check _ | .insert _ | .finish _ | .compactMemTable _ =>
    instDecidableTrue

/-- A phase without an error. -/
def GroupPhase.Clean (phase : GroupPhase) : Prop :=
  phase = .assigned ∨ phase = .logged .ok ∨ phase = .synced .ok ∨ phase = .inserted .ok

/-- A place without an error. -/
def WriterPc.Clean : WriterPc → Prop
  | .unlocked g => g.phase.Clean
  | .returned status => status = .ok
  | _ => True

theorem WriterPc.Clean.wake {p : WriterPc} (h : p.Clean) : p.wake.Clean := by
  cases p <;> exact h

namespace WriteState

/-- The new call has keys and values whose lengths fit 32 bits, fewer than `2 ^ 31` records, and there
are sequence numbers left for it. -/
def Fitting (s : WriteState) : WriteAction → Prop
  | .enter w => (∀ op ∈ w.ops, op.Fits) ∧ w.ops.length < 2 ^ 31 ∧
      s.lastSequence + (groupOps s.queue).length + w.ops.length ≤ kMaxSequenceNumber
  | _ => True

instance (s : WriteState) : ∀ a, Decidable (s.Fitting a)
  | .enter w => inferInstanceAs (Decidable ((∀ op ∈ w.ops, op.Fits) ∧ w.ops.length < 2 ^ 31 ∧
      s.lastSequence + (groupOps s.queue).length + w.ops.length ≤ kMaxSequenceNumber))
  | .wake _ | .check _ | .makeRoom _ _ | .addRecord _ _ | .sync _ _ | .insert _ | .finish _
  | .flush _ | .compactMemTable _ => instDecidableTrue

/-- A step that does not fail, of batches that fit. -/
def Healthy (s : WriteState) (a : WriteAction) : Prop := a.Succeeds ∧ s.Fitting a

instance (s : WriteState) (a : WriteAction) : Decidable (s.Healthy a) :=
  inferInstanceAs (Decidable (a.Succeeds ∧ s.Fitting a))

variable {ucmp : Comparator} {s s' s₀ : WriteState} {w x : DBWriter} {rest : List DBWriter}
  {a : WriteAction} {new : List DBWriter} {groups : List (List DBWriter)}

/-! ## The group at the front -/

theorem unlocked_of_setPc {i j : ℕ} {p : WriterPc} {g : CommitGroup}
    (h : (s.setPc i p).pc j = some (.unlocked g)) (hp : ∀ g, p ≠ .unlocked g) :
    s.pc j = some (.unlocked g) := by
  grind [setPc_self, setPc_of_ne]

theorem Ok.not_unlocked_release (hok : s.Ok) (followers : List DBWriter)
    (hq : s.queue = w :: (followers ++ rest)) (status : Status) {rest' : List DBWriter}
    {g : CommitGroup} (hq' : rest = x :: rest')
    (hpc : (s.release w followers rest status).pc x.id = some (.unlocked g)) : False := by
  obtain ⟨-, b, hb⟩ := hok.waits_release followers hq status (hq' ▸ mem_cons_self)
  exact absurd (hpc.symm.trans hb) (by simp)

/-- What a step `a` can do to the phase of the group that `w` leads. -/
inductive PhaseMoves (w : DBWriter) (a : WriteAction) (phase : GroupPhase) : GroupPhase → Prop
  | same : PhaseMoves w a phase phase
  | addRecord (status : Status) (ha : a = .addRecord w.id status) (hphase : phase = .assigned) :
      PhaseMoves w a phase (.logged status)
  | sync (status : Status) (ha : a = .sync w.id status) (hphase : phase = .logged .ok)
      (hsync : w.sync) : PhaseMoves w a phase (.synced status)
  | insert (status : Status)
      (hphase : phase = (bif w.sync then GroupPhase.synced .ok else .logged .ok)) :
      PhaseMoves w a phase (.inserted status)

/-- **The group of a step**: after a step, the group at the front is the old one, perhaps in another
phase, or it was just built. -/
theorem Ok.unlocked_of_moves (hok : s.Ok) (hmove : Moves ucmp s a s') {g : CommitGroup}
    (hq' : s'.queue = w :: rest) (hpc' : s'.pc w.id = some (.unlocked g)) :
    (s'.lastSequence = s.lastSequence ∧ ∃ rest' phase, s.queue = w :: rest' ∧
        s.pc w.id = some (.unlocked { g with phase := phase }) ∧ PhaseMoves w a phase g.phase) ∨
      s.queue = w :: rest ∧ s' = s.startGroup w rest := by
  cases hmove with
  | @enter x hpc =>
    cases hqueue : s.queue with
    | nil =>
      grind [WriteState.enter, setPc_self]
    | cons front rest' =>
      obtain ⟨rfl, -⟩ : front = w ∧ rest' ++ [x] = rest := by
        simpa [WriteState.enter, hqueue] using hq'
      exact .inl ⟨rfl, rest', g.phase, rfl, unlocked_of_setPc hpc' (by simp), .same⟩
  | wake hpc | lead hq hpc | sleep hw hpc hdone hq | delay hq hpc =>
    exact .inl ⟨rfl, rest, g.phase, hq', unlocked_of_setPc hpc' (by simp), .same⟩
  | returns hw hpc hdone | switchMemTable hq hpc himm =>
    exact .inl ⟨rfl, rest, g.phase, hq', unlocked_of_setPc (s := s) hpc' (by simp), .same⟩
  | fail hq hpc hstatus hcause | leaveNull hq hpc hbatch =>
    exact (hok.not_unlocked_release [] hq _ hq' hpc').elim
  | startGroup hq hpc hbatch hfull hbg =>
    obtain ⟨rfl, rfl⟩ := List.cons.inj (hq.symm.trans hq')
    exact .inr ⟨hq, rfl⟩
  | wait hq hpc => exact .inl ⟨rfl, rest, g.phase, hq', hpc', .same⟩
  -- the leader is at work: only the phase changes
  | addRecord hq hpc hphase =>
    obtain ⟨rfl, rfl⟩ := List.cons.inj (hq.symm.trans hq')
    obtain rfl := WriterPc.unlocked.inj (Option.some.inj ((setPc_self s _ _).symm.trans hpc'))
    exact .inl ⟨rfl, _, _, hq, hpc, .addRecord _ rfl hphase⟩
  | sync hq hpc hphase hsync =>
    obtain ⟨rfl, rfl⟩ := List.cons.inj (hq.symm.trans hq')
    obtain rfl := WriterPc.unlocked.inj (Option.some.inj ((setPc_self s _ _).symm.trans hpc'))
    exact .inl ⟨rfl, _, _, hq, hpc, .sync _ rfl hphase hsync⟩
  | insert hq hpc hphase =>
    obtain ⟨rfl, rfl⟩ := List.cons.inj (hq.symm.trans hq')
    obtain rfl := WriterPc.unlocked.inj (Option.some.inj ((setPc_self s _ _).symm.trans hpc'))
    exact .inl ⟨rfl, _, _, hq, hpc, .insert _ hphase⟩
  | @finish x _ g' status hq hpc hresult =>
    obtain ⟨rest', bg, rfl, -, heq⟩ := hok.finish_eq hq hpc status
    rw [heq] at hq' hpc'
    exact (hok.not_unlocked_release g'.followers hq status hq' hpc').elim
  | flush himm => exact .inl ⟨rfl, rest, g.phase, hq', hpc', .same⟩
  | flushFail hstatus =>
    unfold WriteState.recordBackgroundError at hq' hpc' ⊢
    split at hq'
    · rw [if_pos ‹_›] at hpc' ⊢
      exact .inl ⟨rfl, rest, g.phase, hq', hpc', .same⟩
    · rw [if_neg ‹_›] at hpc' ⊢
      exact .inl ⟨rfl, rest, g.phase, hq', hpc', .same⟩
  | stillFlushing => exact .inl ⟨rfl, rest, g.phase, hq', hpc', .same⟩
  | compactFail hpc hbg => exact .inl ⟨rfl, rest, g.phase, hq', hpc', .same⟩
  | compactDone hpc himm => exact .inl ⟨rfl, rest, g.phase, hq', hpc', .same⟩

/-- **The queue of a step**: a call joins at the end, or writers leave at the front. Only a leader that
leaves with its group publishes a new last sequence number. -/
theorem Ok.queue_of_moves (hok : s.Ok) (hmove : Moves ucmp s a s') :
    (∃ x, a = .enter x ∧ s'.queue = s.queue ++ [x] ∧ s'.lastSequence = s.lastSequence) ∨
      (∃ ws, s.queue = ws ++ s'.queue ∧ s'.lastSequence = s.lastSequence) ∨
      ∃ w rest g, s.queue = w :: rest ∧ s.pc w.id = some (.unlocked g) ∧
        s.queue = (w :: g.followers) ++ s'.queue ∧ s'.lastSequence = g.lastSequence := by
  cases hmove with
  | @enter x hpc => exact .inl ⟨x, rfl, rfl, rfl⟩
  | @fail w rest force allowDelay env status hq hpc hstatus hcause =>
    exact .inr (.inl ⟨[w], hq, rfl⟩)
  | @leaveNull w rest allowDelay env hq hpc hbatch => exact .inr (.inl ⟨[w], hq, rfl⟩)
  | @finish w rest g status hq hpc hresult =>
    obtain ⟨rest', bg, rfl, -, heq⟩ := hok.finish_eq hq hpc status
    rw [heq]
    exact .inr (.inr ⟨w, _, g, hq, hpc, hq, rfl⟩)
  | flushFail hstatus =>
    unfold WriteState.recordBackgroundError
    split
    · exact .inr (.inl ⟨[], rfl, rfl⟩)
    · exact .inr (.inl ⟨[], rfl, rfl⟩)
  | _ => exact .inr (.inl ⟨[], rfl, rfl⟩)

/-! ## Numbered groups -/

/-- The group of `w` after the number `last`: its batch has the records of the members, numbered from
the next number on, and a write with sync is in the group of a write with sync. -/
structure Grouped (last : ℕ) (w : DBWriter) (g : CommitGroup) : Prop where
  holds : g.batch.Holds (UInt64.ofNat (last + 1)) (groupOps (w :: g.followers))
  lastSequence_eq : g.lastSequence = last + (groupOps (w :: g.followers)).length
  sync : ∀ x ∈ w :: g.followers, x.sync → w.sync

/-- **The batches in the queue fit**, and the group at work has its numbers. -/
structure Sized (s : WriteState) : Prop where
  fits : ∀ x ∈ s.queue, ∀ op ∈ x.ops, op.Fits
  short : ∀ x ∈ s.queue, x.ops.length < 2 ^ 31
  room : s.queue ≠ [] → s.lastSequence + (groupOps s.queue).length ≤ kMaxSequenceNumber
  grouped : ∀ w rest g, s.queue = w :: rest → s.pc w.id = some (.unlocked g) →
    Grouped s.lastSequence w g

namespace Sized

/-- The numbers of a new group follow the last sequence number. -/
theorem grouped_startGroup (h : s.Sized) (hq : s.queue = w :: rest) {g : CommitGroup}
    (hpc : (s.startGroup w rest).pc w.id = some (.unlocked g)) : Grouped s.lastSequence w g := by
  obtain rfl := WriterPc.unlocked.inj (Option.some.inj ((setPc_self s _ _).symm.trans hpc))
  have hholds := buildBatchGroup_holds w rest
  have hreach := buildBatchGroup_inReach w rest
  refine ⟨hholds.setSequence _, ?_, ?_⟩
  · have hlt := length_groupOps_lt hreach (h.short w (hq ▸ mem_cons_self))
    have hle : (groupOps (w :: (buildBatchGroup w rest).2)).length ≤
        (groupOps s.queue).length := by
      obtain ⟨rest', hrest⟩ := buildBatchGroup_front w rest
      grind [groupOps_append]
    grind [Sized, WriteBatch.Holds.count_eq, toNat_toUInt64_toInt32, kMaxSequenceNumber]
  · intro x hx hsync
    obtain rfl | hx := mem_cons.mp hx
    · exact hsync
    · exact hreach.1 x hx hsync

/-- Every move keeps the batches fitting and the group numbered. -/
theorem moves (hok : s.Ok) (h : s.Sized) (hgood : s.Fitting a) (hmove : Moves ucmp s a s') :
    s'.Sized := by
  have hgrouped : ∀ w rest g, s'.queue = w :: rest → s'.pc w.id = some (.unlocked g) →
      Grouped s'.lastSequence w g := by
    intro w rest g hq' hpc'
    obtain ⟨hlast, rest', phase, hq, hpc, -⟩ | ⟨hq, rfl⟩ := hok.unlocked_of_moves hmove hq' hpc'
    · rw [hlast]
      exact { h.grouped w rest' _ hq hpc with }
    · exact h.grouped_startGroup hq hpc'
  obtain ⟨x, rfl, hqueue, hlast⟩ | ⟨ws, hqueue, hlast⟩ | ⟨w, rest, g, hq, hpc, hqueue, hlast⟩ :=
    hok.queue_of_moves hmove
  · obtain ⟨hfits, hshort, hroom⟩ := hgood
    refine ⟨?_, ?_, ?_, hgrouped⟩
    · grind [Sized]
    · grind [Sized]
    · intro _
      rw [hqueue, hlast, groupOps_append, length_append]
      simpa [Nat.add_assoc] using hroom
  · have hmem : ∀ x ∈ s'.queue, x ∈ s.queue := fun x hx => hqueue ▸ mem_append_right _ hx
    refine ⟨fun x hx => h.fits x (hmem x hx), fun x hx => h.short x (hmem x hx), ?_, hgrouped⟩
    grind [Sized, append_ne_nil_of_right_ne_nil, groupOps_append]
  · have hmem : ∀ x ∈ s'.queue, x ∈ s.queue := fun x hx => hqueue ▸ mem_append_right _ hx
    have hroom := h.room (hq ▸ cons_ne_nil _ _)
    rw [hqueue, groupOps_append, length_append] at hroom
    refine ⟨fun x hx => h.fits x (hmem x hx), fun x hx => h.short x (hmem x hx),
      fun _ => ?_, hgrouped⟩
    -- the numbers of the group are used up
    rw [hlast, (h.grouped w rest g hq hpc).lastSequence_eq]
    omega

theorem fits_group (hok : s.Ok) (h : s.Sized) (hq : s.queue = w :: rest) {g : CommitGroup}
    (hpc : s.pc w.id = some (.unlocked g)) : ∀ op ∈ groupOps (w :: g.followers), op.Fits := by
  intro op hop
  obtain ⟨x, hx, hmem⟩ := mem_flatMap.mp hop
  refine h.fits x ?_ op hmem
  rw [hq]
  obtain rfl | hx := mem_cons.mp hx
  · exact mem_cons_self
  · exact mem_cons_of_mem _ ((hok.followers_prefix hq hpc).subset hx)

/-- **`InsertInto` adds the records of the group** with consecutive numbers. -/
theorem insertInto_eq (hok : s.Ok) (h : s.Sized) (hq : s.queue = w :: rest) {g : CommitGroup}
    (hpc : s.pc w.id = some (.unlocked g)) (ucmp : Comparator) (mem : List Entry) :
    g.batch.insertInto ucmp mem =
      (.ok, RocketDb.insertInto ucmp mem
        (batchEntries (s.lastSequence + 1) (groupOps (w :: g.followers)))) :=
  (h.grouped w rest g hq hpc).holds.insertInto_eq (h.fits_group hok hq hpc) ucmp mem

end Sized

theorem sized_opened (tables : List MemTableState) (mem : MemTableState) (lastSequence : ℕ) :
    (opened tables mem lastSequence).Sized where
  fits := fun _ hx => by cases hx
  short := fun _ hx => by cases hx
  room := fun hne => absurd rfl hne
  grouped := fun _ _ _ hq => by cases hq

/-! ## No errors -/

/-- **No call has met an error.** -/
structure Clean (s : WriteState) : Prop where
  bgError : s.bgError = .ok
  done : ∀ i status, s.done i = some status → status = .ok
  pc : ∀ i p, s.pc i = some p → p.Clean

namespace Clean

theorem setPc (h : s.Clean) (i : ℕ) {p : WriterPc} (hp : p.Clean) : (s.setPc i p).Clean := by
  refine { h with pc := ?_ }
  grind [setPc_self, setPc_of_ne, Clean]

theorem release (h : s.Clean) (w : DBWriter) (followers rest : List DBWriter) :
    (s.release w followers rest .ok).Clean := by
  refine ⟨h.bgError, ?_, ?_⟩
  · grind [WriteState.release, Clean]
  · intro i p hpc
    simp only [WriteState.release] at hpc
    split at hpc
    · exact Option.some.inj hpc ▸ rfl
    split at hpc
    · obtain ⟨q, hq, rfl⟩ := Option.map_eq_some_iff.mp hpc
      exact (h.pc i q hq).wake
    · exact h.pc i p hpc

theorem not_fail (h : s.Clean) {env : RoomEnv} (hgood : env.newLog = .ok) {status : Status}
    (hstatus : status.isOk = false) (hcause : status = s.bgError ∨ status = env.newLog) : False := by
  obtain rfl | rfl := hcause
  · rw [h.bgError] at hstatus
    cases hstatus
  · rw [hgood] at hstatus
    cases hstatus

theorem phase_of_result (h : s.Clean) {g : CommitGroup} (hpc : s.pc w.id = some (.unlocked g))
    {status : Status} (hresult : g.phase.result = some status) :
    g.phase = .inserted .ok ∧ status = .ok := by
  have hclean : g.phase.Clean := h.pc w.id _ hpc
  obtain hphase | hphase | hphase | hphase := hclean
  all_goals simp_all [GroupPhase.result]

/-- A move that succeeds leaves no error behind. -/
theorem moves (hok : s.Ok) (hsized : s.Sized) (h : s.Clean) (hgood : a.Succeeds)
    (hmove : Moves ucmp s a s') : s'.Clean := by
  cases hmove with
  | enter hpc => exact { h.setPc _ (p := .waiting true) trivial with }
  | wake hpc | lead hq hpc | sleep hw hpc hdone hq | delay hq hpc => exact h.setPc _ trivial
  | @returns w status hw hpc hdone =>
    exact { h.setPc w.id (p := .returned status) (h.done w.id status hdone) with }
  | fail hq hpc hstatus hcause => exact (h.not_fail hgood.1 hstatus hcause).elim
  | startGroup hq hpc hbatch hfull hbg => exact h.setPc _ (.inl rfl)
  | leaveNull hq hpc hbatch => exact h.release _ _ _
  | wait hq hpc => exact h
  | stillFlushing => exact h
  | switchMemTable hq hpc himm =>
    exact { h.setPc _ (p := .makeRoom false _) trivial with bgError := hgood.2 }
  | @addRecord w rest g status hq hpc hphase =>
    obtain rfl : status = .ok := hgood
    exact { h.setPc w.id (p := .unlocked { g with phase := .logged .ok }) (.inr (.inl rfl)) with }
  | @sync w rest g status hq hpc hphase hsync =>
    obtain rfl : status = .ok := hgood
    exact h.setPc _ (.inr (.inr (.inl rfl)))
  | @insert w rest g hq hpc hphase =>
    have hstatus : (g.batch.insertInto ucmp s.mem.entries).1 = .ok := by
      rw [hsized.insertInto_eq hok hq hpc]
    refine { h.setPc w.id (p := .unlocked { g with phase := .inserted _ }) ?_ with }
    exact .inr (.inr (.inr (congrArg _ hstatus)))
  | @finish w rest g status hq hpc hresult =>
    obtain ⟨-, rfl⟩ := h.phase_of_result hpc hresult
    obtain ⟨rest', bg, rfl, hbg, heq⟩ := hok.finish_eq hq hpc .ok
    rw [heq]
    have hbg : bg = .ok := by
      grind [Clean]
    exact { h.release w g.followers rest' with bgError := hbg }
  | flush himm => exact { h with }
  | compactFail hpc hbg => exact { h with }
  | compactDone hpc himm => exact { h with }
  | flushFail hstatus =>
    rw [show _ = Status.ok from hgood] at hstatus
    cases hstatus

end Clean

/-! ## What is logged and inserted -/

/-- The entries of all memtables, those flushed included. -/
def entries (s : WriteState) : List Entry :=
  s.tables.flatMap MemTableState.entries ++ (s.imm.elim [] MemTableState.entries ++ s.mem.entries)

/-- The group of `w`, if its record is in the log. -/
def loggedGroup (w : DBWriter) : Option WriterPc → List DBWriter
  | some (.unlocked g) => if g.phase = .assigned then [] else w :: g.followers
  | _ => []

theorem loggedGroup_waiting (w : DBWriter) (b : Bool) : loggedGroup w (some (.waiting b)) = [] := rfl

theorem loggedGroup_of_phase {g : CommitGroup} (h : g.phase ≠ .assigned) :
    loggedGroup w (some (.unlocked g)) = w :: g.followers :=
  if_neg h

/-- The writers that are still in the queue with their batches in the log. -/
def inLog (s : WriteState) : List DBWriter := s.atFront loggedGroup

/-- **The writers `new` were committed since `s₀`**, in the groups `groups`. -/
structure Committed (s₀ s : WriteState) (new : List DBWriter) (groups : List (List DBWriter)) :
    Prop where
  left : s.left = s₀.left ++ new
  lastSequence : s.lastSequence = s₀.lastSequence + (groupOps new).length
  log : s.log = s₀.log ++ groupRecords (s₀.lastSequence + 1) groups
  /-- The groups have the batches of the writers that have left and of the group in the log. -/
  flatten_eq : groups.flatten.filter (fun w => w.batch.isSome) =
    (new ++ s.inLog).filter fun w => w.batch.isSome
  inLog_mem : s.inLog = [] ∨ s.inLog ∈ groups
  writes : s.writes = s₀.writes ++ numberedWrites (s₀.lastSequence + 1) (new ++ s.inFlight)
  entries : s.entries.Perm (s₀.entries ++
    (numberedWrites (s₀.lastSequence + 1) (new ++ s.inFlight)).flatMap NumberedWrite.entries)

theorem entries_switchMemTable (himm : s.imm = none) (i : ℕ) (allowDelay : Bool)
    (status : Status) : (s.switchMemTable i allowDelay status).entries = s.entries := by
  simp [entries, switchMemTable, setPc, himm, MemTableState.empty]

theorem entries_installTable {mem : MemTableState} (himm : s.imm = some mem)
    (table : FileMetaData × List Entry) : (s.installTable mem table).entries = s.entries := by
  simp [entries, installTable, himm]

namespace Committed

section

variable (h : Committed s₀ s new groups)

include h

/-- Steps that neither log nor insert. -/
theorem keep (hleft : s'.left = s.left) (hlast : s'.lastSequence = s.lastSequence) (hlog : s'.log = s.log)
    (hinLog : s'.inLog = s.inLog) (hwrites : s'.writes = s.writes) (hflight : s'.inFlight = s.inFlight)
    (hentries : s'.entries = s.entries) :
    Committed s₀ s' new groups := by
  refine ⟨hleft.trans h.left, hlast.trans h.lastSequence, hlog.trans h.log, ?_, ?_, ?_, ?_⟩
  · rw [hinLog]
    exact h.flatten_eq
  · rw [hinLog]
    exact h.inLog_mem
  · rw [hwrites, hflight]
    exact h.writes
  · rw [hentries, hflight]
    exact h.entries

theorem setPc {i : ℕ} {p : WriterPc} (hinLog : (s.setPc i p).inLog = s.inLog)
    (hflight : (s.setPc i p).inFlight = s.inFlight) :
    Committed s₀ (s.setPc i p) new groups :=
  h.keep rfl rfl rfl hinLog rfl hflight rfl

theorem groupOps_groups (hinLog : s.inLog = []) :
    groupOps groups.flatten = groupOps new := by
  grind [Committed, groupOps_filter]

end

/-- A group is logged as one record. -/
theorem addRecord (hsized : s.Sized) (h : Committed s₀ s new groups) (hq : s.queue = w :: rest)
    {g : CommitGroup} (hpc : s.pc w.id = some (.unlocked g)) (hphase : g.phase = .assigned) :
    Committed s₀ (s.addRecord w.id g .ok) new (groups ++ [w :: g.followers]) := by
  have hinLog : s.inLog = [] := by
    rw [inLog, atFront_eq hq, hpc, loggedGroup, if_pos hphase]
  have hinLog' : (s.addRecord w.id g .ok).inLog = w :: g.followers := by
    rw [inLog, atFront_eq (s := s.addRecord w.id g .ok) hq]
    exact congrArg (loggedGroup w) (setPc_self s w.id _)
  have hflight : (s.addRecord w.id g .ok).inFlight = s.inFlight :=
    inFlight_setFront hq hpc (by simp [insertedGroup, hphase])
  refine ⟨h.left, h.lastSequence, ?_, ?_, ?_, ?_, ?_⟩
  · -- the record has the numbers that follow those of the log
    have hrep := (hsized.grouped w rest g hq hpc).holds.rep_eq
    show s.log ++ [g.batch.rep] = _
    rw [groupRecords_append, h.groupOps_groups hinLog, ← append_assoc, ← h.log, hrep,
      h.lastSequence, Nat.add_right_comm]
  · grind [Committed]
  · grind
  · rw [hflight]
    exact h.writes
  · rw [hflight]
    exact h.entries

/-- Its entries are inserted with the numbers of the record. -/
theorem insert (hok : s.Ok) (hsized : s.Sized) (h : Committed s₀ s new groups)
    (hq : s.queue = w :: rest) {g : CommitGroup} (hpc : s.pc w.id = some (.unlocked g))
    (hphase : g.phase = (bif w.sync then GroupPhase.synced .ok else .logged .ok)) :
    Committed s₀ (s.insert ucmp w g) new groups := by
  have hne : g.phase ≠ .assigned ∧ insertedGroup w (some (.unlocked g)) = [] := by
    cases hsync : w.sync <;> simp [insertedGroup, hphase, hsync]
  have hold : s.inFlight = [] := by
    rw [inFlight_eq hq, hpc, hne.2]
  have hnew : numberedWrites (s₀.lastSequence + 1) (new ++ w :: g.followers) =
      numberedWrites (s₀.lastSequence + 1) (new ++ s.inFlight) ++
        numberedWrites (s.lastSequence + 1) (w :: g.followers) := by
    rw [hold, append_nil, numberedWrites_append, h.lastSequence, Nat.add_right_comm]
  have hinLog : (s.insert ucmp w g).inLog = s.inLog := by
    refine atFront_setFront (f := loggedGroup) hq hpc ?_
    grind [loggedGroup_of_phase]
  refine ⟨h.left, h.lastSequence, h.log, ?_, ?_, ?_, ?_⟩
  · rw [hinLog]
    exact h.flatten_eq
  · rw [hinLog]
    exact h.inLog_mem
  · rw [inFlight_insert hq, writes_insert, hnew, h.writes, append_assoc]
  · -- the memtable gets the entries of the group
    have hmem : (s.insert ucmp w g).mem.entries.Perm (s.mem.entries ++
        (numberedWrites (s.lastSequence + 1) (w :: g.followers)).flatMap
          NumberedWrite.entries) := by
      rw [flatMap_entries_numberedWrites]
      show (g.batch.insertInto ucmp s.mem.entries).2.Perm _
      rw [hsized.insertInto_eq hok hq hpc]
      exact insertInto_perm ucmp _ _
    rw [inFlight_insert hq, hnew, flatMap_append, ← append_assoc]
    refine List.Perm.trans ?_ (h.entries.append_right _)
    show (s.tables.flatMap MemTableState.entries ++ (s.imm.elim [] MemTableState.entries ++
      (s.insert ucmp w g).mem.entries)).Perm _
    grind [WriteState.entries]

/-- The group becomes visible when it leaves. -/
theorem release (hok : s.Ok) (h : Committed s₀ s new groups) (followers : List DBWriter)
    (hq : s.queue = w :: (followers ++ rest)) {last : ℕ} {bg : Status}
    (hlast : last = s.lastSequence + (groupOps (w :: followers)).length)
    (hinLog : s.inLog.filter (fun w => w.batch.isSome) =
      (w :: followers).filter fun w => w.batch.isSome)
    (hflight : numberedWrites (s₀.lastSequence + 1) (new ++ s.inFlight) =
      numberedWrites (s₀.lastSequence + 1) (new ++ w :: followers)) :
    Committed s₀ { s.release w followers rest .ok with lastSequence := last, bgError := bg }
      (new ++ w :: followers) groups := by
  have hnone := hok.inFlight_release followers hq .ok
  have hnoLog := hok.atFront_release loggedGroup_waiting followers hq .ok
  refine ⟨?_, ?_, h.log, ?_, .inl hnoLog, ?_, ?_⟩
  · show s.left ++ w :: followers = _
    rw [h.left, append_assoc]
  · grind [Committed, groupOps_append]
  · show _ = ((new ++ w :: followers) ++ (s.release w followers rest .ok).atFront _).filter _
    grind [Committed]
  · show s.writes = _ ++ numberedWrites _ ((new ++ w :: followers) ++
      (s.release w followers rest .ok).inFlight)
    rw [hnone, append_nil, ← hflight]
    exact h.writes
  · show s.entries.Perm (_ ++ (numberedWrites _ ((new ++ w :: followers) ++
      (s.release w followers rest .ok).inFlight)).flatMap _)
    rw [hnone, append_nil, ← hflight]
    exact h.entries

/-- **Every step without an error** logs and inserts what it should. -/
theorem moves (hok : s.Ok) (hsized : s.Sized) (hclean : s.Clean) (h : Committed s₀ s new groups)
    (hgood : a.Succeeds) (hmove : Moves ucmp s a s') :
    ∃ new' groups', Committed s₀ s' new' groups' ∧ groups ⊆ groups' := by
  have hlogged := @loggedGroup_waiting
  have hsame := List.Subset.refl groups
  cases hmove with
  | enter hpc =>
    exact ⟨new, groups, h.keep rfl rfl rfl (hok.atFront_enter hlogged hpc) rfl
      (hok.inFlight_enter hpc) rfl, hsame⟩
  | wake hpc | sleep hw hpc hdone hq =>
    exact ⟨new, groups,
      h.setPc (atFront_setWaiting hlogged hpc _) (inFlight_setWaiting hpc _), hsame⟩
  | returns hw hpc hdone =>
    have hleft := hok.mem_left hw hdone
    exact ⟨new, groups, h.keep rfl rfl rfl (hok.atFront_returns hlogged hleft _) rfl
      (hok.inFlight_returns hleft _) rfl, hsame⟩
  | lead hq hpc | delay hq hpc | startGroup hq hpc hbatch hfull hbg =>
    exact ⟨new, groups,
      h.setPc (atFront_setFront hq hpc rfl) (inFlight_setFront hq hpc rfl), hsame⟩
  | fail hq hpc hstatus hcause => exact (hclean.not_fail hgood.1 hstatus hcause).elim
  | @leaveNull w rest allowDelay env hq hpc hbatch =>
    -- nothing was logged or inserted, and there was nothing to log or insert
    have hinLog : s.inLog = [] := by
      rw [inLog, atFront_eq hq, hpc]
      rfl
    have hflight : s.inFlight = [] := by
      rw [inFlight_eq hq, hpc]
      rfl
    have hnumbers : numberedWrites (s₀.lastSequence + 1 + (groupOps new).length) [w] = [] := by
      simp [numberedWrites, hbatch]
    refine ⟨new ++ [w], groups, h.release hok [] hq ?_ ?_ ?_, hsame⟩
    · simp [DBWriter.ops_of_none hbatch]
    · simp [hinLog, hbatch]
    · grind [numberedWrites_append]
  | wait hq hpc => exact ⟨new, groups, h, hsame⟩
  | stillFlushing => exact ⟨new, groups, h, hsame⟩
  | switchMemTable hq hpc himm =>
    exact ⟨new, groups, h.keep rfl rfl rfl (atFront_setFront hq hpc rfl)
      (writes_switchMemTable himm ..) (inFlight_setFront hq hpc rfl)
      (entries_switchMemTable himm ..), hsame⟩
  | addRecord hq hpc hphase =>
    obtain rfl : _ = Status.ok := hgood
    exact ⟨new, _, h.addRecord hsized hq hpc hphase, subset_append_left ..⟩
  | sync hq hpc hphase hsync =>
    exact ⟨new, groups, h.setPc (atFront_setFront hq hpc (by simp [loggedGroup, hphase]))
      (inFlight_setFront hq hpc (by simp [insertedGroup, hphase])), hsame⟩
  | insert hq hpc hphase => exact ⟨new, groups, h.insert hok hsized hq hpc hphase, hsame⟩
  | @finish w rest g status hq hpc hresult =>
    obtain ⟨hphase, rfl⟩ := hclean.phase_of_result hpc hresult
    obtain ⟨rest', bg, rfl, -, heq⟩ := hok.finish_eq hq hpc .ok
    have hinLog : s.inLog = w :: g.followers := by
      rw [inLog, atFront_eq hq, hpc, loggedGroup_of_phase (by simp [hphase])]
    have hflight : s.inFlight = w :: g.followers := by
      rw [inFlight_eq hq, hpc, insertedGroup_of_result hresult]
    rw [heq]
    exact ⟨_, groups, h.release hok g.followers hq
      (hsized.grouped w _ g hq hpc).lastSequence_eq (by rw [hinLog]) (by rw [hflight]),
      hsame⟩
  | flush himm =>
    exact ⟨new, groups, h.keep rfl rfl rfl rfl (writes_installTable himm _) rfl
      (entries_installTable himm _), hsame⟩
  | flushFail hstatus =>
    rw [show _ = Status.ok from hgood] at hstatus
    cases hstatus
  | compactFail hpc hbg | compactDone hpc himm =>
    exact ⟨new, groups, h.keep rfl rfl rfl rfl rfl rfl rfl, hsame⟩

/-- **`LastSequence` is never inside a batch.** -/
theorem not_inside (h : Committed s₀ s new groups) {x : NumberedWrite}
    (hx : x ∈ numberedWrites (s₀.lastSequence + 1) (new ++ s.inFlight)) :
    x.2 + x.1.ops.length ≤ s.lastSequence + 1 ∨ s.lastSequence < x.2 := by
  rw [numberedWrites_append, mem_append] at hx
  rw [h.lastSequence]
  obtain hnew | hflight := hx
  · have := bounds_of_mem_numberedWrites hnew
    omega
  · have := bounds_of_mem_numberedWrites hflight
    omega

end Committed

end WriteState

end RocketDb
