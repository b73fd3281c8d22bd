import Mathlib.Algebra.Order.BigOperators.Group.List
import Mathlib.Algebra.Order.Ring.Nat
import RocketDb.Write.CompactMemTable
import RocketDb.Write.GroupCommit

/-! # Every write completes

In a run without errors a writer returns once, after its batch was inserted, and after the leader of its group
has called `Sync` if the write asked for it. No wake-up is lost.

* **`WriteState.Awake`** — a writer that can go on is not asleep.
* **`WriteState.Returned`**, **`WriteState.Traced`** — a call returns once; a write with sync is synced
  before.
* **`WriteState.exists_completion`** — from every state the calls can complete.
* **`WriteState.group_commit`** — all of it, in every run without errors. -/

namespace RocketDb

open Transition List

/-- A step of a call that was made or of the background thread, and no wake-up out of nothing. -/
def WriteAction.Onward : WriteAction → Prop
  | .enter _ | .wake _ => False
  | _ => True

namespace WriteState

variable {ucmp : Comparator} {s s' s₀ : WriteState} {w x : DBWriter} {rest : List DBWriter}
  {a : WriteAction} {as : List WriteAction} {new : List DBWriter} {groups : List (List DBWriter)}

/-! ## No wake-up is lost -/

/-- **A writer that can go on is not asleep**: neither the front nor a writer that is done. -/
structure Awake (s : WriteState) : Prop where
  front : ∀ w rest, s.queue = w :: rest → s.pc w.id ≠ some (.waiting false)
  gone : ∀ w ∈ s.left, s.pc w.id ≠ some (.waiting false)

namespace Awake

theorem setPc (h : s.Awake) (i : ℕ) {p : WriterPc} (hp : p ≠ .waiting false) :
    (s.setPc i p).Awake := by
  have hpc : ∀ j, s.pc j ≠ some (.waiting false) →
      (s.setPc i p).pc j ≠ some (.waiting false) := by
    grind [setPc_self, setPc_of_ne]
  exact ⟨fun w rest hq => hpc w.id (h.front w rest hq), fun w hw => hpc w.id (h.gone w hw)⟩

theorem enter (h : s.Awake) (w : DBWriter) : (s.enter w).Awake := by
  have hset := h.setPc w.id (p := .waiting true) (by simp)
  refine ⟨?_, hset.gone⟩
  intro x rest hq
  cases hqueue : s.queue with
  | nil =>
    -- the new call is at the front, and has not looked yet
    grind [WriteState.enter, setPc_self]
  | cons front rest' =>
    obtain ⟨rfl, -⟩ : front = x ∧ rest' ++ [w] = rest := by
      simpa [WriteState.enter, hqueue] using hq
    exact hset.front front rest' hqueue

/-- A caller goes to sleep only when it is neither done nor at the front. -/
theorem sleep (hok : s.Ok) (h : s.Awake) (hw : w ∈ s.arrived) {b : Bool}
    (hpc : s.pc w.id = some (.waiting b)) (hdone : s.done w.id = none)
    (hq : s.queue.head? ≠ some w) : (s.setPc w.id (.waiting false)).Awake := by
  refine ⟨?_, ?_⟩
  · intro x rest hqueue
    have hne : x.id ≠ w.id := by
      intro hid
      obtain rfl := hok.eq_of_id (hok.mem_of_queue (hqueue ▸ mem_cons_self)) hw hid
      exact hq (by rw [show s.queue = x :: rest from hqueue, head?_cons])
    rw [setPc_of_ne _ _ hne]
    exact h.front x rest hqueue
  · intro x hx
    have hne : x.id ≠ w.id := by
      intro hid
      -- a writer off the queue is done or has returned
      obtain ⟨-, status, -, hst⟩ | ⟨status, hret⟩ := hok.gone x hx
      · exact absurd ((hid ▸ hst).symm.trans hdone) (by simp)
      · exact absurd ((hid ▸ hret).symm.trans hpc) (by simp)
    rw [setPc_of_ne _ _ hne]
    exact h.gone x hx

theorem map_wake_ne (p : Option WriterPc) : p.map WriterPc.wake ≠ some (.waiting false) := by
  obtain - | ⟨_ | _ | _ | _⟩ := p <;> simp [WriterPc.wake]

/-- The end of a group wakes its followers and the next leader. -/
theorem release (h : s.Awake) (w : DBWriter) (followers rest : List DBWriter) (status : Status) :
    (s.release w followers rest status).Awake := by
  refine ⟨?_, ?_⟩
  · intro x rest' (hq : rest = x :: rest')
    show (if x.id = w.id then _ else _) ≠ _
    grind [map_wake_ne]
  · intro x hx
    show (if x.id = w.id then _ else _) ≠ _
    split <;> rename_i hid
    · simp
    split <;> rename_i hin
    · exact map_wake_ne _
    obtain hleft | hgroup := mem_append.mp hx
    · exact h.gone x hleft
    · grind

/-- **No step loses a wake-up**, whatever the errors. -/
theorem moves (hok : s.Ok) (h : s.Awake) (hmove : Moves ucmp s a s') : s'.Awake := by
  cases hmove with
  | enter hpc => exact h.enter _
  | wake hpc | lead hq hpc | delay hq hpc | startGroup hq hpc hbatch hfull hbg
  | sync hq hpc hphase hsync => exact h.setPc _ (by simp)
  | returns hw hpc hdone => exact { h.setPc _ (p := .returned _) (by simp) with }
  | sleep hw hpc hdone hq => exact h.sleep hok hw hpc hdone hq
  | fail hq hpc hstatus hcause => exact h.release _ _ _ _
  | leaveNull hq hpc hbatch => exact h.release _ _ _ _
  | wait hq hpc => exact h
  | stillFlushing => exact h
  | switchMemTable hq hpc himm => exact { h.setPc _ (p := .makeRoom false _) (by simp) with }
  | addRecord hq hpc hphase | insert hq hpc hphase => exact { h.setPc _ (p := .unlocked _) (by simp) with }
  | @finish w rest g status hq hpc hresult =>
    obtain ⟨rest', bg, rfl, -, heq⟩ := hok.finish_eq hq hpc status
    rw [heq]
    exact { h.release w g.followers rest' status with }
  | flush himm => exact { h with }
  | compactFail hpc hbg => exact { h with }
  | compactDone hpc himm => exact { h with }
  | flushFail hstatus =>
    unfold recordBackgroundError
    split
    · exact { h with }
    · exact h

end Awake

/-! ## A call returns once -/

/-- **A call returns once.** `acknowledged` lists the calls as they return. -/
structure Returned (s : WriteState) : Prop where
  nodup : s.acknowledged.Nodup
  mem_iff : ∀ w, w ∈ s.acknowledged ↔ w ∈ s.arrived ∧ s.pc w.id = some (.returned .ok)

namespace Returned

/-- A step in which no call returns or begins. -/
theorem keep (h : s.Returned) (hack : s'.acknowledged = s.acknowledged)
    (harr : s'.arrived = s.arrived)
    (hpc : ∀ i, s'.pc i = some (.returned .ok) ↔ s.pc i = some (.returned .ok)) :
    s'.Returned := by
  grind [Returned]

theorem setPc (h : s.Returned) {i : ℕ} {p q : WriterPc} (hpc : s.pc i = some p)
    (hp : p ≠ .returned .ok) (hq : q ≠ .returned .ok) : (s.setPc i q).Returned := by
  refine h.keep rfl rfl fun j => ?_
  grind [setPc_self, setPc_of_ne]

theorem enter (h : s.Returned) (hpc : s.pc w.id = none) : (s.enter w).Returned := by
  refine ⟨h.nodup, fun x => ?_⟩
  show x ∈ s.acknowledged ↔ x ∈ s.arrived ++ [w] ∧ (s.setPc w.id _).pc x.id = _
  rw [h.mem_iff]
  grind [setPc_self, setPc_of_ne]

/-- A call that returns OK is acknowledged then and not before. -/
theorem join (hok : s.Ok) (h : s.Returned) (hw : w ∈ s.arrived) {p : WriterPc}
    (hpc : s.pc w.id = some p) (hp : p ≠ .returned .ok)
    (hack : s'.acknowledged = s.acknowledged ++ [w]) (harr : s'.arrived = s.arrived)
    (hself : s'.pc w.id = some (.returned .ok))
    (hother : ∀ i, i ≠ w.id → (s'.pc i = some (.returned .ok) ↔ s.pc i = some (.returned .ok))) :
    s'.Returned := by
  have hout : w ∉ s.acknowledged := by
    intro hmem
    exact hp (Option.some.inj (hpc.symm.trans ((h.mem_iff w).mp hmem).2))
  refine ⟨?_, fun x => ?_⟩
  · rw [hack, ← concat_eq_append]
    exact h.nodup.concat hout
  · rw [hack, harr, mem_append, mem_singleton, h.mem_iff]
    by_cases hid : x.id = w.id
    · constructor
      · grind
      · rintro ⟨hx, -⟩
        exact .inr (hok.eq_of_id hx hw hid)
    · grind

/-- A group is acknowledged as a whole. -/
theorem release (hok : s.Ok) (h : s.Returned) (followers : List DBWriter)
    (hq : s.queue = w :: (followers ++ rest)) : (s.release w followers rest .ok).Returned := by
  obtain ⟨-, p, hpc, hfront⟩ := hok.leads w _ hq
  have hp : p ≠ .returned .ok := by
    rintro rfl
    exact hfront
  refine h.join hok (hok.mem_of_queue (hq ▸ mem_cons_self)) hpc hp rfl rfl (if_pos rfl) ?_
  intro i hi
  obtain heq | ⟨b, c, hb, hc⟩ := Ok.rewaits_release s followers rest .ok hi
  · rw [heq]
  · rw [hb, hc]
    simp

/-- Every step acknowledges exactly the calls that return OK. -/
theorem moves (hok : s.Ok) (hclean : s.Clean) (h : s.Returned) (hgood : a.Succeeds)
    (hmove : Moves ucmp s a s') : s'.Returned := by
  cases hmove with
  | enter hpc => exact h.enter hpc
  | wake hpc | lead hq hpc | sleep hw hpc hdone hq | delay hq hpc
  | startGroup hq hpc hbatch hfull hbg | sync hq hpc hphase hsync => exact h.setPc hpc (by simp) (by simp)
  | @returns w status hw hpc hdone =>
    obtain rfl : status = .ok := hclean.done _ _ hdone
    refine h.join hok hw hpc (by simp) rfl rfl (setPc_self s ..) fun i hi => ?_
    rw [show (s.returns w .ok).pc i = s.pc i from setPc_of_ne s _ hi]
  | fail hq hpc hstatus hcause => exact (hclean.not_fail hgood.1 hstatus hcause).elim
  | leaveNull hq hpc hbatch => exact h.release hok [] hq
  | wait hq hpc => exact h
  | stillFlushing => exact h
  | switchMemTable hq hpc himm =>
    exact (h.setPc hpc (q := .makeRoom false _) (by simp) (by simp)).keep rfl rfl fun _ => .rfl
  | addRecord hq hpc hphase | insert hq hpc hphase =>
    exact (h.setPc hpc (q := .unlocked _) (by simp) (by simp)).keep rfl rfl fun _ => .rfl
  | @finish w rest g status hq hpc hresult =>
    obtain ⟨-, rfl⟩ := hclean.phase_of_result hpc hresult
    obtain ⟨rest', bg, rfl, -, heq⟩ := hok.finish_eq hq hpc .ok
    rw [heq]
    exact (h.release hok g.followers hq).keep rfl rfl fun _ => .rfl
  | flush himm | compactFail hpc hbg | compactDone hpc himm => exact h.keep rfl rfl fun _ => .rfl
  | flushFail hstatus =>
    rw [show _ = Status.ok from hgood] at hstatus
    cases hstatus

end Returned

/-! ## A write with sync is synced -/

/-- What was done so far for the group that `w` leads. -/
def PhaseTraced (as : List WriteAction) (w : DBWriter) : GroupPhase → Prop
  | .assigned => True
  | .logged _ => List.Sublist [.addRecord w.id .ok] as
  | .synced _ => w.sync ∧ List.Sublist [.addRecord w.id .ok, .sync w.id .ok] as
  | .inserted _ => w.sync → List.Sublist [.addRecord w.id .ok, .sync w.id .ok] as

theorem PhaseTraced.mono {phase : GroupPhase} (h : PhaseTraced as w phase) (a : WriteAction) :
    PhaseTraced (as ++ [a]) w phase := by
  have happend := sublist_append_left as [a]
  cases phase with
  | assigned => trivial
  | logged status => exact h.trans happend
  | synced status => exact ⟨h.1, h.2.trans happend⟩
  | inserted status => exact fun hsync => (h hsync).trans happend

/-- A phase is reached by the step that belongs to it. -/
theorem PhaseTraced.moves {phase phase' : GroupPhase} (h : PhaseTraced as w phase)
    (hgood : a.Succeeds) (hmove : PhaseMoves w a phase phase') :
    PhaseTraced (as ++ [a]) w phase' := by
  cases hmove with
  | same => exact h.mono a
  | addRecord status ha hphase =>
    subst ha
    obtain rfl : status = .ok := hgood
    exact sublist_append_right as _
  | sync status ha hphase hsync =>
    subst ha hphase
    obtain rfl : status = .ok := hgood
    exact ⟨hsync, List.Sublist.append h (List.Sublist.refl _)⟩
  | insert status hphase =>
    subst hphase
    intro hsync
    rw [hsync] at h
    exact (h.mono a).2

/-- **A write with sync is synced before it returns**: its batch is in a group whose leader has called
`AddRecord`, then `Sync`, and only then has finished. -/
structure Traced (as : List WriteAction) (s₀ s : WriteState) (groups : List (List DBWriter)) :
    Prop where
  phase : ∀ w rest g, s.queue = w :: rest → s.pc w.id = some (.unlocked g) →
    PhaseTraced as w g.phase
  synced : ∀ x ∈ s.left, x ∉ s₀.left → x.batch.isSome → x.sync → ∃ w ws, (w :: ws) ∈ groups ∧
    x ∈ w :: ws ∧ List.Sublist [.addRecord w.id .ok, .sync w.id .ok, .finish w.id] as

/-- **The writers that leave in a step** have no batch or are in the group that is finished. -/
theorem Clean.left_of_moves (hok : s.Ok) (h : s.Clean) (hgood : a.Succeeds)
    (hmove : Moves ucmp s a s') (hx : x ∈ s'.left) :
    x ∈ s.left ∨ x.batch = none ∨ ∃ w rest g, a = .finish w.id ∧ s.queue = w :: rest ∧
      s.pc w.id = some (.unlocked g) ∧ g.phase = .inserted .ok ∧ x ∈ w :: g.followers := by
  cases hmove with
  | fail hq hpc hstatus hcause => exact (h.not_fail hgood.1 hstatus hcause).elim
  | leaveNull hq hpc hbatch =>
    obtain hleft | hmem := mem_append.mp hx
    · exact .inl hleft
    · grind
  | @finish w rest g status hq hpc hresult =>
    obtain ⟨hphase, rfl⟩ := h.phase_of_result hpc hresult
    obtain ⟨rest', bg, rfl, -, heq⟩ := hok.finish_eq hq hpc .ok
    rw [heq] at hx
    obtain hleft | hmem := mem_append.mp hx
    · exact .inl hleft
    · grind
  | flushFail hstatus =>
    rw [show _ = Status.ok from hgood] at hstatus
    cases hstatus
  | _ => exact .inl hx

/-- **No step lets a write with sync return too early.** -/
theorem Traced.moves {groups' : List (List DBWriter)} (hok : s.Ok) (hsized : s.Sized)
    (hclean : s.Clean) (hcommitted : Committed s₀ s new groups) (h : Traced as s₀ s groups)
    (hgood : a.Succeeds) (hmove : Moves ucmp s a s') (hsub : groups ⊆ groups') :
    Traced (as ++ [a]) s₀ s' groups' := by
  refine ⟨?_, ?_⟩
  · intro w rest g hq' hpc'
    obtain ⟨-, rest', phase, hq, hpc, hphase⟩ | ⟨hq, rfl⟩ :=
      hok.unlocked_of_moves hmove hq' hpc'
    · exact (h.phase w rest' _ hq hpc).moves hgood hphase
    · -- a new group has nothing in the log
      obtain rfl := WriterPc.unlocked.inj (Option.some.inj ((setPc_self s _ _).symm.trans hpc'))
      trivial
  · intro x hx hnew hbatch hsync
    obtain hleft | hnull | ⟨w, rest, g, rfl, hq, hpc, hphase, hmem⟩ :=
      hclean.left_of_moves hok hgood hmove hx
    · grind [Traced]
    · rw [hnull] at hbatch
      cases hbatch
    · have hgroup : s.inLog = w :: g.followers := by
        rw [inLog, atFront_eq hq, hpc, loggedGroup_of_phase (by simp [hphase])]
      have hlogged : (w :: g.followers) ∈ groups := by
        grind [Committed.inLog_mem]
      -- the leader asks for a sync since a member does
      have hlead : w.sync := (hsized.grouped w rest g hq hpc).sync x hmem hsync
      have htraced := h.phase w rest g hq hpc
      rw [hphase] at htraced
      exact ⟨w, g.followers, hsub hlogged, hmem, (htraced hlead).append (List.Sublist.refl _)⟩

/-! ## All calls can complete -/

/-- How many steps a call still has to take, at most. -/
def rank : Option WriterPc → ℕ
  | some (.waiting _) => 10
  | some (.makeRoom force _) => if force then 8 else 6
  | some (.unlocked g) =>
    match g.phase with
    | .assigned => 5
    | .logged _ => 4
    | .synced _ => 3
    | .inserted _ => 2
  | _ => 0

/-- What the calls still have to do, with the flush if there is one to do. A step of a call counts
twice, since it may leave a memtable to be flushed. -/
def work (s : WriteState) : ℕ :=
  2 * (s.arrived.map fun w => rank (s.pc w.id)).sum + if s.imm.isSome then 1 else 0

theorem rank_wake (p : Option WriterPc) : rank (p.map WriterPc.wake) = rank p := by
  obtain - | ⟨_ | _ | _ | _⟩ := p <;> rfl

/-- A step of one caller towards its return, which moves nobody back, leaves less to do. -/
theorem work_lt (hw : w ∈ s.arrived) (harr : s'.arrived = s.arrived)
    (hlt : rank (s'.pc w.id) < rank (s.pc w.id))
    (hle : ∀ i, i ≠ w.id → rank (s'.pc i) ≤ rank (s.pc i)) : s'.work < s.work := by
  have hsum : (s.arrived.map fun w => rank (s'.pc w.id)).sum <
      (s.arrived.map fun w => rank (s.pc w.id)).sum := by
    apply sum_lt_sum
    · grind
    · exact ⟨w, hw, hlt⟩
  unfold work
  rw [harr]
  split <;> split <;> omega

theorem work_setPc_lt (hw : w ∈ s.arrived) {p q : WriterPc} (hpc : s.pc w.id = some p)
    (hlt : rank (some q) < rank (some p)) (harr : s'.arrived = s.arrived)
    (hpc' : s'.pc = (s.setPc w.id q).pc) : s'.work < s.work := by
  refine work_lt hw harr ?_ fun i hi => ?_
  · rw [hpc', setPc_self, hpc]
    exact hlt
  · rw [hpc', setPc_of_ne _ _ hi]

theorem work_release_lt (hw : w ∈ s.arrived) {p : WriterPc} (hpc : s.pc w.id = some p)
    (hp : 0 < rank (some p)) (followers rest : List DBWriter) (status : Status) :
    (s.release w followers rest status).work < s.work := by
  refine work_lt hw rfl ?_ fun i hi => ?_
  · rw [hpc]
    simpa [WriteState.release, rank] using hp
  · grind [WriteState.release, rank_wake]

theorem Ok.find_arrived (hok : s.Ok) (hw : w ∈ s.arrived) :
    s.arrived.find? (fun x => x.id == w.id) = some w := by
  cases hfind : s.arrived.find? (fun x => x.id == w.id) with
  | none => exact absurd (find?_eq_none.mp hfind w hw) (by simp)
  | some x =>
    grind [eq_of_id]

theorem leader_of_queue (hq : s.queue = w :: rest) {g : CommitGroup}
    (hpc : s.pc w.id = some (.unlocked g)) : s.leader w.id = some (w, g) := by
  simp [leader, hq, hpc]

/-- A step that brings the calls closer to their end. -/
def Advances (ucmp : Comparator) (s : WriteState) : Prop :=
  ∃ a s', a.Onward ∧ a.Succeeds ∧ s.step ucmp a = some s' ∧ s'.work < s.work ∧
    s'.arrived = s.arrived

/-- A caller that is done and awake can return. -/
theorem Ok.advances_of_done (hok : s.Ok) (hw : w ∈ s.arrived)
    (hpc : s.pc w.id = some (.waiting true)) {status : Status}
    (hdone : s.done w.id = some status) : s.Advances ucmp := by
  refine ⟨.check w.id, s.returns w status, trivial, trivial, ?_, ?_, rfl⟩
  · simp only [step, hpc, hok.find_arrived hw, hdone]
  · exact work_setPc_lt (q := .returned status) hw hpc (by simp [rank]) rfl rfl

/-- The leader goes on in `MakeRoomForWrite`, after a flush if the memtable has to be switched. -/
theorem Ok.advances_of_makeRoom (hok : s.Ok) (hclean : s.Clean) (hq : s.queue = w :: rest)
    {force allowDelay : Bool} (hpc : s.pc w.id = some (.makeRoom force allowDelay)) :
    s.Advances ucmp := by
  have hw : w ∈ s.arrived := hok.mem_of_queue (hq ▸ mem_cons_self)
  have hstep : s.step ucmp (.makeRoom w.id roomy) =
      some (s.makeRoom w rest force allowDelay roomy) := by
    simp only [step, hpc, hq, if_pos]
  have hbg : s.bgError.isOk = true := by rw [hclean.bgError]; rfl
  cases force with
  | false =>
    refine ⟨.makeRoom w.id roomy, _, trivial, ⟨rfl, rfl⟩, hstep, ?_⟩
    cases hbatch : w.batch.isSome with
    | true =>
      have heq : s.makeRoom w rest false allowDelay roomy = s.startGroup w rest := by
        simp [WriteState.makeRoom, hbg, hbatch, roomy, kL0SlowdownWritesTrigger]
      rw [heq]
      exact ⟨work_setPc_lt (q := .unlocked _) hw hpc (by simp [rank]) rfl rfl, rfl⟩
    | false =>
      have heq : s.makeRoom w rest false allowDelay roomy = s.release w [] rest .ok := by
        rw [← leave_self hq]
        simp [WriteState.makeRoom, hbg, hbatch, roomy, kL0SlowdownWritesTrigger]
      rw [heq]
      exact ⟨work_release_lt hw hpc (by decide : 0 < 6) [] rest .ok, rfl⟩
  | true =>
    cases himm : s.imm with
    | some mem =>
      -- the memtable before this one is still to be flushed
      refine ⟨.flush {}, s.installTable mem (FlushEnv.table ucmp {} mem), trivial, rfl, ?_, ?_, rfl⟩
      · simp [step, himm]
      · simp [work, installTable, himm]
    | none =>
      refine ⟨.makeRoom w.id roomy, _, trivial, ⟨rfl, rfl⟩, hstep, ?_⟩
      have heq : s.makeRoom w rest true allowDelay roomy =
          s.switchMemTable w.id allowDelay .ok := by
        simp [WriteState.makeRoom, hbg, himm, roomy, kL0SlowdownWritesTrigger]
      rw [heq]
      exact ⟨work_setPc_lt (q := .makeRoom false _) hw hpc (by simp [rank]) rfl rfl, rfl⟩

/-- A leader without the mutex can go on to its next phase. -/
theorem Ok.advances_of_unlocked (hok : s.Ok) (hclean : s.Clean) (htraced : Traced as s₀ s groups)
    (hq : s.queue = w :: rest) {g : CommitGroup} (hpc : s.pc w.id = some (.unlocked g)) :
    s.Advances ucmp := by
  have hw : w ∈ s.arrived := hok.mem_of_queue (hq ▸ mem_cons_self)
  have hleader := leader_of_queue hq hpc
  have hphase : g.phase.Clean := hclean.pc w.id _ hpc
  obtain hphase | hphase | hphase | hphase := hphase
  · refine ⟨.addRecord w.id .ok, s.addRecord w.id g .ok, trivial, rfl, ?_, ?_, rfl⟩
    · simp only [step, hleader, if_pos hphase]
    · exact work_setPc_lt (q := .unlocked _) hw hpc (by simp [rank, hphase]) rfl rfl
  · cases hsync : w.sync with
    | true =>
      refine ⟨.sync w.id .ok, s.setPc w.id (.unlocked { g with phase := .synced .ok }), trivial,
        rfl, ?_, ?_, rfl⟩
      · grind [step]
      · exact work_setPc_lt hw hpc (by simp [rank, hphase]) rfl rfl
    | false =>
      refine ⟨.insert w.id, s.insert ucmp w g, trivial, trivial, ?_, ?_, rfl⟩
      · simp [step, hleader, hphase, hsync]
      · exact work_setPc_lt (q := .unlocked _) hw hpc (by simp [rank, hphase]) rfl rfl
  · -- `Sync` was called because the write asks for it
    have hsync : w.sync := by
      have h := htraced.phase w rest g hq hpc
      rw [hphase] at h
      exact h.1
    refine ⟨.insert w.id, s.insert ucmp w g, trivial, trivial, ?_, ?_, rfl⟩
    · simp [step, hleader, hphase, hsync]
    · exact work_setPc_lt (q := .unlocked _) hw hpc (by simp [rank, hphase]) rfl rfl
  · obtain ⟨rest', bg, rfl, -, heq⟩ := hok.finish_eq hq hpc .ok
    refine ⟨.finish w.id, s.finish w g .ok, trivial, trivial, ?_, ?_, ?_⟩
    · simp only [step, hleader, hphase, GroupPhase.result]
    · rw [heq]
      exact work_release_lt hw hpc (by simp [rank, hphase]) g.followers rest' .ok
    · rw [heq]
      rfl

/-- **A call that has not returned can go on**, or the writer before it can. -/
theorem Ok.advances (hok : s.Ok) (hclean : s.Clean) (hawake : s.Awake)
    (htraced : Traced as s₀ s groups) (hw : w ∈ s.arrived)
    (hret : s.pc w.id ≠ some (.returned .ok)) : s.Advances ucmp := by
  cases hq : s.queue with
  | nil =>
    have hleft : w ∈ s.left := by
      grind [arrived_eq]
    obtain ⟨b, status, hpc, hdone⟩ | ⟨status, hpc⟩ := hok.gone w hleft
    · have hb : b = true := by
        grind [Awake]
      exact hok.advances_of_done hw (hb ▸ hpc) hdone
    · have hstatus : status = .ok := hclean.pc w.id _ hpc
      exact absurd (hstatus ▸ hpc) hret
  | cons front rest =>
    have hfront : front ∈ s.arrived := hok.mem_of_queue (hq ▸ mem_cons_self)
    obtain ⟨hdone, p, hpc, hplace⟩ := hok.leads front rest hq
    cases p with
    | waiting b =>
      have hb : b = true := by
        grind [Awake]
      subst hb
      refine ⟨.check front.id,
        s.setPc front.id (.makeRoom front.batch.isNone front.batch.isSome), trivial, trivial,
        ?_, ?_, rfl⟩
      · simp [step, hpc, hok.find_arrived hfront, hdone, hq]
      · refine work_setPc_lt hfront hpc ?_ rfl rfl
        simp only [rank]
        split <;> omega
    | makeRoom force allowDelay => exact hok.advances_of_makeRoom hclean hq hpc
    | unlocked g => exact hok.advances_of_unlocked hclean htraced hq hpc
    | returned status => exact hplace.elim

/-! ## Whole runs -/

/-- **What holds in a run without errors** from `s₀`, by the actions taken. -/
structure Sound (s₀ : WriteState) (as : List WriteAction) (s : WriteState) : Prop where
  ok : s.Ok
  sized : s.Sized
  clean : s.Clean
  awake : s.Awake
  acked : s.Acked
  returned : s.Returned
  committed : ∃ new groups, Committed s₀ s new groups ∧ Traced as s₀ s groups

/-- **Every good step keeps the whole invariant.** -/
theorem Sound.next (h : Sound s₀ as s) (hgood : s.Healthy a) (hstep : s.step ucmp a = some s') :
    Sound s₀ (as ++ [a]) s' := by
  have hmove := step_moves hstep
  obtain ⟨hsucceeds, hfitting⟩ := hgood
  refine
    { ok := h.ok.moves hmove
      sized := h.sized.moves h.ok hfitting hmove
      clean := h.clean.moves h.ok h.sized hsucceeds hmove
      awake := h.awake.moves h.ok hmove
      acked := h.acked.moves h.ok hmove
      returned := h.returned.moves h.ok h.clean hsucceeds hmove
      committed := ?_ }
  obtain ⟨new, groups, hcommitted, htraced⟩ := h.committed
  obtain ⟨new', groups', hcommitted', hsub⟩ :=
    hcommitted.moves h.ok h.sized h.clean hsucceeds hmove
  exact ⟨new', groups', hcommitted',
    htraced.moves h.ok h.sized h.clean hcommitted hsucceeds hmove hsub⟩

theorem pc_opened {tables : List MemTableState} {mem : MemTableState} {lastSequence : ℕ}
    (hw : w ∈ (opened tables mem lastSequence).arrived) :
    (opened tables mem lastSequence).pc w.id = some (.returned .ok) :=
  if_pos (mem_map_of_mem hw)

section

variable (tables : List MemTableState) (mem : MemTableState) (lastSequence : ℕ)

include tables mem lastSequence

theorem clean_opened :
    (opened tables mem lastSequence).Clean where
  bgError := rfl
  done := fun _ _ hdone => by cases hdone
  pc := by
    intro i p hpc
    simp only [opened] at hpc
    split at hpc
    · obtain rfl := Option.some.inj hpc
      rfl
    · cases hpc

theorem awake_opened :
    (opened tables mem lastSequence).Awake where
  front := fun _ _ hq => by cases hq
  gone := by
    intro w hw
    rw [pc_opened hw]
    simp

theorem committed_opened :
    Committed (opened tables mem lastSequence) (opened tables mem lastSequence) [] [] where
  left := (append_nil _).symm
  lastSequence := rfl
  log := rfl
  flatten_eq := rfl
  inLog_mem := .inl rfl
  writes := (append_nil _).symm
  entries := .of_eq (append_nil _).symm

theorem traced_opened :
    Traced [] (opened tables mem lastSequence) (opened tables mem lastSequence) [] where
  phase := fun _ _ _ hq => by cases hq
  synced := fun _ hx hnew => absurd hx hnew

end

/-- A database that has just been opened. -/
theorem sound_opened {tables : List MemTableState} {mem : MemTableState} (lastSequence : ℕ)
    (hnodup : ((tables.flatMap MemTableState.writes ++ mem.writes).map (·.1.id)).Nodup) :
    Sound (opened tables mem lastSequence) [] (opened tables mem lastSequence) where
  ok := ok_opened lastSequence hnodup
  sized := sized_opened tables mem lastSequence
  clean := clean_opened tables mem lastSequence
  awake := awake_opened tables mem lastSequence
  acked := acked_opened tables mem lastSequence
  returned :=
    ⟨(ok_opened lastSequence hnodup).nodup_arrived, fun _ => ⟨fun hw => ⟨hw, pc_opened hw⟩, And.left⟩⟩
  committed := ⟨[], [], committed_opened .., traced_opened ..⟩

theorem fitting_of_onward (s : WriteState) (h : a.Onward) : s.Fitting a := by
  cases a with
  | enter w => exact h.elim
  | _ => trivial

/-- **All calls can complete**: from every state of a run without errors, by steps of the calls that
were made and of the background thread. -/
theorem Sound.exists_completion (h : Sound s₀ as s) :
    ∃ bs s', (∀ b ∈ bs, b.Onward) ∧ Along (step ucmp) Healthy s bs ∧
      run (step ucmp) s bs = some s' ∧ s'.arrived = s.arrived ∧
      ∀ w ∈ s'.arrived, s'.pc w.id = some (.returned .ok) := by
  -- every step leaves less to do
  induction hn : s.work using Nat.strong_induction_on generalizing as s with
  | _ n ih =>
    by_cases hall : ∀ w ∈ s.arrived, s.pc w.id = some (.returned .ok)
    · exact ⟨[], s, by simp, trivial, rfl, rfl, hall⟩
    · simp only [not_forall] at hall
      obtain ⟨w, hw, hret⟩ := hall
      obtain ⟨new, groups, -, htraced⟩ := h.committed
      have hadvances : s.Advances ucmp := h.ok.advances h.clean h.awake htraced hw hret
      obtain ⟨b, s', honward, hsucceeds, hstep, hlt, harr⟩ := hadvances
      have hhealthy : s.Healthy b := ⟨hsucceeds, fitting_of_onward s honward⟩
      obtain ⟨bs, t, hbs, halong, hrun, harr', hreturned⟩ :=
        ih s'.work (hn ▸ hlt) (h.next hhealthy hstep) rfl
      refine ⟨b :: bs, t, ?_, ?_, ?_, harr'.trans harr, hreturned⟩
      · exact forall_mem_cons.mpr ⟨honward, hbs⟩
      · refine ⟨hhealthy, ?_⟩
        rw [hstep]
        exact halong
      · exact run_cons_eq_some.mpr ⟨s', hstep, hrun⟩

/-- Group commit, for the actions `as` that lead from `s₀` to `s`. -/
structure GroupCommit (ucmp : Comparator) (s₀ : WriteState) (as : List WriteAction)
    (s : WriteState) : Prop where
  /-- One leader at a time is in the section without the mutex. -/
  single : ∀ w ∈ s.arrived, ∀ x ∈ s.arrived, ∀ g g', s.pc w.id = some (.unlocked g) →
    s.pc x.id = some (.unlocked g') → w = x
  distinct : (s.arrived.map DBWriter.id).Nodup
  /-- The batches are logged and inserted in the order of the calls, each once and with consecutive
  numbers; the last sequence number is not inside a batch; and writes with sync are synced. -/
  committed : ∃ new groups, s.arrived = s₀.arrived ++ (new ++ s.queue) ∧
    Committed s₀ s new groups ∧ Traced as s₀ s groups ∧
    ∀ x ∈ numberedWrites (s₀.lastSequence + 1) (new ++ s.inFlight),
      x.2 + x.1.ops.length ≤ s.lastSequence + 1 ∨ s.lastSequence < x.2
  returned : s.Returned
  inserted : ∀ x ∈ s.acknowledged, x.batch.isSome → x ∈ s.writes.map Prod.fst
  completes : ∃ bs s', (∀ b ∈ bs, b.Onward) ∧ Along (step ucmp) Healthy s bs ∧
    run (step ucmp) s bs = some s' ∧ s'.arrived = s.arrived ∧
    ∀ w ∈ s'.arrived, s'.pc w.id = some (.returned .ok)

/-- There is one leader at a time. -/
theorem Sound.single (h : Sound s₀ as s) (hw : w ∈ s.arrived) (hx : x ∈ s.arrived)
    {g g' : CommitGroup} (hpcw : s.pc w.id = some (.unlocked g))
    (hpcx : s.pc x.id = some (.unlocked g')) : w = x := by
  obtain ⟨rest, hq⟩ := h.ok.front_of_pc hw hpcw (by simp) (by simp)
  obtain ⟨rest', hq'⟩ := h.ok.front_of_pc hx hpcx (by simp) (by simp)
  exact (List.cons.inj (hq.symm.trans hq')).1

/-- A writer of one record that asks for a sync. -/
def syncWriter (id : ℕ) : DBWriter := ⟨id, some [.put [] []], true⟩

/-- While writer 0 is in the section without the mutex, writers 1 and 2 arrive. Writer 1 leads a group
with writer 2. -/
def groupRun : List WriteAction :=
  [.enter (putWriter 0), .check 0, .makeRoom 0 roomy,
    .enter (syncWriter 1), .check 1, .enter (putWriter 2), .check 2,
    .addRecord 0 .ok, .insert 0, .finish 0,
    .check 1, .makeRoom 1 roomy, .addRecord 1 .ok, .sync 1 .ok, .insert 1, .finish 1, .check 2]

/-- The writer `w` has the queue to itself. -/
def aloneRun (w : DBWriter) : List WriteAction :=
  [.enter w, .check w.id, .makeRoom w.id roomy, .addRecord w.id .ok, .insert w.id, .finish w.id]

/-- A writer alone sets the last sequence number by the number of records, read as an `int`. -/
theorem run_aloneRun (ucmp : Comparator) {ops : List Op} (hbatch : w.batch = some ops)
    (hsync : w.sync = false)
    (hfits : ∀ op ∈ ops, op.Fits) :
    ∃ s, run (step ucmp) (opened [] .empty 0) (aloneRun w) = some s ∧
      s.left = [w] ∧ s.writes = [(w, 1)] ∧ s.pc w.id = some (.returned .ok) ∧
      s.lastSequence = (UInt32.ofNat ops.length).toInt32.toInt64.toUInt64.toNat % 2 ^ 64 := by
  have hops : w.ops = ops := by rw [DBWriter.ops, hbatch, Option.getD_some]
  have hcontents : w.contents.Holds 0 ops := hops ▸ WriteBatch.holds_ofOps w.ops
  have hgroup : buildBatchGroup w [] = (w.contents, []) := rfl
  have hinsert : ∀ mem, ((w.contents.setSequence 1).insertInto ucmp mem).1 = .ok := by
    intro mem
    exact congrArg Prod.fst ((hcontents.setSequence (UInt64.ofNat 1)).insertInto_eq hfits ucmp mem)
  -- the six steps, one after the other; the batch itself is never looked into
  simp [aloneRun, run, step, opened, MemTableState.empty, enter, setPc, makeRoom, hbatch, hgroup,
    roomy, startGroup, leader, addRecord, insert, hsync, kL0SlowdownWritesTrigger,
    GroupPhase.result, finish, leave, popReady, signalFront, returns, numberedWrites, writes,
    hcontents.count_eq, hinsert]

/-- A batch of `2 ^ 31` records. -/
def hugeWriter : DBWriter := ⟨0, some (List.replicate (2 ^ 31) (.delete [])), false⟩

end WriteState

end RocketDb
