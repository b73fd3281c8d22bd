import RocketDb.Write.Queue

/-! # The discipline of the writer queue

Whatever the interleaving and the errors, only the writer at the front works, its group is right behind it,
and a writer off the queue has a status to return. So no batch is inserted twice, and none is acknowledged
that was not inserted.

* **`WriteState.Ok`** — the places of all calls, by their position in the queue.
* **`WriteState.Once`** — the inserted batches are among the writers that have left the queue or are about to.
* **`WriteState.Acked`** — what is acknowledged is inserted. -/

namespace RocketDb

open List

/-- The places where the writer at the front can be, with `rest` behind it. -/
def WriterPc.AtFront (rest : List DBWriter) : WriterPc → Prop
  | .waiting _ => True
  | .makeRoom _ _ => True
  | .unlocked g => g.followers <+: rest
  | .returned _ => False

/-- `q` is the place `p`, or both wait. -/
def WriterPc.Rewaits (p q : Option WriterPc) : Prop :=
  q = p ∨ ∃ b c, p = some (.waiting b) ∧ q = some (.waiting c)

/-- A signal wakes a caller that waits and does nothing to others. -/
theorem WriterPc.rewaits_wake (p : Option WriterPc) : Rewaits p (p.map wake) := by
  obtain - | ⟨_ | _ | _ | _⟩ := p
  case some.waiting b => exact .inr ⟨b, true, rfl, rfl⟩
  all_goals exact .inl rfl

namespace WriteState

/-! ## Where the calls are -/

/-- A writer off the queue has returned, or is done and has not seen it yet. -/
def Gone (s : WriteState) (w : DBWriter) : Prop :=
  (∃ b status, s.pc w.id = some (.waiting b) ∧ s.done w.id = some status) ∨
    ∃ status, s.pc w.id = some (.returned status)

/-- The writer at the front is not done. -/
def Leads (s : WriteState) (w : DBWriter) (rest : List DBWriter) : Prop :=
  s.done w.id = none ∧ ∃ p, s.pc w.id = some p ∧ p.AtFront rest

/-- A writer behind the front is not done and waits. -/
def Waits (s : WriteState) (w : DBWriter) : Prop :=
  s.done w.id = none ∧ ∃ b, s.pc w.id = some (.waiting b)

/-- **The queue is in order.** -/
structure Ok (s : WriteState) : Prop where
  nodup : (s.arrived.map DBWriter.id).Nodup
  arrived_eq : s.arrived = s.left ++ s.queue
  /-- A call that was not made has no place. -/
  fresh : ∀ i, (∀ w ∈ s.arrived, w.id ≠ i) → s.pc i = none ∧ s.done i = none
  gone : ∀ w ∈ s.left, s.Gone w
  leads : ∀ w rest, s.queue = w :: rest → s.Leads w rest
  waits : ∀ w rest, s.queue = w :: rest → ∀ x ∈ rest, s.Waits x

variable {ucmp : Comparator} {s s' : WriteState} {w x : DBWriter} {rest : List DBWriter}
  {status : Status}

/-- Who has left stays so while only waiting changes. -/
theorem Gone.of_rewaits (h : s.Gone w) (hpc : WriterPc.Rewaits (s.pc w.id) (s'.pc w.id))
    (hdone : s'.done w.id = s.done w.id) : s'.Gone w := by
  obtain heq | ⟨b, c, hb, hc⟩ := hpc
  · rwa [Gone, heq, hdone]
  · obtain ⟨-, status, -, hst⟩ | ⟨status, hret⟩ := h
    · exact .inl ⟨c, status, hc, hdone.trans hst⟩
    · exact absurd (hb.symm.trans hret) (by simp)

theorem Leads.of_rewaits (h : s.Leads w rest) (hpc : WriterPc.Rewaits (s.pc w.id) (s'.pc w.id))
    (hdone : s'.done w.id = s.done w.id) : s'.Leads w rest := by
  obtain heq | ⟨b, c, hb, hc⟩ := hpc
  · rwa [Leads, heq, hdone]
  · exact ⟨hdone.trans h.1, _, hc, trivial⟩

theorem Waits.of_rewaits (h : s.Waits w) (hpc : WriterPc.Rewaits (s.pc w.id) (s'.pc w.id))
    (hdone : s'.done w.id = s.done w.id) : s'.Waits w := by
  obtain heq | ⟨b, c, hb, hc⟩ := hpc
  · rwa [Waits, heq, hdone]
  · exact ⟨hdone.trans h.1, c, hc⟩

/-- Who waits may come to the front. -/
theorem Waits.leads (h : s.Waits w) (rest : List DBWriter) : s.Leads w rest :=
  ⟨h.1, _, h.2.choose_spec, trivial⟩

namespace Ok

section

variable (h : s.Ok)

include h

/-- Calls are told apart by their ids. -/
theorem eq_of_id (hw : w ∈ s.arrived) (hx : x ∈ s.arrived) (hid : w.id = x.id) : w = x :=
  inj_on_of_nodup_map h.nodup hw hx hid

theorem mem_of_queue (hw : w ∈ s.queue) : w ∈ s.arrived :=
  h.arrived_eq ▸ mem_append_right _ hw

theorem mem_of_left (hw : w ∈ s.left) : w ∈ s.arrived :=
  h.arrived_eq ▸ mem_append_left _ hw

theorem nodup_arrived : s.arrived.Nodup := Nodup.of_map _ h.nodup

theorem not_mem_queue (hw : w ∈ s.left) : w ∉ s.queue := fun hq =>
  (nodup_append.mp (h.arrived_eq ▸ h.nodup_arrived)).2.2 w hw w hq rfl

theorem left_ne (hq : w ∈ s.queue) (hx : x ∈ s.left) : x.id ≠ w.id := fun hid =>
  h.not_mem_queue hx (h.eq_of_id (h.mem_of_left hx) (h.mem_of_queue hq) hid ▸ hq)

theorem rest_ne (hq : s.queue = w :: rest) (hx : x ∈ rest) : x.id ≠ w.id := by
  grind [Ok]

/-- A caller that neither waits nor has returned is at the front. -/
theorem front_of_pc (hw : w ∈ s.arrived) {p : WriterPc} (hpc : s.pc w.id = some p)
    (hwait : ∀ b, p ≠ .waiting b) (hret : ∀ st, p ≠ .returned st) :
    ∃ rest, s.queue = w :: rest := by
  rw [h.arrived_eq, mem_append] at hw
  obtain hleft | hqueue := hw
  · obtain ⟨b, -, hb, -⟩ | ⟨st, hst⟩ := h.gone w hleft
    · grind
    · grind
  · cases hq : s.queue with
    | nil => simp [hq] at hqueue
    | cons front rest =>
      obtain rfl | hrest := mem_cons.mp (hq ▸ hqueue)
      · exact ⟨rest, rfl⟩
      · obtain ⟨-, b, hb⟩ := h.waits front rest hq w hrest
        grind

theorem exists_pc (hw : w ∈ s.arrived) : ∃ p, s.pc w.id = some p := by
  rw [h.arrived_eq, mem_append] at hw
  obtain hleft | hqueue := hw
  · obtain ⟨b, -, hb, -⟩ | ⟨st, hst⟩ := h.gone w hleft
    · exact ⟨_, hb⟩
    · exact ⟨_, hst⟩
  · cases hq : s.queue with
    | nil => simp [hq] at hqueue
    | cons front rest =>
      obtain rfl | hrest := mem_cons.mp (hq ▸ hqueue)
      · obtain ⟨-, p, hp, -⟩ := h.leads w rest hq
        exact ⟨p, hp⟩
      · obtain ⟨-, b, hb⟩ := h.waits front rest hq w hrest
        exact ⟨_, hb⟩

/-! ## The steps -/

/-- A caller that waits may go on waiting. -/
theorem setWaiting {i : ℕ} {b : Bool} (hpc : s.pc i = some (.waiting b)) (c : Bool) :
    (s.setPc i (.waiting c)).Ok := by
  have hre : ∀ j, WriterPc.Rewaits (s.pc j) ((s.setPc i (.waiting c)).pc j) := by
    intro j
    by_cases hj : j = i
    · subst hj
      exact .inr ⟨b, c, hpc, setPc_self ..⟩
    · exact .inl (setPc_of_ne _ _ hj)
  refine { h with fresh := ?_, gone := ?_, leads := ?_, waits := ?_ }
  · intro j hj
    have hne : j ≠ i := by
      rintro rfl
      exact absurd (hpc.symm.trans (h.fresh j hj).1) (by simp)
    exact ⟨(setPc_of_ne _ _ hne).trans (h.fresh j hj).1, (h.fresh j hj).2⟩
  · exact fun x hx => (h.gone x hx).of_rewaits (hre _) rfl
  · exact fun x rest hq => (h.leads x rest hq).of_rewaits (hre _) rfl
  · exact fun x rest hq y hy => (h.waits x rest hq y hy).of_rewaits (hre _) rfl

/-- The caller at the front moves on. -/
theorem setFront (hq : s.queue = w :: rest) {p : WriterPc} (hp : p.AtFront rest) :
    (s.setPc w.id p).Ok := by
  have hw : w ∈ s.queue := hq ▸ mem_cons_self
  have hpc : ∀ {i}, i ≠ w.id → (s.setPc w.id p).pc i = s.pc i := fun hi => setPc_of_ne _ _ hi
  refine { h with fresh := ?_, gone := ?_, leads := ?_, waits := ?_ }
  · intro i hi
    rw [hpc (hi w (h.mem_of_queue hw)).symm]
    exact h.fresh i hi
  · exact fun x hx => (h.gone x hx).of_rewaits (.inl (hpc (h.left_ne hw hx))) rfl
  · intro x rest' hq'
    obtain ⟨rfl, rfl⟩ := List.cons.inj (hq.symm.trans hq')
    exact ⟨(h.leads w rest hq).1, p, setPc_self .., hp⟩
  · intro x rest' hq' y hy
    obtain ⟨rfl, rfl⟩ := List.cons.inj (hq.symm.trans hq')
    exact (h.waits w rest hq y hy).of_rewaits (.inl (hpc (h.rest_ne hq hy))) rfl

/-- A caller that is done has left the queue. -/
theorem mem_left (hw : w ∈ s.arrived) (hdone : s.done w.id = some status) :
    w ∈ s.left := by
  rw [h.arrived_eq, mem_append] at hw
  refine hw.resolve_right fun hqueue => ?_
  cases hq : s.queue with
  | nil => simp [hq] at hqueue
  | cons front rest =>
    obtain rfl | hrest := mem_cons.mp (hq ▸ hqueue)
    · exact absurd (hdone.symm.trans (h.leads w rest hq).1) (by simp)
    · exact absurd (hdone.symm.trans (h.waits front rest hq w hrest).1) (by simp)

/-- A caller that has left returns. -/
theorem returns (hw : w ∈ s.left) (status : Status) : (s.returns w status).Ok := by
  have hpc : ∀ {i}, i ≠ w.id → (s.returns w status).pc i = s.pc i :=
    fun hi => setPc_of_ne s _ hi
  refine { h with fresh := ?_, gone := ?_, leads := ?_, waits := ?_ }
  · intro i hi
    rw [hpc (hi w (h.mem_of_left hw)).symm]
    exact h.fresh i hi
  · intro x hx
    by_cases hid : x.id = w.id
    · exact .inr ⟨status, hid ▸ setPc_self s ..⟩
    · exact (h.gone x hx).of_rewaits (.inl (hpc hid)) rfl
  · intro x rest hq
    have hx : x ∈ s.queue := hq ▸ mem_cons_self
    exact (h.leads x rest hq).of_rewaits (.inl (hpc (h.left_ne hx hw).symm)) rfl
  · intro x rest hq y hy
    have hx : y ∈ s.queue := hq ▸ mem_cons_of_mem _ hy
    exact (h.waits x rest hq y hy).of_rewaits (.inl (hpc (h.left_ne hx hw).symm)) rfl

/-- A new caller goes to the end of the queue. -/
theorem enter (hpc : s.pc w.id = none) : (s.enter w).Ok := by
  have hne : ∀ x ∈ s.arrived, x.id ≠ w.id := fun x hx hid => by
    obtain ⟨p, hp⟩ := h.exists_pc hx
    exact absurd (hp.symm.trans (hid ▸ hpc)) (by simp)
  have hdone : s.done w.id = none := (h.fresh w.id hne).2
  have hpc' : ∀ {i}, i ≠ w.id → (s.enter w).pc i = s.pc i := fun hi => setPc_of_ne s _ hi
  have hself : (s.enter w).pc w.id = some (.waiting true) := setPc_self s ..
  refine { nodup := ?_, arrived_eq := ?_, fresh := ?_, gone := ?_, leads := ?_, waits := ?_ }
  · grind [WriteState.enter, Ok]
  · exact (congrArg (· ++ [w]) h.arrived_eq).trans (append_assoc ..)
  · intro i hi
    rw [hpc' (hi w (mem_append_right _ mem_cons_self)).symm]
    exact h.fresh i fun x hx => hi x (mem_append_left _ hx)
  · exact fun x hx => (h.gone x hx).of_rewaits (.inl (hpc' (hne x (h.mem_of_left hx)))) rfl
  · intro x rest hq
    cases hqueue : s.queue with
    | nil =>
      obtain ⟨rfl, rfl⟩ : w = x ∧ [] = rest := by
        simpa [WriteState.enter, hqueue] using hq
      exact ⟨hdone, _, hself, trivial⟩
    | cons front rest' =>
      obtain ⟨rfl, rfl⟩ : front = x ∧ rest' ++ [w] = rest := by
        simpa [WriteState.enter, hqueue] using hq
      obtain ⟨hnone, p, hp, hfront⟩ := h.leads front rest' hqueue
      have hx := hne front (h.mem_of_queue (hqueue ▸ mem_cons_self))
      refine ⟨hnone, p, (hpc' hx).trans hp, ?_⟩
      cases p with
      | unlocked g => exact hfront.trans (prefix_append ..)
      | _ => exact hfront
  · intro x rest hq y hy
    cases hqueue : s.queue with
    | nil =>
      grind [WriteState.enter]
    | cons front rest' =>
      obtain ⟨rfl, rfl⟩ : front = x ∧ rest' ++ [w] = rest := by
        simpa [WriteState.enter, hqueue] using hq
      obtain hold | hnew := mem_append.mp hy
      · have hmem := h.mem_of_queue (hqueue ▸ mem_cons_of_mem _ hold)
        exact (h.waits front rest' hqueue y hold).of_rewaits (.inl (hpc' (hne y hmem))) rfl
      · obtain rfl := mem_singleton.mp hnew
        exact ⟨hdone, true, hself⟩

end

/-- The end of a group changes no place but that of its leader. -/
theorem rewaits_release (s : WriteState) (followers rest : List DBWriter) (status : Status) {i : ℕ}
    (hi : i ≠ w.id) : WriterPc.Rewaits (s.pc i) ((s.release w followers rest status).pc i) := by
  simp only [WriteState.release, if_neg hi]
  split
  · exact WriterPc.rewaits_wake _
  · exact .inl rfl

/-- Callers behind the group go on waiting. -/
theorem waits_release (h : s.Ok) (followers : List DBWriter)
    (hq : s.queue = w :: (followers ++ rest)) (status : Status) (hx : x ∈ rest) :
    (s.release w followers rest status).Waits x := by
  have hmem : x ∈ followers ++ rest := mem_append_right _ hx
  have hout : x.id ∉ followers.map DBWriter.id := by
    intro hin
    obtain ⟨y, hy, hid⟩ := mem_map.mp hin
    grind [Ok]
  exact (h.waits w _ hq x hmem).of_rewaits (rewaits_release _ _ _ _ (h.rest_ne hq hmem))
    (if_neg hout)

/-- **The end of a group**: the leader and its followers leave the queue together. -/
theorem release (h : s.Ok) (followers : List DBWriter)
    (hq : s.queue = w :: (followers ++ rest)) (status : Status) :
    (s.release w followers rest status).Ok := by
  have hw : w ∈ s.queue := hq ▸ mem_cons_self
  have hfollow : ∀ x ∈ followers, x ∈ s.queue := fun x hx => hq ▸ by simp [hx]
  have hre : ∀ {i}, i ≠ w.id →
      WriterPc.Rewaits (s.pc i) ((s.release w followers rest status).pc i) :=
    fun hi => rewaits_release _ _ _ _ hi
  have hdone : ∀ {i}, i ∉ followers.map DBWriter.id →
      (s.release w followers rest status).done i = s.done i := fun hi => if_neg hi
  refine { nodup := h.nodup, arrived_eq := ?_, fresh := ?_, gone := ?_, leads := ?_, waits := ?_ }
  · simp [WriteState.release, h.arrived_eq, hq]
  · intro i hi
    have hout : i ∉ followers.map DBWriter.id := by
      intro hmem
      obtain ⟨y, hy, hid⟩ := mem_map.mp hmem
      exact hi y (h.mem_of_queue (hfollow y hy)) hid
    refine ⟨?_, (hdone hout).trans (h.fresh i hi).2⟩
    obtain heq | ⟨b, -, hb, -⟩ := hre (hi w (h.mem_of_queue hw)).symm
    · exact heq.trans (h.fresh i hi).1
    · exact absurd (hb.symm.trans (h.fresh i hi).1) (by simp)
  · intro x hx
    obtain hleft | hgroup := mem_append.mp hx
    · have hout : x.id ∉ followers.map DBWriter.id := by
        intro hmem
        obtain ⟨y, hy, hid⟩ := mem_map.mp hmem
        exact h.left_ne (hfollow y hy) hleft hid.symm
      exact (h.gone x hleft).of_rewaits (hre (h.left_ne hw hleft)) (hdone hout)
    · obtain rfl | hx := mem_cons.mp hgroup
      · exact .inr ⟨status, if_pos rfl⟩
      · obtain ⟨-, b, hb⟩ := h.waits w _ hq x (mem_append_left _ hx)
        have hin : x.id ∈ followers.map DBWriter.id := mem_map_of_mem hx
        have hne := h.rest_ne hq (mem_append_left _ hx)
        refine .inl ⟨true, status, ?_, if_pos hin⟩
        grind [WriteState.release, WriterPc.wake]
  · intro x rest' (hq' : rest = x :: rest')
    exact (h.waits_release followers hq status (hq' ▸ mem_cons_self)).leads _
  · intro x rest' (hq' : rest = x :: rest') y hy
    exact h.waits_release followers hq status (hq' ▸ mem_cons_of_mem _ hy)

/-- The followers are next in the queue. -/
theorem followers_prefix (h : s.Ok) (hq : s.queue = w :: rest) {g : CommitGroup}
    (hpc : s.pc w.id = some (.unlocked g)) : g.followers <+: rest := by
  obtain ⟨-, p, hp, hfront⟩ := h.leads w rest hq
  obtain rfl := Option.some.inj (hpc.symm.trans hp)
  exact hfront

theorem setPhase (h : s.Ok) (hq : s.queue = w :: rest) {g : CommitGroup}
    (hpc : s.pc w.id = some (.unlocked g)) (phase : GroupPhase) :
    (s.setPc w.id (.unlocked { g with phase := phase })).Ok := by
  have hprefix := h.followers_prefix hq hpc
  exact h.setFront hq hprefix

theorem recordBackgroundError (h : s.Ok) (status : Status) :
    (s.recordBackgroundError status).Ok := by
  unfold WriteState.recordBackgroundError
  split
  · exact { h with }
  · exact h

/-- The last part of `Write`: a failed `Sync` is remembered, and the group leaves. -/
theorem finish_eq (h : s.Ok) (hq : s.queue = w :: rest) {g : CommitGroup}
    (hpc : s.pc w.id = some (.unlocked g)) (status : Status) :
    ∃ rest' bg, rest = g.followers ++ rest' ∧
      (bg = s.bgError ∨ g.phase = .synced status ∧ bg = status) ∧
      s.finish w g status =
        { s.release w g.followers rest' status with
          lastSequence := g.lastSequence
          bgError := bg } := by
  obtain ⟨rest', rfl⟩ := h.followers_prefix hq hpc
  have hnodup : ((w :: g.followers).map DBWriter.id).Nodup := by
    grind [Ok]
  by_cases hphase : g.phase = .synced status
  · by_cases hbg : s.bgError.isOk = true
    · refine ⟨rest', status, rfl, .inr ⟨hphase, rfl⟩, ?_⟩
      simp only [finish, if_pos hphase, WriteState.recordBackgroundError, if_pos hbg]
      exact leave_eq (s := { s with lastSequence := g.lastSequence, bgError := status })
        g.followers hq hnodup status
    · refine ⟨rest', s.bgError, rfl, .inl rfl, ?_⟩
      simp only [finish, if_pos hphase, WriteState.recordBackgroundError, if_neg hbg]
      exact leave_eq (s := { s with lastSequence := g.lastSequence, bgError := s.bgError })
        g.followers hq hnodup status
  · refine ⟨rest', s.bgError, rfl, .inl rfl, ?_⟩
    simp only [finish, if_neg hphase]
    exact leave_eq (s := { s with lastSequence := g.lastSequence, bgError := s.bgError })
      g.followers hq hnodup status

/-- **Every step keeps the queue in order.** -/
theorem moves {a : WriteAction} (h : s.Ok) (hmove : Moves ucmp s a s') : s'.Ok := by
  cases hmove with
  | enter hpc => exact h.enter hpc
  | wake hpc => exact h.setWaiting hpc _
  | returns hw hpc hdone => exact h.returns (h.mem_left hw hdone) _
  | lead hq hpc => exact h.setFront hq trivial
  | sleep hw hpc hdone hq => exact h.setWaiting hpc _
  | fail hq hpc hstatus hcause => exact h.release [] hq _
  | delay hq hpc => exact h.setFront hq trivial
  | startGroup hq hpc hbatch hfull hbg => exact h.setFront hq (buildBatchGroup_front _ _)
  | leaveNull hq hpc hbatch => exact h.release [] hq _
  | wait hq hpc => exact h
  | switchMemTable hq hpc himm => exact { h.setFront hq (p := .makeRoom false _) trivial with }
  | addRecord hq hpc hphase => exact { h.setPhase hq hpc _ with }
  | sync hq hpc hphase hsync => exact h.setPhase hq hpc _
  | insert hq hpc hphase => exact { h.setPhase hq hpc _ with }
  | @finish w rest g status hq hpc hresult =>
    obtain ⟨rest', bg, rfl, -, heq⟩ := h.finish_eq hq hpc status
    rw [heq]
    exact { h.release g.followers hq status with }
  | flush himm => exact { h with }
  | flushFail hstatus => exact h.recordBackgroundError _
  | stillFlushing => exact h
  | compactFail hpc hbg => exact { h with }
  | compactDone hpc himm => exact { h with }

end Ok

theorem ok_opened {tables : List MemTableState} {mem : MemTableState} (lastSequence : ℕ)
    (hnodup : ((tables.flatMap MemTableState.writes ++ mem.writes).map (·.1.id)).Nodup) :
    (opened tables mem lastSequence).Ok where
  nodup := by
    rw [opened, map_map]
    exact hnodup
  arrived_eq := (append_nil _).symm
  fresh := by
    intro i hi
    refine ⟨if_neg fun hmem => ?_, rfl⟩
    obtain ⟨w, hw, hid⟩ := mem_map.mp hmem
    exact hi w hw hid
  gone := fun w hw => .inr ⟨.ok, if_pos (mem_map_of_mem hw)⟩
  leads := fun w rest hq => by cases hq
  waits := fun w rest hq => by cases hq

/-! ## The group at the front -/

/-- What `f` makes of the place of the front. -/
def atFront (f : DBWriter → Option WriterPc → List DBWriter) (s : WriteState) : List DBWriter :=
  match s.queue with
  | [] => []
  | w :: _ => f w (s.pc w.id)

section

variable {f : DBWriter → Option WriterPc → List DBWriter}

theorem atFront_eq (hq : s.queue = w :: rest) : s.atFront f = f w (s.pc w.id) := by
  rw [atFront, hq]

/-- Steps that do not touch the place of the front do not change what is made of it. -/
theorem atFront_congr (hqueue : s'.queue = s.queue)
    (h : ∀ w rest, s.queue = w :: rest → f w (s'.pc w.id) = f w (s.pc w.id)) :
    s'.atFront f = s.atFront f := by
  grind [atFront]

theorem atFront_setFront (hq : s.queue = w :: rest) {p q : WriterPc} (hpc : s.pc w.id = some p)
    (hsame : f w (some q) = f w (some p)) : (s.setPc w.id q).atFront f = s.atFront f := by
  refine atFront_congr rfl fun x rest' hq' => ?_
  grind [setPc_self]

variable (hwaiting : ∀ w b, f w (some (.waiting b)) = [])

include hwaiting

theorem atFront_setBehind {i : ℕ} {q : WriterPc}
    (hi : ∀ w rest, s.queue = w :: rest → w.id ≠ i ∨ WriterPc.Rewaits (s.pc i) (some q)) :
    (s.setPc i q).atFront f = s.atFront f := by
  refine atFront_congr rfl fun w rest hq => ?_
  by_cases hne : w.id = i
  · subst hne
    rw [setPc_self]
    obtain heq | ⟨b, c, hb, hc⟩ := (hi w rest hq).resolve_left (fun h => h rfl)
    · rw [heq]
    · rw [hb, hc, hwaiting, hwaiting]
  · rw [s.setPc_of_ne q hne]

theorem atFront_setWaiting {i : ℕ} {b : Bool} (hpc : s.pc i = some (.waiting b)) (c : Bool) :
    (s.setPc i (.waiting c)).atFront f = s.atFront f :=
  atFront_setBehind hwaiting fun _ _ _ => .inr (.inr ⟨b, c, hpc, rfl⟩)

theorem Ok.atFront_returns (h : s.Ok) (hw : w ∈ s.left) (status : Status) :
    (s.returns w status).atFront f = s.atFront f :=
  atFront_setBehind (s := s) (q := .returned status) hwaiting fun _ _ hq =>
    .inl (h.left_ne (hq ▸ mem_cons_self) hw).symm

theorem Ok.atFront_enter (h : s.Ok) (hpc : s.pc w.id = none) :
    (s.enter w).atFront f = s.atFront f := by
  cases hq : s.queue with
  | nil => simp [atFront, hq, WriteState.enter, setPc, hwaiting]
  | cons front rest =>
    have hne : front.id ≠ w.id := by
      intro hid
      obtain ⟨-, p, hp, -⟩ := h.leads front rest hq
      exact absurd (hp.symm.trans (hid ▸ hpc)) (by simp)
    simp [atFront, hq, WriteState.enter, setPc, hne]

/-- After the end of a group the caller at the front is one that waits. -/
theorem Ok.atFront_release (h : s.Ok) (followers : List DBWriter)
    (hq : s.queue = w :: (followers ++ rest)) (status : Status) :
    (s.release w followers rest status).atFront f = [] := by
  cases hrest : rest with
  | nil => rw [atFront, WriteState.release]
  | cons x rest' =>
    rw [← hrest, atFront_eq (s := s.release w followers rest status) hrest]
    obtain ⟨-, b, hb⟩ := h.waits_release followers hq status (hrest ▸ mem_cons_self)
    rw [hb, hwaiting]

end

/-! ## No batch is inserted twice -/

/-- The group of `w`, if its batches are in the memtable. -/
def insertedGroup (w : DBWriter) : Option WriterPc → List DBWriter
  | some (.unlocked g) =>
    match g.phase with
    | .inserted _ => w :: g.followers
    | _ => []
  | _ => []

/-- The writers that are still in the queue with their batches inserted. -/
def inFlight (s : WriteState) : List DBWriter := s.atFront insertedGroup

/-- **The inserted batches** are those of writers that have left the queue, or are about to, in the
order of the queue and each at most once. -/
def Once (s : WriteState) : Prop := (s.writes.map Prod.fst).Sublist (s.left ++ s.inFlight)

theorem inFlight_eq (hq : s.queue = w :: rest) : s.inFlight = insertedGroup w (s.pc w.id) :=
  atFront_eq hq

theorem insertedGroup_waiting (w : DBWriter) (b : Bool) :
    insertedGroup w (some (.waiting b)) = [] := rfl

theorem Ok.inFlight_release (h : s.Ok) (followers : List DBWriter)
    (hq : s.queue = w :: (followers ++ rest)) (status : Status) :
    (s.release w followers rest status).inFlight = [] :=
  h.atFront_release insertedGroup_waiting followers hq status

theorem insertedGroup_sublist (g : CommitGroup) :
    (insertedGroup w (some (.unlocked g))).Sublist (w :: g.followers) := by
  grind [insertedGroup]

theorem insertedGroup_of_result {g : CommitGroup} (h : g.phase.result = some .ok) :
    insertedGroup w (some (.unlocked g)) = w :: g.followers := by
  simp only [insertedGroup]
  cases hphase : g.phase with
  | inserted status => rfl
  | assigned => simp [hphase, GroupPhase.result] at h
  | logged status | synced status => cases status <;> simp [hphase, GroupPhase.result, Status.isOk] at h

theorem inFlight_setFront (hq : s.queue = w :: rest) {p q : WriterPc} (hpc : s.pc w.id = some p)
    (hsame : insertedGroup w (some q) = insertedGroup w (some p)) :
    (s.setPc w.id q).inFlight = s.inFlight :=
  atFront_setFront hq hpc hsame

theorem inFlight_setWaiting {i : ℕ} {b : Bool} (hpc : s.pc i = some (.waiting b)) (c : Bool) :
    (s.setPc i (.waiting c)).inFlight = s.inFlight :=
  atFront_setWaiting insertedGroup_waiting hpc c

theorem Ok.inFlight_returns (h : s.Ok) (hw : w ∈ s.left) (status : Status) :
    (s.returns w status).inFlight = s.inFlight :=
  h.atFront_returns insertedGroup_waiting hw status

theorem Ok.inFlight_enter (h : s.Ok) (hpc : s.pc w.id = none) :
    (s.enter w).inFlight = s.inFlight :=
  h.atFront_enter insertedGroup_waiting hpc

theorem inFlight_insert (hq : s.queue = w :: rest) (g : CommitGroup) :
    (s.insert ucmp w g).inFlight = w :: g.followers := by
  rw [inFlight_eq (s := s.insert ucmp w g) hq]
  exact congrArg (insertedGroup w) (setPc_self s w.id _)

/-- The callers of numbered writes are those with a batch. -/
theorem map_fst_numberedWrites (seq : ℕ) (ws : List DBWriter) :
    (numberedWrites seq ws).map Prod.fst = ws.filter (fun w => w.batch.isSome) := by
  induction ws generalizing seq with
  | nil => rfl
  | cons w ws ih =>
    grind [numberedWrites]

/-- A group is inserted as a whole, after everything before it. -/
theorem writes_insert (s : WriteState) (w : DBWriter) (g : CommitGroup) :
    (s.insert ucmp w g).writes =
      s.writes ++ numberedWrites (s.lastSequence + 1) (w :: g.followers) := by
  simp [writes, insert, setPc]

theorem writes_switchMemTable (himm : s.imm = none) (i : ℕ) (allowDelay : Bool) (status : Status) :
    (s.switchMemTable i allowDelay status).writes = s.writes := by
  simp [writes, switchMemTable, setPc, himm, MemTableState.empty]

theorem writes_installTable {mem : MemTableState} (himm : s.imm = some mem)
    (table : FileMetaData × List Entry) : (s.installTable mem table).writes = s.writes := by
  simp [writes, installTable, himm]

namespace Once

theorem keep (h : s.Once) (hwrites : s'.writes = s.writes) (hleft : s'.left = s.left)
    (hflight : s'.inFlight = s.inFlight) : s'.Once := by
  rwa [Once, hwrites, hleft, hflight]

/-- The callers of a group leave after their batches were inserted. -/
theorem release (hok : s.Ok) (h : s.Once) (followers : List DBWriter)
    (hq : s.queue = w :: (followers ++ rest)) (status : Status)
    (hsub : (insertedGroup w (s.pc w.id)).Sublist (w :: followers)) :
    (s.release w followers rest status).Once := by
  rw [Once, hok.inFlight_release followers hq status, append_nil]
  refine h.trans ?_
  rw [inFlight_eq hq]
  exact Sublist.append_left hsub _

/-- **Every step inserts each batch at most once.** -/
theorem moves (hok : s.Ok) {a : WriteAction} (h : s.Once) (hmove : Moves ucmp s a s') :
    s'.Once := by
  cases hmove with
  | enter hpc => exact h.keep rfl rfl (hok.inFlight_enter hpc)
  | wake hpc | sleep hw hpc hdone hq =>
    exact h.keep rfl rfl (inFlight_setWaiting hpc _)
  | returns hw hpc hdone =>
    exact h.keep rfl rfl (hok.inFlight_returns (hok.mem_left hw hdone) _)
  | lead hq hpc | delay hq hpc | startGroup hq hpc hbatch hfull hbg =>
    exact h.keep rfl rfl (inFlight_setFront hq hpc rfl)
  | fail hq hpc hstatus hcause | leaveNull hq hpc hbatch =>
    exact h.release hok [] hq _ (by rw [hpc]; exact nil_sublist _)
  | wait hq hpc => exact h
  | stillFlushing => exact h
  | switchMemTable hq hpc himm =>
    exact h.keep (writes_switchMemTable himm ..) rfl (inFlight_setFront hq hpc rfl)
  | addRecord hq hpc hphase | sync hq hpc hphase hsync =>
    exact h.keep rfl rfl (inFlight_setFront hq hpc (by simp [insertedGroup, hphase]))
  | @insert w rest g hq hpc hphase =>
    have hold : s.inFlight = [] := by
      grind [inFlight_eq, insertedGroup]
    rw [Once, hold, append_nil] at h
    rw [Once, inFlight_insert hq, writes_insert, map_append, map_fst_numberedWrites]
    exact h.append filter_sublist
  | @finish w rest g status hq hpc hresult =>
    obtain ⟨rest', bg, rfl, -, heq⟩ := hok.finish_eq hq hpc status
    rw [heq]
    have hrel := h.release hok g.followers hq status (by rw [hpc]; exact insertedGroup_sublist g)
    exact hrel.keep rfl rfl rfl
  | flush himm => exact h.keep (writes_installTable himm _) rfl rfl
  | flushFail hstatus =>
    unfold recordBackgroundError
    split
    · exact h.keep rfl rfl rfl
    · exact h
  | compactFail hpc hbg => exact h.keep rfl rfl rfl
  | compactDone hpc himm => exact h.keep rfl rfl rfl

/-- So no call has its batch inserted twice. -/
theorem nodup (hok : s.Ok) (h : s.Once) : (s.writes.map Prod.fst).Nodup := by
  refine hok.nodup_arrived.sublist (h.trans ?_)
  rw [hok.arrived_eq]
  refine Sublist.append_left ?_ _
  cases hq : s.queue with
  | nil => simp [inFlight, atFront, hq]
  | cons w rest =>
    rw [inFlight_eq hq]
    obtain ⟨-, p, hp, hfront⟩ := hok.leads w rest hq
    rw [hp]
    cases p with
    | unlocked g =>
      exact (insertedGroup_sublist g).trans ((List.IsPrefix.sublist hfront).cons_cons w)
    | _ => exact nil_sublist _

end Once

theorem once_opened (tables : List MemTableState) (mem : MemTableState) (lastSequence : ℕ) :
    (opened tables mem lastSequence).Once :=
  sublist_append_left ..

/-! ## What was acknowledged was inserted -/

/-- **The batches of the writers that return OK are inserted.** -/
structure Acked (s : WriteState) : Prop where
  acknowledged : ∀ x ∈ s.acknowledged, x.batch.isSome → x ∈ s.writes.map Prod.fst
  done : ∀ x ∈ s.left, s.done x.id = some .ok → x.batch.isSome → x ∈ s.writes.map Prod.fst
  inFlight : ∀ x ∈ s.inFlight, x.batch.isSome → x ∈ s.writes.map Prod.fst

namespace Acked

theorem keep (h : s.Acked) (hwrites : s'.writes = s.writes) (hleft : s'.left = s.left)
    (hflight : s'.inFlight = s.inFlight) (hdone : s'.done = s.done)
    (hack : s'.acknowledged = s.acknowledged) : s'.Acked where
  acknowledged := by
    rw [hack, hwrites]
    exact h.acknowledged
  done := by
    rw [hleft, hdone, hwrites]
    exact h.done
  inFlight := by
    rw [hflight, hwrites]
    exact h.inFlight

/-- A writer returns whose batch is inserted, unless there is an error or no batch. -/
theorem acknowledged_append (h : s.Acked)
    (hw : status = .ok → w.batch.isSome → w ∈ s.writes.map Prod.fst) :
    ∀ x ∈ (if status.isOk then s.acknowledged ++ [w] else s.acknowledged), x.batch.isSome →
      x ∈ s.writes.map Prod.fst := by
  grind [Acked, Status.eq_ok_of_isOk]

/-- A group that is acknowledged was inserted. -/
theorem release (hok : s.Ok) (h : s.Acked) (followers : List DBWriter)
    (hq : s.queue = w :: (followers ++ rest)) (status : Status)
    (hw : status = .ok → ∀ x ∈ w :: followers, x.batch.isSome → x ∈ s.writes.map Prod.fst) :
    (s.release w followers rest status).Acked where
  acknowledged := h.acknowledged_append fun hst => hw hst w mem_cons_self
  done := by
    intro x hx hdone hbatch
    simp only [WriteState.release] at hdone
    split at hdone <;> rename_i hin
    · obtain ⟨y, hy, hid⟩ := mem_map.mp hin
      have harr : y ∈ s.arrived := hok.mem_of_queue (hq ▸ by simp [hy])
      have hxarr : x ∈ s.arrived := by
        grind [Ok, release]
      obtain rfl := hok.eq_of_id harr hxarr hid
      exact hw (Option.some.inj hdone) y (mem_cons_of_mem _ hy) hbatch
    · obtain hleft | hgroup := mem_append.mp hx
      · exact h.done x hleft hdone hbatch
      · obtain rfl | hfollow := mem_cons.mp hgroup
        · exact absurd (hdone.symm.trans (hok.leads x _ hq).1) (by simp)
        · exact absurd (mem_map_of_mem hfollow) hin
  inFlight := by
    rw [hok.inFlight_release followers hq status]
    simp

/-- **Every step acknowledges only what was inserted.** -/
theorem moves (hok : s.Ok) {a : WriteAction} (h : s.Acked) (hmove : Moves ucmp s a s') :
    s'.Acked := by
  cases hmove with
  | enter hpc => exact h.keep rfl rfl (hok.inFlight_enter hpc) rfl rfl
  | wake hpc | sleep hw hpc hdone hq =>
    exact h.keep rfl rfl (inFlight_setWaiting hpc _) rfl rfl
  | @returns w status hw hpc hdone =>
    have hleft := hok.mem_left hw hdone
    refine ⟨h.acknowledged_append fun hst => h.done w hleft (hst ▸ hdone), h.done, ?_⟩
    rw [hok.inFlight_returns hleft]
    exact h.inFlight
  | lead hq hpc | delay hq hpc => exact h.keep rfl rfl (inFlight_setFront hq hpc rfl) rfl rfl
  | fail hq hpc hstatus hcause => exact h.release hok [] hq _ (by rintro rfl; cases hstatus)
  | startGroup hq hpc hbatch hfull hbg =>
    exact h.keep rfl rfl (inFlight_setFront hq hpc rfl) rfl rfl
  | leaveNull hq hpc hbatch => exact h.release hok [] hq _ (by simp [hbatch])
  | wait hq hpc => exact h
  | stillFlushing => exact h
  | switchMemTable hq hpc himm =>
    exact h.keep (writes_switchMemTable himm ..) rfl (inFlight_setFront hq hpc rfl) rfl rfl
  | addRecord hq hpc hphase | sync hq hpc hphase hsync =>
    exact h.keep rfl rfl (inFlight_setFront hq hpc (by simp [insertedGroup, hphase])) rfl rfl
  | @insert w rest g hq hpc hphase =>
    have hmono : ∀ x, x ∈ s.writes.map Prod.fst →
        x ∈ (s.insert ucmp w g).writes.map Prod.fst := by
      grind [writes_insert]
    refine ⟨fun x hx hb => hmono x (h.acknowledged x hx hb),
      fun x hx hd hb => hmono x (h.done x hx hd hb), ?_⟩
    grind [inFlight_insert, writes_insert, map_fst_numberedWrites]
  | @finish w rest g status hq hpc hresult =>
    obtain ⟨rest', bg, rfl, -, heq⟩ := hok.finish_eq hq hpc status
    rw [heq]
    have hrel : (s.release w g.followers rest' status).Acked := by
      refine h.release hok g.followers hq status ?_
      grind [Acked, inFlight_eq, insertedGroup_of_result]
    exact hrel.keep rfl rfl rfl rfl rfl
  | flush himm => exact h.keep (writes_installTable himm _) rfl rfl rfl rfl
  | flushFail hstatus =>
    unfold recordBackgroundError
    split
    · exact h.keep rfl rfl rfl rfl rfl
    · exact h
  | compactFail hpc hbg => exact h.keep rfl rfl rfl rfl rfl
  | compactDone hpc himm => exact h.keep rfl rfl rfl rfl rfl

end Acked

theorem acked_opened (tables : List MemTableState) (mem : MemTableState) (lastSequence : ℕ) :
    (opened tables mem lastSequence).Acked where
  acknowledged := fun _ hx _ => hx
  done := fun _ _ hdone => by cases hdone
  inFlight := fun _ hx => by cases hx

end WriteState

end RocketDb
