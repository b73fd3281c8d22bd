import Mathlib.Algebra.Group.Nat.Defs
import Mathlib.Data.List.Basic
import Mathlib.Order.Nat
import RocketDb.Lib.Transition

/-! # Snapshots and the pruning bound (`db/snapshot.h`, `DBImpl::GetSnapshot`)

The list of live snapshots grows at its end, with the current last sequence number, and shrinks anywhere. As
long as the last sequence number only grows it stays in order, and no snapshot is ahead of `LastSequence()`
(`Readers.Ok`). `DBImpl::Write` adds an `int` to it, which is negative for a batch of `2 ^ 31` records.

* **`Readers.smallestSnapshot`** — the bound a flush or compaction captures.
* **`Readers.Sees`** — the sequence numbers a reader may use.
* **`Readers.Above.run`** — a bound captured once stays below every reader, whatever small writes come
  later. -/

namespace RocketDb

open List Transition

/-! ## The last sequence number -/

/-- `last_sequence += WriteBatchInternal::Count(write_batch)`: a signed 32-bit count is added to an
unsigned 64-bit number. -/
def addCount (lastSequence : ℕ) (count : UInt32) : ℕ :=
  (lastSequence + count.toInt32.toInt64.toUInt64.toNat) % 2 ^ 64

/-- The count of a batch of fewer than `2 ^ 31` records is not negative. -/
theorem toNat_toUInt64_toInt32 {n : ℕ} (hn : n < 2 ^ 31) :
    (UInt32.ofNat n).toInt32.toInt64.toUInt64.toNat = n := by
  have hmsb : (UInt32.ofNat n).toBitVec.msb = false := by
    grind [UInt32.toBitVec_ofNat']
  have hbits : (UInt32.ofNat n).toInt32.toInt64.toUInt64.toBitVec =
      (UInt32.ofNat n).toBitVec.setWidth 64 :=
    BitVec.signExtend_eq_setWidth_of_msb_false hmsb
  grind [UInt64.toNat_toBitVec, UInt32.toBitVec_ofNat']

/-- The number of records is added as long as nothing wraps. -/
theorem addCount_ofNat {last n : ℕ} (hn : n < 2 ^ 31) (hmax : last + n < 2 ^ 64) :
    addCount last (UInt32.ofNat n) = last + n := by
  rw [addCount, toNat_toUInt64_toInt32 hn, Nat.mod_eq_of_lt hmax]

/-! ## Snapshots -/

/-- A snapshot: its identity and its sequence number. -/
structure Snapshot where
  id : ℕ
  sequenceNumber : ℕ
  deriving DecidableEq, Repr

/-- The live snapshots, oldest first, and `LastSequence()`. -/
structure Readers where
  snapshots : List Snapshot
  lastSequence : ℕ
  deriving DecidableEq, Repr

namespace Readers

/-- No snapshots at sequence number `n`. -/
def fresh (n : ℕ) : Readers := ⟨[], n⟩

/-- `DBImpl::GetSnapshot`: a new snapshot of the last sequence number at the end of the list. -/
def getSnapshot (r : Readers) (id : ℕ) : Readers :=
  { r with snapshots := r.snapshots ++ [⟨id, r.lastSequence⟩] }

/-- `DBImpl::ReleaseSnapshot`: unlink a snapshot from the list. -/
def releaseSnapshot (r : Readers) (id : ℕ) : Readers :=
  { r with snapshots := r.snapshots.filter fun a => a.id != id }

/-- `SetLastSequence` after a batch of `n` records, whose header counts them modulo `2 ^ 32`. -/
def advance (r : Readers) (n : ℕ) : Readers :=
  { r with lastSequence := addCount r.lastSequence (UInt32.ofNat n) }

/-- The bound under which a version hidden by a newer one can be dropped: the oldest live snapshot,
or the last sequence number if there is none. -/
def smallestSnapshot (r : Readers) : ℕ :=
  match r.snapshots with
  | [] => r.lastSequence
  | oldest :: _ => oldest.sequenceNumber

/-- The sequence numbers a reader may use now: live snapshots and the last sequence number. -/
def Sees (r : Readers) (s : ℕ) : Prop :=
  s = r.lastSequence ∨ ∃ a ∈ r.snapshots, a.sequenceNumber = s

/-- The snapshots are in order, and none is ahead of the last sequence number. -/
structure Ok (r : Readers) : Prop where
  sorted : r.snapshots.Pairwise fun a b => a.sequenceNumber ≤ b.sequenceNumber
  bounded : ∀ a ∈ r.snapshots, a.sequenceNumber ≤ r.lastSequence

/-- `bound` is safe to prune with: no reader, present or future, is below it. -/
def Above (r : Readers) (bound : ℕ) : Prop :=
  bound ≤ r.lastSequence ∧ ∀ a ∈ r.snapshots, bound ≤ a.sequenceNumber

variable {r : Readers} {bound s n : ℕ}

/-- The last sequence number grows with a small write. -/
theorem lastSequence_advance (hn : n < 2 ^ 31) (hmax : r.lastSequence + n < 2 ^ 64) :
    (r.advance n).lastSequence = r.lastSequence + n :=
  addCount_ofNat hn hmax

/-- The oldest snapshot is the first one. -/
theorem Ok.smallestSnapshot_le_of_mem (h : r.Ok) {a : Snapshot} (ha : a ∈ r.snapshots) :
    r.smallestSnapshot ≤ a.sequenceNumber := by
  unfold smallestSnapshot
  have hsort := h.sorted
  cases hr : r.snapshots with
  | nil => rw [hr] at ha; cases ha
  | cons o rest =>
    rw [hr] at ha hsort
    rcases mem_cons.mp ha with rfl | ha
    · exact le_rfl
    · exact (pairwise_cons.mp hsort).1 a ha

/-- No bound is ahead of the last sequence number. -/
theorem Ok.smallestSnapshot_le_lastSequence (h : r.Ok) : r.smallestSnapshot ≤ r.lastSequence := by
  grind [smallestSnapshot, Ok]

/-- The bound that is captured now is safe. -/
theorem Ok.above_smallestSnapshot (h : r.Ok) : r.Above r.smallestSnapshot :=
  ⟨h.smallestSnapshot_le_lastSequence, fun _ ha => h.smallestSnapshot_le_of_mem ha⟩

/-- No reader is below a safe bound. -/
theorem Above.le_of_sees (h : r.Above bound) (hs : r.Sees s) : bound ≤ s := by
  rcases hs with rfl | ⟨a, ha, rfl⟩
  · exact h.1
  · exact h.2 a ha

/-! ## What other threads do to the snapshot list -/

/-- The calls that run while a table is being built. -/
inductive Call where
  | getSnapshot (id : ℕ)
  | releaseSnapshot (id : ℕ)
  | write (records : ℕ)

/-- The effect of a call. -/
def call (r : Readers) : Call → Readers
  | .getSnapshot id => r.getSnapshot id
  | .releaseSnapshot id => r.releaseSnapshot id
  | .write n => r.advance n

/-- A call that does not lower the last sequence number: a write has fewer than `2 ^ 31` records, and
the numbers have not run out. -/
def Small (r : Readers) : Call → Prop
  | .write n => n < 2 ^ 31 ∧ r.lastSequence + n < 2 ^ 64
  | .getSnapshot _ | .releaseSnapshot _ => True

instance (r : Readers) : ∀ c, Decidable (r.Small c)
  | .write n => inferInstanceAs (Decidable (n < 2 ^ 31 ∧ r.lastSequence + n < 2 ^ 64))
  | .getSnapshot _ | .releaseSnapshot _ => instDecidableTrue

/-- A small call keeps the snapshots in order. -/
theorem Ok.call (h : r.Ok) {c : Call} (hc : r.Small c) : (r.call c).Ok := by
  cases c with
  | getSnapshot id =>
    refine ⟨?_, fun a ha => ?_⟩
    · refine pairwise_append.mpr ⟨h.sorted, pairwise_singleton _ _, fun a ha b hb => ?_⟩
      rw [mem_singleton.mp hb]
      exact h.bounded a ha
    · rcases mem_append.mp ha with ha | ha
      · exact h.bounded a ha
      · exact (congrArg Snapshot.sequenceNumber (mem_singleton.mp ha)).le
  | releaseSnapshot id => exact ⟨h.sorted.filter _, fun a ha => h.bounded a (mem_of_mem_filter ha)⟩
  | write n =>
    refine ⟨h.sorted, fun a ha => ?_⟩
    rw [Readers.call, lastSequence_advance hc.1 hc.2]
    exact (h.bounded a ha).trans (Nat.le_add_right _ _)

/-- A small call leaves a safe bound safe. -/
theorem Above.call (h : r.Above bound) {c : Call} (hc : r.Small c) : (r.call c).Above bound := by
  cases c with
  | getSnapshot id =>
    refine ⟨h.1, fun a ha => ?_⟩
    rcases mem_append.mp ha with ha | ha
    · exact h.2 a ha
    · rw [mem_singleton.mp ha]
      exact h.1
  | releaseSnapshot id => exact ⟨h.1, fun a ha => h.2 a (mem_of_mem_filter ha)⟩
  | write n =>
    refine ⟨?_, h.2⟩
    rw [Readers.call, lastSequence_advance hc.1 hc.2]
    exact h.1.trans (Nat.le_add_right _ _)

/-- A call as a step; no call is refused. -/
def step (r : Readers) (c : Call) : Option Readers := some (r.call c)

/-- The snapshots stay in order while calls are small. -/
theorem Ok.run {cs : List Call} (h : r.Ok) (hsmall : Along step Small r cs) {r' : Readers}
    (hrun : Transition.run step r cs = some r') : r'.Ok :=
  run_induction (fun _ _ _ h hc hstep => Option.some.inj hstep ▸ h.call hc) h hsmall hrun

/-- **A bound that is safe stays safe** while calls are small. -/
theorem Above.run {cs : List Call} (h : r.Above bound) (hsmall : Along step Small r cs) {r' : Readers}
    (hrun : Transition.run step r cs = some r') : r'.Above bound := by
  have hstep : ∀ q c q', q.Above bound → q.Small c → step q c = some q' → q'.Above bound := by
    rintro q c _ h hc ⟨rfl⟩
    exact h.call hc
  exact run_induction hstep h hsmall hrun

end Readers

end RocketDb
