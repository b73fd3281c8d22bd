import RocketDb.Engine.State
import RocketDb.Engine.Layout

/-! # What a write does to the memtable

A batch gets **consecutive sequence numbers** after the last one in use, so its entries are newer than
everything in the database, and inserting them keeps the memtable sorted. -/

namespace RocketDb

open KeyOrder Newest List

variable {ucmp : Comparator} {es mem : List Entry} {e x : Entry} {seq : ℕ} {ops : List Op}

/-! ## The entries of a batch -/

theorem Op.sequence_entry (hseq : seq ≤ kMaxSequenceNumber) (op : Op) :
    (op.entry seq).key.sequence = seq := by
  cases op <;> exact InternalKey.sequence_ofParts hseq _ _

theorem Op.parsable_entry (hseq : seq ≤ kMaxSequenceNumber) (op : Op) :
    (op.entry seq).parsable = true := by
  rw [Entry.parsable, Option.isSome_iff_exists]
  cases op <;> exact ⟨_, parseInternalKey_ofParts hseq _ _⟩

/-- The entries of a batch are numbered from `seq` on. -/
theorem batchEntries_spec (seq : ℕ) (hmax : seq + ops.length ≤ kMaxSequenceNumber + 1)
    (he : e ∈ batchEntries seq ops) :
    e.parsable = true ∧ seq ≤ e.key.sequence ∧ e.key.sequence < seq + ops.length := by
  induction ops generalizing seq with
  | nil => exact absurd he not_mem_nil
  | cons op ops ih =>
    rw [length_cons] at hmax ⊢
    rcases mem_cons.mp he with rfl | he
    · have hseq : seq ≤ kMaxSequenceNumber := by omega
      rw [op.sequence_entry hseq]
      exact ⟨op.parsable_entry hseq, le_rfl, by omega⟩
    · grind

theorem batchEntries_pairwise (hmax : seq + ops.length ≤ kMaxSequenceNumber + 1) :
    (batchEntries seq ops).Pairwise fun a b => a.key.sequence < b.key.sequence := by
  induction ops generalizing seq with
  | nil => exact List.Pairwise.nil
  | cons op ops ih =>
    rw [length_cons] at hmax
    refine List.Pairwise.cons (fun b hb => ?_) (ih (by omega))
    rw [op.sequence_entry (by omega)]
    exact (batchEntries_spec (seq + 1) (by omega) hb).2.1

/-! ## Sequence numbers and versions -/

theorem Entry.version_lt_of_sequence_lt (h : e.key.sequence < x.key.sequence) :
    e.version < x.version := by
  grind [InternalKey.sequence, version]

theorem rank_ne_of_version_ne (h : e.version ≠ x.version) :
    e.key.rank ucmp ≠ x.key.rank ucmp := fun hr =>
  h ((versioned_eq_iff.mp hr).2)

theorem rank_ne_of_sequence_lt (h : e.key.sequence < x.key.sequence) :
    e.key.rank ucmp ≠ x.key.rank ucmp :=
  rank_ne_of_version_ne (Entry.version_lt_of_sequence_lt h).ne

/-! ## Insertion into the memtable -/

theorem mem_insertEntry : x ∈ insertEntry ucmp e mem ↔ x = e ∨ x ∈ mem := by
  induction mem with
  | nil => exact mem_cons
  | cons y ys ih =>
    grind [insertEntry]

/-- An entry with a new key keeps the memtable sorted. -/
theorem SortedEntries.insertEntry (h : SortedEntries ucmp mem)
    (hne : ∀ x ∈ mem, x.key.rank ucmp ≠ e.key.rank ucmp) :
    SortedEntries ucmp (insertEntry ucmp e mem) := by
  induction mem with
  | nil => exact pairwise_singleton _ _
  | cons y ys ih =>
    rw [RocketDb.insertEntry]
    obtain ⟨hy, hys⟩ := pairwise_cons.mp h
    split_ifs with hlt
    · refine pairwise_cons.mpr ⟨fun x hx => ?_, ih hys fun x hx => hne x (by simp [hx])⟩
      rcases mem_insertEntry.mp hx with rfl | hx
      · exact hlt
      · exact hy x hx
    · have hle := lt_of_le_of_ne (internalCompare_ne_lt.mp hlt) (hne y (by simp)).symm
      refine pairwise_cons.mpr ⟨fun x hx => internalCompare_eq_lt.mpr ?_, h⟩
      rcases mem_cons.mp hx with rfl | hx
      · exact hle
      · exact hle.trans (internalCompare_eq_lt.mp (hy x hx))

theorem mem_insertInto : x ∈ insertInto ucmp mem es ↔ x ∈ mem ∨ x ∈ es := by
  induction es generalizing mem with
  | nil => simp [insertInto]
  | cons e es ih =>
    rw [insertInto, foldl_cons]
    change x ∈ insertInto ucmp (insertEntry ucmp e mem) es ↔ _
    rw [ih, mem_insertEntry, mem_cons]
    tauto

/-- So do newer entries. -/
theorem SortedEntries.insertInto (h : SortedEntries ucmp mem)
    (hes : es.Pairwise fun a b => a.key.sequence < b.key.sequence)
    (hnew : ∀ x ∈ mem, ∀ e ∈ es, x.key.sequence < e.key.sequence) :
    SortedEntries ucmp (insertInto ucmp mem es) := by
  induction es generalizing mem with
  | nil => exact h
  | cons e es ih =>
    obtain ⟨he, hes⟩ := pairwise_cons.mp hes
    rw [RocketDb.insertInto, foldl_cons]
    refine ih (h.insertEntry fun x hx => rank_ne_of_sequence_lt (hnew x hx e (by simp))) hes ?_
    intro x hx a ha
    rcases mem_insertEntry.mp hx with rfl | hx
    · exact he a ha
    · exact hnew x hx a (by simp [ha])

end RocketDb
