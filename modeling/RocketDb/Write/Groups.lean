import RocketDb.Write.QueueInvariants

/-! # The records of a write group

A leader appends the batches of its group to one batch, which becomes one record of the log and one
run of consecutive sequence numbers in the memtable.

* **`buildBatchGroup_holds`** — the batch of a group has the records of its members.
* **`numberedWrites_append`**, **`groupRecords_append`** — how the numbers and the log grow. -/

namespace RocketDb

open List

/-! ## The operations of a group -/

/-- The records of the writers' batches, one after the other. -/
def groupOps (ws : List DBWriter) : List Op := ws.flatMap DBWriter.ops

@[simp] theorem groupOps_nil : groupOps [] = [] := rfl

@[simp] theorem groupOps_cons (w : DBWriter) (ws : List DBWriter) :
    groupOps (w :: ws) = w.ops ++ groupOps ws := rfl

@[simp] theorem groupOps_append (ws vs : List DBWriter) :
    groupOps (ws ++ vs) = groupOps ws ++ groupOps vs := flatMap_append

theorem DBWriter.ops_of_none {w : DBWriter} (h : w.batch = none) : w.ops = [] := by
  rw [ops, h]
  rfl

theorem groupOps_filter (ws : List DBWriter) :
    groupOps (ws.filter fun w => w.batch.isSome) = groupOps ws := by
  induction ws with
  | nil => rfl
  | cons w ws ih =>
    rw [filter_cons]
    cases hbatch : w.batch with
    | none => simp [ih, DBWriter.ops_of_none hbatch]
    | some ops => simp [ih]

/-- The loop of `BuildBatchGroup` collects the operations of the members. -/
theorem holds_batchGroupLoop {first : DBWriter} {maxSize : ℕ} (rest : List DBWriter) (size : ℕ)
    (tmp : Option WriteBatch) {ops : List Op} (htmp : (tmp.getD first.contents).Holds 0 ops)
    (hfirst : tmp = none → ops = first.ops) :
    ((batchGroupLoop first maxSize size tmp rest).1.getD first.contents).Holds 0
      (ops ++ groupOps (batchGroupLoop first maxSize size tmp rest).2) := by
  induction rest generalizing size tmp ops with
  | nil => simpa [batchGroupLoop] using htmp
  | cons w rest ih =>
    rw [batchGroupLoop]
    split
    · simpa using htmp
    split
    · rename_i hbatch
      simpa [DBWriter.ops_of_none hbatch] using ih size tmp htmp hfirst
    · dsimp only
      split
      · simpa using htmp
      · -- the batch of the first writer moves to `tmp_batch_` before another one is appended
        have hstart : (tmp.getD (WriteBatch.clear.append first.contents)).Holds 0 ops := by
          cases tmp with
          | none =>
            rw [hfirst rfl]
            exact WriteBatch.holds_clear.append (WriteBatch.holds_ofOps first.ops)
          | some b => exact htmp
        have happend := hstart.append (WriteBatch.holds_ofOps w.ops)
        rw [groupOps_cons, ← append_assoc]
        exact ih _ (some _) happend (by simp)

/-- **The batch of a group** holds the operations of its members in order. -/
theorem buildBatchGroup_holds (first : DBWriter) (rest : List DBWriter) :
    (buildBatchGroup first rest).1.Holds 0 (groupOps (first :: (buildBatchGroup first rest).2)) :=
  holds_batchGroupLoop rest _ none (WriteBatch.holds_ofOps first.ops) fun _ => rfl

theorem length_ops_le (w : DBWriter) : w.ops.length ≤ w.bytes := by
  cases hbatch : w.batch with
  | none => simp [DBWriter.ops_of_none hbatch]
  | some ops =>
    have hrep : w.contents.byteSize = _ := congrArg List.length (WriteBatch.holds_ofOps w.ops)
    grind [WriteBatch.length_le_flatMap_encode, DBWriter.bytes_of_some]

theorem length_groupOps_le (ws : List DBWriter) : (groupOps ws).length ≤ groupBytes ws := by
  induction ws with
  | nil => exact Nat.le_refl _
  | cons w ws ih =>
    grind [length_ops_le, groupOps_cons, groupBytes]

/-- A group has fewer than `2 ^ 31` records if its first batch has. -/
theorem length_groupOps_lt {first : DBWriter} {ws : List DBWriter} (h : InReach first ws)
    (hfirst : first.ops.length < 2 ^ 31) : (groupOps (first :: ws)).length < 2 ^ 31 := by
  have hlen := length_groupOps_le ws
  rw [groupOps_cons, length_append]
  rcases h.2 with hzero | hsize
  · omega
  · -- with another batch the group is at most a megabyte
    have hrep : first.ops.length ≤ first.contents.byteSize := by
      have hrep : first.contents.byteSize = _ :=
        congrArg List.length (WriteBatch.holds_ofOps first.ops)
      grind [WriteBatch.length_le_flatMap_encode]
    grind [maxGroupSize]

/-! ## Numbers -/

/-- The entries of a numbered batch. -/
def NumberedWrite.entries (x : NumberedWrite) : List Entry := batchEntries x.2 x.1.ops

theorem numberedWrites_append (seq : ℕ) (ws vs : List DBWriter) :
    numberedWrites seq (ws ++ vs) =
      numberedWrites seq ws ++ numberedWrites (seq + (groupOps ws).length) vs := by
  induction ws generalizing seq with
  | nil => rfl
  | cons w ws ih =>
    rw [cons_append, numberedWrites, numberedWrites]
    cases hbatch : w.batch with
    | none => simp [ih, DBWriter.ops_of_none hbatch]
    | some ops => simp [ih, DBWriter.ops, hbatch, Nat.add_assoc]

/-- The numbered batches of writers have the entries of their records in one. -/
theorem flatMap_entries_numberedWrites (seq : ℕ) (ws : List DBWriter) :
    (numberedWrites seq ws).flatMap NumberedWrite.entries = batchEntries seq (groupOps ws) := by
  induction ws generalizing seq with
  | nil => rfl
  | cons w ws ih =>
    rw [numberedWrites]
    cases hbatch : w.batch with
    | none => simp [ih, DBWriter.ops_of_none hbatch]
    | some ops =>
      simp [ih, NumberedWrite.entries, DBWriter.ops, hbatch, batchEntries_append]

/-- The numbers of a write are inside of those of its group. -/
theorem bounds_of_mem_numberedWrites {seq : ℕ} {ws : List DBWriter} {x : NumberedWrite}
    (h : x ∈ numberedWrites seq ws) :
    seq ≤ x.2 ∧ x.2 + x.1.ops.length ≤ seq + (groupOps ws).length := by
  induction ws generalizing seq with
  | nil => cases h
  | cons w ws ih =>
    grind [numberedWrites, DBWriter.ops, groupOps_cons]

/-- The records that groups of writers leave in the log, from the number `seq` on. -/
def groupRecords (seq : ℕ) : List (List DBWriter) → List Slice
  | [] => []
  | ws :: groups => batchRecord seq (groupOps ws) :: groupRecords (seq + (groupOps ws).length) groups

theorem groupRecords_append (seq : ℕ) (groups : List (List DBWriter)) (ws : List DBWriter) :
    groupRecords seq (groups ++ [ws]) =
      groupRecords seq groups ++ [batchRecord (seq + (groupOps groups.flatten).length)
        (groupOps ws)] := by
  induction groups generalizing seq with
  | nil => rfl
  | cons vs groups ih =>
    grind [groupRecords, groupOps_append]

theorem WriteBatch.Holds.rep_eq {b : WriteBatch} {n : ℕ} {ops : List Op}
    (h : b.Holds (UInt64.ofNat n) ops) : b.rep = batchRecord n ops :=
  h.trans (holds_batchRecord n ops).symm

theorem insertEntry_perm (ucmp : Comparator) (e : Entry) (es : List Entry) :
    (insertEntry ucmp e es).Perm (e :: es) := by
  induction es with
  | nil => exact .refl _
  | cons a es ih =>
    grind [insertEntry]

theorem insertInto_perm (ucmp : Comparator) (mem es : List Entry) :
    (insertInto ucmp mem es).Perm (mem ++ es) := by
  induction es generalizing mem with
  | nil =>
    rw [append_nil]
    exact .refl _
  | cons e es ih =>
    refine (ih (insertEntry ucmp e mem)).trans ?_
    grind [insertEntry_perm]

end RocketDb
