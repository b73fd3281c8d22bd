import RocketDb.Engine.Writes
import RocketDb.Format.Coding
import RocketDb.Util.Env

/-! # Write batches (`db/write_batch.cc`)

A write batch is a byte string: a sequence number, a count and the records. The log stores this string, and
both the write path and recovery walk over it to fill a memtable.

* **`WriteBatch.Holds b seq ops`** — the bytes of `b` are those of the records `ops` at sequence number `seq`.
  Every way to build a batch keeps it.
* **`Holds.iterate_eq`** — walking over the bytes of a batch gives its records back. -/

namespace RocketDb

open List

/-- `kHeader`: sequence number and count. -/
def kBatchHeader : ℕ := 12

/-- `WriteBatch`. -/
structure WriteBatch where
  rep : Slice
  deriving DecidableEq, Repr

/-- The tag of a record. -/
def ValueType.toByte (t : ValueType) : UInt8 := UInt8.ofNat t.toNat

/-- The bytes that `Put` and `Delete` append for a record. -/
def Op.encode : Op → Slice
  | .put key value =>
    ValueType.kTypeValue.toByte :: (putLengthPrefixedSlice key ++ putLengthPrefixedSlice value)
  | .delete key => ValueType.kTypeDeletion.toByte :: putLengthPrefixedSlice key

namespace WriteBatch

/-- An empty batch, as `Clear` leaves it. -/
def clear : WriteBatch := ⟨List.replicate kBatchHeader 0⟩

/-- `WriteBatchInternal::Count`. -/
def count (b : WriteBatch) : UInt32 := decodeFixed32 (b.rep.drop 8)

/-- `WriteBatchInternal::SetCount`. -/
def setCount (b : WriteBatch) (n : UInt32) : WriteBatch :=
  ⟨b.rep.take 8 ++ encodeFixed32 n ++ b.rep.drop kBatchHeader⟩

/-- `WriteBatchInternal::Sequence`. -/
def sequence (b : WriteBatch) : UInt64 := decodeFixed64 b.rep

/-- `WriteBatchInternal::SetSequence`. -/
def setSequence (b : WriteBatch) (seq : UInt64) : WriteBatch := ⟨encodeFixed64 seq ++ b.rep.drop 8⟩

/-- `WriteBatchInternal::ByteSize`. -/
def byteSize (b : WriteBatch) : ℕ := b.rep.length

/-- `WriteBatch::Put` or `WriteBatch::Delete`. -/
def add (b : WriteBatch) (op : Op) : WriteBatch := ⟨(b.setCount (b.count + 1)).rep ++ op.encode⟩

/-- `WriteBatchInternal::Append`. -/
def append (dst src : WriteBatch) : WriteBatch :=
  ⟨(dst.setCount (dst.count + src.count)).rep ++ src.rep.drop kBatchHeader⟩

/-- The batch a client fills with the records. -/
def ofOps (ops : List Op) : WriteBatch := ops.foldl add clear

/-- The loop of `Iterate`: the records handed over, and how it ended. Every round takes a byte, so the
length of the input is enough fuel. -/
def iterateLoop : ℕ → Slice → Status × List Op
  | _, [] => (.ok, [])
  | 0, _ :: _ => (.ok, [])
  | fuel + 1, tag :: input =>
    if tag = ValueType.kTypeValue.toByte then
      match getLengthPrefixedSlice input with
      | none => (.corruption (ascii "bad WriteBatch Put") [], [])
      | some (key, input) =>
        match getLengthPrefixedSlice input with
        | none => (.corruption (ascii "bad WriteBatch Put") [], [])
        | some (value, input) => ((iterateLoop fuel input).1, .put key value :: (iterateLoop fuel input).2)
    else if tag = ValueType.kTypeDeletion.toByte then
      match getLengthPrefixedSlice input with
      | none => (.corruption (ascii "bad WriteBatch Delete") [], [])
      | some (key, input) => ((iterateLoop fuel input).1, .delete key :: (iterateLoop fuel input).2)
    else (.corruption (ascii "unknow WriteBatch tag") [], [])

/-- `WriteBatch::Iterate`: the status, and the records the handler got. -/
def iterate (b : WriteBatch) : Status × List Op :=
  if b.rep.length < kBatchHeader then
    (.corruption (ascii "malformed WriteBatch (too small)") [], [])
  else
    let (s, ops) := iterateLoop b.rep.length (b.rep.drop kBatchHeader)
    if s.isOk && UInt32.ofNat ops.length != b.count then
      (.corruption (ascii "WriteBatch has woring count") [], ops)
    else (s, ops)

/-- `WriteBatchInternal::InsertInto`: the records go into the memtable from the batch's sequence number
on. -/
def insertInto (ucmp : Comparator) (b : WriteBatch) (mem : List Entry) : Status × List Entry :=
  (b.iterate.1, RocketDb.insertInto ucmp mem (batchEntries b.sequence.toNat b.iterate.2))

/-! ## What the bytes say -/

/-- **The bytes of the records** `ops` at sequence number `seq`. -/
def Holds (b : WriteBatch) (seq : UInt64) (ops : List Op) : Prop :=
  b.rep = encodeFixed64 seq ++ (encodeFixed32 (UInt32.ofNat ops.length) ++ ops.flatMap Op.encode)

variable {b dst src : WriteBatch} {seq seq' : UInt64} {ops ops' : List Op}

theorem holds_clear : clear.Holds 0 [] := rfl

section

variable (h : b.Holds seq ops)

include h

theorem Holds.count_eq : b.count = UInt32.ofNat ops.length := by
  rw [count, h, drop_left' (length_encodeFixed64 seq), decodeFixed32_encodeFixed32]

theorem Holds.drop_header : b.rep.drop kBatchHeader = ops.flatMap Op.encode := by
  rw [h, ← append_assoc]
  exact drop_left' rfl

theorem Holds.take_sequence : b.rep.take 8 = encodeFixed64 seq := by
  rw [h]
  exact take_left' rfl

/-- More records, with their count. -/
theorem Holds.setCount_append (more : List Op) :
    Holds ⟨(b.setCount (UInt32.ofNat ops.length + UInt32.ofNat more.length)).rep ++
      more.flatMap Op.encode⟩ seq (ops ++ more) := by
  rw [Holds, setCount, h.take_sequence, h.drop_header, length_append, UInt32.ofNat_add, flatMap_append]
  simp only [append_assoc]

theorem Holds.add (op : Op) : (b.add op).Holds seq (ops ++ [op]) := by
  have := h.setCount_append [op]
  rwa [flatMap_singleton, ← h.count_eq] at this

end

theorem Holds.append (h : dst.Holds seq ops) (h' : src.Holds seq' ops') :
    (dst.append src).Holds seq (ops ++ ops') := by
  have := h.setCount_append ops'
  rwa [← h'.drop_header, ← h.count_eq, ← h'.count_eq] at this

theorem Holds.setSequence (h : b.Holds seq ops) (seq' : UInt64) : (b.setSequence seq').Holds seq' ops := by
  rw [Holds, WriteBatch.setSequence, h, drop_left' (length_encodeFixed64 seq)]

theorem holds_ofOps (ops : List Op) : (ofOps ops).Holds 0 ops := by
  have hfold : ∀ (done : List Op) (b : WriteBatch), b.Holds 0 done →
      (ops.foldl WriteBatch.add b).Holds 0 (done ++ ops) := by
    induction ops with
    | nil =>
      intro done b h
      rwa [append_nil]
    | cons op ops ih =>
      intro done b h
      rw [append_cons]
      exact ih _ _ (h.add op)
  exact hfold [] clear holds_clear

theorem Holds.sequence_eq (h : b.Holds seq ops) : b.sequence = seq := by
  rw [sequence, h, decodeFixed64_encodeFixed64]

theorem Holds.byteSize_ge (h : b.Holds seq ops) : kBatchHeader ≤ b.byteSize := by
  rw [byteSize, h, ← append_assoc, length_append]
  exact Nat.le_add_right _ _

/-! ## Walking over the records -/

end WriteBatch

/-- The lengths of a record fit the length fields. -/
def Op.Fits : Op → Prop
  | .put key value => key.length < 2 ^ 32 ∧ value.length < 2 ^ 32
  | .delete key => key.length < 2 ^ 32

instance (op : Op) : Decidable op.Fits := by
  cases op <;> unfold Op.Fits <;> infer_instance

/-- The bytes are read as this record, whatever follows them. -/
inductive IsRecord : Slice → Op → Prop
  | put {k v key value : Slice} (hk : ∀ rest, getLengthPrefixedSlice (k ++ rest) = some (key, rest))
      (hv : ∀ rest, getLengthPrefixedSlice (v ++ rest) = some (value, rest)) :
      IsRecord (ValueType.kTypeValue.toByte :: (k ++ v)) (.put key value)
  | delete {k key : Slice} (hk : ∀ rest, getLengthPrefixedSlice (k ++ rest) = some (key, rest)) :
      IsRecord (ValueType.kTypeDeletion.toByte :: k) (.delete key)

/-- The bytes are those of the records, and the rest. -/
inductive Records : Slice → List Op → Slice → Prop
  | nil (rest : Slice) : Records rest [] rest
  | cons {record bytes rest : Slice} {op : Op} {ops : List Op} (hrecord : IsRecord record op)
      (hbytes : Records bytes ops rest) : Records (record ++ bytes) (op :: ops) rest

namespace WriteBatch

variable {b : WriteBatch} {seq : UInt64} {ops : List Op}

/-- `Iterate` hands on the records one by one. -/
theorem iterateLoop_of_records {bytes : Slice} (h : Records bytes ops []) {fuel : ℕ}
    (hfuel : bytes.length ≤ fuel) : iterateLoop fuel bytes = (.ok, ops) := by
  generalize hrest : ([] : Slice) = rest at h
  induction h generalizing fuel with
  | nil rest =>
    subst hrest
    cases fuel <;> rfl
  | cons hrecord hbytes ih =>
    cases hrecord with
    | put hk hv =>
      simp only [cons_append, length_cons, length_append] at hfuel
      obtain ⟨fuel, rfl⟩ : ∃ n, fuel = n + 1 := ⟨fuel - 1, by omega⟩
      grind [iterateLoop]
    | delete hk =>
      simp only [cons_append, length_cons, length_append] at hfuel
      obtain ⟨fuel, rfl⟩ : ∃ n, fuel = n + 1 := ⟨fuel - 1, by omega⟩
      have hloop : iterateLoop fuel _ = _ := ih (by omega) hrest
      rw [cons_append, iterateLoop, if_neg (by decide), if_pos rfl, hk]
      simp only [hloop]

theorem records_encode (hfits : ∀ op ∈ ops, op.Fits) : Records (ops.flatMap Op.encode) ops [] := by
  induction ops with
  | nil => exact .nil []
  | cons op ops ih =>
    rw [flatMap_cons]
    refine .cons ?_ (ih fun x hx => hfits x (mem_cons_of_mem _ hx))
    have hop := hfits op mem_cons_self
    cases op with
    | put key value => exact .put (getLengthPrefixedSlice_put hop.1) (getLengthPrefixedSlice_put hop.2)
    | delete key => exact .delete (getLengthPrefixedSlice_put hop)

theorem length_le_flatMap_encode (ops : List Op) : ops.length ≤ (ops.flatMap Op.encode).length := by
  induction ops with
  | nil => exact Nat.zero_le _
  | cons op ops ih =>
    rw [flatMap_cons, length_append, length_cons]
    have hpos : 0 < op.encode.length := by cases op <;> exact Nat.succ_pos _
    omega

/-- **`Iterate` hands on what was put in.** -/
theorem Holds.iterate_eq (h : b.Holds seq ops) (hfits : ∀ op ∈ ops, op.Fits) :
    b.iterate = (.ok, ops) := by
  have hlen := h.byteSize_ge
  rw [byteSize] at hlen
  have hloop : iterateLoop b.rep.length (b.rep.drop kBatchHeader) = (.ok, ops) := by
    refine iterateLoop_of_records (h.drop_header ▸ records_encode hfits) ?_
    rw [length_drop]
    exact Nat.sub_le _ _
  rw [iterate, if_neg (by omega), hloop, h.count_eq]
  simp

end WriteBatch

/-! ## Sequence numbers of 64 bits -/

theorem packSequenceAndType_mod (seq : ℕ) (t : ValueType) :
    packSequenceAndType (seq % 2 ^ 64) t = packSequenceAndType seq t := by
  have ht : t.toNat < 2 ^ 8 := by cases t <;> decide
  grind [packSequenceAndType, UInt64.toNat_inj, UInt64.toNat_ofNat',
    Nat.shiftLeft_add_eq_or_of_lt, Nat.shiftLeft_eq]

theorem Op.entry_mod (seq : ℕ) (op : Op) : op.entry (seq % 2 ^ 64) = op.entry seq := by
  cases op <;> simp only [entry, Entry.ofParts, InternalKey.ofParts, packSequenceAndType_mod]

/-- Numbers matter modulo `2 ^ 64`. -/
theorem batchEntries_congr {a c : ℕ} (h : a % 2 ^ 64 = c % 2 ^ 64) (ops : List Op) :
    batchEntries a ops = batchEntries c ops := by
  induction ops generalizing a c with
  | nil => rfl
  | cons op ops ih =>
    have hrest : batchEntries (a + 1) ops = batchEntries (c + 1) ops := ih (by omega)
    rw [batchEntries, batchEntries, ← op.entry_mod a, h, op.entry_mod c, hrest]

theorem batchEntries_append (seq : ℕ) (ops ops' : List Op) :
    batchEntries seq (ops ++ ops') = batchEntries seq ops ++ batchEntries (seq + ops.length) ops' := by
  induction ops generalizing seq with
  | nil => rfl
  | cons op ops ih =>
    grind [batchEntries]

/-- **A batch fills the memtable** with its records from the given number on. -/
theorem WriteBatch.Holds.insertInto_eq {b : WriteBatch} {n : ℕ} {ops : List Op}
    (h : b.Holds (UInt64.ofNat n) ops) (hfits : ∀ op ∈ ops, op.Fits) (ucmp : Comparator)
    (mem : List Entry) :
    b.insertInto ucmp mem = (.ok, RocketDb.insertInto ucmp mem (batchEntries n ops)) := by
  rw [insertInto, h.iterate_eq hfits, h.sequence_eq, UInt64.toNat_ofNat',
    batchEntries_congr (Nat.mod_mod n _)]

/-! ## Records of a log -/

/-- The bytes of a write group, as they are appended to the log. -/
def batchRecord (seq : ℕ) (ops : List Op) : Slice :=
  ((WriteBatch.ofOps ops).setSequence (UInt64.ofNat seq)).rep

theorem holds_batchRecord (n : ℕ) (ops : List Op) :
    (⟨batchRecord n ops⟩ : WriteBatch).Holds (UInt64.ofNat n) ops :=
  (WriteBatch.holds_ofOps ops).setSequence _

theorem kBatchHeader_le_length (n : ℕ) (ops : List Op) :
    ¬ (batchRecord n ops).length < kBatchHeader :=
  not_lt.mpr (holds_batchRecord n ops).byteSize_ge

end RocketDb
