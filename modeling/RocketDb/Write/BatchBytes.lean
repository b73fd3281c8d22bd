import RocketDb.Write.Batch

/-! # Batches and arbitrary bytes (`WriteBatch::Iterate`)

`Iterate` also meets bytes that no batch wrote. It reads them as records as far as it can, and compares their
number with the count of the header. **The number is an `int`**: of `2 ^ 32` records it has seen none.

* **`BatchExpr`** — the ways to build a batch.
* **`iterateLoop_records`** — the loop of `Iterate` reads records, and nothing else.
* **`writeBatch_spec`** — what `Iterate` returns for built batches and for all byte strings. -/

namespace RocketDb

open List

namespace WriteBatch

/-- `WriteBatchInternal::Contents`. -/
def contents (b : WriteBatch) : Slice := b.rep

/-- `WriteBatchInternal::SetContents`. -/
def setContents (_ : WriteBatch) (contents : Slice) : WriteBatch := ⟨contents⟩

end WriteBatch

/-! ## Built batches -/

/-- A batch that a client builds. -/
inductive BatchExpr where
  | empty
  | put (b : BatchExpr) (key value : Slice)
  | delete (b : BatchExpr) (key : Slice)
  | append (dst src : BatchExpr)

namespace BatchExpr

/-- The batch. -/
def build : BatchExpr → WriteBatch
  | empty => .clear
  | put b key value => b.build.add (.put key value)
  | delete b key => b.build.add (.delete key)
  | append dst src => dst.build.append src.build

/-- The operations on it, in order. -/
def ops : BatchExpr → List Op
  | empty => []
  | put b key value => b.ops ++ [.put key value]
  | delete b key => b.ops ++ [.delete key]
  | append dst src => dst.ops ++ src.ops

theorem holds_build (e : BatchExpr) : e.build.Holds 0 e.ops := by
  induction e with
  | empty => exact WriteBatch.holds_clear
  | put b key value ih => exact ih.add _
  | delete b key ih => exact ih.add _
  | append dst src ihdst ihsrc => exact ihdst.append ihsrc

end BatchExpr

theorem toInt_toInt32_ofNat {n : ℕ} (hn : n < 2 ^ 31) : (UInt32.ofNat n).toInt32.toInt = n := by
  have hmsb : 2 * (UInt32.ofNat n).toBitVec.toNat < 2 ^ 32 := by
    rw [UInt32.toBitVec_ofNat', BitVec.toNat_ofNat]
    omega
  change (UInt32.ofNat n).toBitVec.toInt = n
  grind [UInt32.toBitVec_ofNat']

theorem batchEntries_eq_mapIdx (seq : ℕ) (ops : List Op) :
    batchEntries seq ops = ops.mapIdx fun i op => op.entry (seq + i) := by
  induction ops generalizing seq with
  | nil => rfl
  | cons op ops ih =>
    grind [batchEntries]

/-- The user key, type and value of an operation, as `MemTableInserter` passes them on. -/
def Op.parts : Op → Slice × ValueType × Slice
  | .put key value => (key, .kTypeValue, value)
  | .delete key => (key, .kTypeDeletion, [])

/-- **The key that an operation is inserted with**, for the sequence numbers that fit into 56 bits. -/
theorem Op.parse_entry {seq : ℕ} (hseq : seq ≤ kMaxSequenceNumber) (op : Op) :
    parseInternalKey (op.entry seq).key = some ⟨op.parts.1, seq, op.parts.2.1⟩ := by
  cases op <;> exact parseInternalKey_ofParts hseq _ _

/-- No other sequence number comes back. -/
theorem Op.sequence_entry_iff {seq : ℕ} (op : Op) :
    (op.entry seq).key.sequence = seq ↔ seq ≤ kMaxSequenceNumber := by
  refine ⟨fun h => ?_, fun h => (parseInternalKey_eq_some.mp (op.parse_entry h)).2.1.symm⟩
  have hlt := (op.entry seq).key.tag.toNat_lt
  rw [InternalKey.sequence] at h
  rw [kMaxSequenceNumber]
  omega

/-! ## Records in arbitrary bytes -/

namespace WriteBatch

/-- **The loop of `Iterate`** has one result for all sufficient fuel. It hands over the records at the
front of the bytes, and ends well only at the end of the bytes. -/
theorem iterateLoop_records (n : ℕ) {input : Slice} (hn : input.length ≤ n) :
    ∃ r rest, Records input r.2 rest ∧ (r.1.isOk = true → rest = []) ∧
      ∀ fuel, input.length ≤ fuel → iterateLoop fuel input = r := by
  have hnil : ∃ r rest, Records [] r.2 rest ∧ (r.1.isOk = true → rest = []) ∧
      ∀ fuel, ([] : Slice).length ≤ fuel → iterateLoop fuel [] = r :=
    ⟨(.ok, []), [], .nil [], fun _ => rfl, fun fuel _ => by cases fuel <;> rfl⟩
  induction n generalizing input with
  | zero =>
    simp_all
  | succ n ih =>
    cases input with
    | nil => exact hnil
    | cons tag input =>
      have hpos : ∀ {fuel}, (tag :: input).length ≤ fuel → ∃ k, fuel = k + 1 ∧ input.length ≤ k :=
        fun {fuel} h => ⟨fuel - 1, by rw [length_cons] at h; omega,
          by rw [length_cons] at h; omega⟩
      -- after an error nothing more is handed over
      have hbad (msg : Slice)
          (hloop : ∀ k, iterateLoop (k + 1) (tag :: input) = (.corruption msg [], [])) :
          ∃ r rest, Records (tag :: input) r.2 rest ∧ (r.1.isOk = true → rest = []) ∧
            ∀ fuel, (tag :: input).length ≤ fuel → iterateLoop fuel (tag :: input) = r := by
        refine ⟨(.corruption msg [], []), _, .nil _, nofun, fun fuel hfuel => ?_⟩
        obtain ⟨k, rfl, -⟩ := hpos hfuel
        exact hloop k
      rw [length_cons] at hn
      by_cases hvalue : tag = ValueType.kTypeValue.toByte
      · cases hk : getLengthPrefixedSlice input with
        | none => exact hbad _ fun k => by rw [iterateLoop, if_pos hvalue, hk]
        | some kr =>
          obtain ⟨key, input₁⟩ := kr
          cases hv : getLengthPrefixedSlice input₁ with
          | none =>
            refine hbad (ascii "bad WriteBatch Put") fun k => ?_
            grind [iterateLoop]
          | some vr =>
            obtain ⟨value, input₂⟩ := vr
            have hlen := (length_getLengthPrefixedSlice hv).trans (length_getLengthPrefixedSlice hk)
            obtain ⟨r, rest, hrest, hend, hloop⟩ := ih (by omega : input₂.length ≤ n)
            refine ⟨(r.1, .put key value :: r.2), rest, ?_, hend, fun fuel hfuel => ?_⟩
            · obtain ⟨k, rfl, hkey⟩ := getLengthPrefixedSlice_front hk
              obtain ⟨v, rfl, hval⟩ := getLengthPrefixedSlice_front hv
              rw [hvalue, ← append_assoc, ← cons_append]
              exact .cons (.put hkey hval) hrest
            · grind [iterateLoop]
      by_cases hdelete : tag = ValueType.kTypeDeletion.toByte
      · cases hk : getLengthPrefixedSlice input with
        | none => exact hbad _ fun k => by rw [iterateLoop, if_neg hvalue, if_pos hdelete, hk]
        | some kr =>
          obtain ⟨key, input₁⟩ := kr
          have hlen := length_getLengthPrefixedSlice hk
          obtain ⟨r, rest, hrest, hend, hloop⟩ := ih (by omega : input₁.length ≤ n)
          refine ⟨(r.1, .delete key :: r.2), rest, ?_, hend, fun fuel hfuel => ?_⟩
          · obtain ⟨k, rfl, hkey⟩ := getLengthPrefixedSlice_front hk
            rw [hdelete, ← cons_append]
            exact .cons (.delete hkey) hrest
          · grind [iterateLoop]
      · exact hbad _ fun k => by rw [iterateLoop, if_neg hvalue, if_neg hdelete]

/-- What is wanted of `Iterate` on any bytes. -/
structure IterateSound (b : WriteBatch) : Prop where
  /-- It hands over records from the front of what follows the header, and returns OK only if nothing is
  left over. -/
  records : ∃ rest, Records (b.rep.drop kBatchHeader) b.iterate.2 rest ∧
    (b.iterate.1.isOk = true → kBatchHeader ≤ b.rep.length ∧ rest = [])
  /-- More rounds than there are bytes make no difference. -/
  terminates : ∀ fuel, b.rep.length ≤ fuel → iterateLoop fuel (b.rep.drop kBatchHeader) =
    iterateLoop b.rep.length (b.rep.drop kBatchHeader)
  /-- It returns OK only if the number of the records is the count. -/
  count_eq : b.iterate.1.isOk = true → b.iterate.2.length = b.count.toNat

/-- **`Iterate` is right about all bytes but those of too many records**, whose number is the count modulo
`2 ^ 32`. -/
theorem iterateSound_iff (b : WriteBatch) :
    b.IterateSound ↔ ¬ ∃ ops, Records (b.rep.drop kBatchHeader) ops [] ∧
      b.count.toNat < ops.length ∧ ops.length % 2 ^ 32 = b.count.toNat := by
  have hdrop : (b.rep.drop kBatchHeader).length ≤ b.rep.length := by
    rw [length_drop]
    exact Nat.sub_le _ _
  obtain ⟨r, rest, hrecords, hend, hloop⟩ := iterateLoop_records _ hdrop
  have hterm : ∀ fuel, b.rep.length ≤ fuel → iterateLoop fuel (b.rep.drop kBatchHeader) = r :=
    fun fuel hfuel => hloop fuel (hdrop.trans hfuel)
  by_cases hshort : b.rep.length < kBatchHeader
  · -- nothing is read, and there is nothing to be read
    have hiter : b.iterate = (.corruption (ascii "malformed WriteBatch (too small)") [], []) := by
      rw [iterate, if_pos hshort]
    have hempty : b.rep.drop kBatchHeader = [] := drop_eq_nil_of_le hshort.le
    refine iff_of_true ⟨?_, fun fuel hfuel => by rw [hterm fuel hfuel, hterm _ le_rfl], ?_⟩ ?_
    · rw [hiter]
      exact ⟨_, .nil _, fun h => by cases h⟩
    · rw [hiter]
      exact fun h => by cases h
    · rintro ⟨ops, hops, hlt, -⟩
      rw [hempty] at hops
      have hnone := iterateLoop_of_records hops (Nat.le_refl 0)
      rw [← (Prod.mk.inj hnone).2] at hlt
      exact Nat.not_lt_zero _ hlt
  · have hiter : b.iterate = if r.1.isOk && UInt32.ofNat r.2.length != b.count then
        (.corruption (ascii "WriteBatch has woring count") [], r.2) else r := by
      rw [iterate, if_neg hshort, hterm _ le_rfl]
    have hsecond : b.iterate.2 = r.2 := by
      rw [hiter]
      split_ifs <;> rfl
    -- OK means that the loop ended well and the numbers agree modulo `2 ^ 32`
    have hok : b.iterate.1.isOk = true ↔ r.1.isOk = true ∧ r.2.length % 2 ^ 32 = b.count.toNat := by
      have heq : (UInt32.ofNat r.2.length != b.count) = false ↔ r.2.length % 2 ^ 32 = b.count.toNat := by
        rw [bne_eq_false_iff_eq, ← UInt32.toNat_inj, UInt32.toNat_ofNat']
      rw [hiter, ← heq]
      cases hgood : r.1.isOk <;> cases UInt32.ofNat r.2.length != b.count <;> simp [hgood]
    constructor
    · rintro ⟨-, -, hcount⟩ ⟨ops, hops, hlt, hmod⟩
      have hr : r = (.ok, ops) := (hterm _ le_rfl).symm.trans (iterateLoop_of_records hops hdrop)
      simp_all
    · intro hnot
      refine ⟨⟨rest, hsecond ▸ hrecords, fun h => ⟨not_lt.mp hshort, hend (hok.mp h).1⟩⟩,
        fun fuel hfuel => by rw [hterm fuel hfuel, hterm _ le_rfl], fun h => ?_⟩
      grind

end WriteBatch

theorem replicate_zero_eq_encode (n : ℕ) :
    List.replicate (2 * n) 0 = (List.replicate n (Op.delete [])).flatMap Op.encode := by
  induction n with
  | zero => rfl
  | succ n ih =>
    rw [Nat.mul_succ, replicate_succ, replicate_succ, replicate_succ, flatMap_cons, ← ih]
    rfl

/-- Zeros are a batch of deletions of the empty key, if their number is lost in the count. -/
theorem holds_replicate_zero {n : ℕ} (hn : UInt32.ofNat n = 0) :
    (⟨List.replicate (kBatchHeader + 2 * n) 0⟩ : WriteBatch).Holds 0 (List.replicate n (.delete [])) := by
  rw [WriteBatch.Holds, length_replicate, hn, ← replicate_zero_eq_encode, replicate_add]
  rfl

end RocketDb
