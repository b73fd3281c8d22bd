import RocketDb.Format.Coding
import RocketDb.Lib.Chains

/-! # The hash table of the cache (`HandleTable`, `util/cache.cc`)

`Insert` puts an entry in the place of the one with the same key, or at the end of its chain; the table is
rebuilt when it holds more entries than it has chains. -/

namespace RocketDb

/-- `LRUHandle`: the part of an entry that never changes. The `id` stands for its address; the
reference count and the flag `in_cache` are kept by the cache. -/
structure LRUHandle (V : Type) where
  id : ℕ
  key : Slice
  hash : UInt32
  value : V
  charge : UInt64

variable {V : Type}

/-- What `FindPointer` compares. -/
def LRUHandle.tag (h : LRUHandle V) : UInt32 × Slice := (h.hash, h.key)

/-- `HandleTable`. -/
structure HandleTable (V : Type) where
  length : ℕ
  elems : ℕ
  list : ℕ → List (LRUHandle V)

/-- The chain for a hash: `hash & (length_ - 1)`. -/
def bucket (length : ℕ) (tag : UInt32 × Slice) : ℕ := tag.1.toNat &&& (length - 1)

/-- The loop of `Resize` that finds the new length. It ends for up to `2 ^ 31` entries, beyond which
`uint32_t new_length` wraps to 0. -/
def growLength (elems : ℕ) : ℕ → ℕ → ℕ
  | 0, newLength => newLength
  | fuel + 1, newLength =>
    if newLength < elems then growLength elems fuel (newLength * 2) else newLength

/-- `Resize`: the chains are read in order, and each entry goes to the front of its new chain. -/
def HandleTable.resize (t : HandleTable V) : HandleTable V where
  length := growLength t.elems 29 4
  elems := t.elems
  list := Chains.rebuild LRUHandle.tag (bucket (growLength t.elems 29 4))
    (Chains.entries t.length t.list)

/-- The table of a new cache. -/
def HandleTable.new : HandleTable V := HandleTable.resize ⟨0, 0, fun _ => []⟩

/-- `Lookup`. -/
def HandleTable.lookup (t : HandleTable V) (key : Slice) (hash : UInt32) : Option (LRUHandle V) :=
  (t.list (bucket t.length (hash, key))).find? fun h => decide (h.tag = (hash, key))

/-- `Insert`: returns the entry that was replaced. -/
def HandleTable.insert (t : HandleTable V) (h : LRUHandle V) :
    Option (LRUHandle V) × HandleTable V :=
  let old := t.lookup h.key h.hash
  let list := Function.update t.list (bucket t.length h.tag)
    (Chains.put LRUHandle.tag h (t.list (bucket t.length h.tag)))
  match old with
  | some _ => (old, { t with list := list })
  | none =>
    let t : HandleTable V := { t with list := list, elems := t.elems + 1 }
    (old, if t.length < t.elems then t.resize else t)

/-- `Remove`: returns the entry that was removed. -/
def HandleTable.remove (t : HandleTable V) (key : Slice) (hash : UInt32) :
    Option (LRUHandle V) × HandleTable V :=
  match t.lookup key hash with
  | none => (none, t)
  | some h =>
    (some h,
      { t with
        list := Function.update t.list (bucket t.length (hash, key))
          ((t.list (bucket t.length (hash, key))).eraseP fun h => decide (h.tag = (hash, key)))
        elems := t.elems - 1 })

/-! ## The table as a set of entries -/

/-- The entry is in the table. -/
def HandleTable.Has (t : HandleTable V) (e : LRUHandle V) : Prop :=
  Chains.Has LRUHandle.tag (bucket t.length) t.list e

/-- The entries are in their chains, and `elems_` counts them. -/
structure HandleTable.Ok (t : HandleTable V) : Prop where
  pos : 0 < t.length
  placed : Chains.Placed LRUHandle.tag (bucket t.length) t.list
  elems_eq : t.elems = (Chains.entries t.length t.list).length

variable {t : HandleTable V} {e h : LRUHandle V} {key : Slice} {hash : UInt32}

theorem bucket_lt {length : ℕ} (hpos : 0 < length) (tag : UInt32 × Slice) :
    bucket length tag < length := by
  have hle : bucket length tag ≤ length - 1 := Nat.and_le_right
  omega

theorem LRUHandle.tag_eq_iff : e.tag = (hash, key) ↔ e.key = key ∧ e.hash = hash := by
  rw [tag, Prod.mk.injEq, and_comm]

theorem HandleTable.Ok.lookup_eq_some (ht : t.Ok) :
    t.lookup key hash = some e ↔ t.Has e ∧ e.key = key ∧ e.hash = hash := by
  rw [lookup, ht.placed.find?_eq_some, LRUHandle.tag_eq_iff, HandleTable.Has]

theorem HandleTable.Ok.lookup_eq_none (ht : t.Ok) :
    t.lookup key hash = none ↔ ∀ e, t.Has e → e.tag ≠ (hash, key) := by
  constructor
  · intro hnone e he htag
    rw [LRUHandle.tag_eq_iff] at htag
    rw [ht.lookup_eq_some.mpr ⟨he, htag⟩] at hnone
    cases hnone
  · intro hno
    cases hl : t.lookup key hash with
    | none => rfl
    | some e =>
      obtain ⟨he, htag⟩ := ht.lookup_eq_some.mp hl
      exact absurd (LRUHandle.tag_eq_iff.mpr htag) (hno e he)

theorem growLength_pos (elems fuel : ℕ) {newLength : ℕ} (hpos : 0 < newLength) :
    0 < growLength elems fuel newLength := by
  induction fuel generalizing newLength with
  | zero => exact hpos
  | succ fuel ih =>
    grind [growLength]

theorem le_growLength (elems fuel : ℕ) {newLength : ℕ} (hle : elems ≤ newLength * 2 ^ fuel) :
    elems ≤ growLength elems fuel newLength := by
  induction fuel generalizing newLength with
  | zero => simpa [growLength] using hle
  | succ fuel ih =>
    grind [growLength]

theorem HandleTable.resize_spec
    (hplaced : Chains.Placed LRUHandle.tag (bucket t.length) t.list)
    (helems : t.elems = (Chains.entries t.length t.list).length) :
    t.resize.Ok ∧ ∀ e, t.resize.Has e ↔ e ∈ Chains.entries t.length t.list := by
  have hpos : 0 < growLength t.elems 29 4 := growLength_pos _ _ (by decide)
  refine ⟨⟨hpos, Chains.placed_rebuild (hplaced.nodup_entries _), ?_⟩,
    fun e => Chains.has_rebuild⟩
  exact helems.trans (Chains.length_entries_rebuild (bucket_lt hpos) _).symm

theorem HandleTable.new_spec : (HandleTable.new : HandleTable V).Ok ∧
    ∀ e, ¬ (HandleTable.new : HandleTable V).Has e := by
  have h := resize_spec (t := (⟨0, 0, fun _ => []⟩ : HandleTable V))
    ⟨by simp, by simp⟩ rfl
  exact ⟨h.1, fun e he => by simpa [Chains.entries] using (h.2 e).mp he⟩

/-- **`Insert`** returns the entry with the same key and puts the new one in its place. -/
theorem HandleTable.Ok.insert_spec (ht : t.Ok) (h : LRUHandle V) :
    (t.insert h).1 = t.lookup h.key h.hash ∧ (t.insert h).2.Ok ∧
      ∀ e, (t.insert h).2.Has e ↔ e = h ∨ t.Has e ∧ e.tag ≠ h.tag := by
  obtain ⟨list, hlist⟩ : ∃ list, list = Function.update t.list (bucket t.length h.tag)
      (Chains.put LRUHandle.tag h (t.list (bucket t.length h.tag))) := ⟨_, rfl⟩
  have hplaced : Chains.Placed LRUHandle.tag (bucket t.length) list := hlist ▸ ht.placed.put h
  have hhas : ∀ e, Chains.Has LRUHandle.tag (bucket t.length) list e ↔
      e = h ∨ t.Has e ∧ e.tag ≠ h.tag := fun e => hlist ▸ ht.placed.has_put
  -- one entry more exactly if none was found
  have hcount : (Chains.entries t.length list).length =
      t.elems + if (t.lookup h.key h.hash).isNone then 1 else 0 := by
    have hupdate := Chains.length_entries_update (bucket_lt ht.pos h.tag) t.list
      (Chains.put LRUHandle.tag h (t.list (bucket t.length h.tag)))
    rw [← hlist, Chains.length_put] at hupdate
    have hlookup : (t.list (bucket t.length h.tag)).find? (fun b => decide (b.tag = h.tag)) =
        t.lookup h.key h.hash := rfl
    grind [Ok]
  unfold insert
  simp only [← hlist]
  cases hold : t.lookup h.key h.hash with
  | some old =>
    rw [hold] at hcount
    exact ⟨rfl, ⟨ht.pos, hplaced, by simpa using hcount.symm⟩, hhas⟩
  | none =>
    rw [hold] at hcount
    simp only
    have hcount' : t.elems + 1 = (Chains.entries t.length list).length := by simpa using hcount.symm
    split_ifs with hgrow
    · obtain ⟨hok, hmem⟩ := resize_spec
        (t := (⟨t.length, t.elems + 1, list⟩ : HandleTable V)) hplaced hcount'
      exact ⟨trivial, hok, fun e => (hmem e).trans
        ((hplaced.mem_entries (bucket_lt ht.pos)).trans (hhas e))⟩
    · exact ⟨trivial, ⟨ht.pos, hplaced, hcount'⟩, hhas⟩

/-- **`Remove`** returns the entry with the key and takes it out. -/
theorem HandleTable.Ok.remove_spec (ht : t.Ok) (key : Slice) (hash : UInt32) :
    (t.remove key hash).1 = t.lookup key hash ∧ (t.remove key hash).2.Ok ∧
      ∀ e, (t.remove key hash).2.Has e ↔ t.Has e ∧ e.tag ≠ (hash, key) := by
  unfold remove
  cases hl : t.lookup key hash with
  | none =>
    refine ⟨rfl, ht, fun e => ⟨fun he => ⟨he, ht.lookup_eq_none.mp hl e he⟩, fun he => he.1⟩⟩
  | some h =>
    refine ⟨rfl, ⟨ht.pos, ht.placed.eraseP _, ?_⟩, fun e => ht.placed.has_eraseP⟩
    grind [Chains.length_entries_update, bucket_lt, Ok, lookup]

theorem HandleTable.Ok.lookup_congr {t' : HandleTable V} (ht : t.Ok) (ht' : t'.Ok)
    (hsame : ∀ e, e.key = key → e.hash = hash → (t.Has e ↔ t'.Has e)) :
    t.lookup key hash = t'.lookup key hash := by
  refine Option.ext fun e => ?_
  rw [ht.lookup_eq_some, ht'.lookup_eq_some]
  grind

/-- The table never has more entries than chains, as long as the loop of `Resize` ends. -/
theorem HandleTable.insert_elems_le (hle : t.elems ≤ t.length) (hlt : t.elems < 2 ^ 31)
    (h : LRUHandle V) : (t.insert h).2.elems ≤ (t.insert h).2.length := by
  unfold insert
  cases t.lookup h.key h.hash with
  | some old => exact hle
  | none =>
    simp only
    split_ifs with hgrow
    · exact le_growLength _ _ (show t.elems + 1 ≤ 4 * 2 ^ 29 by omega)
    · exact not_lt.mp hgrow

theorem HandleTable.remove_elems_le (hle : t.elems ≤ t.length) (key : Slice) (hash : UInt32) :
    (t.remove key hash).2.elems ≤ (t.remove key hash).2.length := by
  grind [remove]

end RocketDb
