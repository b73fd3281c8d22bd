import RocketDb.Format.InternalComparator
import RocketDb.Version.Edit
import Mathlib.Data.Prod.Lex

/-! # The bytes of a version edit (`db/version_edit.cc`)

An **edit object** keeps what the class of the source keeps, keys as byte strings of any length and a sorted
set of deleted files, and decoding starts from an object in any state.

* **`decodeLoop_fields`** — the loop applies the encoded fields one after the other.
* **`decodeFrom_encodeTo_iff`** — an edit comes back if its strings fit their length fields, and the object's
  `has_next_file_number_` was not set unless the edit sets it.
* **`EditObject.decodeFrom_toEdit`** — this decoder and `VersionEdit.decodeFrom` agree. -/

namespace RocketDb

open List

/-! ## Objects -/

/-- A new file, with its keys as byte strings. -/
structure RawFile where
  number : UInt64
  fileSize : UInt64
  smallest : Slice
  largest : Slice
  deriving DecidableEq, Repr

/-- The order of `std::pair`. -/
def pairLt (x y : ℕ × UInt64) : Prop := x.1 < y.1 ∨ x.1 = y.1 ∧ x.2 < y.2

instance (x y : ℕ × UInt64) : Decidable (pairLt x y) :=
  inferInstanceAs (Decidable (x.1 < y.1 ∨ x.1 = y.1 ∧ x.2 < y.2))

/-- **An object of class `VersionEdit`.** A number with its flag is an option: `Clear` and the setters
keep a number at zero while its flag is not set. -/
@[ext]
structure EditObject where
  comparator : Option Slice := none
  logNumber : Option UInt64 := none
  prevLogNumber : Option UInt64 := none
  nextFileNumber : Option UInt64 := none
  lastSequence : Option UInt64 := none
  compactPointers : List (ℕ × Slice) := []
  /-- A `std::set`, in its order. -/
  deletedFiles : List (ℕ × UInt64) := []
  deletedSorted : deletedFiles.Pairwise pairLt := by decide
  newFiles : List (ℕ × RawFile) := []
  deriving DecidableEq

/-- `Clear`: the flag of the next file number is not touched, the number is set to zero. -/
def EditObject.clear (o : EditObject) : EditObject where
  nextFileNumber := o.nextFileNumber.map fun _ => 0

/-! ## Encoding -/

/-- An optional number after its tag. -/
def putOptional64 (field : Option UInt64) (tag : Tag) : Slice :=
  match field with
  | none => []
  | some n => putTag tag ++ putVarint64 n

/-- **`EncodeTo`**. -/
def EditObject.encodeTo (e : EditObject) : Slice :=
  (match e.comparator with
    | none => []
    | some name => putTag .kComparator ++ putLengthPrefixedSlice name) ++
  putOptional64 e.logNumber .kLogNumber ++
  putOptional64 e.prevLogNumber .kPrevLogNumber ++
  putOptional64 e.nextFileNumber .kNextFileNumber ++
  putOptional64 e.lastSequence .kLastSequence ++
  (e.compactPointers.flatMap fun (level, key) =>
    putTag .kCompactPointer ++ putLevel level ++ putLengthPrefixedSlice key) ++
  (e.deletedFiles.flatMap fun (level, number) =>
    putTag .kDeleteFile ++ putLevel level ++ putVarint64 number) ++
  e.newFiles.flatMap fun (level, f) =>
    putTag .kNewFile ++ putLevel level ++ putVarint64 f.number ++ putVarint64 f.fileSize ++
      putLengthPrefixedSlice f.smallest ++ putLengthPrefixedSlice f.largest

/-! ## Decoding -/

/-- A field of an edit. -/
inductive Field where
  | comparator (name : Slice)
  | logNumber (n : UInt64)
  | prevLogNumber (n : UInt64)
  | nextFileNumber (n : UInt64)
  | lastSequence (n : UInt64)
  | compactPointer (level : ℕ) (key : Slice)
  | deleteFile (level : ℕ) (number : UInt64)
  | newFile (level : ℕ) (f : RawFile)
  deriving DecidableEq

/-- Insertion into a `std::set` of pairs. -/
def insertPair (x : ℕ × UInt64) : List (ℕ × UInt64) → List (ℕ × UInt64)
  | [] => [x]
  | y :: ys => if pairLt x y then x :: y :: ys else if x = y then y :: ys else y :: insertPair x ys

theorem pairLt_trans {x y z : ℕ × UInt64} (h : pairLt x y) (h' : pairLt y z) : pairLt x z := by
  rcases h with h | ⟨h₁, h₂⟩
  · rcases h' with h' | ⟨h₁', -⟩
    · exact Or.inl (h.trans h')
    · exact Or.inl (h₁' ▸ h)
  · rcases h' with h' | ⟨h₁', h₂'⟩
    · exact Or.inl (h₁ ▸ h')
    · exact Or.inr ⟨h₁.trans h₁', UInt64.lt_trans h₂ h₂'⟩

theorem pairLt_or {x y : ℕ × UInt64} (h : ¬ pairLt x y) (hne : x ≠ y) : pairLt y x := by
  rcases Nat.lt_trichotomy x.1 y.1 with hlt | heq | hgt
  · exact absurd (Or.inl hlt) h
  · rcases UInt64.lt_or_le x.2 y.2 with h₂ | h₂
    · exact absurd (Or.inr ⟨heq, h₂⟩) h
    · exact Or.inr ⟨heq.symm, UInt64.lt_of_le_of_ne h₂ fun he => hne (Prod.ext heq he.symm)⟩
  · exact Or.inl hgt

theorem mem_insertPair {x z : ℕ × UInt64} {ys : List (ℕ × UInt64)} (h : z ∈ insertPair x ys) :
    z = x ∨ z ∈ ys := by
  induction ys with
  | nil => exact Or.inl (mem_singleton.mp h)
  | cons y ys ih =>
    grind [insertPair]

/-- The set of deleted files stays sorted. -/
theorem insertPair_sorted (x : ℕ × UInt64) {ys : List (ℕ × UInt64)} (h : ys.Pairwise pairLt) :
    (insertPair x ys).Pairwise pairLt := by
  induction ys with
  | nil => exact pairwise_singleton _ _
  | cons y ys ih =>
    obtain ⟨hy, hys⟩ := pairwise_cons.mp h
    rw [insertPair]
    split_ifs with hlt heq
    · refine pairwise_cons.mpr ⟨fun z hz => ?_, h⟩
      grind [pairLt_trans]
    · exact h
    · refine pairwise_cons.mpr ⟨fun z hz => ?_, ih hys⟩
      grind [mem_insertPair, pairLt_or]

/-- What a field does to the object. -/
def Field.apply (o : EditObject) : Field → EditObject
  | .comparator name => { o with comparator := some name }
  | .logNumber n => { o with logNumber := some n }
  | .prevLogNumber n => { o with prevLogNumber := some n }
  | .nextFileNumber n => { o with nextFileNumber := some n }
  | .lastSequence n => { o with lastSequence := some n }
  | .compactPointer level key => { o with compactPointers := o.compactPointers ++ [(level, key)] }
  | .deleteFile level number =>
    { o with
      deletedFiles := insertPair (level, number) o.deletedFiles
      deletedSorted := insertPair_sorted (level, number) o.deletedSorted }
  | .newFile level f => { o with newFiles := o.newFiles ++ [(level, f)] }

/-- `GetInternalKey`: any byte string but the empty one. -/
def getRawKey (input : Slice) : Option (Slice × Slice) :=
  match getLengthPrefixedSlice input with
  | none => none
  | some (str, input) => if str = [] then none else some (str, input)

/-- The level, numbers and keys of a new file. -/
def getRawFile (input : Slice) : Option ((ℕ × RawFile) × Slice) := do
  let (level, input) ← getLevel input
  let (number, input) ← getVarint64 input
  let (fileSize, input) ← getVarint64 input
  let (smallest, input) ← getRawKey input
  let (largest, input) ← getRawKey input
  some ((level, ⟨number, fileSize, smallest, largest⟩), input)

/-- The field after a tag, and the rest of the input. -/
def readField : Tag → Slice → Option (Field × Slice)
  | .kComparator, p => (getLengthPrefixedSlice p).map fun (name, p) => (.comparator name, p)
  | .kLogNumber, p => (getVarint64 p).map fun (n, p) => (.logNumber n, p)
  | .kPrevLogNumber, p => (getVarint64 p).map fun (n, p) => (.prevLogNumber n, p)
  | .kNextFileNumber, p => (getVarint64 p).map fun (n, p) => (.nextFileNumber n, p)
  | .kLastSequence, p => (getVarint64 p).map fun (n, p) => (.lastSequence n, p)
  | .kCompactPointer, p => do
    let (level, p) ← getLevel p
    let (key, p) ← getRawKey p
    some (.compactPointer level key, p)
  | .kDeleteFile, p => do
    let (level, p) ← getLevel p
    let (number, p) ← getVarint64 p
    some (.deleteFile level number, p)
  | .kNewFile, p => (getRawFile p).map fun (x, p) => (.newFile x.1 x.2, p)

/-- The loop of `DecodeFrom`: the object so far and the message of the first error. -/
def EditObject.decodeLoop : ℕ → EditObject → Slice → EditObject × Option Slice
  | 0, o, _ => (o, none)
  | fuel + 1, o, input =>
    match getVarint32 input with
    | none => (o, if input = [] then none else some (ascii "invalid tag"))
    | some (n, input) =>
      match Tag.ofNat? n.toNat with
      | none => (o, some (ascii "unknow tag"))
      | some tag =>
        match readField tag input with
        | none => (o, some tag.message)
        | some (field, input) => decodeLoop fuel (field.apply o) input

/-- **`DecodeFrom`**: the status, and what the object holds afterwards. -/
def EditObject.decodeFrom (o : EditObject) (src : Slice) : Status × EditObject :=
  match decodeLoop (src.length + 1) o.clear src with
  | (o, none) => (.ok, o)
  | (o, some msg) => (.corruption (ascii "VersionEdit") msg, o)

/-! ## An edit as a list of fields -/

/-- The tag of a field. -/
def Field.tag : Field → Tag
  | .comparator _ => .kComparator
  | .logNumber _ => .kLogNumber
  | .prevLogNumber _ => .kPrevLogNumber
  | .nextFileNumber _ => .kNextFileNumber
  | .lastSequence _ => .kLastSequence
  | .compactPointer _ _ => .kCompactPointer
  | .deleteFile _ _ => .kDeleteFile
  | .newFile _ _ => .kNewFile

/-- The bytes of a field after its tag. -/
def Field.body : Field → Slice
  | .comparator name => putLengthPrefixedSlice name
  | .logNumber n => putVarint64 n
  | .prevLogNumber n => putVarint64 n
  | .nextFileNumber n => putVarint64 n
  | .lastSequence n => putVarint64 n
  | .compactPointer level key => putLevel level ++ putLengthPrefixedSlice key
  | .deleteFile level number => putLevel level ++ putVarint64 number
  | .newFile level f =>
    putLevel level ++ (putVarint64 f.number ++ (putVarint64 f.fileSize ++
      (putLengthPrefixedSlice f.smallest ++ putLengthPrefixedSlice f.largest)))

/-- The bytes of a field. -/
def Field.encode (f : Field) : Slice := putTag f.tag ++ f.body

/-- The fields of an edit, in the order of `EncodeTo`. -/
def EditObject.fields (e : EditObject) : List Field :=
  (e.comparator.map Field.comparator).toList ++ ((e.logNumber.map Field.logNumber).toList ++
    ((e.prevLogNumber.map Field.prevLogNumber).toList ++
      ((e.nextFileNumber.map Field.nextFileNumber).toList ++
        ((e.lastSequence.map Field.lastSequence).toList ++
          (e.compactPointers.map (fun x => Field.compactPointer x.1 x.2) ++
            (e.deletedFiles.map (fun x => Field.deleteFile x.1 x.2) ++
              e.newFiles.map fun x => Field.newFile x.1 x.2))))))

theorem flatMap_optional64 (field : Option UInt64) (F : UInt64 → Field) (tag : Tag)
    (h : ∀ n, (F n).encode = putTag tag ++ putVarint64 n) :
    (field.map F).toList.flatMap Field.encode = putOptional64 field tag := by
  cases field with
  | none => rfl
  | some n => rw [Option.map_some, Option.toList_some, flatMap_singleton, h]; rfl

/-- **An edit is written field by field.** -/
theorem EditObject.encodeTo_eq (e : EditObject) : e.encodeTo = e.fields.flatMap Field.encode := by
  have hcomparator : (e.comparator.map Field.comparator).toList.flatMap Field.encode =
      match e.comparator with
      | none => []
      | some name => putTag .kComparator ++ putLengthPrefixedSlice name := by
    cases e.comparator with
    | none => rfl
    | some name => exact flatMap_singleton _ _
  simp only [fields, flatMap_append, hcomparator,
    flatMap_optional64 _ Field.logNumber .kLogNumber fun _ => rfl,
    flatMap_optional64 _ Field.prevLogNumber .kPrevLogNumber fun _ => rfl,
    flatMap_optional64 _ Field.nextFileNumber .kNextFileNumber fun _ => rfl,
    flatMap_optional64 _ Field.lastSequence .kLastSequence fun _ => rfl,
    flatMap_map, encodeTo, Field.encode, Field.tag, Field.body, append_assoc]

/-! ## Reading a field back -/

/-- A field that comes back: a level that exists, keys that are not empty, lengths that fit. -/
def Field.Fits : Field → Prop
  | .comparator name => name.length < 2 ^ 32
  | .compactPointer level key => level < kNumLevels ∧ key ≠ [] ∧ key.length < 2 ^ 32
  | .deleteFile level _ => level < kNumLevels
  | .newFile level f =>
    level < kNumLevels ∧ (f.smallest ≠ [] ∧ f.smallest.length < 2 ^ 32) ∧
      (f.largest ≠ [] ∧ f.largest.length < 2 ^ 32)
  | _ => True

theorem getLevel_putLevel {level : ℕ} (h : level < kNumLevels) (rest : Slice) :
    getLevel (putLevel level ++ rest) = some (level, rest) := by
  grind [UInt32.toNat_ofNat', kNumLevels, getLevel, putLevel, getVarint32_putVarint32]

theorem getRawKey_put {key : Slice} (hne : key ≠ []) (h : key.length < 2 ^ 32) (rest : Slice) :
    getRawKey (putLengthPrefixedSlice key ++ rest) = some (key, rest) := by
  rw [getRawKey, getLengthPrefixedSlice_put h]
  simp only [if_neg hne]

/-- The body of a field is read back. -/
theorem readField_body {f : Field} (h : f.Fits) (rest : Slice) :
    readField f.tag (f.body ++ rest) = some (f, rest) := by
  cases f with
  | comparator name =>
    simp only [Field.tag, Field.body, readField, getLengthPrefixedSlice_put h, Option.map_some]
  | compactPointer level key =>
    simp only [Field.tag, Field.body, readField, append_assoc, getLevel_putLevel h.1,
      getRawKey_put h.2.1 h.2.2, Option.bind_eq_bind, Option.bind_some]
  | deleteFile level number =>
    simp only [Field.tag, Field.body, readField, append_assoc, getLevel_putLevel h,
      getVarint64_putVarint64, Option.bind_eq_bind, Option.bind_some]
  | newFile level f =>
    obtain ⟨hlevel, ⟨hs, hs'⟩, hl, hl'⟩ := h
    simp only [Field.tag, Field.body, readField, getRawFile, append_assoc,
      getLevel_putLevel hlevel, getVarint64_putVarint64, getRawKey_put hs hs', getRawKey_put hl hl',
      Option.bind_eq_bind, Option.bind_some, Option.map_some]
  | _ n => simp only [Field.tag, Field.body, readField, getVarint64_putVarint64, Option.map_some]

theorem Tag.ofNat?_toNat (t : Tag) : Tag.ofNat? (UInt32.ofNat t.toNat).toNat = some t := by
  cases t <;> rfl

namespace EditObject

/-- A round of the loop takes one field. -/
theorem decodeLoop_field {f : Field} (h : f.Fits) (fuel : ℕ) (o : EditObject) (rest : Slice) :
    decodeLoop (fuel + 1) o (f.encode ++ rest) = decodeLoop fuel (f.apply o) rest := by
  rw [decodeLoop, Field.encode, append_assoc, putTag, getVarint32_putVarint32]
  simp only [Tag.ofNat?_toNat, readField_body h]

/-- The loop takes all fields and then stops. -/
theorem decodeLoop_fields {fs : List Field} (h : ∀ f ∈ fs, f.Fits) {fuel : ℕ}
    (hfuel : fs.length < fuel) (o : EditObject) :
    decodeLoop fuel o (fs.flatMap Field.encode) = (fs.foldl Field.apply o, none) := by
  induction fs generalizing fuel o with
  | nil =>
    obtain ⟨fuel, rfl⟩ := Nat.exists_eq_succ_of_ne_zero (show fuel ≠ 0 by omega)
    rfl
  | cons f fs ih =>
    obtain ⟨fuel, rfl⟩ := Nat.exists_eq_succ_of_ne_zero (show fuel ≠ 0 by omega)
    grind [decodeLoop_field]

/-! ## The fields rebuild the edit -/

theorem foldl_compactPointers (ps : List (ℕ × Slice)) (o : EditObject) :
    (ps.map fun x => Field.compactPointer x.1 x.2).foldl Field.apply o =
      { o with compactPointers := o.compactPointers ++ ps } := by
  induction ps generalizing o with
  | nil => rw [append_nil]; rfl
  | cons p ps ih =>
    rw [map_cons, foldl_cons, ih, append_cons]
    rfl

theorem foldl_newFiles (fs : List (ℕ × RawFile)) (o : EditObject) :
    (fs.map fun x => Field.newFile x.1 x.2).foldl Field.apply o =
      { o with newFiles := o.newFiles ++ fs } := by
  induction fs generalizing o with
  | nil => rw [append_nil]; rfl
  | cons f fs ih =>
    rw [map_cons, foldl_cons, ih, append_cons]
    rfl

/-- Insertion of the largest pair. -/
theorem insertPair_last {x : ℕ × UInt64} {ys : List (ℕ × UInt64)} (h : ∀ y ∈ ys, pairLt y x) :
    insertPair x ys = ys ++ [x] := by
  induction ys with
  | nil => rfl
  | cons y ys ih =>
    grind [mem_cons_self, pairLt, insertPair]

/-- The deleted files come back in the order of the set. -/
theorem foldl_deletedFiles {ds : List (ℕ × UInt64)} (o : EditObject)
    (h : (o.deletedFiles ++ ds).Pairwise pairLt) :
    (ds.map fun x => Field.deleteFile x.1 x.2).foldl Field.apply o =
      { o with deletedFiles := o.deletedFiles ++ ds, deletedSorted := h } := by
  induction ds generalizing o with
  | nil => ext1 <;> simp
  | cons d ds ih =>
    have hlast : insertPair d o.deletedFiles = o.deletedFiles ++ [d] :=
      insertPair_last fun y hy => (pairwise_append.mp h).2.2 y hy d mem_cons_self
    have happly : (Field.deleteFile d.1 d.2).apply o =
        { o with
          deletedFiles := o.deletedFiles ++ [d]
          deletedSorted := hlast ▸ insertPair_sorted d o.deletedSorted } := by
      ext1 <;> first | rfl | exact hlast
    grind

/-- **The fields of an edit rebuild it** on a cleared object, whose next file number may be set to
zero. -/
theorem foldl_fields (e o : EditObject) : e.fields.foldl Field.apply o.clear =
    { e with nextFileNumber := e.nextFileNumber.or (o.nextFileNumber.map fun _ => 0) } := by
  -- an optional field overrides what the object has
  have hcomparator (x : Option Slice) (o : EditObject) :
      (x.map Field.comparator).toList.foldl Field.apply o =
        { o with comparator := x.or o.comparator } := by cases x <;> rfl
  have hlog (x : Option UInt64) (o : EditObject) :
      (x.map Field.logNumber).toList.foldl Field.apply o =
        { o with logNumber := x.or o.logNumber } := by cases x <;> rfl
  have hprev (x : Option UInt64) (o : EditObject) :
      (x.map Field.prevLogNumber).toList.foldl Field.apply o =
        { o with prevLogNumber := x.or o.prevLogNumber } := by cases x <;> rfl
  have hnext (x : Option UInt64) (o : EditObject) :
      (x.map Field.nextFileNumber).toList.foldl Field.apply o =
        { o with nextFileNumber := x.or o.nextFileNumber } := by cases x <;> rfl
  have hlast (x : Option UInt64) (o : EditObject) :
      (x.map Field.lastSequence).toList.foldl Field.apply o =
        { o with lastSequence := x.or o.lastSequence } := by cases x <;> rfl
  simp only [fields, foldl_append, hcomparator, hlog, hprev, hnext, hlast, foldl_compactPointers,
    foldl_newFiles]
  rw [foldl_deletedFiles]
  · ext1 <;> first | exact Option.or_none | rfl
  · exact e.deletedSorted

/-! ## When an edit comes back -/

/-- The edits of the format: levels that exist, and no empty keys. -/
structure Valid (e : EditObject) : Prop where
  pointers : ∀ x ∈ e.compactPointers, x.1 < kNumLevels ∧ x.2 ≠ []
  deleted : ∀ x ∈ e.deletedFiles, x.1 < kNumLevels
  files : ∀ x ∈ e.newFiles, x.1 < kNumLevels ∧ x.2.smallest ≠ [] ∧ x.2.largest ≠ []

/-- The strings of the edit fit the length fields of 32 bits. -/
structure Short (e : EditObject) : Prop where
  comparator : ∀ name ∈ e.comparator, name.length < 2 ^ 32
  pointers : ∀ x ∈ e.compactPointers, x.2.length < 2 ^ 32
  files : ∀ x ∈ e.newFiles, x.2.smallest.length < 2 ^ 32 ∧ x.2.largest.length < 2 ^ 32

/-- The fields of a valid edit fit their encodings. -/
theorem fits_of_mem_fields {e : EditObject} (h : e.Valid) (hshort : e.Short) :
    ∀ f ∈ e.fields, f.Fits := by
  intro f hf
  simp only [fields, mem_append, Option.mem_toList, Option.map_eq_some_iff, mem_map] at hf
  rcases hf with ⟨name, hname, rfl⟩ | ⟨n, -, rfl⟩ | ⟨n, -, rfl⟩ | ⟨n, -, rfl⟩ | ⟨n, -, rfl⟩ |
    ⟨x, hx, rfl⟩ | ⟨x, hx, rfl⟩ | ⟨x, hx, rfl⟩
  · exact hshort.comparator name hname
  · trivial
  · trivial
  · trivial
  · trivial
  · exact ⟨(h.pointers x hx).1, (h.pointers x hx).2, hshort.pointers x hx⟩
  · exact h.deleted x hx
  · obtain ⟨hlevel, hs, hl⟩ := h.files x hx
    obtain ⟨hs', hl'⟩ := hshort.files x hx
    exact ⟨hlevel, ⟨hs, hs'⟩, hl, hl'⟩

theorem length_fields_lt (e : EditObject) : e.fields.length < e.encodeTo.length + 1 := by
  have htag (t : Tag) : 0 < (putTag t).length := by cases t <;> decide
  have hpos (f : Field) : 0 < f.encode.length := by
    grind [Field.encode]
  rw [encodeTo_eq]
  induction e.fields with
  | nil => exact Nat.zero_lt_one
  | cons f fs ih =>
    grind

/-- An object in any state comes back as the edit, but for a file number that it remembers. -/
theorem decodeFrom_encodeTo_or {e : EditObject} (o : EditObject) (h : e.Valid) (hshort : e.Short) :
    o.decodeFrom e.encodeTo =
      (.ok, { e with nextFileNumber := e.nextFileNumber.or (o.nextFileNumber.map fun _ => 0) }) := by
  have hfuel := e.length_fields_lt
  grind [encodeTo_eq, decodeFrom, decodeLoop_fields, fits_of_mem_fields, foldl_fields]

/-- **An edit comes back** from its bytes. -/
theorem decodeFrom_encodeTo {e o : EditObject} (h : e.Valid) (hshort : e.Short)
    (hnext : e.nextFileNumber.isSome ∨ o.nextFileNumber = none) :
    o.decodeFrom e.encodeTo = (.ok, e) := by
  have hclear : e.nextFileNumber.or (o.nextFileNumber.map fun _ => 0) = e.nextFileNumber := by
    cases hn : e.nextFileNumber with
    | none => rw [hnext.resolve_left (by simp [hn])]; rfl
    | some n => rfl
  rw [decodeFrom_encodeTo_or o h hshort, hclear]

/-! ## Nothing else comes back -/

theorem length_getLengthPrefixedSlice_lt {p q str : Slice}
    (h : getLengthPrefixedSlice p = some (str, q)) : str.length < 2 ^ 32 := by
  rw [getLengthPrefixedSlice] at h
  split at h
  · cases h
  · rename_i len p' _
    split at h
    · cases h
      rw [length_take]
      exact (Nat.min_le_left _ _).trans_lt len.toNat_lt
    · cases h

theorem length_getRawKey_lt {p q key : Slice} (h : getRawKey p = some (key, q)) :
    key.length < 2 ^ 32 := by
  rw [getRawKey] at h
  split at h
  · cases h
  · rename_i str p' hstr
    split at h
    · cases h
    · cases h
      exact length_getLengthPrefixedSlice_lt hstr

/-- Strings that were read are short, and no field takes the next file number back. -/
theorem apply_readField {tag : Tag} {p q : Slice} {f : Field} (h : readField tag p = some (f, q))
    {o : EditObject} (hshort : o.Short) :
    (f.apply o).Short ∧ (o.nextFileNumber ≠ none → (f.apply o).nextFileNumber ≠ none) := by
  cases tag with
  | kComparator =>
    obtain ⟨⟨name, p'⟩, hname, heq⟩ := Option.map_eq_some_iff.mp h
    cases heq
    refine ⟨⟨fun x hx => ?_, hshort.pointers, hshort.files⟩, id⟩
    cases hx
    exact length_getLengthPrefixedSlice_lt hname
  | kCompactPointer =>
    simp only [readField, Option.bind_eq_bind, Option.bind_eq_some_iff] at h
    obtain ⟨⟨level, p₁⟩, -, ⟨key, p₂⟩, hkey, heq⟩ := h
    cases heq
    refine ⟨⟨hshort.comparator, fun x hx => ?_, hshort.files⟩, id⟩
    rcases mem_append.mp hx with hx | hx
    · exact hshort.pointers x hx
    · cases mem_singleton.mp hx
      exact length_getRawKey_lt hkey
  | kDeleteFile =>
    simp only [readField, Option.bind_eq_bind, Option.bind_eq_some_iff] at h
    obtain ⟨⟨level, p₁⟩, -, ⟨n, p₂⟩, -, heq⟩ := h
    cases heq
    exact ⟨⟨hshort.comparator, hshort.pointers, hshort.files⟩, id⟩
  | kNewFile =>
    obtain ⟨⟨x, p'⟩, hx, heq⟩ := Option.map_eq_some_iff.mp h
    simp only [getRawFile, Option.bind_eq_bind, Option.bind_eq_some_iff] at hx
    obtain ⟨⟨level, p₁⟩, -, ⟨n, p₂⟩, -, ⟨size, p₃⟩, -, ⟨smallest, p₄⟩, hs, ⟨largest, p₅⟩, hl, hfile⟩ :=
      hx
    cases hfile
    cases heq
    refine ⟨⟨hshort.comparator, hshort.pointers, fun x hx => ?_⟩, id⟩
    rcases mem_append.mp hx with hx | hx
    · exact hshort.files x hx
    · grind [length_getRawKey_lt]
  | kNextFileNumber =>
    obtain ⟨⟨n, p'⟩, -, heq⟩ := Option.map_eq_some_iff.mp h
    cases heq
    exact ⟨⟨hshort.comparator, hshort.pointers, hshort.files⟩, fun _ => Option.some_ne_none n⟩
  | _ =>
    obtain ⟨⟨n, p'⟩, -, heq⟩ := Option.map_eq_some_iff.mp h
    cases heq
    exact ⟨⟨hshort.comparator, hshort.pointers, hshort.files⟩, id⟩

/-- What the loop reads is short, and a file number stays set. -/
theorem decodeLoop_short (fuel : ℕ) {o : EditObject} (hshort : o.Short) (input : Slice) :
    (decodeLoop fuel o input).1.Short ∧
      (o.nextFileNumber ≠ none → (decodeLoop fuel o input).1.nextFileNumber ≠ none) := by
  induction fuel generalizing o input with
  | zero => exact ⟨hshort, id⟩
  | succ fuel ih =>
    grind [decodeLoop, apply_readField]

theorem decodeFrom_snd (o : EditObject) (src : Slice) :
    (o.decodeFrom src).2 = (decodeLoop (src.length + 1) o.clear src).1 := by
  grind [decodeFrom]

/-- **When decoding restores an edit.** For every edit of the format and every object, in whatever state,
decoding the bytes of the edit into the object returns OK and leaves it equal to the edit exactly if the
edit's strings fit their length fields, and the object's `has_next_file_number_` was not set or the edit
sets it. -/
theorem decodeFrom_encodeTo_iff (e o : EditObject) (h : e.Valid) :
    o.decodeFrom e.encodeTo = (.ok, e) ↔
      e.Short ∧ (e.nextFileNumber.isSome ∨ o.nextFileNumber = none) := by
  refine ⟨fun heq => ?_, fun ⟨hshort, hnext⟩ => decodeFrom_encodeTo h hshort hnext⟩
  have hclear : o.clear.Short := ⟨by simp [clear], by simp [clear], by simp [clear]⟩
  obtain ⟨hshort, hnext⟩ := decodeLoop_short (e.encodeTo.length + 1) hclear e.encodeTo
  rw [← decodeFrom_snd, heq] at hshort hnext
  refine ⟨hshort, ?_⟩
  by_cases hsome : o.nextFileNumber = none
  · exact Or.inr hsome
  · refine Or.inl (Option.isSome_iff_ne_none.mpr (hnext ?_))
    rw [clear]
    simpa using hsome

/-- An object that was used for an edit with a next file number keeps the flag: the edit that is decoded
next gets a next file number, zero, that it does not have. -/
theorem decodeFrom_keeps_stale_flag :
    let e : EditObject := { logNumber := some 3 }
    let o : EditObject := { nextFileNumber := some 7 }
    e.Valid ∧ o.decodeFrom e.encodeTo = (.ok, { e with nextFileNumber := some 0 }) ∧
      o.decodeFrom e.encodeTo ≠ (.ok, e) :=
  ⟨⟨by decide, by decide, by decide⟩, by decide +kernel, by decide +kernel⟩

/-- A cleared object takes every kind of field. -/
theorem decodeFrom_encodeTo_example :
    let e : EditObject :=
      { comparator := some (ascii "c"), nextFileNumber := some 9, compactPointers := [(1, [5])]
        deletedFiles := [(0, 3), (2, 1)], newFiles := [(3, ⟨4, 100, ascii "a", ascii "b"⟩)] }
    let o : EditObject := { nextFileNumber := some 7, deletedFiles := [(1, 1)] }
    o.decodeFrom e.encodeTo = (.ok, e) :=
  (decodeFrom_encodeTo_iff _ _ ⟨by decide, by decide, by decide⟩).mpr
    ⟨⟨by decide, by decide, by decide⟩, by decide⟩

end EditObject

/-! ## Edits with keys

The edits of `VersionEdit` are the objects with their keys taken apart. -/

/-- A new file with its keys. -/
def RawFile.toFile (f : RawFile) : FileMetaData :=
  ⟨f.number.toNat, f.fileSize.toNat, InternalKey.ofSlice f.smallest, InternalKey.ofSlice f.largest⟩

/-- The edit of an object. -/
def EditObject.toEdit (o : EditObject) : VersionEdit where
  comparator := o.comparator
  logNumber := o.logNumber.map UInt64.toNat
  prevLogNumber := o.prevLogNumber.map UInt64.toNat
  nextFileNumber := o.nextFileNumber.map UInt64.toNat
  lastSequence := o.lastSequence.map UInt64.toNat
  compactPointers := o.compactPointers.map fun x => (x.1, InternalKey.ofSlice x.2)
  deletedFiles := o.deletedFiles.map fun x => (x.1, x.2.toNat)
  newFiles := o.newFiles.map fun x => (x.1, x.2.toFile)

theorem map_insertPair (x : ℕ × UInt64) (ys : List (ℕ × UInt64)) :
    (insertPair x ys).map (fun x => (x.1, x.2.toNat)) =
      insertDeleted (x.1, x.2.toNat) (ys.map fun x => (x.1, x.2.toNat)) := by
  induction ys with
  | nil => rfl
  | cons y ys ih =>
    grind [pairLt, UInt64.lt_iff_toNat_lt, UInt64.toNat_inj, insertPair, insertDeleted]

/-- The two models read keys alike. -/
theorem getInternalKey_eq (p : Slice) :
    getInternalKey p = (getRawKey p).map fun (key, q) => (InternalKey.ofSlice key, q) := by
  rw [getInternalKey, getRawKey]
  cases getLengthPrefixedSlice p with
  | none => rfl
  | some r =>
    obtain ⟨str, q⟩ := r
    by_cases h : str = []
    · simp [h, InternalKey.decodeFrom]
    · simp [h, InternalKey.decodeFrom, InternalKey.ofSlice, extractUserKey, extractTag]

/-- The two models read fields alike. -/
theorem getField_readField (tag : Tag) (p : Slice) :
    match readField tag p with
    | none => getField tag p = none
    | some (f, q) => ∃ update, getField tag p = some (update, q) ∧
        ∀ o : EditObject, update o.toEdit = (f.apply o).toEdit := by
  cases tag with
  | kComparator =>
    simp only [readField, getField]
    cases getLengthPrefixedSlice p with
    | none => rfl
    | some r => exact ⟨_, rfl, fun o => rfl⟩
  | kCompactPointer =>
    simp only [readField, getField, getLevelKey, getInternalKey_eq, Option.bind_eq_bind]
    cases getLevel p with
    | none => rfl
    | some r =>
      simp only [Option.bind_some]
      cases getRawKey r.2 with
      | none => rfl
      | some r' =>
        refine ⟨_, rfl, fun o => ?_⟩
        simp [EditObject.toEdit, Field.apply]
  | kDeleteFile =>
    simp only [readField, getField, getLevelNumber, getNumber, Option.bind_eq_bind]
    cases getLevel p with
    | none => rfl
    | some r =>
      simp only [Option.bind_some]
      cases getVarint64 r.2 with
      | none => rfl
      | some r' =>
        refine ⟨_, rfl, fun o => ?_⟩
        simp only [EditObject.toEdit, Field.apply, map_insertPair]
  | kNewFile =>
    simp only [readField, getField, getNewFile, getRawFile, getLevelNumber, getNumber,
      getInternalKey_eq, Option.bind_eq_bind]
    cases getLevel p with
    | none => rfl
    | some r =>
      simp only [Option.bind_some]
      cases getVarint64 r.2 with
      | none => rfl
      | some r₁ =>
        simp only [Option.bind_some, Option.map_some]
        cases getVarint64 r₁.2 with
        | none => rfl
        | some r₂ =>
          simp only [Option.bind_some, Option.map_some]
          cases getRawKey r₂.2 with
          | none => rfl
          | some r₃ =>
            simp only [Option.bind_some, Option.map_some]
            cases getRawKey r₃.2 with
            | none => rfl
            | some r₄ =>
              refine ⟨_, rfl, fun o => ?_⟩
              simp [EditObject.toEdit, Field.apply, RawFile.toFile]
  | _ =>
    simp only [readField, getField, getNumber]
    cases getVarint64 p with
    | none => rfl
    | some r => exact ⟨_, rfl, fun o => rfl⟩

/-- **The decoder on edits is the decoder on objects**, seen through `toEdit`. -/
theorem EditObject.decodeLoop_toEdit (fuel : ℕ) (o : EditObject) (input : Slice) :
    RocketDb.decodeLoop fuel o.toEdit input =
      ((decodeLoop fuel o input).1.toEdit, (decodeLoop fuel o input).2) := by
  induction fuel generalizing o input with
  | zero => rfl
  | succ fuel ih =>
    grind [RocketDb.decodeLoop, decodeLoop, getField_readField]

/-- **The two decoders agree.** -/
theorem EditObject.decodeFrom_toEdit (o : EditObject) (src : Slice) :
    VersionEdit.decodeFrom o.nextFileNumber.isSome src =
      ((o.decodeFrom src).1, (o.decodeFrom src).2.toEdit) := by
  have hclear : VersionEdit.clear o.nextFileNumber.isSome = o.clear.toEdit := by
    rw [VersionEdit.clear, clear, toEdit]
    cases o.nextFileNumber <;> rfl
  grind [VersionEdit.decodeFrom, decodeLoop_toEdit, decodeFrom]

/-! ## Edits come back -/

/-- An edit that the format can hold. -/
structure VersionEdit.Encodable (e : VersionEdit) : Prop where
  comparator : ∀ name ∈ e.comparator, name.length < 2 ^ 32
  logNumber : ∀ n ∈ e.logNumber, n < 2 ^ 64
  prevLogNumber : ∀ n ∈ e.prevLogNumber, n < 2 ^ 64
  nextFileNumber : ∀ n ∈ e.nextFileNumber, n < 2 ^ 64
  lastSequence : ∀ n ∈ e.lastSequence, n < 2 ^ 64
  pointers : ∀ x ∈ e.compactPointers, x.1 < kNumLevels ∧ x.2.userKey.length + 8 < 2 ^ 32
  deleted : ∀ x ∈ e.deletedFiles, x.1 < kNumLevels ∧ x.2 < 2 ^ 64
  sorted : e.deletedFiles.Pairwise fun x y => x.1 < y.1 ∨ x.1 = y.1 ∧ x.2 < y.2
  files : ∀ x ∈ e.newFiles, x.1 < kNumLevels ∧ x.2.number < 2 ^ 64 ∧ x.2.fileSize < 2 ^ 64 ∧
    x.2.smallest.userKey.length + 8 < 2 ^ 32 ∧ x.2.largest.userKey.length + 8 < 2 ^ 32

/-- The object of an edit. -/
def VersionEdit.toObject (e : VersionEdit) (h : e.Encodable) : EditObject where
  comparator := e.comparator
  logNumber := e.logNumber.map UInt64.ofNat
  prevLogNumber := e.prevLogNumber.map UInt64.ofNat
  nextFileNumber := e.nextFileNumber.map UInt64.ofNat
  lastSequence := e.lastSequence.map UInt64.ofNat
  compactPointers := e.compactPointers.map fun x => (x.1, x.2.encode)
  deletedFiles := e.deletedFiles.map fun x => (x.1, UInt64.ofNat x.2)
  deletedSorted := by
    rw [pairwise_map]
    refine h.sorted.imp_of_mem fun {x y} hx hy hlt => ?_
    rcases hlt with hlt | ⟨heq, hlt⟩
    · exact Or.inl hlt
    · refine Or.inr ⟨heq, UInt64.lt_iff_toNat_lt.mpr ?_⟩
      rwa [UInt64.toNat_ofNat_of_lt' (h.deleted x hx).2, UInt64.toNat_ofNat_of_lt' (h.deleted y hy).2]
  newFiles := e.newFiles.map fun x =>
    (x.1, ⟨UInt64.ofNat x.2.number, UInt64.ofNat x.2.fileSize, x.2.smallest.encode, x.2.largest.encode⟩)

namespace VersionEdit

variable {e : VersionEdit}

section

variable (h : e.Encodable)

include h

/-- An edit and its object say the same. -/
theorem toEdit_toObject : (e.toObject h).toEdit = e := by
  have hnum (x : Option ℕ) (hx : ∀ n ∈ x, n < 2 ^ 64) :
      (x.map UInt64.ofNat).map UInt64.toNat = x := by
    cases x with
    | none => rfl
    | some n => exact congrArg some (UInt64.toNat_ofNat_of_lt' (hx n rfl))
  have hpointers : ((e.compactPointers.map fun x => (x.1, x.2.encode)).map fun x =>
      (x.1, InternalKey.ofSlice x.2)) = e.compactPointers := by
    grind [map_id'', InternalKey.ofSlice_encode]
  have hdeleted : ((e.deletedFiles.map fun x => (x.1, UInt64.ofNat x.2)).map fun x =>
      (x.1, x.2.toNat)) = e.deletedFiles := by
    rw [map_map]
    refine map_congr_left (fun x hx => ?_) |>.trans (map_id _)
    exact Prod.ext rfl (UInt64.toNat_ofNat_of_lt' (h.deleted x hx).2)
  have hfiles : ((e.toObject h).newFiles.map fun x => (x.1, x.2.toFile)) = e.newFiles := by
    rw [toObject, map_map]
    refine map_congr_left (fun x hx => ?_) |>.trans (map_id _)
    obtain ⟨-, hn, hs, -, -⟩ := h.files x hx
    refine Prod.ext rfl ?_
    simp only [Function.comp, RawFile.toFile, InternalKey.ofSlice_encode, UInt64.toNat_ofNat_of_lt' hn,
      UInt64.toNat_ofNat_of_lt' hs, id]
  rw [EditObject.toEdit, hfiles]
  simp only [toObject, hnum _ h.logNumber, hnum _ h.prevLogNumber, hnum _ h.nextFileNumber,
    hnum _ h.lastSequence, hpointers, hdeleted]

/-- They have the same encoding. -/
theorem encodeTo_toObject : (e.toObject h).encodeTo = e.encodeTo := by
  have hnum (x : Option ℕ) (tag : Tag) : putOptional64 (x.map UInt64.ofNat) tag = putOptional x tag := by
    cases x <;> rfl
  cases hc : e.comparator <;>
    simp only [EditObject.encodeTo, encodeTo, toObject, hc, hnum, flatMap_map]

theorem valid_toObject : (e.toObject h).Valid := by
  have hne (k : InternalKey) : k.encode ≠ [] := by
    rw [← length_pos_iff, InternalKey.length_encode]
    omega
  constructor
  · intro x hx
    obtain ⟨y, hy, rfl⟩ := mem_map.mp hx
    exact ⟨(h.pointers y hy).1, hne _⟩
  · intro x hx
    obtain ⟨y, hy, rfl⟩ := mem_map.mp hx
    exact (h.deleted y hy).1
  · intro x hx
    obtain ⟨y, hy, rfl⟩ := mem_map.mp hx
    exact ⟨(h.files y hy).1, hne _, hne _⟩

theorem short_toObject : (e.toObject h).Short := by
  constructor
  · exact h.comparator
  · intro x hx
    obtain ⟨y, hy, rfl⟩ := mem_map.mp hx
    rw [InternalKey.length_encode]
    exact (h.pointers y hy).2
  · intro x hx
    obtain ⟨y, hy, rfl⟩ := mem_map.mp hx
    grind [Encodable, InternalKey.length_encode]

/-- **An edit comes back from its bytes**, with the next file number that is left in the object if it
sets none itself. -/
theorem decodeFrom_encodeTo (hasNextFile : Bool) :
    decodeFrom hasNextFile e.encodeTo = (.ok, { e with
      nextFileNumber := e.nextFileNumber.or (if hasNextFile then some 0 else none) }) := by
  let o : EditObject := { nextFileNumber := if hasNextFile then some 0 else none }
  have hflag : o.nextFileNumber.isSome = hasNextFile := by cases hasNextFile <;> rfl
  have hagree := o.decodeFrom_toEdit (e.toObject h).encodeTo
  rw [hflag, EditObject.decodeFrom_encodeTo_or o (valid_toObject h) (short_toObject h)] at hagree
  have hback (x : Option UInt64) : ({ e.toObject h with nextFileNumber := x } : EditObject).toEdit =
      { e with nextFileNumber := x.map UInt64.toNat } := by
    rw [show ({ e.toObject h with nextFileNumber := x } : EditObject).toEdit =
      { (e.toObject h).toEdit with nextFileNumber := x.map UInt64.toNat } from rfl, toEdit_toObject h]
  have hnext : (e.toObject h).nextFileNumber.map UInt64.toNat = e.nextFileNumber :=
    congrArg nextFileNumber (toEdit_toObject h)
  grind [encodeTo_toObject]

end

end VersionEdit

end RocketDb
