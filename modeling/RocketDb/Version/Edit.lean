import RocketDb.Format.Coding
import RocketDb.Util.Env
import RocketDb.Version.Builder

/-! # Records of the MANIFEST (`db/version_edit.cc`)

A record of the MANIFEST is a version edit: a sequence of tagged fields. An object of class `VersionEdit`
starts with an unset `has_next_file_number_`, which `Clear` does not touch; decoding therefore depends on one
bit of memory. -/

namespace RocketDb

/-- The tags of the fields. -/
inductive Tag where
  | kComparator
  | kLogNumber
  | kNextFileNumber
  | kLastSequence
  | kCompactPointer
  | kDeleteFile
  | kNewFile
  | kPrevLogNumber
  deriving DecidableEq, Repr

/-- The number of a tag. -/
def Tag.toNat : Tag → ℕ
  | .kComparator => 1
  | .kLogNumber => 2
  | .kNextFileNumber => 3
  | .kLastSequence => 4
  | .kCompactPointer => 5
  | .kDeleteFile => 6
  | .kNewFile => 7
  | .kPrevLogNumber => 9

/-- A number as a tag. -/
def Tag.ofNat? : ℕ → Option Tag
  | 1 => some .kComparator
  | 2 => some .kLogNumber
  | 3 => some .kNextFileNumber
  | 4 => some .kLastSequence
  | 5 => some .kCompactPointer
  | 6 => some .kDeleteFile
  | 7 => some .kNewFile
  | 9 => some .kPrevLogNumber
  | _ => none

/-! ## Encoding -/

/-- A tag on its own. -/
def putTag (tag : Tag) : Slice := putVarint32 (UInt32.ofNat tag.toNat)

/-- A tag and a number. -/
def putNumber (tag : Tag) (n : ℕ) : Slice := putTag tag ++ putVarint64 (UInt64.ofNat n)

/-- A level. -/
def putLevel (level : ℕ) : Slice := putVarint32 (UInt32.ofNat level)

/-- A field that may be unset. -/
def putOptional (field : Option ℕ) (tag : Tag) : Slice :=
  match field with
  | none => []
  | some n => putNumber tag n

/-- `VersionEdit::EncodeTo`. -/
def VersionEdit.encodeTo (edit : VersionEdit) : Slice :=
  (match edit.comparator with
    | none => []
    | some name => putTag .kComparator ++ putLengthPrefixedSlice name) ++
  putOptional edit.logNumber .kLogNumber ++
  putOptional edit.prevLogNumber .kPrevLogNumber ++
  putOptional edit.nextFileNumber .kNextFileNumber ++
  putOptional edit.lastSequence .kLastSequence ++
  (edit.compactPointers.flatMap fun (level, key) =>
    putTag .kCompactPointer ++ putLevel level ++ putLengthPrefixedSlice key.encode) ++
  (edit.deletedFiles.flatMap fun (level, number) =>
    putTag .kDeleteFile ++ putLevel level ++ putVarint64 (UInt64.ofNat number)) ++
  edit.newFiles.flatMap fun (level, f) =>
    putTag .kNewFile ++ putLevel level ++ putVarint64 (UInt64.ofNat f.number) ++
      putVarint64 (UInt64.ofNat f.fileSize) ++ putLengthPrefixedSlice f.smallest.encode ++
      putLengthPrefixedSlice f.largest.encode

/-! ## Decoding -/

/-- `VersionEdit::Clear`, on an object whose `has_next_file_number_` is `hasNextFile`. -/
def VersionEdit.clear (hasNextFile : Bool) : VersionEdit :=
  { nextFileNumber := if hasNextFile then some 0 else none }

/-- `GetLevel`. -/
def getLevel (input : Slice) : Option (ℕ × Slice) :=
  match getVarint32 input with
  | none => none
  | some (v, input) => if v.toNat < kNumLevels then some (v.toNat, input) else none

/-- `GetInternalKey`. -/
def getInternalKey (input : Slice) : Option (InternalKey × Slice) :=
  match getLengthPrefixedSlice input with
  | none => none
  | some (str, input) => (InternalKey.decodeFrom str).map fun key => (key, input)

/-- A number of a field. -/
def getNumber (input : Slice) : Option (ℕ × Slice) := (getVarint64 input).map fun (n, p) => (n.toNat, p)

/-- Insertion into `deleted_files_`, a `std::set` of pairs. -/
def insertDeleted (d : ℕ × ℕ) : List (ℕ × ℕ) → List (ℕ × ℕ)
  | [] => [d]
  | x :: xs =>
    if d.1 < x.1 ∨ d.1 = x.1 ∧ d.2 < x.2 then d :: x :: xs
    else if d = x then x :: xs
    else x :: insertDeleted d xs

/-- `GetLevel` and `GetInternalKey`. -/
def getLevelKey (input : Slice) : Option ((ℕ × InternalKey) × Slice) := do
  let (level, input) ← getLevel input
  let (key, input) ← getInternalKey input
  some ((level, key), input)

/-- `GetLevel` and `GetVarint64`. -/
def getLevelNumber (input : Slice) : Option ((ℕ × ℕ) × Slice) := do
  let (level, input) ← getLevel input
  let (number, input) ← getNumber input
  some ((level, number), input)

/-- The level, numbers and keys of a new file. -/
def getNewFile (input : Slice) : Option ((ℕ × FileMetaData) × Slice) := do
  let ((level, number), input) ← getLevelNumber input
  let (fileSize, input) ← getNumber input
  let (smallest, input) ← getInternalKey input
  let (largest, input) ← getInternalKey input
  some ((level, ⟨number, fileSize, smallest, largest⟩), input)

/-- The field after a tag: how it changes the edit, and the rest of the input. -/
def getField : Tag → Slice → Option ((VersionEdit → VersionEdit) × Slice)
  | .kComparator, p => (getLengthPrefixedSlice p).map fun (name, p) =>
    (fun edit => { edit with comparator := some name }, p)
  | .kLogNumber, p => (getNumber p).map fun (n, p) =>
    (fun edit => { edit with logNumber := some n }, p)
  | .kPrevLogNumber, p => (getNumber p).map fun (n, p) =>
    (fun edit => { edit with prevLogNumber := some n }, p)
  | .kNextFileNumber, p => (getNumber p).map fun (n, p) =>
    (fun edit => { edit with nextFileNumber := some n }, p)
  | .kLastSequence, p => (getNumber p).map fun (n, p) =>
    (fun edit => { edit with lastSequence := some n }, p)
  | .kCompactPointer, p => (getLevelKey p).map fun (x, p) =>
    (fun edit => { edit with compactPointers := edit.compactPointers ++ [x] }, p)
  | .kDeleteFile, p => (getLevelNumber p).map fun (x, p) =>
    (fun edit => { edit with deletedFiles := insertDeleted x edit.deletedFiles }, p)
  | .kNewFile, p => (getNewFile p).map fun (x, p) =>
    (fun edit => { edit with newFiles := edit.newFiles ++ [x] }, p)

/-- The message if the field after a tag cannot be read. -/
def Tag.message : Tag → Slice
  | .kComparator => ascii "comparator name"
  | .kLogNumber => ascii "log number"
  | .kPrevLogNumber => ascii "prev log number"
  | .kNextFileNumber => ascii "next file number"
  | .kLastSequence => ascii "last sequence"
  | .kCompactPointer => ascii "compaction pointer"
  | .kDeleteFile => ascii "delete file"
  | .kNewFile => ascii "new-file entry"

/-- The loop of `DecodeFrom`: the edit so far and the message of the first error. Every field takes at
least one byte, so the length of the input bounds the iterations. -/
def decodeLoop : ℕ → VersionEdit → Slice → VersionEdit × Option Slice
  | 0, edit, _ => (edit, none)
  | fuel + 1, edit, input =>
    match getVarint32 input with
    | none => (edit, if input = [] then none else some (ascii "invalid tag"))
    | some (n, input) =>
      match Tag.ofNat? n.toNat with
      | none => (edit, some (ascii "unknow tag"))
      | some tag =>
        match getField tag input with
        | none => (edit, some tag.message)
        | some (update, input) => decodeLoop fuel (update edit) input

/-- **`VersionEdit::DecodeFrom`**, on an object whose `has_next_file_number_` is `hasNextFile`. -/
def VersionEdit.decodeFrom (hasNextFile : Bool) (src : Slice) : Status × VersionEdit :=
  match decodeLoop (src.length + 1) (.clear hasNextFile) src with
  | (edit, none) => (.ok, edit)
  | (edit, some msg) => (.corruption (ascii "VersionEdit") msg, edit)

/-! ## The unset flag -/

theorem getField_comparator {tag : Tag} {update : VersionEdit → VersionEdit} {p q : Slice}
    (h : getField tag p = some (update, q)) {e e' : VersionEdit} (he : e.comparator = e'.comparator) :
    (update e).comparator = (update e').comparator := by
  cases tag <;> obtain ⟨⟨x, p'⟩, -, heq⟩ := Option.map_eq_some_iff.mp h <;> cases heq
  case kComparator => rfl
  all_goals exact he

theorem decodeLoop_comparator (fuel : ℕ) {e e' : VersionEdit} (he : e.comparator = e'.comparator)
    (input : Slice) :
    (decodeLoop fuel e input).1.comparator = (decodeLoop fuel e' input).1.comparator ∧
      (decodeLoop fuel e input).2 = (decodeLoop fuel e' input).2 := by
  induction fuel generalizing e e' input with
  | zero => exact ⟨he, rfl⟩
  | succ fuel ih =>
    grind [decodeLoop, getField_comparator]

/-- **Status and comparator of a record depend on its bytes alone.** -/
theorem VersionEdit.decodeFrom_memory (b c : Bool) (src : Slice) :
    (decodeFrom b src).1 = (decodeFrom c src).1 ∧
      (decodeFrom b src).2.comparator = (decodeFrom c src).2.comparator := by
  have hclear : (VersionEdit.clear b).comparator = (VersionEdit.clear c).comparator := rfl
  obtain ⟨hcmp, hmsg⟩ := decodeLoop_comparator (src.length + 1) hclear src
  rw [decodeFrom, decodeFrom]
  generalize decodeLoop (src.length + 1) (clear b) src = x at hcmp hmsg
  generalize decodeLoop (src.length + 1) (clear c) src = y at hcmp hmsg
  obtain ⟨e, m⟩ := x
  obtain ⟨e', m'⟩ := y
  obtain rfl : m = m' := hmsg
  cases m with
  | none => exact ⟨rfl, hcmp⟩
  | some msg => exact ⟨rfl, hcmp⟩

end RocketDb
