import RocketDb.Format.InternalKey

/-! # Statuses and files (`include/status.h`, `include/env.h`)

Files are byte strings. A list of **faults** says how the coming calls on a file end: calls beyond the
list succeed. -/

namespace RocketDb

/-! ## Statuses -/

/-- The codes of failing statuses. -/
inductive Code where
  | kNotFound
  | kCorruption
  | kNotSupported
  | kInvalidArgument
  | kIOError
  deriving DecidableEq, Repr

/-- `Status`: OK, or a code and a message. -/
inductive Status where
  | ok
  | error (code : Code) (message : Slice)
  deriving DecidableEq, Repr

/-- The constructor of failing statuses joins two messages. -/
def Status.make (code : Code) (msg1 msg2 : Slice) : Status :=
  .error code (if msg2 = [] then msg1 else msg1 ++ ascii ": " ++ msg2)

/-- `Status::Corruption`. -/
def Status.corruption (msg1 msg2 : Slice) : Status := .make .kCorruption msg1 msg2

/-- `Status::InvalidArgument`. -/
def Status.invalidArgument (msg1 msg2 : Slice) : Status := .make .kInvalidArgument msg1 msg2

/-- `Status::NotFound`. -/
def Status.notFound (msg1 msg2 : Slice) : Status := .make .kNotFound msg1 msg2

/-- The name of a code in `Status::ToString`. -/
def Code.text : Code → Slice
  | .kNotFound => ascii "NotFound: "
  | .kCorruption => ascii "Corruption: "
  | .kNotSupported => ascii "Not implemented: "
  | .kInvalidArgument => ascii "Invalid argument: "
  | .kIOError => ascii "IO error: "

/-- `Status::ToString`. -/
def Status.toSlice : Status → Slice
  | .ok => ascii "OK"
  | .error code message => code.text ++ message

/-- `Status::ok`. -/
def Status.isOk : Status → Bool
  | .ok => true
  | .error _ _ => false

@[simp] theorem Status.isOk_ok : Status.ok.isOk = true := rfl

theorem Status.eq_ok_of_isOk {s : Status} (h : s.isOk = true) : s = .ok := by
  cases s with
  | ok => rfl
  | error code message => cases h

@[simp] theorem Status.isOk_corruption (a b : Slice) : (Status.corruption a b).isOk = false := rfl

@[simp] theorem Status.isOk_invalidArgument (a b : Slice) :
    (Status.invalidArgument a b).isOk = false := rfl

/-! ## Files -/

/-- A file that is read from front to back. -/
structure SequentialFile where
  /-- What has not been read yet. -/
  contents : Slice
  /-- The failing ones among the coming calls. -/
  faults : List (Option Status) := []
  deriving DecidableEq, Repr

/-- `SequentialFile::Read`: at most `n` bytes, fewer only at the end of the file. -/
def SequentialFile.read (file : SequentialFile) (n : ℕ) : SequentialFile × Status × Slice :=
  match file.faults with
  | some s :: faults => (⟨file.contents, faults⟩, s, [])
  | faults => (⟨file.contents.drop n, faults.tail⟩, .ok, file.contents.take n)

/-- `SequentialFile::Skip`. -/
def SequentialFile.skip (file : SequentialFile) (n : ℕ) : SequentialFile × Status :=
  match file.faults with
  | some s :: faults => (⟨file.contents, faults⟩, s)
  | faults => (⟨file.contents.drop n, faults.tail⟩, .ok)

/-- A file that is written by appending. -/
structure WritableFile where
  /-- What has been appended. -/
  contents : Slice
  /-- How much of it the last successful `Flush` had seen. -/
  flushed : ℕ := 0
  /-- The failing ones among the coming calls, with the number of bytes that still got through. -/
  faults : List (Option (ℕ × Status)) := []
  deriving DecidableEq, Repr

/-- `WritableFile::Append`. -/
def WritableFile.append (file : WritableFile) (data : Slice) : WritableFile × Status :=
  match file.faults with
  | some (n, s) :: faults => (⟨file.contents ++ data.take n, file.flushed, faults⟩, s)
  | faults => (⟨file.contents ++ data, file.flushed, faults.tail⟩, .ok)

/-- `WritableFile::Flush`: a failure may lose what was appended since the last one. -/
def WritableFile.flush (file : WritableFile) : WritableFile × Status :=
  match file.faults with
  | some (n, s) :: faults => (⟨file.contents.take (file.flushed + n), file.flushed, faults⟩, s)
  | faults => (⟨file.contents, file.contents.length, faults.tail⟩, .ok)

end RocketDb
