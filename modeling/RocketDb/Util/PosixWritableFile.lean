import RocketDb.Lib.Transition
import RocketDb.Util.Env
import Mathlib.Data.List.Induction

/-! # Files that are written (`PosixWritableFile` of `util/env_posix.cc`)

Appended data is collected in a buffer of 64 KiB. The operating system may take less than it is offered and
may interrupt a call; what it answers is an input of each call.

* **`step_spec`** — a call that succeeds moves bytes from the buffer to the file and loses none.
* **`posixWritableFile_bytes`** — file and buffer hold what has been appended, in every run.
* **`shows_run`** — the files of `Env` that logs and tables are written to are what these files show. -/

namespace RocketDb

open Transition List

/-! ## Answers of the operating system -/

/-- A value of `errno` and its text. -/
structure Errno where
  number : ℕ
  text : Slice
  deriving DecidableEq, Repr

/-- `EINTR`. -/
def kEINTR : ℕ := 4

/-- `ENOENT`. -/
def kENOENT : ℕ := 2

/-- What every call on a closed descriptor fails with. -/
def badFileDescriptor : Errno := ⟨9, ascii "Bad file descriptor"⟩

/-- `PosixError`. -/
def posixError (context : Slice) (e : Errno) : Status :=
  if e.number = kENOENT then .make .kNotFound context e.text else .make .kIOError context e.text

/-- An answer to `::write`. -/
inductive WriteAnswer where
  /-- So many bytes were taken, if so many were offered. -/
  | wrote (n : ℕ)
  | failed (e : Errno)
  deriving DecidableEq, Repr

/-- A write of at least a byte, or an interruption. -/
def WriteAnswer.Harmless : WriteAnswer → Prop
  | .wrote n => 0 < n
  | .failed e => e.number = kEINTR

/-- The answer is neither an interruption nor an error. -/
def WriteAnswer.isWrote : WriteAnswer → Bool
  | .wrote _ => true
  | .failed _ => false

/-- The answers to the system calls of one call: to the writes in turn, and the errors of the others. -/
structure SysAnswers where
  writes : List WriteAnswer
  openDir : Option Errno := none
  syncDir : Option Errno := none
  syncFd : Option Errno := none
  closeFd : Option Errno := none

/-! ## The file -/

/-- `kWritableFileBufferSize`. -/
def kWritableFileBufferSize : ℕ := 65536

/-- `PosixWritableFile`. -/
structure PosixWritableFile where
  filename : Slice
  /-- `buf_[0, pos_)`. -/
  buf : Slice
  /-- It is inside of the buffer. -/
  length_buf_le : buf.length ≤ kWritableFileBufferSize
  /-- `fd_` is a descriptor. -/
  isOpen : Bool
  /-- What the descriptor has been handed. -/
  written : Slice

namespace PosixWritableFile

/-- `PosixWritableFile::PosixWritableFile`. -/
def new (filename : Slice) : PosixWritableFile := ⟨filename, [], Nat.zero_le _, true, []⟩

/-- `Basename`: what follows the last slash. -/
def basename (filename : Slice) : Slice := (filename.reverse.takeWhile (· ≠ 47)).reverse

/-- `Dirname`: what precedes the last slash. -/
def dirname (filename : Slice) : Slice :=
  if 47 ∈ filename then filename.take (filename.length - (basename filename).length - 1) else ascii "."

/-- `is_manifest_`. -/
def isManifest (f : PosixWritableFile) : Bool := (ascii "MANIFEST").isPrefixOf (basename f.filename)

/-- The loop of `WriteUnbuffered` on an open descriptor: the status, what the descriptor has been handed, and
the answers that are left; `none` if there were not enough for it to return. -/
def writeLoop (filename : Slice) : List WriteAnswer → Slice → Slice →
    Option (Status × Slice × List WriteAnswer)
  | answers, [], written => some (.ok, written, answers)
  | [], _ :: _, _ => none
  | .wrote n :: answers, b :: bs, written =>
    writeLoop filename answers ((b :: bs).drop n) (written ++ (b :: bs).take n)
  | .failed e :: answers, b :: bs, written =>
    if e.number = kEINTR then writeLoop filename answers (b :: bs) written
    else some (posixError filename e, written, answers)

/-- `WriteUnbuffered`. -/
def writeUnbuffered (f : PosixWritableFile) (answers : List WriteAnswer) (data : Slice) :
    Option (Status × PosixWritableFile × List WriteAnswer) :=
  if data ≠ [] ∧ f.isOpen = false then some (posixError f.filename badFileDescriptor, f, answers)
  else
    (writeLoop f.filename answers data f.written).map fun (status, written, answers) =>
      (status, { f with written := written }, answers)

/-- `FlushBuffer`: the buffer is empty afterwards, whatever the status. -/
def flushBuffer (f : PosixWritableFile) (answers : List WriteAnswer) :
    Option (Status × PosixWritableFile × List WriteAnswer) :=
  match f.writeUnbuffered answers f.buf with
  | none => none
  | some (status, f, answers) => some (status, { f with buf := [], length_buf_le := Nat.zero_le _ }, answers)

/-- The part of `Append` that fits into the buffer. -/
def fill (f : PosixWritableFile) (data : Slice) : PosixWritableFile :=
  { f with
    buf := f.buf ++ data.take (kWritableFileBufferSize - f.buf.length)
    length_buf_le := by
      have := f.length_buf_le
      rw [length_append, length_take]
      omega }

/-- `PosixWritableFile::Append`. -/
def append (f : PosixWritableFile) (data : Slice) (answers : List WriteAnswer) :
    Option (Status × PosixWritableFile) :=
  let rest := data.drop (kWritableFileBufferSize - f.buf.length)
  let f := f.fill data
  if rest.length = 0 then some (.ok, f)
  else
    match f.flushBuffer answers with
    | none => none
    | some (.error code message, f, _) => some (.error code message, f)
    | some (.ok, f, answers) =>
      if h : rest.length < kWritableFileBufferSize then
        some (.ok, { f with buf := rest, length_buf_le := Nat.le_of_lt h })
      else (f.writeUnbuffered answers rest).map fun (status, f, _) => (status, f)

/-- `PosixWritableFile::Flush`. -/
def flush (f : PosixWritableFile) (answers : List WriteAnswer) : Option (Status × PosixWritableFile) :=
  (f.flushBuffer answers).map fun (status, f, _) => (status, f)

/-- A system call other than `::write`. -/
def statusOf (context : Slice) : Option Errno → Status
  | none => .ok
  | some e => posixError context e

/-- `SyncFd` of the file itself. -/
def syncFd (f : PosixWritableFile) (answer : Option Errno) : Status :=
  statusOf f.filename (if f.isOpen then answer else some badFileDescriptor)

/-- `SyncDirIfManifest`. -/
def syncDirIfManifest (f : PosixWritableFile) (answers : SysAnswers) : Status :=
  if f.isManifest then
    match answers.openDir with
    | some e => posixError (dirname f.filename) e
    | none => statusOf (dirname f.filename) answers.syncDir
  else .ok

/-- `PosixWritableFile::Sync`. -/
def sync (f : PosixWritableFile) (answers : SysAnswers) : Option (Status × PosixWritableFile) :=
  match f.syncDirIfManifest answers with
  | .error code message => some (.error code message, f)
  | .ok =>
    match f.flushBuffer answers.writes with
    | none => none
    | some (.error code message, f, _) => some (.error code message, f)
    | some (.ok, f, _) => some (f.syncFd answers.syncFd, f)

/-- `PosixWritableFile::Close`. -/
def close (f : PosixWritableFile) (answers : SysAnswers) : Option (Status × PosixWritableFile) :=
  match f.flushBuffer answers.writes with
  | none => none
  | some (status, f, _) =>
    let closed := statusOf f.filename (if f.isOpen then answers.closeFd else some badFileDescriptor)
    some (if status.isOk then closed else status, { f with isOpen := false })

end PosixWritableFile

/-! ## Runs -/

/-- The calls on a file. -/
inductive FileCall where
  | append (data : Slice)
  | flush
  | sync
  | close
  deriving DecidableEq, Repr

/-- What a call appends. -/
def FileCall.data : FileCall → Slice
  | .append data => data
  | _ => []

namespace PosixWritableFile

/-- A call with the answers it gets. -/
def call (f : PosixWritableFile) (answers : SysAnswers) : FileCall → Option (Status × PosixWritableFile)
  | .append data => f.append data answers.writes
  | .flush => f.flush answers.writes
  | .sync => f.sync answers
  | .close => f.close answers

/-- The runs in which every call returns OK. -/
def step (f : PosixWritableFile) (c : FileCall × SysAnswers) : Option PosixWritableFile :=
  match f.call c.2 c.1 with
  | some (.ok, g) => some g
  | _ => none

/-! ## What a call does -/

variable {f g : PosixWritableFile} {answers rest : List WriteAnswer} {data : Slice}

theorem posixError_ne_ok (context : Slice) (e : Errno) : posixError context e ≠ .ok := by
  rw [posixError]
  split_ifs <;> exact Status.noConfusion

/-- **Writes that succeed write all**, however often they are cut short or interrupted. -/
theorem writeLoop_ok {filename written written' : Slice}
    (h : writeLoop filename answers data written = some (.ok, written', rest)) :
    written' = written ++ data := by
  induction answers generalizing data written with
  | nil =>
    cases data with
    | nil =>
      cases h
      rw [append_nil]
    | cons b bs => cases h
  | cons answer answers ih =>
    cases data with
    | nil =>
      cases h
      rw [append_nil]
    | cons b bs =>
      cases answer with
      | wrote n =>
        rw [ih h, append_assoc, take_append_drop]
      | failed e =>
        grind [writeLoop, posixError_ne_ok]

theorem writeUnbuffered_ok (h : f.writeUnbuffered answers data = some (.ok, g, rest)) :
    g = { f with written := f.written ++ data } := by
  rw [writeUnbuffered] at h
  split_ifs at h with hclosed
  · grind [posixError_ne_ok]
  · obtain ⟨⟨status, written, answers⟩, hloop, ⟨⟩⟩ := Option.map_eq_some_iff.mp h
    rw [writeLoop_ok hloop]

theorem flushBuffer_ok (h : f.flushBuffer answers = some (.ok, g, rest)) :
    g = { f with written := f.written ++ f.buf, buf := [], length_buf_le := Nat.zero_le _ } := by
  rw [flushBuffer] at h
  rcases hwrite : f.writeUnbuffered answers f.buf with _ | ⟨status, f', answers'⟩
  · rw [hwrite] at h
    cases h
  · rw [hwrite] at h
    cases h
    rw [writeUnbuffered_ok hwrite]

theorem append_ok (h : f.append data answers = some (.ok, g)) :
    g.written ++ g.buf = f.written ++ f.buf ++ data ∧ f.written <+: g.written := by
  have hsplit : f.buf ++ data = (f.fill data).buf ++ data.drop (kWritableFileBufferSize - f.buf.length) := by
    rw [fill, append_assoc, take_append_drop]
  rw [append_assoc, hsplit, ← append_assoc]
  rw [append] at h
  simp only at h
  by_cases hfits : (data.drop (kWritableFileBufferSize - f.buf.length)).length = 0
  · rw [if_pos hfits] at h
    cases h
    rw [length_eq_zero_iff.mp hfits, append_nil]
    exact ⟨rfl, prefix_refl _⟩
  · rw [if_neg hfits] at h
    rcases hflush : (f.fill data).flushBuffer answers with _ | ⟨_ | ⟨code, message⟩, f', answers'⟩
    · rw [hflush] at h
      cases h
    · rw [hflush] at h
      have hf' := flushBuffer_ok hflush
      simp only at h
      split_ifs at h with hsmall
      · -- the rest goes to the empty buffer
        cases h
        rw [hf']
        exact ⟨rfl, prefix_append _ _⟩
      · -- the rest goes to the file
        obtain ⟨⟨status, g', answers''⟩, hwrite, heq⟩ := Option.map_eq_some_iff.mp h
        obtain ⟨rfl, rfl⟩ := Prod.mk.inj heq
        rw [writeUnbuffered_ok hwrite, hf', append_nil]
        exact ⟨rfl, (prefix_append _ _).trans (prefix_append _ _)⟩
    · rw [hflush] at h
      cases h

theorem flush_ok (h : f.flush answers = some (.ok, g)) : g.written = f.written ++ f.buf ∧ g.buf = [] := by
  obtain ⟨⟨status, g', answers'⟩, hflush, heq⟩ := Option.map_eq_some_iff.mp h
  obtain ⟨rfl, rfl⟩ := Prod.mk.inj heq
  rw [flushBuffer_ok hflush]
  exact ⟨rfl, rfl⟩

variable {ans : SysAnswers}

theorem sync_ok (h : f.sync ans = some (.ok, g)) : g.written = f.written ++ f.buf ∧ g.buf = [] := by
  rw [sync] at h
  rcases hdir : f.syncDirIfManifest ans with _ | ⟨code, message⟩
  · rw [hdir] at h
    rcases hflush : f.flushBuffer ans.writes with _ | ⟨_ | ⟨code, message⟩, f', answers'⟩
    · rw [hflush] at h
      cases h
    · rw [hflush] at h
      obtain ⟨-, rfl⟩ := Prod.mk.inj (Option.some.inj h)
      rw [flushBuffer_ok hflush]
      exact ⟨rfl, rfl⟩
    · rw [hflush] at h
      cases h
  · rw [hdir] at h
    cases h

theorem close_ok (h : f.close ans = some (.ok, g)) : g.written = f.written ++ f.buf ∧ g.buf = [] := by
  rw [close] at h
  rcases hflush : f.flushBuffer ans.writes with _ | ⟨_ | ⟨code, message⟩, f', answers'⟩
  · rw [hflush] at h
    cases h
  · rw [hflush] at h
    obtain ⟨-, rfl⟩ := Prod.mk.inj (Option.some.inj h)
    rw [flushBuffer_ok hflush]
    exact ⟨rfl, rfl⟩
  · rw [hflush] at h
    cases h

/-- **A call that succeeds** adds its data, and all but `Append` empty the buffer. -/
theorem step_spec {c : FileCall × SysAnswers} (h : f.step c = some g) :
    g.written ++ g.buf = f.written ++ f.buf ++ c.1.data ∧ f.written <+: g.written ∧
      (c.1 = .append c.1.data ∨ g.buf = []) := by
  obtain ⟨c, ans⟩ := c
  have hcall : f.call ans c = some (.ok, g) := by
    grind [step]
  -- the three calls that flush
  have hflushed (hdata : c.data = []) (hg : g.written = f.written ++ f.buf ∧ g.buf = []) :
      g.written ++ g.buf = f.written ++ f.buf ++ c.data ∧ f.written <+: g.written ∧
        (c = .append c.data ∨ g.buf = []) := by
    grind
  cases c with
  | append data => exact ⟨(append_ok hcall).1, (append_ok hcall).2, .inl rfl⟩
  | flush => exact hflushed rfl (flush_ok hcall)
  | sync => exact hflushed rfl (sync_ok hcall)
  | close => exact hflushed rfl (close_ok hcall)

/-! ## Calls return -/

theorem writeLoop_returns (filename : Slice) (hanswers : ∀ a ∈ answers, a.Harmless) (written : Slice)
    (hmany : data.length ≤ answers.countP WriteAnswer.isWrote) :
    ∃ rest, writeLoop filename answers data written = some (.ok, written ++ data, rest) ∧
      (∀ a ∈ rest, a.Harmless) ∧ answers.countP WriteAnswer.isWrote ≤ rest.countP WriteAnswer.isWrote +
        data.length := by
  induction answers generalizing data written with
  | nil =>
    obtain rfl := length_eq_zero_iff.mp (Nat.le_zero.mp hmany)
    grind [writeLoop]
  | cons answer answers ih =>
    cases data with
    | nil => exact ⟨_, by rw [writeLoop, append_nil], hanswers, Nat.le_refl _⟩
    | cons b bs =>
      have hanswer := hanswers answer mem_cons_self
      have htail : ∀ a ∈ answers, a.Harmless := fun a ha => hanswers a (mem_cons_of_mem answer ha)
      rw [countP_cons] at hmany ⊢
      cases answer with
      | wrote n =>
        rw [WriteAnswer.isWrote, if_pos rfl] at hmany ⊢
        have hn : 0 < n := hanswer
        have hdrop : ((b :: bs).drop n).length + 1 ≤ (b :: bs).length := by
          rw [length_drop, length_cons]
          omega
        have hmany' : ((b :: bs).drop n).length ≤ answers.countP WriteAnswer.isWrote := by omega
        obtain ⟨rest, hloop, hrest, hcount⟩ := ih htail (written ++ (b :: bs).take n) hmany'
        grind [writeLoop, take_append_drop]
      | failed e =>
        rw [WriteAnswer.isWrote, if_neg Bool.false_ne_true, Nat.add_zero] at hmany ⊢
        obtain ⟨rest, hloop, hrest, hcount⟩ := ih htail written hmany
        refine ⟨rest, ?_, hrest, hcount⟩
        have hintr : e.number = kEINTR := hanswer
        rw [writeLoop, if_pos hintr, hloop]

theorem writeUnbuffered_returns (hopen : f.isOpen = true) (hanswers : ∀ a ∈ answers, a.Harmless)
    (hmany : data.length ≤ answers.countP WriteAnswer.isWrote) :
    ∃ rest, f.writeUnbuffered answers data = some (.ok, { f with written := f.written ++ data }, rest) ∧
      (∀ a ∈ rest, a.Harmless) ∧
      answers.countP WriteAnswer.isWrote ≤ rest.countP WriteAnswer.isWrote + data.length := by
  obtain ⟨rest, hloop, hrest⟩ := writeLoop_returns f.filename hanswers f.written hmany
  grind [writeUnbuffered]

theorem flushBuffer_returns (hopen : f.isOpen = true) (hanswers : ∀ a ∈ answers, a.Harmless)
    (hmany : f.buf.length ≤ answers.countP WriteAnswer.isWrote) :
    ∃ g rest, f.flushBuffer answers = some (.ok, g, rest) ∧ g.isOpen = true ∧ (∀ a ∈ rest, a.Harmless) ∧
      answers.countP WriteAnswer.isWrote ≤ rest.countP WriteAnswer.isWrote + f.buf.length := by
  grind [writeUnbuffered_returns, flushBuffer]

end PosixWritableFile

/-- **The operating system does its part in a call**: no system call fails, and the writes are enough for the
buffer and the data even if each takes only a byte. -/
structure SysAnswers.Serves (ans : SysAnswers) (c : FileCall) : Prop where
  harmless : ∀ a ∈ ans.writes, a.Harmless
  enough : c.data.length + kWritableFileBufferSize ≤ ans.writes.countP WriteAnswer.isWrote
  openDir : ans.openDir = none
  syncDir : ans.syncDir = none
  syncFd : ans.syncFd = none
  closeFd : ans.closeFd = none

namespace PosixWritableFile

variable {f : PosixWritableFile} {data : Slice} {c : FileCall} {ans : SysAnswers}

/-- **Data that fits into the buffer is taken** without a call of the operating system. -/
theorem append_fits (hfits : f.buf.length + data.length ≤ kWritableFileBufferSize)
    (answers : List WriteAnswer) :
    f.append data answers = some (.ok, f.fill data) := by
  rw [append]
  exact if_pos (by rw [length_drop]; omega)

theorem append_returns (hopen : f.isOpen = true) (hans : ans.Serves (.append data)) :
    ∃ g, f.append data ans.writes = some (.ok, g) ∧ g.isOpen = true := by
  have henough : data.length + kWritableFileBufferSize ≤ ans.writes.countP WriteAnswer.isWrote := hans.enough
  by_cases hfits : f.buf.length + data.length ≤ kWritableFileBufferSize
  · exact ⟨_, append_fits hfits _, hopen⟩
  · rw [append]
    simp only
    have hbuf := f.length_buf_le
    rw [if_neg (by rw [length_drop]; omega)]
    have hfill := (f.fill data).length_buf_le
    obtain ⟨f', rest, hflush, hopen', hrest, hcount⟩ :=
      (f.fill data).flushBuffer_returns hopen hans.harmless (by omega)
    rw [hflush]
    simp only
    split_ifs with hsmall
    · exact ⟨_, rfl, hopen'⟩
    · have hdrop : (data.drop (kWritableFileBufferSize - f.buf.length)).length ≤
          rest.countP WriteAnswer.isWrote := by
        rw [length_drop]
        omega
      grind [writeUnbuffered_returns]

theorem step_returns (hopen : f.isOpen = true) (hans : ans.Serves c) :
    ∃ g, f.step (c, ans) = some g ∧ (c ≠ .close → g.isOpen = true) := by
  have hbuf := f.length_buf_le
  have henough := hans.enough
  obtain ⟨f', rest, hflush, hopen', -⟩ := f.flushBuffer_returns hopen hans.harmless (by omega)
  suffices hcall : ∃ g, f.call ans c = some (.ok, g) ∧ (c ≠ .close → g.isOpen = true) by
    grind [step]
  cases c with
  | append data =>
    obtain ⟨g, hg, hgopen⟩ := append_returns hopen hans
    exact ⟨g, hg, fun _ => hgopen⟩
  | flush =>
    grind [call, flush]
  | sync =>
    refine ⟨f', ?_, fun _ => hopen'⟩
    have hdir : f.syncDirIfManifest ans = .ok := by
      rw [syncDirIfManifest, hans.openDir, hans.syncDir]
      split_ifs <;> rfl
    rw [call, sync, hdir]
    simp only [hflush]
    rw [syncFd, if_pos hopen', hans.syncFd]
    rfl
  | close =>
    refine ⟨{ f' with isOpen := false }, ?_, fun h => absurd rfl h⟩
    rw [call, close, hflush]
    simp only [Status.isOk_ok, if_pos]
    rw [if_pos hopen', hans.closeFd]
    rfl

end PosixWritableFile

/-! ## Whole runs -/

section Runs

variable {filename : Slice} {calls : List (FileCall × SysAnswers)} {f : PosixWritableFile}

theorem bytes_run (hrun : run PosixWritableFile.step (.new filename) calls = some f) :
    f.written ++ f.buf = calls.flatMap (fun c => c.1.data) ∧
      ∀ c ∈ calls.getLast?, c.1 = .append c.1.data ∨ f.buf = [] := by
  induction calls using List.reverseRecOn generalizing f with
  | nil =>
    cases hrun
    exact ⟨rfl, fun c hc => absurd hc (by simp)⟩
  | append_singleton calls c ih =>
    obtain ⟨f', hf', hstep⟩ := run_concat_eq_some.mp hrun
    grind [PosixWritableFile.step_spec]

theorem run_returns (hserves : ∀ c ∈ calls, c.2.Serves c.1) (hclose : ∀ c ∈ calls.dropLast, c.1 ≠ .close) :
    ∃ f, run PosixWritableFile.step (.new filename) calls = some f := by
  rcases eq_nil_or_concat calls with rfl | ⟨before, last, rfl⟩
  · exact ⟨_, rfl⟩
  · rw [concat_eq_append] at hserves hclose ⊢
    rw [dropLast_concat] at hclose
    have hstep (f : PosixWritableFile) (c : FileCall × SysAnswers) (hopen : f.isOpen = true)
        (hc : c.2.Serves c.1 ∧ c.1 ≠ .close) : ∃ g, f.step c = some g ∧ g.isOpen = true := by
      grind [PosixWritableFile.step_returns]
    have hopen : (PosixWritableFile.new filename).isOpen = true := rfl
    -- the file stays open up to the last call
    obtain ⟨f, hrun, hfopen⟩ := run_progress hstep hopen (along_of_forall fun c hc =>
      ⟨hserves c (mem_append_left _ hc), hclose c hc⟩)
    obtain ⟨g, hg, -⟩ := PosixWritableFile.step_returns hfopen
      (hserves last (mem_append_right _ mem_cons_self))
    exact ⟨g, run_concat_eq_some.mpr ⟨f, hrun, hg⟩⟩

/-- **File and buffer hold what has been appended**, in every run without a failing call, and all of it is in
the file after a call that is not `Append`. Every sequence of calls that the operating system serves is such a
run, as long as nothing follows `Close`. -/
theorem posixWritableFile_bytes (filename : Slice) (calls : List (FileCall × SysAnswers)) :
    (∀ f, run PosixWritableFile.step (.new filename) calls = some f →
      f.written ++ f.buf = calls.flatMap (fun c => c.1.data) ∧
      (∀ c ∈ calls.getLast?, c.1 ∈ [.flush, .sync, .close] →
        f.buf = [] ∧ f.written = calls.flatMap (fun c => c.1.data))) ∧
    ((∀ c ∈ calls, c.2.Serves c.1) → (∀ c ∈ calls.dropLast, c.1 ≠ .close) →
      ∃ f, run PosixWritableFile.step (.new filename) calls = some f) := by
  refine ⟨fun f hrun => ?_, run_returns⟩
  grind [bytes_run]

/-- Three bytes are flushed although the first write takes one of them and the second is interrupted. -/
theorem posixWritableFile_bytes_short_write :
    let answers : SysAnswers := { writes := .wrote 1 :: .failed ⟨kEINTR, []⟩ :: replicate 65539 (.wrote 2) }
    ∃ f, run PosixWritableFile.step (.new []) [(.append [1, 2, 3], answers), (.flush, answers)] = some f ∧
      f.buf = [] ∧ f.written = [1, 2, 3] := by
  intro answers
  have hharmless : ∀ a ∈ answers.writes, a.Harmless := by
    simp only [answers, mem_cons, mem_replicate]
    rintro a (rfl | rfl | ⟨-, rfl⟩)
    · exact Nat.one_pos
    · rfl
    · exact Nat.two_pos
  have hcount : 65539 ≤ answers.writes.countP WriteAnswer.isWrote := by
    simp only [answers, countP_cons, countP_replicate, WriteAnswer.isWrote, if_true]
    omega
  have hserves (c : FileCall) (hc : c.data.length ≤ 3) : answers.Serves c :=
    ⟨hharmless, by have : kWritableFileBufferSize = 65536 := rfl; omega, rfl, rfl, rfl, rfl⟩
  obtain ⟨hbytes, hreturns⟩ :=
    posixWritableFile_bytes [] [(.append [1, 2, 3], answers), (.flush, answers)]
  obtain ⟨f, hrun⟩ := hreturns
    (by rintro c (_ | ⟨_, _ | ⟨_, ⟨⟩⟩⟩) <;> exact hserves _ (by decide))
    (by rintro c (_ | ⟨_, ⟨⟩⟩); exact FileCall.noConfusion)
  exact ⟨f, hrun, (hbytes f hrun).2 _ rfl (by decide)⟩

/-! ## The files of `Env` -/

/-- The call on a file of `Env`. -/
def WritableFile.apply (file : WritableFile) : FileCall → WritableFile
  | .append data => (file.append data).1
  | _ => file.flush.1

/-- What a file of `Env` says of the bytes: it holds what is in the file and in the buffer, and what it has
flushed is in the file. -/
structure PosixWritableFile.Shows (f : PosixWritableFile) (file : WritableFile) : Prop where
  contents : file.contents = f.written ++ f.buf
  flushed : file.flushed ≤ f.written.length
  faults : file.faults = []

theorem PosixWritableFile.Shows.apply {g : PosixWritableFile} {file : WritableFile}
    {c : FileCall × SysAnswers} (h : f.Shows file) (hstep : f.step c = some g) :
    g.Shows (file.apply c.1) := by
  obtain ⟨hbytes, hgrows, hbuf⟩ := step_spec hstep
  have hflushed : file.flushed ≤ g.written.length := h.flushed.trans hgrows.length_le
  obtain ⟨c, ans⟩ := c
  have hempty (hc : ∀ data, c ≠ .append data) (hdata : c.data = []) :
      g.Shows ⟨file.contents, file.contents.length, []⟩ := by
    grind [Shows]
  cases c with
  | append data =>
    rw [WritableFile.apply, WritableFile.append, h.faults]
    exact ⟨by rw [hbytes, h.contents]; rfl, hflushed, rfl⟩
  | flush | sync | close =>
    rw [WritableFile.apply, WritableFile.flush, h.faults]
    · exact hempty (fun _ => FileCall.noConfusion) rfl
    · exact fun _ => FileCall.noConfusion

/-- **A run on a file shows the run of the file of `Env`.** -/
theorem shows_run (hrun : run PosixWritableFile.step (.new filename) calls = some f) :
    f.Shows (calls.foldl (fun file c => file.apply c.1) { contents := [] }) := by
  induction calls using List.reverseRecOn generalizing f with
  | nil =>
    cases hrun
    exact ⟨rfl, Nat.zero_le _, rfl⟩
  | append_singleton calls c ih =>
    obtain ⟨f', hf', hstep⟩ := run_concat_eq_some.mp hrun
    rw [foldl_append, foldl_cons, foldl_nil]
    exact (ih hf').apply hstep

/-- One byte is flushed and one is in the buffer. -/
theorem shows_run_flush :
    let calls : List (FileCall × SysAnswers) :=
      [(.append [1], { writes := [] }), (.flush, { writes := [.wrote 1] }), (.append [2], { writes := [] })]
    ∃ f, run PosixWritableFile.step (.new []) calls = some f ∧ f.Shows ⟨[1, 2], 1, []⟩ := by
  intro calls
  exact ⟨_, rfl, @shows_run [] calls _ rfl⟩

end Runs

end RocketDb
