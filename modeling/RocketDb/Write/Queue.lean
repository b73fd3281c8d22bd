import RocketDb.Flush.BuildTable
import RocketDb.Write.Batch

/-! # The queue of writers (`DBImpl::Write`, `BuildBatchGroup`, `MakeRoomForWrite`)

Every call of `Write` puts a writer at the end of `writers_` and waits until it is done or at the front. The
writer at the front is the leader: it makes room in the memtable, takes a group of writers off the front, and
logs and inserts their batches as one, with the mutex released. Then it publishes the new last sequence
number, tells the others that they are done, and wakes the new front. A writer without a batch only asks for a
new memtable.

A step is what a thread does from one look at the shared state to the next, or one thing that the leader does
without the mutex; the steps of all threads interleave in any way. The code keeps the mutex for several steps
in a row, so its interleavings are among these.

* **`buildBatchGroup`** — the writers that a leader takes, and their batches in one.
* **`WriteState.step`** — one step of one thread, or the end of a memtable flush.
* **`WriteState.Moves`** — what a step can do, case by case. -/

namespace RocketDb

open List

/-! ## Batch groups -/

/-- `DBImpl::Writer`: one call of `Write`, with the records of its batch if it has one. -/
structure DBWriter where
  id : ℕ
  batch : Option (List Op)
  sync : Bool
  deriving DecidableEq, Repr

namespace DBWriter

/-- The records of the batch. -/
def ops (w : DBWriter) : List Op := w.batch.getD []

/-- The batch that the caller has built. -/
def contents (w : DBWriter) : WriteBatch := .ofOps w.ops

end DBWriter

/-- The loop of `BuildBatchGroup`. `tmp` is `tmp_batch_` once it is the result, and `none` as long
as the result is the batch of the first writer. -/
def batchGroupLoop (first : DBWriter) (maxSize : ℕ) :
    ℕ → Option WriteBatch → List DBWriter → Option WriteBatch × List DBWriter
  | _, tmp, [] => (tmp, [])
  | size, tmp, w :: ws =>
    -- do not include a sync write into a batch handled by a non-sync write
    if w.sync && !first.sync then (tmp, [])
    else
      match w.batch with
      | none =>
        let r := batchGroupLoop first maxSize size tmp ws
        (r.1, w :: r.2)
      | some _ =>
        let size := size + w.contents.byteSize
        if maxSize < size then (tmp, [])
        else
          let tmp := (tmp.getD (WriteBatch.clear.append first.contents)).append w.contents
          let r := batchGroupLoop first maxSize size (some tmp) ws
          (r.1, w :: r.2)

/-- The most bytes a group may have, by the size of the first batch. -/
def maxGroupSize (size : ℕ) : ℕ := if size ≤ 128 * 2 ^ 10 then size + 128 * 2 ^ 10 else 2 ^ 20

/-- **`BuildBatchGroup`**: the batch to be written, and the writers behind the first one up to
`last_writer`. -/
def buildBatchGroup (first : DBWriter) (rest : List DBWriter) : WriteBatch × List DBWriter :=
  let size := first.contents.byteSize
  let r := batchGroupLoop first (maxGroupSize size) size none rest
  (r.1.getD first.contents, r.2)

/-! ### The members of a group -/

/-- What a writer adds to the size of a group. -/
def DBWriter.bytes (w : DBWriter) : ℕ := if w.batch.isSome then w.contents.byteSize else 0

/-- What the writers add to the size of a group. -/
def groupBytes (ws : List DBWriter) : ℕ := (ws.map DBWriter.bytes).sum

/-- The writers `ws` right behind `first` are within its reach: no sync write joins a write without
sync, and the batches fit the size limit, if there are any. -/
def InReach (first : DBWriter) (ws : List DBWriter) : Prop :=
  (∀ x ∈ ws, x.sync → first.sync) ∧
    (groupBytes ws = 0 ∨
      first.contents.byteSize + groupBytes ws ≤ maxGroupSize first.contents.byteSize)

instance decidableInReach (first : DBWriter) (ws : List DBWriter) : Decidable (InReach first ws) :=
  inferInstanceAs (Decidable (_ ∧ _))

theorem DBWriter.bytes_of_none {w : DBWriter} (h : w.batch = none) : w.bytes = 0 := by
  simp [bytes, h]

theorem DBWriter.bytes_of_some {w : DBWriter} {ops : List Op} (h : w.batch = some ops) :
    w.bytes = w.contents.byteSize := by
  simp [bytes, h]

theorem DBWriter.contents_pos (w : DBWriter) : 0 < w.contents.byteSize :=
  Nat.lt_of_lt_of_le (by decide) (WriteBatch.holds_ofOps w.ops).byteSize_ge

/-- A group is a first part of the queue, as far as each member may join. -/
theorem prefix_batchGroupLoop {first : DBWriter} {maxSize : ℕ} {rest ws : List DBWriter}
    (size : ℕ) (tmp : Option WriteBatch) :
    ws <+: (batchGroupLoop first maxSize size tmp rest).2 ↔
      ws <+: rest ∧ (∀ x ∈ ws, x.sync → first.sync) ∧
        (groupBytes ws = 0 ∨ size + groupBytes ws ≤ maxSize) := by
  induction rest generalizing size tmp ws with
  | nil =>
    rw [batchGroupLoop, prefix_nil]
    refine ⟨?_, And.left⟩
    rintro rfl
    exact ⟨rfl, by simp, .inl rfl⟩
  | cons w rest ih =>
    cases ws with
    | nil => simp [groupBytes]
    | cons x ws =>
      have hsum : groupBytes (x :: ws) = x.bytes + groupBytes ws := by simp [groupBytes]
      rw [batchGroupLoop, cons_prefix_cons, forall_mem_cons, hsum]
      split <;> rename_i hsync
      · -- a sync write behind a leader without sync
        grind
      have hw : w.sync = true → first.sync = true := by simpa using hsync
      split <;> rename_i hbatch
      · grind [DBWriter.bytes_of_none]
      · have hbytes := DBWriter.bytes_of_some hbatch
        have hpos := w.contents_pos
        -- too large already with this writer
        grind

/-- **A leader takes the longest part of the queue within its reach.** -/
theorem prefix_buildBatchGroup {first : DBWriter} {rest ws : List DBWriter} :
    ws <+: (buildBatchGroup first rest).2 ↔ ws <+: rest ∧ InReach first ws :=
  prefix_batchGroupLoop _ _

theorem buildBatchGroup_front (first : DBWriter) (rest : List DBWriter) :
    (buildBatchGroup first rest).2 <+: rest :=
  (prefix_buildBatchGroup.mp (prefix_refl _)).1

theorem buildBatchGroup_inReach (first : DBWriter) (rest : List DBWriter) :
    InReach first (buildBatchGroup first rest).2 :=
  (prefix_buildBatchGroup.mp (prefix_refl _)).2

/-! ## The state -/

/-- A batch with the sequence number of its first record. -/
abbrev NumberedWrite := DBWriter × ℕ

/-- The writers with a batch, numbered from `seq` on. -/
def numberedWrites (seq : ℕ) : List DBWriter → List NumberedWrite
  | [] => []
  | w :: ws =>
    match w.batch with
    | none => numberedWrites seq ws
    | some ops => (w, seq) :: numberedWrites (seq + ops.length) ws

/-- A memtable. `writes` records the batches that were inserted, in order. -/
structure MemTableState where
  entries : List Entry
  writes : List NumberedWrite
  deriving DecidableEq, Repr

/-- A new memtable. -/
def MemTableState.empty : MemTableState := ⟨[], []⟩

/-- How far a leader is with its group. -/
inductive GroupPhase where
  | assigned
  /-- `AddRecord` has returned. -/
  | logged (status : Status)
  /-- `Sync` has returned. -/
  | synced (status : Status)
  /-- `InsertInto` has returned. -/
  | inserted (status : Status)
  deriving DecidableEq, Repr

/-- A group of writers whose leader has released the mutex. -/
structure CommitGroup where
  /-- The writers that the leader has taken. -/
  followers : List DBWriter
  /-- The batch, with its sequence number set. -/
  batch : WriteBatch
  /-- The last sequence number to be published. -/
  lastSequence : ℕ
  phase : GroupPhase
  deriving DecidableEq, Repr

/-- Where a call of `Write` is. -/
inductive WriterPc where
  /-- In the loop that waits to be done or at the front. `Wait` unsets `awake`, `Signal` sets
  it. -/
  | waiting (awake : Bool)
  /-- The leader, in `MakeRoomForWrite`. -/
  | makeRoom (force allowDelay : Bool)
  /-- The leader, with the mutex released. -/
  | unlocked (group : CommitGroup)
  | returned (status : Status)
  deriving DecidableEq, Repr

/-- The queue with what its writers share. -/
structure WriteState where
  queue : List DBWriter
  pc : ℕ → Option WriterPc
  /-- `done` and `status` of a writer. -/
  done : ℕ → Option Status
  mem : MemTableState
  imm : Option MemTableState
  /-- The memtables that were flushed. -/
  tables : List MemTableState
  /-- The tables of the current version that they were written to. -/
  files : List (FileMetaData × List Entry)
  lastSequence : ℕ
  /-- The records appended to the logs. -/
  log : List Slice
  bgError : Status
  /-- The result of the `TEST_CompactMemTable` that made the call. -/
  compacted : ℕ → Option Status
  /-- The writers in the order of their calls. No step depends on this field or the ones below. -/
  arrived : List DBWriter
  /-- The writers taken off the queue. -/
  left : List DBWriter
  /-- The writers whose call has returned OK. -/
  acknowledged : List DBWriter
  /-- The writers whose call had returned OK when a call was made. -/
  before : ℕ → List DBWriter

/-- The memtables from the oldest to the newest, those flushed included. -/
def WriteState.writes (s : WriteState) : List NumberedWrite :=
  s.tables.flatMap MemTableState.writes ++ (s.imm.elim [] MemTableState.writes ++ s.mem.writes)

/-- A database after `DB::Open`, which may have left writes in the memtable. What it has flushed was written
without pruning. -/
def WriteState.opened (tables : List MemTableState) (mem : MemTableState) (lastSequence : ℕ) :
    WriteState :=
  let earlier := (tables.flatMap MemTableState.writes ++ mem.writes).map Prod.fst
  { queue := []
    pc := fun i => if i ∈ earlier.map DBWriter.id then some (.returned .ok) else none
    done := fun _ => none
    mem := mem
    imm := none
    tables := tables
    files := tables.map fun t => buildTable .counting none 0 t.entries
    lastSequence := lastSequence
    log := []
    bgError := .ok
    compacted := fun _ => none
    arrived := earlier
    left := earlier
    acknowledged := earlier
    before := fun _ => [] }

/-! ## The steps -/

/-- `cv.Signal()` as the waiting thread sees it. -/
def WriterPc.wake : WriterPc → WriterPc
  | .waiting _ => .waiting true
  | p => p

theorem WriterPc.wake_comp_wake : WriterPc.wake ∘ WriterPc.wake = WriterPc.wake := by
  funext p
  cases p <;> rfl

namespace WriteState

/-- Set the place of a call. -/
def setPc (s : WriteState) (i : ℕ) (p : WriterPc) : WriteState :=
  { s with pc := Function.update s.pc i (some p) }

theorem setPc_self (s : WriteState) (i : ℕ) (p : WriterPc) : (s.setPc i p).pc i = some p :=
  Function.update_self ..

theorem setPc_of_ne (s : WriteState) {i j : ℕ} (p : WriterPc) (hj : j ≠ i) :
    (s.setPc i p).pc j = s.pc j :=
  Function.update_of_ne hj ..

/-- `cv.Signal()` of a writer. -/
def signal (s : WriteState) (i : ℕ) : WriteState :=
  { s with pc := Function.update s.pc i ((s.pc i).map WriterPc.wake) }

/-- The call of `w` begins. -/
def enter (s : WriteState) (w : DBWriter) : WriteState :=
  { s.setPc w.id (.waiting true) with
    queue := s.queue ++ [w]
    arrived := s.arrived ++ [w]
    before := Function.update s.before w.id s.acknowledged }

/-- The call of `w` returns. -/
def returns (s : WriteState) (w : DBWriter) (status : Status) : WriteState :=
  { s.setPc w.id (.returned status) with
    acknowledged := if status.isOk then s.acknowledged ++ [w] else s.acknowledged }

/-- `RecordBackgroundError`. -/
def recordBackgroundError (s : WriteState) (status : Status) : WriteState :=
  if s.bgError.isOk then { s with bgError := status } else s

/-- The loop that takes the writers up to `last` off the queue and tells them that they are
done. -/
def popReady (w last : ℕ) (status : Status) : List DBWriter → WriteState → WriteState
  | [], s => s
  | ready :: rest, s =>
    let s := { s with queue := rest, left := s.left ++ [ready] }
    let s :=
      if ready.id = w then s
      else signal { s with done := Function.update s.done ready.id (some status) } ready.id
    if ready.id = last then s else popReady w last status rest s

/-- Notify the new head of the queue. -/
def signalFront (s : WriteState) : WriteState :=
  match s.queue with
  | [] => s
  | front :: _ => s.signal front.id

/-- The end of `Write` for a leader. -/
def leave (s : WriteState) (w : DBWriter) (last : ℕ) (status : Status) : WriteState :=
  (popReady w.id last status s.queue s).signalFront.returns w status

/-- `BuildBatchGroup` and what follows before the mutex is released. -/
def startGroup (s : WriteState) (w : DBWriter) (rest : List DBWriter) : WriteState :=
  let r := buildBatchGroup w rest
  s.setPc w.id (.unlocked
    { followers := r.2
      batch := r.1.setSequence (UInt64.ofNat (s.lastSequence + 1))
      lastSequence := (s.lastSequence + r.1.count.toInt32.toInt64.toUInt64.toNat) % 2 ^ 64
      phase := .assigned })

end WriteState

/-- What the leader finds in one round of `MakeRoomForWrite`: the number of files in level 0,
whether the memtable is full, and the outcome of creating the new log and closing the old one. -/
structure RoomEnv where
  levelZeroFiles : ℕ
  full : Bool
  newLog : Status
  closeLog : Status
  deriving DecidableEq, Repr

/-- How `CompactMemTable` ends: its status, the bound for pruning that it captured, and the number and the
sizes of the table. -/
structure FlushEnv where
  status : Status := .ok
  smallestSnapshot : ℕ := 0
  number : ℕ := 0
  sizes : TableSizes := .counting

/-- The table that `CompactMemTable` writes. -/
def FlushEnv.table (ucmp : Comparator) (env : FlushEnv) (mem : MemTableState) : FileMetaData × List Entry :=
  buildTable env.sizes (some ⟨ucmp, env.smallestSnapshot⟩) env.number mem.entries

namespace WriteState

/-- `CompactMemTable` installs the table, if there is one, and drops `imm_`. -/
def installTable (s : WriteState) (mem : MemTableState) (table : FileMetaData × List Entry) : WriteState :=
  { s with
    imm := none
    tables := s.tables ++ [mem]
    files := if 0 < table.1.fileSize then s.files ++ [table] else s.files }

/-- The switch to a new memtable and a new log. -/
def switchMemTable (s : WriteState) (i : ℕ) (allowDelay : Bool) (closeLog : Status) :
    WriteState :=
  { s.setPc i (.makeRoom false allowDelay) with
    imm := some s.mem
    mem := .empty
    bgError := closeLog }

/-- One round of the loop of `MakeRoomForWrite`, and what `Write` does when the loop ends. -/
def makeRoom (s : WriteState) (w : DBWriter) (rest : List DBWriter) (force allowDelay : Bool)
    (env : RoomEnv) : WriteState :=
  if !s.bgError.isOk then s.leave w w.id s.bgError
  else if allowDelay && decide (kL0SlowdownWritesTrigger ≤ env.levelZeroFiles) then
    s.setPc w.id (.makeRoom force false)
  else if !force && !env.full then
    if w.batch.isSome then s.startGroup w rest else s.leave w w.id .ok
  -- wait for the flush of the immutable memtable, or for a compaction of level 0
  else if s.imm.isSome || decide (kL0SlowdownWritesTrigger ≤ env.levelZeroFiles) then s
  else if !env.newLog.isOk then s.leave w w.id env.newLog
  else s.switchMemTable w.id allowDelay env.closeLog

end WriteState

/-- The steps. The number is the writer's. -/
inductive WriteAction where
  /-- A call of `Write`. -/
  | enter (w : DBWriter)
  /-- A wake-up without a signal. -/
  | wake (i : ℕ)
  /-- A writer that is awake looks whether it is done or at the front. -/
  | check (i : ℕ)
  /-- A round of `MakeRoomForWrite`. -/
  | makeRoom (i : ℕ) (env : RoomEnv)
  | addRecord (i : ℕ) (status : Status)
  | sync (i : ℕ) (status : Status)
  | insert (i : ℕ)
  /-- The leader takes the mutex again and finishes. -/
  | finish (i : ℕ)
  /-- `CompactMemTable` ends. -/
  | flush (env : FlushEnv)
  /-- A round of the loop of `TEST_CompactMemTable`, after its `Write` has returned OK. -/
  | compactMemTable (i : ℕ)

/-- The status a leader finishes with, if it is through with its group. -/
def GroupPhase.result : GroupPhase → Option Status
  | .assigned => none
  | .logged status => if status.isOk then none else some status
  | .synced status => if status.isOk then none else some status
  | .inserted status => some status

namespace WriteState

variable (ucmp : Comparator)

/-- The leader, if it is writer `i` and has released the mutex. -/
def leader (s : WriteState) (i : ℕ) : Option (DBWriter × CommitGroup) :=
  match s.queue, s.pc i with
  | w :: _, some (.unlocked g) => if w.id = i then some (w, g) else none
  | _, _ => none

/-- `log_->AddRecord`. -/
def addRecord (s : WriteState) (i : ℕ) (g : CommitGroup) (status : Status) : WriteState :=
  { s.setPc i (.unlocked { g with phase := .logged status }) with
    log := if status.isOk then s.log ++ [g.batch.rep] else s.log }

/-- `InsertInto`. -/
def insert (s : WriteState) (w : DBWriter) (g : CommitGroup) : WriteState :=
  let r := g.batch.insertInto ucmp s.mem.entries
  { s.setPc w.id (.unlocked { g with phase := .inserted r.1 }) with
    mem := ⟨r.2, s.mem.writes ++ numberedWrites (s.lastSequence + 1) (w :: g.followers)⟩ }

/-- What the leader does after it has got the mutex back. -/
def finish (s : WriteState) (w : DBWriter) (g : CommitGroup) (status : Status) : WriteState :=
  let s := if g.phase = .synced status then s.recordBackgroundError status else s
  let s := { s with lastSequence := g.lastSequence }
  s.leave w ((w :: g.followers).getLast (cons_ne_nil _ _)).id status

/-- **One step** of the threads that write, or of the background thread. -/
def step (s : WriteState) : WriteAction → Option WriteState
  | .enter w =>
    if (s.pc w.id).isSome then none
    else some (s.enter w)
  | .wake i =>
    match s.pc i with
    | some (.waiting _) => some (s.setPc i (.waiting true))
    | _ => none
  | .check i =>
    match s.pc i, s.arrived.find? (fun w => w.id == i) with
    | some (.waiting true), some w =>
      match s.done i with
      | some status => some (s.returns w status)
      | none =>
        if s.queue.head? = some w then
          some (s.setPc w.id (.makeRoom w.batch.isNone w.batch.isSome))
        else some (s.setPc w.id (.waiting false))
    | _, _ => none
  | .makeRoom i env =>
    match s.pc i, s.queue with
    | some (.makeRoom force allowDelay), w :: rest =>
      if w.id = i then some (s.makeRoom w rest force allowDelay env) else none
    | _, _ => none
  | .addRecord i status =>
    match s.leader i with
    | none => none
    | some (w, g) => if g.phase = .assigned then some (s.addRecord w.id g status) else none
  | .sync i status =>
    match s.leader i with
    | none => none
    | some (w, g) =>
      if g.phase = .logged .ok ∧ w.sync then
        some (s.setPc w.id (.unlocked { g with phase := .synced status }))
      else none
  | .insert i =>
    match s.leader i with
    | none => none
    | some (w, g) =>
      if g.phase = (bif w.sync then GroupPhase.synced .ok else .logged .ok) then
        some (s.insert ucmp w g)
      else none
  | .finish i =>
    match s.leader i with
    | none => none
    | some (w, g) =>
      match g.phase.result with
      | none => none
      | some status => some (s.finish w g status)
  | .flush env =>
    match s.imm with
    | none => none
    | some mem =>
      if env.status.isOk then some (s.installTable mem (env.table ucmp mem))
      else some (s.recordBackgroundError env.status)
  | .compactMemTable i =>
    if s.pc i = some (.returned .ok) ∧ s.compacted i = none then
      if s.imm.isSome then
        if s.bgError.isOk then some s
        else some { s with compacted := Function.update s.compacted i (some s.bgError) }
      else some { s with compacted := Function.update s.compacted i (some .ok) }
    else none

/-! ## What a step can do -/

/-- What the end of `Write` makes of the state when the leader `w` has taken `followers` off the
queue and `rest` is left. -/
def release (s : WriteState) (w : DBWriter) (followers rest : List DBWriter) (status : Status) :
    WriteState :=
  { s with
    queue := rest
    left := s.left ++ w :: followers
    done := fun i => if i ∈ followers.map DBWriter.id then some status else s.done i
    pc := fun i =>
      if i = w.id then some (.returned status)
      else if i ∈ followers.map DBWriter.id ∨ i ∈ rest.head?.map DBWriter.id then
        (s.pc i).map WriterPc.wake
      else s.pc i
    acknowledged := if status.isOk then s.acknowledged ++ [w] else s.acknowledged }

variable {ucmp} {s s' : WriteState} {w : DBWriter} {rest : List DBWriter} {status : Status}

/-- One writer taken off the queue. -/
def pop (s : WriteState) (i : ℕ) (status : Status) (ready : DBWriter) (rest : List DBWriter) :
    WriteState :=
  { s with
    queue := rest
    left := s.left ++ [ready]
    done := fun j => if j = ready.id ∧ j ≠ i then some status else s.done j
    pc := fun j => if j = ready.id ∧ j ≠ i then (s.pc j).map WriterPc.wake else s.pc j }

theorem popReady_cons (i last : ℕ) (status : Status) (ready : DBWriter) (rest : List DBWriter)
    (s : WriteState) :
    popReady i last status (ready :: rest) s =
      if ready.id = last then s.pop i status ready rest
      else popReady i last status rest (s.pop i status ready rest) := by
  have hpop : (if ready.id = i then { s with queue := rest, left := s.left ++ [ready] }
      else signal { s with
        queue := rest
        left := s.left ++ [ready]
        done := Function.update s.done ready.id (some status) } ready.id) =
      s.pop i status ready rest := by
    split <;> rename_i hi
    · have hnone : ∀ j, ¬ (j = ready.id ∧ j ≠ i) := fun j h => h.2 (h.1.trans hi)
      simp only [pop, hnone, if_false]
    · have hiff : ∀ j, (j = ready.id ∧ j ≠ i) ↔ j = ready.id :=
        fun j => ⟨And.left, fun h => ⟨h, fun h' => hi (h.symm.trans h')⟩⟩
      simp only [pop, signal, hiff]
      congr 1 <;> funext j <;> by_cases hj : j = ready.id <;> simp [hj]
  rw [popReady, ← hpop]

/-- The loop at the end of `Write` pops the whole group. -/
theorem popReady_append (i : ℕ) (status : Status) {ms : List DBWriter} (hms : ms ≠ [])
    (hnodup : (ms.map DBWriter.id).Nodup) (rest : List DBWriter) (s : WriteState) :
    popReady i (ms.getLast hms).id status (ms ++ rest) s =
      { s with
        queue := rest
        left := s.left ++ ms
        done := fun j => if j ∈ ms.map DBWriter.id ∧ j ≠ i then some status else s.done j
        pc := fun j => if j ∈ ms.map DBWriter.id ∧ j ≠ i then (s.pc j).map WriterPc.wake
          else s.pc j } := by
  induction ms generalizing s with
  | nil => exact absurd rfl hms
  | cons x ms ih =>
    rw [cons_append, popReady_cons]
    by_cases hnil : ms = []
    · subst hnil
      rw [if_pos (by simp)]
      simp [pop]
    · have hx : x.id ∉ ms.map DBWriter.id := (nodup_cons.mp hnodup).1
      have hlast : x.id ≠ (ms.getLast hnil).id := fun h =>
        hx (h ▸ mem_map_of_mem (getLast_mem _))
      rw [getLast_cons hnil, if_neg hlast, ih hnil (nodup_cons.mp hnodup).2]
      simp only [pop, append_assoc, singleton_append, map_cons, mem_cons]
      -- `x` is not met again
      grind

/-- So the end of `Write` is `release`. -/
theorem leave_eq (followers : List DBWriter) (hq : s.queue = w :: (followers ++ rest))
    (hnodup : ((w :: followers).map DBWriter.id).Nodup) (status : Status) :
    s.leave w ((w :: followers).getLast (cons_ne_nil _ _)).id status =
      s.release w followers rest status := by
  have hw : w.id ∉ followers.map DBWriter.id := (nodup_cons.mp hnodup).1
  have hpop := popReady_append w.id status (cons_ne_nil w followers) hnodup rest s
  have hmem : ∀ j, (j ∈ (w :: followers).map DBWriter.id ∧ j ≠ w.id) ↔
      j ∈ followers.map DBWriter.id := by
    grind
  simp only [hmem] at hpop
  rw [leave, hq, ← cons_append, hpop, release]
  cases rest with
  | nil =>
    simp only [signalFront, returns, setPc, head?_nil, Option.map_none, Option.not_mem_none, or_false]
    congr 1
    funext j
    exact Function.update_apply ..
  | cons front rest =>
    simp only [signalFront, signal, returns, setPc, head?_cons, Option.map_some, Option.mem_some_iff]
    congr 1
    grind [Option.map_map, WriterPc.wake_comp_wake]

theorem leave_self (hq : s.queue = w :: rest) (status : Status) :
    s.leave w w.id status = s.release w [] rest status :=
  leave_eq [] hq (nodup_singleton _) status

variable (ucmp) in
/-- **What a step can do.** -/
inductive Moves (s : WriteState) : WriteAction → WriteState → Prop
  | enter {w : DBWriter} (hpc : s.pc w.id = none) :
      Moves s (.enter w) (s.enter w)
  | wake {i : ℕ} {awake : Bool} (hpc : s.pc i = some (.waiting awake)) :
      Moves s (.wake i) (s.setPc i (.waiting true))
  | returns {w : DBWriter} {status : Status} (hw : w ∈ s.arrived)
      (hpc : s.pc w.id = some (.waiting true)) (hdone : s.done w.id = some status) :
      Moves s (.check w.id) (s.returns w status)
  | lead {w : DBWriter} {rest : List DBWriter} (hq : s.queue = w :: rest)
      (hpc : s.pc w.id = some (.waiting true)) :
      Moves s (.check w.id) (s.setPc w.id (.makeRoom w.batch.isNone w.batch.isSome))
  | sleep {w : DBWriter} (hw : w ∈ s.arrived) (hpc : s.pc w.id = some (.waiting true))
      (hdone : s.done w.id = none) (hq : s.queue.head? ≠ some w) :
      Moves s (.check w.id) (s.setPc w.id (.waiting false))
  | fail {w : DBWriter} {rest : List DBWriter} {force allowDelay : Bool} {env : RoomEnv}
      {status : Status} (hq : s.queue = w :: rest)
      (hpc : s.pc w.id = some (.makeRoom force allowDelay)) (hstatus : status.isOk = false)
      (hcause : status = s.bgError ∨ status = env.newLog) :
      Moves s (.makeRoom w.id env) (s.release w [] rest status)
  | delay {w : DBWriter} {rest : List DBWriter} {force : Bool} {env : RoomEnv}
      (hq : s.queue = w :: rest) (hpc : s.pc w.id = some (.makeRoom force true)) :
      Moves s (.makeRoom w.id env) (s.setPc w.id (.makeRoom force false))
  | startGroup {w : DBWriter} {rest : List DBWriter} {allowDelay : Bool} {env : RoomEnv}
      (hq : s.queue = w :: rest) (hpc : s.pc w.id = some (.makeRoom false allowDelay))
      (hbatch : w.batch.isSome) (hfull : env.full = false) (hbg : s.bgError.isOk) :
      Moves s (.makeRoom w.id env) (s.startGroup w rest)
  | leaveNull {w : DBWriter} {rest : List DBWriter} {allowDelay : Bool} {env : RoomEnv}
      (hq : s.queue = w :: rest) (hpc : s.pc w.id = some (.makeRoom false allowDelay))
      (hbatch : w.batch = none) :
      Moves s (.makeRoom w.id env) (s.release w [] rest .ok)
  | wait {w : DBWriter} {rest : List DBWriter} {force allowDelay : Bool} {env : RoomEnv}
      (hq : s.queue = w :: rest) (hpc : s.pc w.id = some (.makeRoom force allowDelay)) :
      Moves s (.makeRoom w.id env) s
  | switchMemTable {w : DBWriter} {rest : List DBWriter} {force allowDelay : Bool} {env : RoomEnv}
      (hq : s.queue = w :: rest) (hpc : s.pc w.id = some (.makeRoom force allowDelay))
      (himm : s.imm = none) :
      Moves s (.makeRoom w.id env) (s.switchMemTable w.id allowDelay env.closeLog)
  | addRecord {w : DBWriter} {rest : List DBWriter} {g : CommitGroup} {status : Status}
      (hq : s.queue = w :: rest) (hpc : s.pc w.id = some (.unlocked g))
      (hphase : g.phase = .assigned) :
      Moves s (.addRecord w.id status) (s.addRecord w.id g status)
  | sync {w : DBWriter} {rest : List DBWriter} {g : CommitGroup} {status : Status}
      (hq : s.queue = w :: rest) (hpc : s.pc w.id = some (.unlocked g))
      (hphase : g.phase = .logged .ok) (hsync : w.sync) :
      Moves s (.sync w.id status) (s.setPc w.id (.unlocked { g with phase := .synced status }))
  | insert {w : DBWriter} {rest : List DBWriter} {g : CommitGroup}
      (hq : s.queue = w :: rest) (hpc : s.pc w.id = some (.unlocked g))
      (hphase : g.phase = (bif w.sync then GroupPhase.synced .ok else .logged .ok)) :
      Moves s (.insert w.id) (s.insert ucmp w g)
  | finish {w : DBWriter} {rest : List DBWriter} {g : CommitGroup} {status : Status}
      (hq : s.queue = w :: rest) (hpc : s.pc w.id = some (.unlocked g))
      (hresult : g.phase.result = some status) :
      Moves s (.finish w.id) (s.finish w g status)
  | flush {mem : MemTableState} {env : FlushEnv} (himm : s.imm = some mem) :
      Moves s (.flush env) (s.installTable mem (env.table ucmp mem))
  | flushFail {env : FlushEnv} (hstatus : env.status.isOk = false) :
      Moves s (.flush env) (s.recordBackgroundError env.status)
  | stillFlushing {i : ℕ} : Moves s (.compactMemTable i) s
  | compactFail {i : ℕ} (hpc : s.pc i = some (.returned .ok)) (hbg : s.bgError.isOk = false) :
      Moves s (.compactMemTable i)
        { s with compacted := Function.update s.compacted i (some s.bgError) }
  | compactDone {i : ℕ} (hpc : s.pc i = some (.returned .ok)) (himm : s.imm = none) :
      Moves s (.compactMemTable i)
        { s with compacted := Function.update s.compacted i (some .ok) }

theorem leader_eq_some {i : ℕ} {g : CommitGroup} (h : s.leader i = some (w, g)) :
    ∃ rest, s.queue = w :: rest ∧ w.id = i ∧ s.pc w.id = some (.unlocked g) := by
  unfold leader at h
  split at h <;> try contradiction
  rename_i x rest g' hq hpc
  split at h <;> try contradiction
  rename_i hid
  cases h
  exact ⟨rest, hq, hid, hid ▸ hpc⟩

theorem makeRoom_moves {force allowDelay : Bool} {env : RoomEnv} (hq : s.queue = w :: rest)
    (hpc : s.pc w.id = some (.makeRoom force allowDelay)) :
    Moves ucmp s (.makeRoom w.id env) (s.makeRoom w rest force allowDelay env) := by
  unfold makeRoom
  split <;> rename_i hbg
  · rw [leave_self hq]
    exact .fail hq hpc (by simpa using hbg) (.inl rfl)
  split <;> rename_i hdelay
  · obtain rfl : allowDelay = true := by simp_all
    exact .delay hq hpc
  split <;> rename_i hroom
  · obtain ⟨rfl, hfull⟩ : force = false ∧ env.full = false := by simpa using hroom
    split <;> rename_i hbatch
    · exact .startGroup hq hpc hbatch hfull (by simpa using hbg)
    · rw [leave_self hq]
      exact .leaveNull hq hpc (by simpa using hbatch)
  split <;> rename_i hwait
  · exact .wait hq hpc
  split <;> rename_i hlog
  · rw [leave_self hq]
    exact .fail hq hpc (by simpa using hlog) (.inr rfl)
  · refine .switchMemTable hq hpc ?_
    simp_all

/-- **Every step is one of the moves.** -/
theorem step_moves {a : WriteAction} (h : s.step ucmp a = some s') : Moves ucmp s a s' := by
  cases a <;> simp only [step] at h
  case enter w =>
    split at h <;> cases h
    exact .enter (by simp_all)
  case wake i =>
    split at h <;> cases h
    exact .wake ‹_›
  case check i =>
    split at h <;> try contradiction
    rename_i w hpc hfind
    have hw : w ∈ s.arrived := mem_of_find?_eq_some hfind
    obtain rfl : w.id = i := by simpa using find?_some hfind
    split at h
    · cases h
      exact .returns hw hpc ‹_›
    · split at h <;> cases h
      · rename_i hq
        obtain ⟨rest, hq⟩ := head?_eq_some_iff.mp hq
        exact .lead hq hpc
      · exact .sleep hw hpc ‹_› ‹_›
  case makeRoom i env =>
    split at h <;> try contradiction
    rename_i force allowDelay w rest hpc hq
    split at h <;> cases h
    rename_i hid
    subst hid
    exact makeRoom_moves hq hpc
  case addRecord i status =>
    split at h <;> try contradiction
    rename_i w g hleader
    obtain ⟨rest, hq, rfl, hpc⟩ := leader_eq_some hleader
    split at h <;> cases h
    exact .addRecord hq hpc ‹_›
  case sync i status =>
    split at h <;> try contradiction
    rename_i w g hleader
    obtain ⟨rest, hq, rfl, hpc⟩ := leader_eq_some hleader
    split at h <;> cases h
    rename_i hphase
    exact .sync hq hpc hphase.1 hphase.2
  case insert i =>
    split at h <;> try contradiction
    rename_i w g hleader
    obtain ⟨rest, hq, rfl, hpc⟩ := leader_eq_some hleader
    split at h <;> cases h
    exact .insert hq hpc ‹_›
  case finish i =>
    split at h <;> try contradiction
    rename_i w g hleader
    obtain ⟨rest, hq, rfl, hpc⟩ := leader_eq_some hleader
    split at h <;> cases h
    exact .finish hq hpc ‹_›
  case flush env =>
    split at h <;> try contradiction
    rename_i mem himm
    split at h <;> cases h <;> rename_i hstatus
    · exact .flush himm
    · exact .flushFail (by simpa using hstatus)
  case compactMemTable i =>
    split at h <;> try contradiction
    rename_i hcall
    split at h
    · split at h <;> cases h
      · exact .stillFlushing
      · exact .compactFail hcall.1 (by simp_all)
    · cases h
      exact .compactDone hcall.1 (by simp_all)

end WriteState

end RocketDb
