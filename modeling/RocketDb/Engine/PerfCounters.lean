import RocketDb.Lib.Transition
import RocketDb.Version.Levels
import Mathlib.Data.List.FinRange
import Mathlib.Data.List.Forall2

/-! # Performance counters (`db/perf_counters.h`)

Flushes, major compactions, trivial moves and write stalls are counted, and their durations added up. A
duration is the difference of two values of `Env::NowMicros`, **which is the time of day**; the nested flushes
of a compaction are subtracted once more. In `uint64_t`, a clock that is set back gives durations near
`2 ^ 64`.

* **`DBPerfCounters`** — the counters, over `uint64_t` and over `ℕ`; the latter hold the true totals.
* **`perfStats_monotone`** — what `GetProperty("rocketdb.perf-stats")` reports only grows, if the clock does
  not go back and the true totals stay below `2 ^ 64`. -/

namespace RocketDb

open Function Transition

/-! ## The counters -/

/-- `WriteStallType`. -/
inductive WriteStallType where
  | kImmutableMemtableWait
  | kL0Slowdown
  | kL0Stop
  deriving DecidableEq, Repr

/-- The objects of class `TimedEventCounter`. -/
inductive TimedEvent where
  | flush
  | majorCompaction (level : Fin kNumLevels)
  | writeStall (type : WriteStallType)
  deriving DecidableEq, Repr

/-- The members of `DBPerfCounters`, down to the single numbers. -/
inductive PerfCounter where
  | count (e : TimedEvent)
  | totalMicros (e : TimedEvent)
  | maxMicros (e : TimedEvent)
  | flushBytesWritten
  | flushCountByOutputLevel (level : Fin kNumLevels)
  | bytesRead (level : Fin kNumLevels)
  | bytesWritten (level : Fin kNumLevels)
  | trivialMoveCount (level : Fin kNumLevels)
  deriving DecidableEq, Repr

/-- `DBPerfCounters`, with numbers of type `α`. -/
abbrev DBPerfCounters (α : Type) : Type := PerfCounter → α

namespace DBPerfCounters

variable {α : Type} [Add α] [OfNat α 1] [LT α] [DecidableLT α]

/-- `fetch_add`. -/
def fetchAdd (c : DBPerfCounters α) (i : PerfCounter) (v : α) : DBPerfCounters α :=
  Function.update c i (c i + v)

/-- `AtomicMax`. -/
def atomicMax (c : DBPerfCounters α) (i : PerfCounter) (v : α) : DBPerfCounters α :=
  if c i < v then Function.update c i v else c

/-- `TimedEventCounter::Record`. -/
def record (c : DBPerfCounters α) (e : TimedEvent) (micros : α) : DBPerfCounters α :=
  ((c.fetchAdd (.count e) 1).fetchAdd (.totalMicros e) micros).atomicMax (.maxMicros e) micros

/-- `RecordFlush`. -/
def recordFlush (c : DBPerfCounters α) (level : Fin kNumLevels) (micros bytesWritten : α) :
    DBPerfCounters α :=
  ((c.record .flush micros).fetchAdd .flushBytesWritten bytesWritten).fetchAdd
    (.flushCountByOutputLevel level) 1

/-- `RecordMajorCompaction`. -/
def recordMajorCompaction (c : DBPerfCounters α) (level : Fin kNumLevels)
    (micros bytesRead bytesWritten : α) : DBPerfCounters α :=
  ((c.record (.majorCompaction level) micros).fetchAdd (.bytesRead level) bytesRead).fetchAdd
    (.bytesWritten level) bytesWritten

/-- `RecordTrivialMove`. -/
def recordTrivialMove (c : DBPerfCounters α) (level : Fin kNumLevels) : DBPerfCounters α :=
  c.fetchAdd (.trivialMoveCount level) 1

/-- `RecordWriteStall`. -/
def recordWriteStall (c : DBPerfCounters α) (type : WriteStallType) (micros : α) : DBPerfCounters α :=
  c.record (.writeStall type) micros

end DBPerfCounters

/-- The lines of the property for an event with a name and an ending. -/
def timedLines (name ending : String) (e : TimedEvent) : List (Slice × PerfCounter) :=
  [(ascii (name ++ "_count" ++ ending), .count e),
    (ascii (name ++ "_total_micros" ++ ending), .totalMicros e),
    (ascii (name ++ "_max_micros" ++ ending), .maxMicros e)]

/-- The lines of `rocketdb.perf-stats` after the first. -/
def perfLines : List (Slice × PerfCounter) :=
  timedLines "flush" "" .flush ++ [(ascii "flush_bytes_written", .flushBytesWritten)] ++
    (List.finRange kNumLevels).flatMap (fun level =>
      [(ascii ("flush_count_by_output_level." ++ toString level), .flushCountByOutputLevel level)] ++
        timedLines "major_compaction" ("." ++ toString level) (.majorCompaction level) ++
        [(ascii ("major_compaction_bytes_read." ++ toString level), .bytesRead level),
          (ascii ("major_compaction_bytes_written." ++ toString level), .bytesWritten level),
          (ascii ("trivial_move_count." ++ toString level), .trivialMoveCount level)]) ++
    timedLines "immutable_memtable_wait" "" (.writeStall .kImmutableMemtableWait) ++
    timedLines "l0_slowdown" "" (.writeStall .kL0Slowdown) ++
    timedLines "l0_stop" "" (.writeStall .kL0Stop)

/-- `GetProperty("rocketdb.perf-stats")`: keys and values. -/
def perfStats (c : DBPerfCounters UInt64) : List (Slice × UInt64) :=
  (ascii "version", 1) :: perfLines.map fun line => (line.1, c line.2)

/-! ## Where they are recorded -/

/-- A running `DoCompactionWork`. -/
inductive CompactionClock where
  /-- With `start_micros`, `imm_micros` and, in a nested flush, `imm_start`. -/
  | running (startMicros immMicros : UInt64) (immStart : Option UInt64)
  /-- With `stats.micros`, and the time that it stands for. -/
  | measured (micros : UInt64) (time : ℕ)
  deriving DecidableEq, Repr

/-- What the counters depend on. The mutex is held while something is recorded and while the property is
read. The **true totals** and the last value of the clock are not in the source. -/
structure PerfState where
  counters : DBPerfCounters UInt64
  totals : DBPerfCounters ℕ
  clock : UInt64
  /-- The writer that waits in `MakeRoomForWrite`, with `stall_start_micros`. -/
  stall : Option (WriteStallType × UInt64)
  /-- `start_micros` of a running `CompactMemTable`. -/
  flush : Option UInt64
  compaction : Option CompactionClock

/-- The counters of a new database. -/
def PerfState.new : PerfState := ⟨fun _ => 0, fun _ => 0, 0, none, none, none⟩

/-- The steps that read the clock or record; `now` is what `NowMicros` returns. -/
inductive PerfAction where
  | beginStall (type : WriteStallType) (now : UInt64)
  | endStall (now : UInt64)
  | beginFlush (now : UInt64)
  /-- A flush that succeeded; without a table, if there was nothing to write. -/
  | endFlush (now : UInt64) (output : Option (Fin kNumLevels × UInt64))
  | failFlush
  | trivialMove (level : Fin kNumLevels)
  | beginCompaction (now : UInt64)
  | beginImm (now : UInt64)
  | endImm (now : UInt64)
  | measureCompaction (now : UInt64)
  | installCompaction (level : Fin kNumLevels) (bytesRead bytesWritten : UInt64)
  | failCompaction
  deriving DecidableEq, Repr

/-- What the step reads from the clock. -/
def PerfAction.now? : PerfAction → Option UInt64
  | beginStall _ now | endStall now | beginFlush now | endFlush now _ => some now
  | beginCompaction now | beginImm now | endImm now | measureCompaction now => some now
  | failFlush | trivialMove _ | installCompaction _ _ _ | failCompaction => none

/-- One step. The four stalls of `MakeRoomForWrite` differ in their type only. -/
def PerfState.step (s : PerfState) : PerfAction → Option PerfState
  | .beginStall type now =>
    if s.stall.isSome then none else some { s with clock := now, stall := some (type, now) }
  | .endStall now =>
    match s.stall with
    | none => none
    | some (type, start) =>
      some { s with
        counters := s.counters.recordWriteStall type (now - start)
        totals := s.totals.recordWriteStall type (now.toNat - start.toNat)
        clock := now
        stall := none }
  | .beginFlush now => if s.flush.isSome then none else some { s with clock := now, flush := some now }
  | .endFlush now output =>
    match s.flush, output with
    | none, _ => none
    | some _, none => some { s with clock := now, flush := none }
    | some start, some (level, bytes) =>
      some { s with
        counters := s.counters.recordFlush level (now - start) bytes
        totals := s.totals.recordFlush level (now.toNat - start.toNat) bytes.toNat
        clock := now
        flush := none }
  | .failFlush => if s.flush.isSome then some { s with flush := none } else none
  | .trivialMove level =>
    some { s with
      counters := s.counters.recordTrivialMove level
      totals := s.totals.recordTrivialMove level }
  | .beginCompaction now =>
    if s.compaction.isSome then none
    else some { s with clock := now, compaction := some (.running now 0 none) }
  | .beginImm now =>
    match s.compaction with
    | some (.running start imm none) =>
      some { s with clock := now, compaction := some (.running start imm (some now)) }
    | _ => none
  | .endImm now =>
    match s.compaction with
    | some (.running start imm (some immStart)) =>
      some { s with clock := now, compaction := some (.running start (imm + (now - immStart)) none) }
    | _ => none
  | .measureCompaction now =>
    match s.compaction with
    | some (.running start imm none) =>
      some { s with
        clock := now
        compaction := some (.measured (now - start - imm) (now.toNat - start.toNat - imm.toNat)) }
    | _ => none
  | .installCompaction level bytesRead bytesWritten =>
    match s.compaction with
    | some (.measured micros time) =>
      some { s with
        counters := s.counters.recordMajorCompaction level micros bytesRead bytesWritten
        totals := s.totals.recordMajorCompaction level time bytesRead.toNat bytesWritten.toNat
        compaction := none }
    | _ => none
  | .failCompaction => if s.compaction.isSome then some { s with compaction := none } else none

/-- The clock does not go back. -/
def PerfAction.Forward (s : PerfState) (a : PerfAction) : Prop := ∀ now ∈ a.now?, s.clock ≤ now

/-! ## The counters and the true totals -/

/-- The counters are the true totals modulo `2 ^ 64`. A maximum is one of the durations, which fit. -/
structure DBPerfCounters.Shows (c : DBPerfCounters UInt64) (t : DBPerfCounters ℕ) : Prop where
  toNat_eq : ∀ i, (c i).toNat = t i % 2 ^ 64
  max_lt : ∀ e, t (.maxMicros e) < 2 ^ 64
  max_le : ∀ e, t (.maxMicros e) ≤ t (.totalMicros e)

namespace DBPerfCounters

variable {c : DBPerfCounters UInt64} {t : DBPerfCounters ℕ} {v : UInt64} {n : ℕ} {i j : PerfCounter}
  {e : TimedEvent} {level : Fin kNumLevels}

theorem le_fetchAdd (t : DBPerfCounters ℕ) (i : PerfCounter) (n : ℕ) (j : PerfCounter) :
    t j ≤ t.fetchAdd i n j := by
  by_cases hj : j = i
  · rw [hj, fetchAdd, update_self]
    exact Nat.le_add_right _ _
  · rw [fetchAdd, update_of_ne hj]

theorem le_atomicMax (t : DBPerfCounters ℕ) (i : PerfCounter) (n : ℕ) (j : PerfCounter) :
    t j ≤ t.atomicMax i n j := by
  rw [atomicMax]
  grind

theorem le_record (t : DBPerfCounters ℕ) (e : TimedEvent) (n : ℕ) (j : PerfCounter) :
    t j ≤ t.record e n j :=
  (le_fetchAdd _ _ _ j).trans ((le_fetchAdd _ _ _ j).trans (le_atomicMax _ _ _ j))

theorem toNat_fetchAdd (h : ∀ j, (c j).toNat = t j % 2 ^ 64) (hv : v.toNat = n % 2 ^ 64)
    (i j : PerfCounter) : (c.fetchAdd i v j).toNat = t.fetchAdd i n j % 2 ^ 64 := by
  by_cases hj : j = i
  · rw [hj, fetchAdd, fetchAdd, update_self, update_self, UInt64.toNat_add, h, hv, ← Nat.add_mod]
  · rw [fetchAdd, fetchAdd, update_of_ne hj, update_of_ne hj, h]

theorem Shows.fetchAdd (h : c.Shows t) (hv : v.toNat = n % 2 ^ 64) (hmax : ∀ e, i ≠ .maxMicros e) :
    (c.fetchAdd i v).Shows (t.fetchAdd i n) where
  toNat_eq := toNat_fetchAdd h.toNat_eq hv i
  max_lt e := by
    rw [DBPerfCounters.fetchAdd, update_of_ne (hmax e).symm]
    exact h.max_lt e
  max_le e := by
    rw [DBPerfCounters.fetchAdd, update_of_ne (hmax e).symm]
    exact (h.max_le e).trans (le_fetchAdd t i n _)

theorem Shows.record (h : c.Shows t) (hv : v.toNat = n) (e : TimedEvent) :
    (c.record e v).Shows (t.record e n) := by
  have hfit : v.toNat = n % 2 ^ 64 := by
    rw [← hv]
    exact (Nat.mod_eq_of_lt v.toNat_lt).symm
  have hadded : ((c.fetchAdd (.count e) 1).fetchAdd (.totalMicros e) v).Shows
      ((t.fetchAdd (.count e) 1).fetchAdd (.totalMicros e) n) :=
    (h.fetchAdd (by decide) fun e' => by simp).fetchAdd hfit fun e' => by simp
  have htotal : n ≤ (t.fetchAdd (.count e) 1).fetchAdd (.totalMicros e) n (.totalMicros e) := by
    rw [DBPerfCounters.fetchAdd, update_self]
    exact Nat.le_add_left _ _
  rw [DBPerfCounters.record, DBPerfCounters.record]
  generalize (c.fetchAdd (.count e) 1).fetchAdd (.totalMicros e) v = c' at hadded ⊢
  generalize (t.fetchAdd (.count e) 1).fetchAdd (.totalMicros e) n = t' at hadded htotal ⊢
  -- both maxima change, or none
  have hlt : c' (.maxMicros e) < v ↔ t' (.maxMicros e) < n := by
    rw [UInt64.lt_iff_toNat_lt, hadded.toNat_eq, Nat.mod_eq_of_lt (hadded.max_lt e), hv]
  rw [atomicMax, atomicMax]
  simp only [hlt]
  split_ifs
  · refine ⟨fun j => ?_, fun e' => ?_, fun e' => ?_⟩
    · by_cases hj : j = .maxMicros e
      · rw [hj, update_self, update_self, hfit]
      · rw [update_of_ne hj, update_of_ne hj, hadded.toNat_eq]
    · by_cases he : e' = e
      · rw [he, update_self, ← hv]
        exact v.toNat_lt
      · rw [update_of_ne (by simpa using he)]
        exact hadded.max_lt e'
    · rw [update_of_ne (by simp : PerfCounter.totalMicros e' ≠ .maxMicros e)]
      by_cases he : e' = e
      · rw [he, update_self]
        exact htotal
      · rw [update_of_ne (by simpa using he)]
        exact hadded.max_le e'
  · exact hadded

end DBPerfCounters

/-! ## Runs -/

/-- What a compaction has measured so far is right at a time of the clock. -/
def CompactionClock.Ok (clock : UInt64) : CompactionClock → Prop
  | running start imm none => start.toNat + imm.toNat ≤ clock.toNat
  | running start imm (some immStart) => start.toNat + imm.toNat ≤ immStart.toNat ∧ immStart ≤ clock
  | measured micros time => micros.toNat = time

/-- The invariant of runs whose clock does not go back. -/
structure PerfState.Ok (s : PerfState) : Prop where
  shows : s.counters.Shows s.totals
  stall : ∀ w ∈ s.stall, w.2 ≤ s.clock
  flush : ∀ start ∈ s.flush, start ≤ s.clock
  compaction : ∀ c ∈ s.compaction, c.Ok s.clock

namespace PerfState

variable {s s' : PerfState} {a : PerfAction} {now : UInt64}

theorem ok_new : new.Ok where
  shows := ⟨fun _ => rfl, fun _ => Nat.two_pow_pos 64, fun _ => le_rfl⟩
  stall := nofun
  flush := nofun
  compaction := nofun

theorem Ok.tick (h : s.Ok) (hnow : s.clock ≤ now) : ({ s with clock := now } : PerfState).Ok where
  shows := h.shows
  stall w hw := UInt64.le_trans (h.stall w hw) hnow
  flush start hs := UInt64.le_trans (h.flush start hs) hnow
  compaction c hc := by
    have hle := UInt64.le_iff_toNat_le.mp hnow
    have hok := h.compaction c hc
    rcases c with ⟨start, imm, _ | immStart⟩ | ⟨micros, time⟩
    · exact le_trans hok hle
    · exact ⟨hok.1, UInt64.le_trans hok.2 hnow⟩
    · exact hok

/-- **Every step at which the clock does not go back** keeps the invariant, and the true totals grow. -/
theorem Ok.step (h : s.Ok) (hgood : a.Forward s) (hstep : s.step a = some s') :
    s'.Ok ∧ ∀ i, s.totals i ≤ s'.totals i := by
  -- `Ok` keeps every start at or before the clock, so no difference of times wraps
  cases a <;> simp only [PerfState.step] at hstep
  case beginStall type now =>
    split_ifs at hstep
    cases hstep
    exact ⟨{ h.tick (hgood now rfl) with stall := by rintro _ ⟨⟩; exact UInt64.le_refl _ }, fun _ => le_rfl⟩
  case endStall now =>
    have hnow := hgood now rfl
    cases hst : s.stall with
    | none => simp [hst] at hstep
    | some w =>
      simp only [hst] at hstep
      cases hstep
      have hdur := UInt64.toNat_sub_of_le _ _ (UInt64.le_trans (h.stall w hst) hnow)
      exact ⟨{ h.tick hnow with shows := h.shows.record hdur _, stall := nofun },
        DBPerfCounters.le_record _ _ _⟩
  case beginFlush now =>
    split_ifs at hstep
    cases hstep
    exact ⟨{ h.tick (hgood now rfl) with flush := by rintro _ ⟨⟩; exact UInt64.le_refl _ }, fun _ => le_rfl⟩
  case endFlush now output =>
    have hnow := hgood now rfl
    cases hfl : s.flush with
    | none => simp [hfl] at hstep
    | some start =>
      cases output with
      | none =>
        simp only [hfl] at hstep
        cases hstep
        exact ⟨{ h.tick hnow with flush := nofun }, fun _ => le_rfl⟩
      | some output =>
        simp only [hfl] at hstep
        cases hstep
        have hdur := UInt64.toNat_sub_of_le _ _ (UInt64.le_trans (h.flush start hfl) hnow)
        refine ⟨{ h.tick hnow with
          shows := ((h.shows.record hdur _).fetchAdd ?_ ?_).fetchAdd ?_ ?_
          flush := nofun }, fun i => ?_⟩
        · exact (Nat.mod_eq_of_lt output.2.toNat_lt).symm
        · simp
        · decide
        · simp
        · exact (DBPerfCounters.le_record _ _ _ i).trans
            ((DBPerfCounters.le_fetchAdd _ _ _ i).trans (DBPerfCounters.le_fetchAdd _ _ _ i))
  case failFlush =>
    split_ifs at hstep
    cases hstep
    exact ⟨{ h with flush := nofun }, fun _ => le_rfl⟩
  case trivialMove level =>
    cases hstep
    exact ⟨{ h with shows := h.shows.fetchAdd (by decide) fun e => by simp },
      DBPerfCounters.le_fetchAdd _ _ _⟩
  case beginCompaction now =>
    split_ifs at hstep
    cases hstep
    exact ⟨{ h.tick (hgood now rfl) with compaction := by rintro _ ⟨⟩; exact le_rfl }, fun _ => le_rfl⟩
  case beginImm now =>
    split at hstep <;> cases hstep
    rename_i start imm hc
    have hle := UInt64.le_iff_toNat_le.mp (hgood now rfl)
    have hok : start.toNat + imm.toNat ≤ s.clock.toNat := h.compaction _ hc
    exact ⟨{ h.tick (hgood now rfl) with
      compaction := by rintro _ ⟨⟩; exact ⟨hok.trans hle, UInt64.le_refl _⟩ }, fun _ => le_rfl⟩
  case endImm now =>
    split at hstep <;> cases hstep
    rename_i start imm immStart hc
    obtain ⟨hok, hstart⟩ : start.toNat + imm.toNat ≤ immStart.toNat ∧ immStart ≤ s.clock :=
      h.compaction _ hc
    have hle := UInt64.le_trans hstart (hgood now rfl)
    have hdur := UInt64.toNat_sub_of_le _ _ hle
    rw [UInt64.le_iff_toNat_le] at hle
    have hlt := now.toNat_lt
    refine ⟨{ h.tick (hgood now rfl) with compaction := ?_ }, fun _ => le_rfl⟩
    rintro _ ⟨⟩
    -- the time of nested flushes never exceeds the time since the start
    change start.toNat + (imm + (now - immStart)).toNat ≤ now.toNat
    rw [UInt64.toNat_add, hdur, Nat.mod_eq_of_lt (by omega)]
    omega
  case measureCompaction now =>
    split at hstep <;> cases hstep
    rename_i start imm hc
    have hok : start.toNat + imm.toNat ≤ s.clock.toNat := h.compaction _ hc
    have hle := UInt64.le_iff_toNat_le.mp (hgood now rfl)
    have hdur : (now - start).toNat = now.toNat - start.toNat :=
      UInt64.toNat_sub_of_le _ _ (UInt64.le_iff_toNat_le.mpr (by omega))
    refine ⟨{ h.tick (hgood now rfl) with compaction := ?_ }, fun _ => le_rfl⟩
    rintro _ ⟨⟩
    change (now - start - imm).toNat = _
    rw [UInt64.toNat_sub_of_le _ _ (UInt64.le_iff_toNat_le.mpr (by omega)), hdur]
  case installCompaction level bytesRead bytesWritten =>
    split at hstep <;> cases hstep
    rename_i micros time hc
    have hdur : micros.toNat = time := h.compaction _ hc
    refine ⟨{ h with
      shows := ((h.shows.record hdur _).fetchAdd ?_ ?_).fetchAdd ?_ ?_
      compaction := nofun }, fun i => ?_⟩
    · exact (Nat.mod_eq_of_lt bytesRead.toNat_lt).symm
    · simp
    · exact (Nat.mod_eq_of_lt bytesWritten.toNat_lt).symm
    · simp
    · exact (DBPerfCounters.le_record _ _ _ i).trans
        ((DBPerfCounters.le_fetchAdd _ _ _ i).trans (DBPerfCounters.le_fetchAdd _ _ _ i))
  case failCompaction =>
    split_ifs at hstep
    cases hstep
    exact ⟨{ h with compaction := nofun }, fun _ => le_rfl⟩

theorem Ok.run (h : s.Ok) {as : List PerfAction} (hgood : Along PerfState.step (fun s a => a.Forward s) s as)
    (hrun : Transition.run PerfState.step s as = some s') : s'.Ok ∧ ∀ i, s.totals i ≤ s'.totals i := by
  have hstep : ∀ (t : PerfState) a t', (t.Ok ∧ ∀ i, s.totals i ≤ t.totals i) → a.Forward t →
      t.step a = some t' → t'.Ok ∧ ∀ i, s.totals i ≤ t'.totals i := by
    rintro t a t' ⟨hok, hle⟩ ha ht
    obtain ⟨hok', hle'⟩ := hok.step ha ht
    exact ⟨hok', fun i => (hle i).trans (hle' i)⟩
  exact run_induction hstep ⟨h, fun _ => le_rfl⟩ hgood hrun

end PerfState

/-- **The counters only grow** from one read of the property to the next, and every total duration is at
least the maximum: for every run in which the clock does not go back, as long as the true totals are below
`2 ^ 64`. -/
theorem perfStats_monotone (as bs : List PerfAction) (s s' : PerfState)
    (hfirst : run PerfState.step .new as = some s) (hsecond : run PerfState.step s bs = some s')
    (hclock : Along PerfState.step (fun s a => a.Forward s) .new (as ++ bs))
    (htotals : ∀ i, s'.totals i < 2 ^ 64) :
    List.Forall₂ (fun line line' => line.1 = line'.1 ∧ line.2 ≤ line'.2)
        (perfStats s.counters) (perfStats s'.counters) ∧
      ∀ e, s'.counters (.maxMicros e) ≤ s'.counters (.totalMicros e) := by
  obtain ⟨hclock₁, hclock₂⟩ := along_append.mp hclock
  obtain ⟨hok, -⟩ := PerfState.ok_new.run hclock₁ hfirst
  obtain ⟨hok', hgrow⟩ := hok.run (hclock₂ s hfirst) hsecond
  -- below `2 ^ 64` the counters are the true totals
  have hlater : ∀ i, (s'.counters i).toNat = s'.totals i := fun i => by
    rw [hok'.shows.toNat_eq, Nat.mod_eq_of_lt (htotals i)]
  have hearlier : ∀ i, (s.counters i).toNat = s.totals i := fun i => by
    rw [hok.shows.toNat_eq, Nat.mod_eq_of_lt ((hgrow i).trans_lt (htotals i))]
  refine ⟨.cons ⟨rfl, UInt64.le_refl _⟩ ?_, fun e => ?_⟩
  · grind [List.forall₂_map_left_iff, List.forall₂_map_right_iff, List.forall₂_same,
      UInt64.le_iff_toNat_le]
  · rw [UInt64.le_iff_toNat_le, hlater, hlater]
    exact hok'.shows.max_le e

/-- A write stall of one millisecond. -/
theorem perfStats_monotone_stall :
    ∃ s', run PerfState.step .new [.beginStall .kL0Slowdown 10, .endStall 1010] = some s' ∧
      s'.counters (.totalMicros (.writeStall .kL0Slowdown)) = 1000 ∧
      List.Forall₂ (fun line line' => line.1 = line'.1 ∧ line.2 ≤ line'.2)
        (perfStats PerfState.new.counters) (perfStats s'.counters) := by
  have htotals (n : ℕ) (hn : n + 1 < 2 ^ 64) (i : PerfCounter) :
      DBPerfCounters.recordWriteStall (fun _ => 0) .kL0Slowdown n i < 2 ^ 64 := by
    rw [DBPerfCounters.recordWriteStall, DBPerfCounters.record, DBPerfCounters.atomicMax]
    split_ifs <;> simp only [DBPerfCounters.fetchAdd, update_apply] <;> split_ifs <;> omega
  have hclock : Along PerfState.step (fun s a => a.Forward s) .new
      [.beginStall .kL0Slowdown 10, .endStall 1010] := by
    refine ⟨?_, ?_, trivial⟩ <;> rintro now ⟨⟩ <;> decide
  exact ⟨_, rfl, by decide, (perfStats_monotone [] [.beginStall .kL0Slowdown 10, .endStall 1010] _ _ rfl rfl
    hclock (htotals (UInt64.toNat 1010 - UInt64.toNat 10) (by decide))).1⟩

/-- The clock is set back by 100 microseconds during the second stall: **the total falls** from 1000 to 900,
and the maximum is beyond it. -/
theorem perfStats_falls :
    ∃ s s', run PerfState.step .new [.beginStall .kL0Slowdown 1000, .endStall 2000] = some s ∧
      run PerfState.step s [.beginStall .kL0Slowdown 3000, .endStall 2900] = some s' ∧
      s.counters (.totalMicros (.writeStall .kL0Slowdown)) = 1000 ∧
      s'.counters (.totalMicros (.writeStall .kL0Slowdown)) = 900 ∧
      s'.counters (.totalMicros (.writeStall .kL0Slowdown)) <
        s'.counters (.maxMicros (.writeStall .kL0Slowdown)) :=
  ⟨_, _, rfl, rfl, by decide, by decide, by decide⟩

end RocketDb
