import RocketDb.Flush.Snapshots
import RocketDb.Format.Table
import RocketDb.Lib.Predecessor

/-! # Writing a memtable to a table (`db/builder.cc`, `BuildTable`)

A flush leaves out an entry when the entry **directly before it** is a newer version of the same user key,
dropped or not, and every live snapshot sees that one. A malformed key is kept and hides nothing.

* **`buildTable`** — the loop, with the metadata it fills in.
* **`flush_pruning_invisible`** — no reader notices, although snapshots change while the table is built. -/

namespace RocketDb

open KeyOrder Newest List Transition

/-- `FlushPruningOptions`: the comparator that says which entries are versions of one key, and the
bound captured by `CompactMemTable`. -/
structure FlushPruningOptions where
  userComparator : Comparator
  smallestSnapshot : ℕ

/-- What the loop of `BuildTable` remembers of the entry before. -/
structure PruneState where
  currentUserKey : Slice
  hasPreviousKey : Bool
  previousSequence : ℕ
  deriving DecidableEq, Repr

/-- The state before the first entry. -/
def PruneState.init : PruneState := ⟨[], false, 0⟩

/-- Whether the loop drops an entry, and what it remembers of it. -/
def pruneStep (pruning : Option FlushPruningOptions) (st : PruneState) (key : InternalKey) :
    Bool × PruneState :=
  match pruning with
  | none => (false, st)
  | some opts =>
    match parseInternalKey key with
    | none =>
      -- Preserve malformed keys and do not let them hide neighbouring records
      (false, { st with hasPreviousKey := false, currentUserKey := [] })
    | some parsed =>
      if st.hasPreviousKey = true ∧
          opts.userComparator.compare parsed.userKey st.currentUserKey = .eq then
        (decide (st.previousSequence ≤ opts.smallestSnapshot),
          { st with previousSequence := parsed.sequence })
      else (false, ⟨parsed.userKey, true, parsed.sequence⟩)

/-- The loop state of `BuildTable`: the pruning state, the entries given to the builder, and the
bounds recorded in the metadata. -/
structure BuildState where
  prune : PruneState
  entries : List Entry
  smallest : InternalKey
  largest : InternalKey

/-- The state before the first entry. -/
def BuildState.init : BuildState := ⟨.init, [], ⟨[], 0⟩, ⟨[], 0⟩⟩

/-- One iteration of the loop of `BuildTable`. -/
def buildStep (pruning : Option FlushPruningOptions) (st : BuildState) (e : Entry) : BuildState :=
  let (drop, prune) := pruneStep pruning st.prune e.key
  if drop then { st with prune := prune }
  else
    { prune := prune
      entries := st.entries ++ [e]
      smallest := if st.entries = [] then e.key else st.smallest
      largest := e.key }

/-- **`BuildTable`**: the metadata and the entries of the new table. Without input no file is made,
which the file size 0 tells the caller. -/
def buildTable (sizes : TableSizes) (pruning : Option FlushPruningOptions) (number : ℕ)
    (mem : List Entry) : FileMetaData × List Entry :=
  let st := mem.foldl (buildStep pruning) .init
  let fileSize := if mem = [] then 0 else sizes.finishedSize st.entries
  (⟨number, fileSize, st.smallest, st.largest⟩, st.entries)

/-! ## The entries and bounds of the table -/

/-- The pruning loop as a filter. -/
def prunedEntries (pruning : Option FlushPruningOptions) : List Entry → List Entry :=
  Predecessor.loop (fun st e => pruneStep pruning st e.key) .init

theorem foldl_buildStep_entries (pruning : Option FlushPruningOptions) (mem : List Entry)
    (st : BuildState) :
    (mem.foldl (buildStep pruning) st).entries =
      st.entries ++ Predecessor.loop (fun st e => pruneStep pruning st e.key) st.prune mem := by
  induction mem generalizing st with
  | nil => simp [Predecessor.loop]
  | cons e es ih =>
    rw [foldl_cons, ih, Predecessor.loop, buildStep]
    grind

theorem buildTable_entries (sizes : TableSizes) (pruning : Option FlushPruningOptions)
    (number : ℕ) (mem : List Entry) :
    (buildTable sizes pruning number mem).2 = prunedEntries pruning mem :=
  foldl_buildStep_entries pruning mem .init

/-- The recorded bounds are the keys of the first and last entry given to the builder. -/
def BuildState.Bounds (st : BuildState) : Prop :=
  (∀ e, st.entries.head? = some e → st.smallest = e.key) ∧
    ∀ e, st.entries.getLast? = some e → st.largest = e.key

theorem BuildState.Bounds.buildStep {st : BuildState} (h : st.Bounds)
    (pruning : Option FlushPruningOptions) (e : Entry) : (buildStep pruning st e).Bounds := by
  unfold RocketDb.buildStep
  cases pruneStep pruning st.prune e.key with
  | mk drop prune =>
    cases drop with
    | true => exact h
    | false =>
      refine ⟨fun a ha => ?_, fun a ha => ?_⟩
      · cases hes : st.entries with
        | nil => simp_all
        | cons b bs =>
          simp only [Bool.false_eq_true, if_false, hes, cons_append, head?_cons, Option.some.injEq] at ha
          simp only [Bool.false_eq_true, if_false, cons_ne_nil]
          exact h.1 a (by rw [hes, ← ha]; rfl)
      · simp at ha
        simp [ha]

theorem buildTable_bounds (pruning : Option FlushPruningOptions) (mem : List Entry) :
    (mem.foldl (buildStep pruning) .init).Bounds := by
  suffices h : ∀ st : BuildState, st.Bounds → (mem.foldl (buildStep pruning) st).Bounds from
    h .init ⟨by simp [BuildState.init], by simp [BuildState.init]⟩
  induction mem with
  | nil => exact fun st hst => hst
  | cons e es ih => exact fun st hst => ih _ (hst.buildStep pruning e)

theorem prunedEntries_none (mem : List Entry) : prunedEntries none mem = mem := by
  unfold prunedEntries
  generalize PruneState.init = st
  induction mem with
  | nil => rfl
  | cons e es ih =>
    rw [Predecessor.loop]
    simpa [pruneStep] using ih

/-! ## The pruning rule -/

/-- Whether the loop drops `e` when `prev` is the entry directly before it. -/
def prunesAfter (ucmp : Comparator) (bound : ℕ) (prev : Option Entry) (e : Entry) : Bool :=
  match prev with
  | none => false
  | some p =>
    e.parsable && p.parsable && (ucmp.compare e.key.userKey p.key.userKey == .eq) &&
      decide (p.key.sequence ≤ bound)

/-- What the loop remembers after `prev`. -/
def PruneState.Follows (ucmp : Comparator) (st : PruneState) (prev : Option Entry) : Prop :=
  match prev with
  | none => st.hasPreviousKey = false
  | some p =>
    if p.parsable then
      st.hasPreviousKey = true ∧ userClass ucmp st.currentUserKey = userClass ucmp p.key.userKey ∧
        st.previousSequence = p.key.sequence
    else st.hasPreviousKey = false

variable {ucmp : Comparator} {bound : ℕ} {prev : Option Entry} {e : Entry} {mem : List Entry}
  {u : Slice} {s : ℕ}

/-- Under `Follows` the loop decides by the entry before, and then follows `e`. -/
theorem pruneStep_of_follows {st : PruneState} (h : st.Follows ucmp prev) (e : Entry) :
    (pruneStep (some ⟨ucmp, bound⟩) st e.key).1 = prunesAfter ucmp bound prev e ∧
      (pruneStep (some ⟨ucmp, bound⟩) st e.key).2.Follows ucmp (some e) := by
  cases hparse : parseInternalKey e.key with
  | none =>
    have hp := Entry.parse_eq_none_iff.mp hparse
    cases prev <;> simp [pruneStep, prunesAfter, hparse, hp, PruneState.Follows]
  | some p =>
    have hp : e.parsable = true := by rw [Entry.parsable, hparse]; rfl
    obtain ⟨hu, hs, -⟩ := parseInternalKey_eq_some.mp hparse
    cases prev with
    | none =>
      grind [pruneStep, prunesAfter, PruneState.Follows]
    | some q =>
      by_cases hq : q.parsable = true
      · simp only [PruneState.Follows, hq, if_true] at h
        obtain ⟨hhas, hcls, hseq⟩ := h
        have hiff : ucmp.compare e.key.userKey st.currentUserKey = .eq ↔
            ucmp.compare e.key.userKey q.key.userKey = .eq := by
          rw [← cls_eq_iff, ← cls_eq_iff]
          grind
        by_cases heq : ucmp.compare e.key.userKey q.key.userKey = .eq
        · have hcls' : userClass ucmp st.currentUserKey = userClass ucmp e.key.userKey :=
            (cls_eq_iff.mpr (hiff.mpr heq)).symm
          grind [pruneStep, prunesAfter, PruneState.Follows]
        · grind [pruneStep, prunesAfter, PruneState.Follows]
      · grind [PruneState.Follows, pruneStep, prunesAfter]

theorem prunedEntries_eq_keep (mem : List Entry) :
    prunedEntries (some ⟨ucmp, bound⟩) mem =
      Predecessor.keep (prunesAfter ucmp bound) none mem :=
  Predecessor.loop_eq_keep (R := fun st prev => st.Follows ucmp prev)
    (fun _ _ e h => pruneStep_of_follows h e) rfl mem

theorem prunedEntries_sublist (mem : List Entry) :
    (prunedEntries (some ⟨ucmp, bound⟩) mem).Sublist mem := by
  rw [prunedEntries_eq_keep]
  exact Predecessor.keep_sublist mem

/-- The table has the entry, or a version of its user key that is no older. -/
def Represented (ucmp : Comparator) (es : List Entry) (e : Entry) : Prop :=
  e ∈ es ∨ ∃ n ∈ es, userClass ucmp n.key.userKey = userClass ucmp e.key.userKey ∧ e.version ≤ n.version

/-- **What a flush leaves out is overwritten**, also where two entries may have the same key. -/
theorem represented_prunedEntries (hsort : mem.Pairwise fun a b => a.key.rank ucmp ≤ b.key.rank ucmp)
    (he : e ∈ mem) : Represented ucmp (prunedEntries (some ⟨ucmp, bound⟩) mem) e := by
  let R : Entry → Entry → Prop := fun n e =>
    n = e ∨ userClass ucmp n.key.userKey = userClass ucmp e.key.userKey ∧ e.version ≤ n.version
  have htrans : ∀ a b c, R a b → R b c → R a c := by
    grind
  have hdrop : ∀ p a : Entry, p.key.rank ucmp ≤ a.key.rank ucmp →
      prunesAfter ucmp bound (some p) a = true → R p a := by
    intro p a hrank hprune
    simp only [prunesAfter, Bool.and_eq_true, beq_iff_eq] at hprune
    have hcls := cls_eq_iff.mpr hprune.1.2
    refine Or.inr ⟨hcls.symm, not_lt.mp fun hlt => hrank.not_gt ?_⟩
    exact rank_lt_iff.mpr (Or.inr ⟨hcls, hlt⟩)
  obtain ⟨n, hn, hrel⟩ := Predecessor.exists_keep_rel (R := R) (fun _ => Or.inl rfl) htrans
    (fun _ => rfl) hdrop hsort he
  rw [prunedEntries_eq_keep]
  rcases hrel with rfl | hrel
  · exact Or.inl hn
  · exact Or.inr ⟨n, hn, hrel⟩

section

variable (hsort : SortedEntries ucmp mem)

include hsort

/-- **A pruned entry is hidden**: a newer version of its user key is within the bound. -/
theorem exists_newer_of_pruned (he : e ∈ mem) (hdrop : e ∉ prunedEntries (some ⟨ucmp, bound⟩) mem) :
    ∃ p ∈ mem, p.parsable = true ∧ userClass ucmp p.key.userKey = userClass ucmp e.key.userKey ∧
      e.version < p.version ∧ p.key.sequence ≤ bound ∧ e.parsable = true := by
  obtain ⟨pre, post, rfl⟩ := append_of_mem he
  rw [prunedEntries_eq_keep, Predecessor.mem_keep_iff hsort.nodup, Bool.not_eq_false] at hdrop
  unfold prunesAfter at hdrop
  cases hprev : pre.getLast? with
  | none => rw [hprev] at hdrop; cases hdrop
  | some p =>
    simp only [hprev, Bool.and_eq_true, beq_iff_eq, decide_eq_true_iff] at hdrop
    obtain ⟨⟨⟨hpe, hpp⟩, hcmp⟩, hle⟩ := hdrop
    have hmem : p ∈ pre := mem_of_getLast? hprev
    have hcls : userClass ucmp p.key.userKey = userClass ucmp e.key.userKey :=
      (cls_eq_iff.mpr hcmp).symm
    have hlt : p.key.rank ucmp < e.key.rank ucmp :=
      (pairwise_append.mp hsort.rank_lt).2.2 p hmem e mem_cons_self
    refine ⟨p, mem_append_left _ hmem, hpp, hcls, ?_, hle, hpe⟩
    rcases rank_lt_iff.mp hlt with h | h
    · exact absurd hcls h.ne
    · exact h.2

theorem newest_mem_prunedEntries (hs : bound ≤ s) (hnew : newestVisible ucmp mem u s = some e) :
    e ∈ prunedEntries (some ⟨ucmp, bound⟩) mem := by
  by_contra hdrop
  obtain ⟨p, hmem, hpp, hcls, hlt, hle, -⟩ :=
    exists_newer_of_pruned hsort (mem_of_newest hnew) hdrop
  have hvis : visible ucmp u s p = true :=
    visible_iff.mpr ⟨hpp, hcls.trans (visible_iff.mp (vis_of_newest hnew)).2.1, hle.trans hs⟩
  exact absurd (ver_le_of_newest hnew hmem hvis) hlt.not_ge

/-- **Pruning preserves reads** at and above the bound. -/
theorem newestVisible_prunedEntries (hs : bound ≤ s) :
    newestVisible ucmp (prunedEntries (some ⟨ucmp, bound⟩) mem) u s =
      newestVisible ucmp mem u s :=
  newest_eq_of_keeps (hsort.distinct u s) (fun _ h => (prunedEntries_sublist mem).mem h)
    fun _ hnew => newest_mem_prunedEntries hsort hs hnew

/-- A pruned entry leaves a newer version of its user key in the table: the newest one of all. -/
theorem exists_kept_newer_of_pruned (he : e ∈ mem) (hdrop : e ∉ prunedEntries (some ⟨ucmp, bound⟩) mem) :
    ∃ n ∈ prunedEntries (some ⟨ucmp, bound⟩) mem,
      userClass ucmp n.key.userKey = userClass ucmp e.key.userKey ∧ e.version < n.version := by
  obtain ⟨p, hmem, hpp, hcls, hlt, hle, -⟩ := exists_newer_of_pruned hsort he hdrop
  -- every version is visible at the larger of the bound and the maximal sequence number
  have hvis : visible ucmp e.key.userKey (max bound kMaxSequenceNumber) p = true :=
    visible_iff.mpr ⟨hpp, hcls, p.key.sequence_le.trans (le_max_right _ _)⟩
  obtain ⟨n, hnew, hpn⟩ : ∃ n, newestVisible ucmp mem e.key.userKey (max bound kMaxSequenceNumber)
      = some n ∧ p.version ≤ n.version := exists_newest hmem hvis
  exact ⟨n, newest_mem_prunedEntries hsort (le_max_left _ _) hnew,
    (visible_iff.mp (vis_of_newest hnew)).2.1, hlt.trans_le hpn⟩

end

theorem prunedEntries_ne_nil (ucmp : Comparator) (bound : ℕ) (hmem : mem ≠ []) :
    prunedEntries (some ⟨ucmp, bound⟩) mem ≠ [] := by
  cases mem with
  | nil => exact absurd rfl hmem
  | cons e es =>
    rw [prunedEntries_eq_keep, Predecessor.keep]
    simp [prunesAfter]

/-- **Flush pruning is invisible to readers.** The bound is captured once, after the calls `before`;
while the table is built, other threads take and release snapshots and write. If no write has `2 ^ 31`
records, every snapshot live afterwards, and every reader at or after the captured last sequence number,
finds the same newest entry in the table as in the memtable. The table is a subsequence of the memtable,
a deletion is dropped only under a newer entry that is kept, and the metadata holds the first and last
kept keys. -/
theorem flush_pruning_invisible (sizes : TableSizes) (ucmp : Comparator) (number : ℕ)
    (mem : List Entry) (last : ℕ) (before calls : List Readers.Call) (r r' : Readers)
    (hsort : SortedEntries ucmp mem)
    (hsmall : Along Readers.step Readers.Small (.fresh last) (before ++ calls))
    (hbefore : run Readers.step (.fresh last) before = some r)
    (hcalls : run Readers.step r calls = some r') :
    let table := buildTable sizes (some ⟨ucmp, r.smallestSnapshot⟩) number mem
    (∀ u s, (∃ a ∈ r'.snapshots, a.sequenceNumber = s) ∨ r.lastSequence ≤ s →
        newestVisible ucmp table.2 u s = newestVisible ucmp mem u s) ∧
      table.2.Sublist mem ∧
      (∀ e ∈ mem, e.isDeletion = true → e ∉ table.2 →
        ∃ n ∈ table.2, ucmp.compare n.key.userKey e.key.userKey = .eq ∧ e.key.tag < n.key.tag) ∧
      (mem ≠ [] → table.2.head?.map Entry.key = some table.1.smallest ∧
        table.2.getLast?.map Entry.key = some table.1.largest) := by
  intro table
  obtain ⟨hsmall, hthen⟩ := along_append.mp hsmall
  have hok : r.Ok := Readers.Ok.run ⟨List.Pairwise.nil, by simp [Readers.fresh]⟩ hsmall hbefore
  have habove : r'.Above r.smallestSnapshot := hok.above_smallestSnapshot.run (hthen r hbefore) hcalls
  have hent : table.2 = prunedEntries (some ⟨ucmp, r.smallestSnapshot⟩) mem :=
    buildTable_entries sizes _ number mem
  rw [hent]
  refine ⟨fun u s hs => newestVisible_prunedEntries hsort ?_, prunedEntries_sublist mem, ?_, ?_⟩
  · rcases hs with ⟨a, ha, rfl⟩ | hs
    · exact habove.2 a ha
    · exact hok.smallestSnapshot_le_lastSequence.trans hs
  · intro e he _ hdrop
    obtain ⟨n, hn, hcls, hlt⟩ := exists_kept_newer_of_pruned hsort he hdrop
    exact ⟨n, hn, cls_eq_iff.mp hcls, UInt64.lt_iff_toNat_lt.mpr hlt⟩
  · intro hmem
    obtain ⟨hsmall, hlarge⟩ := buildTable_bounds (some ⟨ucmp, r.smallestSnapshot⟩) mem
    have hne := prunedEntries_ne_nil ucmp r.smallestSnapshot hmem
    rw [← hent] at hne ⊢
    rw [head?_eq_some_head hne, getLast?_eq_some_getLast hne, Option.map_some, Option.map_some]
    exact ⟨congrArg some (hsmall _ (head?_eq_some_head hne)).symm,
      congrArg some (hlarge _ (getLast?_eq_some_getLast hne)).symm⟩

/-- Three versions of one key and a snapshot of the first: the middle one survives for a reader that
no longer exists, the snapshot released during the flush. -/
theorem flush_pruning_invisible_three_versions :
    let mem := [Entry.ofParts (ascii "k") 5 .kTypeDeletion [],
      Entry.ofParts (ascii "k") 4 .kTypeValue (ascii "w"),
      Entry.ofParts (ascii "k") 3 .kTypeValue (ascii "v")]
    let r : Readers := ⟨[⟨0, 4⟩], 5⟩
    let table := buildTable .counting (some ⟨bytewiseComparator, r.smallestSnapshot⟩) 7 mem
    run Readers.step (.fresh 4) [.getSnapshot 0, .write 1] = some r ∧
      run Readers.step r [.getSnapshot 1, .write 2, .releaseSnapshot 0] = some ⟨[⟨1, 5⟩], 7⟩ ∧
      table.2.length = 2 ∧
      ∀ u, newestVisible bytewiseComparator table.2 u 5 = newestVisible bytewiseComparator mem u 5 := by
  intro mem r table
  refine ⟨by decide, by decide, by decide, fun u => ?_⟩
  exact (flush_pruning_invisible .counting bytewiseComparator 7 mem 4 [.getSnapshot 0, .write 1]
    [.getSnapshot 1, .write 2, .releaseSnapshot 0] r ⟨[⟨1, 5⟩], 7⟩ (by decide) (by decide) (by decide)
    (by decide)).1 u 5 (.inl ⟨⟨1, 5⟩, by decide, rfl⟩)

/-- **The last sequence number falls** under the bound: a write of `2 ^ 32 - 2` records counts `-2`. A
snapshot taken then needs the older version, which the flush has dropped. -/
theorem flush_pruning_drops_visible :
    let mem := [Entry.ofParts (ascii "k") 29 .kTypeValue (ascii "w"),
      Entry.ofParts (ascii "k") 27 .kTypeValue (ascii "v")]
    let r : Readers := .fresh 30
    let table := buildTable .counting (some ⟨bytewiseComparator, r.smallestSnapshot⟩) 7 mem
    run Readers.step r [.write (2 ^ 32 - 2), .getSnapshot 0] = some ⟨[⟨0, 28⟩], 28⟩ ∧
      newestVisible bytewiseComparator table.2 (ascii "k") 28 = none ∧
      newestVisible bytewiseComparator mem (ascii "k") 28 =
        some (Entry.ofParts (ascii "k") 27 .kTypeValue (ascii "v")) := by
  decide

end RocketDb
