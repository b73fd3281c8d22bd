import RocketDb.Compaction.BaseLevel
import RocketDb.Lib.TwoWayMerge

/-! # The work of a compaction (`DBImpl::DoCompactionWork`)

The loop reads the merged inputs, drops what no reader needs, and writes the rest to output files, which it
closes when they are large enough or overlap too much of the level below, perhaps between two versions of a
key. Other threads act between its iterations, so it is embedded as a **step** on a state (`compactEntry`).
`Work.Inv`: the entries written so far, with what the drop loop will keep of the rest, are always the same
list. -/

namespace RocketDb

open KeyOrder TwoWayMerge List

/-! ## Table files -/

/-- The table files on disk by number, and `next_file_number_`. -/
structure TableStore where
  nextFileNumber : ℕ
  tables : ℕ → List Entry

/-- Write a table file. -/
def TableStore.write (store : TableStore) (number : ℕ) (entries : List Entry) : TableStore :=
  { store with tables := Function.update store.tables number entries }

/-- `NewFileNumber`. -/
def TableStore.allocate (store : TableStore) : TableStore :=
  { store with nextFileNumber := store.nextFileNumber + 1 }

/-! ## Merging the inputs -/

/-- `MergingIterator` over sorted children: the smallest key first, an earlier child on ties. -/
def mergingIterator (ucmp : Comparator) (children : List (List Entry)) : List Entry :=
  children.foldr
    (fun child rest =>
      twoWayMerge (fun a b => internalCompare ucmp a.key b.key != .gt) child rest) []

/-- `MakeInputIterator`: one child for each file of level 0, one concatenating child for each deeper
level. -/
def inputEntries (ucmp : Comparator) (tables : ℕ → List Entry) (c : Compaction) : List Entry :=
  let table := fun f : FileMetaData => tables f.number
  mergingIterator ucmp
    ((if c.level = 0 then c.inputs0.map table else [c.inputs0.flatMap table]) ++
      [c.inputs1.flatMap table])

/-! ## The loop -/

/-- An output file that is being written. -/
structure OutputBuilder where
  number : ℕ
  entries : List Entry
  smallest : InternalKey
  largest : InternalKey

/-- `CompactionState`, with the input iterator's remaining entries, the state of the drop rule and
that of `ShouldStopBefore`. -/
structure CompactionState where
  compaction : Compaction
  smallestSnapshot : ℕ
  input : List Entry
  drop : DropState (ℕ → ℕ)
  grandparentIndex : ℕ
  seenKey : Bool
  overlappedBytes : ℤ
  outputs : List FileMetaData
  builder : Option OutputBuilder

/-- The state in which `DoCompactionWork` enters its loop. -/
def CompactionState.start (ucmp : Comparator) (tables : ℕ → List Entry) (c : Compaction)
    (smallestSnapshot : ℕ) : CompactionState where
  compaction := c
  smallestSnapshot := smallestSnapshot
  input := inputEntries ucmp tables c
  drop := .init fun _ => 0
  grandparentIndex := 0
  seenKey := false
  overlappedBytes := 0
  outputs := []
  builder := none

/-- The scan of `ShouldStopBefore` over the grandparents that end before the key. `overlapped_bytes_` is a
signed 64-bit number. -/
def grandparentScan (ucmp : Comparator) (key : InternalKey) (seenKey : Bool) :
    List FileMetaData → ℕ → ℤ → ℕ × ℤ
  | [], index, bytes => (index, bytes)
  | f :: files, index, bytes =>
    if internalCompare ucmp key f.largest = .gt then
      grandparentScan ucmp key seenKey files (index + 1)
        (if seenKey then Int.bmod (bytes + f.fileSize) (2 ^ 64) else bytes)
    else (index, bytes)

/-- **`ShouldStopBefore`**: the current output overlaps too many bytes of the grandparents. -/
def shouldStopBefore (opts : Options) (ucmp : Comparator) (cs : CompactionState)
    (key : InternalKey) : Bool × CompactionState :=
  let (index, bytes) := grandparentScan ucmp key cs.seenKey
    (cs.compaction.grandparents.drop cs.grandparentIndex) cs.grandparentIndex cs.overlappedBytes
  let stop : Bool := decide (maxGrandParentOverlapBytes opts < bytes)
  (stop, { cs with
    grandparentIndex := index
    seenKey := true
    overlappedBytes := if stop then 0 else bytes })

/-- `FinishCompactionOutputFile`, if an output is open. -/
def finishCompactionOutputFile (sizes : TableSizes) (store : TableStore) (cs : CompactionState) :
    TableStore × CompactionState :=
  match cs.builder with
  | none => (store, cs)
  | some b =>
    (store.write b.number b.entries,
      { cs with
        outputs := cs.outputs ++ [⟨b.number, sizes.finishedSize b.entries, b.smallest, b.largest⟩]
        builder := none })

/-- `OpenCompactionOutputFile`, if no output is open. -/
def openCompactionOutputFile (store : TableStore) (cs : CompactionState) :
    TableStore × OutputBuilder :=
  match cs.builder with
  | none => (store.allocate, ⟨store.nextFileNumber, [], ⟨[], 0⟩, ⟨[], 0⟩⟩)
  | some b => (store, b)

/-- Add an entry to an output. -/
def OutputBuilder.add (b : OutputBuilder) (e : Entry) : OutputBuilder where
  number := b.number
  entries := b.entries ++ [e]
  smallest := if b.entries = [] then e.key else b.smallest
  largest := e.key

/-- Add a kept entry to the current output, and close the output if it is big enough. -/
def keepEntry (opts : Options) (sizes : TableSizes) (store : TableStore) (cs : CompactionState)
    (e : Entry) : TableStore × CompactionState :=
  let (store, b) := openCompactionOutputFile store cs
  let cs := { cs with builder := some (b.add e) }
  if maxFileSizeForLevel opts cs.compaction.level ≤ sizes.fileSize (b.add e).entries then
    finishCompactionOutputFile sizes store cs
  else (store, cs)

/-- **One iteration of the loop.** -/
def compactEntry (opts : Options) (ucmp : Comparator) (sizes : TableSizes) (store : TableStore)
    (cs : CompactionState) : Option (TableStore × CompactionState) :=
  match cs.input with
  | [] => none
  | e :: rest =>
    let (stop, cs) := shouldStopBefore opts ucmp cs e.key
    let (store, cs) := if stop then finishCompactionOutputFile sizes store cs else (store, cs)
    let (dropped, drop) := dropStep ucmp cs.smallestSnapshot
      (isBaseLevelForKey ucmp cs.compaction.inputVersion cs.compaction.level) cs.drop e.key
    let cs := { cs with input := rest, drop := drop }
    if dropped then some (store, cs) else some (keepEntry opts sizes store cs e)

/-! ## What the loop has written -/

/-- The numbers of the outputs, finished and open. -/
def CompactionState.numbers (cs : CompactionState) : List ℕ :=
  cs.outputs.map FileMetaData.number ++ (cs.builder.map OutputBuilder.number).toList

/-- The entries of the outputs, finished and open. -/
def CompactionState.outputEntries (store : TableStore) (cs : CompactionState) : List Entry :=
  (cs.outputs.flatMap fun f => store.tables f.number) ++
    (cs.builder.map OutputBuilder.entries).getD []

/-- The metadata an open output would get now. -/
def OutputBuilder.metaData (b : OutputBuilder) (fileSize : ℕ) : FileMetaData :=
  ⟨b.number, fileSize, b.smallest, b.largest⟩

/-- The outputs are what their metadata says, and have numbers of their own. -/
structure OutputsOk (store : TableStore) (cs : CompactionState) : Prop where
  bounds : ∀ f ∈ cs.outputs, f.Bounds (store.tables f.number)
  builder_bounds : ∀ b, cs.builder = some b → ∀ n, (b.metaData n).Bounds b.entries
  nodup : cs.numbers.Nodup
  lt_next : ∀ n ∈ cs.numbers, n < store.nextFileNumber

/-- Nothing but the outputs of the compaction changed between two states of it. -/
structure OutputsFrame (store store' : TableStore) (cs cs' : CompactionState) : Prop where
  next_le : store.nextFileNumber ≤ store'.nextFileNumber
  tables_eq : ∀ n, n ∉ cs.numbers → n < store.nextFileNumber → store'.tables n = store.tables n
  numbers_new : ∀ n ∈ cs'.numbers, n ∈ cs.numbers ∨ store.nextFileNumber ≤ n
  compaction_eq : cs'.compaction = cs.compaction
  snapshot_eq : cs'.smallestSnapshot = cs.smallestSnapshot

variable {opts : Options} {ucmp : Comparator} {sizes : TableSizes} {store store' : TableStore}
  {cs cs' : CompactionState} {e : Entry}

theorem OutputsFrame.refl (store : TableStore) (cs : CompactionState) :
    OutputsFrame store store cs cs :=
  ⟨le_rfl, fun _ _ _ => rfl, fun _ hn => Or.inl hn, rfl, rfl⟩

theorem OutputsFrame.trans {store'' : TableStore} {cs'' : CompactionState}
    (h₁ : OutputsFrame store store' cs cs') (h₂ : OutputsFrame store' store'' cs' cs'') :
    OutputsFrame store store'' cs cs'' where
  next_le := h₁.next_le.trans h₂.next_le
  tables_eq n hn hlt := by
    grind [OutputsFrame]
  numbers_new n hn := by
    grind [OutputsFrame]
  compaction_eq := h₂.compaction_eq.trans h₁.compaction_eq
  snapshot_eq := h₂.snapshot_eq.trans h₁.snapshot_eq

theorem finishCompactionOutputFile_spec (h : OutputsOk store cs)
    (hr : finishCompactionOutputFile sizes store cs = (store', cs')) :
    OutputsOk store' cs' ∧ OutputsFrame store store' cs cs' ∧
      cs'.outputEntries store' = cs.outputEntries store ∧ cs'.builder = none ∧
      cs'.input = cs.input ∧ cs'.drop = cs.drop := by
  unfold finishCompactionOutputFile at hr
  cases hb : cs.builder with
  | none =>
    rw [hb] at hr
    cases hr
    exact ⟨h, .refl _ _, rfl, hb, rfl, rfl⟩
  | some b =>
    rw [hb] at hr
    cases hr
    have hnumbers : cs.numbers = cs.outputs.map FileMetaData.number ++ [b.number] := by
      simp [CompactionState.numbers, hb]
    have hnd := h.nodup
    rw [hnumbers] at hnd
    have hne : ∀ f ∈ cs.outputs, f.number ≠ b.number := fun f hf heq =>
      (nodup_append.mp hnd).2.2 f.number (mem_map_of_mem hf) b.number (by simp) heq
    have hold : ∀ f ∈ cs.outputs,
        (store.write b.number b.entries).tables f.number = store.tables f.number :=
      fun f hf => Function.update_of_ne (hne f hf) _ _
    have hnew : (store.write b.number b.entries).tables b.number = b.entries :=
      Function.update_self _ _ _
    refine ⟨⟨fun f hf => ?_, by simp, by simpa [CompactionState.numbers] using hnd, ?_⟩,
      ⟨le_rfl, fun n hn _ => Function.update_of_ne ?_ _ _, ?_, rfl, rfl⟩, ?_, rfl, rfl, rfl⟩
    · rcases mem_append.mp hf with hf | hf
      · rw [hold f hf]
        exact h.bounds f hf
      · rw [mem_singleton.mp hf, hnew]
        exact h.builder_bounds b hb _
    · intro n hn
      exact h.lt_next n (by rw [hnumbers]; simpa [CompactionState.numbers] using hn)
    · rintro rfl
      exact hn (by simp [hnumbers])
    · grind [CompactionState.numbers]
    · grind [CompactionState.outputEntries, flatMap_congr]

theorem OutputBuilder.bounds_add {b : OutputBuilder}
    (h : b.entries ≠ [] → ∀ n, (b.metaData n).Bounds b.entries) (e : Entry) (n : ℕ) :
    ((b.add e).metaData n).Bounds (b.add e).entries := by
  refine ⟨?_, by simp [add, metaData]⟩
  cases hes : b.entries with
  | nil => simp [add, metaData, hes]
  | cons a as =>
    have hhead := (h (by simp [hes]) n).1
    grind [metaData, add]

theorem keepEntry_spec (h : OutputsOk store cs)
    (hr : keepEntry opts sizes store cs e = (store', cs')) :
    OutputsOk store' cs' ∧ OutputsFrame store store' cs cs' ∧
      cs'.outputEntries store' = cs.outputEntries store ++ [e] ∧
      cs'.input = cs.input ∧ cs'.drop = cs.drop := by
  unfold keepEntry at hr
  -- the state after the entry was added, before the output may be closed
  obtain ⟨store₁, b, hopen⟩ : ∃ store₁ b, openCompactionOutputFile store cs = (store₁, b) :=
    ⟨_, _, rfl⟩
  rw [hopen] at hr
  simp only at hr
  have hadd : OutputsOk store₁ { cs with builder := some (b.add e) } ∧
      OutputsFrame store store₁ cs { cs with builder := some (b.add e) } ∧
      ({ cs with builder := some (b.add e) } : CompactionState).outputEntries store₁ =
        cs.outputEntries store ++ [e] := by
    unfold openCompactionOutputFile at hopen
    cases hb : cs.builder with
    | none =>
      rw [hb] at hopen
      cases hopen
      have hnumbers : cs.numbers = cs.outputs.map FileMetaData.number := by
        simp [CompactionState.numbers, hb]
      refine ⟨⟨h.bounds, ?_, ?_, ?_⟩, ⟨Nat.le_succ _, fun _ _ _ => rfl, ?_, rfl, rfl⟩, ?_⟩
      · grind [OutputBuilder.bounds_add]
      · have hfresh : store.nextFileNumber ∉ cs.outputs.map FileMetaData.number := fun hn =>
          absurd (h.lt_next _ (hnumbers ▸ hn)) (lt_irrefl _)
        have hnd := h.nodup
        rw [hnumbers] at hnd
        simp only [CompactionState.numbers, Option.map_some, Option.toList_some]
        exact nodup_append.mpr ⟨hnd, nodup_singleton _, fun a ha c hc hac =>
          hfresh (by rwa [← show a = store.nextFileNumber from
            hac.trans (mem_singleton.mp hc)])⟩
      · intro n hn
        simp only [CompactionState.numbers, Option.map_some, Option.toList_some,
          mem_append, mem_singleton] at hn
        rcases hn with hn | rfl
        · exact (h.lt_next n (hnumbers ▸ hn)).trans (Nat.lt_succ_self _)
        · exact Nat.lt_succ_self _
      · intro n hn
        simp only [CompactionState.numbers, Option.map_some, Option.toList_some,
          mem_append, mem_singleton] at hn
        rcases hn with hn | rfl
        · exact Or.inl (hnumbers ▸ hn)
        · exact Or.inr le_rfl
      · simp [CompactionState.outputEntries, hb, OutputBuilder.add, TableStore.allocate]
    | some b' =>
      rw [hb] at hopen
      cases hopen
      have hnumbers : ({ cs with builder := some (b.add e) } : CompactionState).numbers =
          cs.numbers := by
        simp [CompactionState.numbers, hb, OutputBuilder.add]
      refine ⟨⟨h.bounds, ?_, hnumbers ▸ h.nodup, hnumbers ▸ h.lt_next⟩,
        ⟨le_rfl, fun _ _ _ => rfl, fun n hn => Or.inl (hnumbers ▸ hn), rfl, rfl⟩, ?_⟩
      · grind [OutputBuilder.bounds_add, OutputsOk]
      · simp [CompactionState.outputEntries, hb, OutputBuilder.add]
  obtain ⟨hok, hframe, hent⟩ := hadd
  split_ifs at hr with hbig
  · obtain ⟨hok', hframe', hent', -, hin, hdrop⟩ := finishCompactionOutputFile_spec hok hr
    grind [OutputsFrame]
  · cases hr
    exact ⟨hok, hframe, hent, rfl, rfl⟩

/-- What the drop rule will keep of the remaining input. -/
def CompactionState.toKeep (ucmp : Comparator) (cs : CompactionState) : List Entry :=
  dropLoop ucmp cs.smallestSnapshot
    (isBaseLevelForKey ucmp cs.compaction.inputVersion cs.compaction.level) cs.drop cs.input

/-- **One iteration**: the outputs stay in order, and the entries written followed by those still to
be kept are the same list as before. -/
theorem compactEntry_spec (h : OutputsOk store cs)
    (hr : compactEntry opts ucmp sizes store cs = some (store', cs')) :
    OutputsOk store' cs' ∧ OutputsFrame store store' cs cs' ∧
      cs'.outputEntries store' ++ cs'.toKeep ucmp = cs.outputEntries store ++ cs.toKeep ucmp ∧
      ∃ e, cs.input = e :: cs'.input := by
  unfold compactEntry at hr
  cases hin : cs.input with
  | nil => rw [hin] at hr; cases hr
  | cons e rest =>
    rw [hin] at hr
    -- `ShouldStopBefore` touches only its own counters
    obtain ⟨stop, cs₁, hstop⟩ : ∃ stop cs₁, shouldStopBefore opts ucmp cs e.key = (stop, cs₁) :=
      ⟨_, _, rfl⟩
    have hsame : cs₁.compaction = cs.compaction ∧ cs₁.smallestSnapshot = cs.smallestSnapshot ∧
        cs₁.drop = cs.drop ∧ cs₁.outputs = cs.outputs ∧ cs₁.builder = cs.builder := by
      grind [shouldStopBefore]
    obtain ⟨hc, hs, hd, ho, hb⟩ := hsame
    have hnum : cs₁.numbers = cs.numbers := by simp [CompactionState.numbers, ho, hb]
    have hent₁ : cs₁.outputEntries store = cs.outputEntries store := by
      simp [CompactionState.outputEntries, ho, hb]
    have hok₁ : OutputsOk store cs₁ :=
      ⟨ho ▸ h.bounds, hb ▸ h.builder_bounds, hnum ▸ h.nodup, hnum ▸ h.lt_next⟩
    have hframe₁ : OutputsFrame store store cs cs₁ :=
      ⟨le_rfl, fun _ _ _ => rfl, fun n hn => Or.inl (hnum ▸ hn), hc, hs⟩
    -- an output may be closed before the entry
    obtain ⟨store₂, cs₂, hfin⟩ : ∃ store₂ cs₂,
        (if stop = true then finishCompactionOutputFile sizes store cs₁ else (store, cs₁)) =
          (store₂, cs₂) := ⟨_, _, rfl⟩
    have hok₂ : OutputsOk store₂ cs₂ ∧ OutputsFrame store store₂ cs₁ cs₂ ∧
        cs₂.outputEntries store₂ = cs₁.outputEntries store ∧ cs₂.drop = cs₁.drop := by
      split_ifs at hfin with hst
      · grind [finishCompactionOutputFile_spec]
      · cases hfin
        exact ⟨hok₁, .refl _ _, rfl, rfl⟩
    obtain ⟨hok₂, hframe₂, hent₂, hdrop₂⟩ := hok₂
    have hframe := hframe₁.trans hframe₂
    simp only [hstop, hfin] at hr
    obtain ⟨dropped, st, hstep⟩ : ∃ dropped st, dropStep ucmp cs₂.smallestSnapshot
        (isBaseLevelForKey ucmp cs₂.compaction.inputVersion cs₂.compaction.level) cs₂.drop e.key =
          (dropped, st) := ⟨_, _, rfl⟩
    simp only [hstep] at hr
    have hkeep : cs.toKeep ucmp =
        (if dropped then [] else [e]) ++ dropLoop ucmp cs.smallestSnapshot
          (isBaseLevelForKey ucmp cs.compaction.inputVersion cs.compaction.level) st rest := by
      rw [hframe.snapshot_eq, hframe.compaction_eq, hdrop₂, hd] at hstep
      rw [CompactionState.toKeep, hin, dropLoop, Predecessor.loop]
      simp only [hstep]
      cases dropped <;> rfl
    have hnext : OutputsOk store₂ { cs₂ with input := rest, drop := st } :=
      ⟨hok₂.bounds, hok₂.builder_bounds, hok₂.nodup, hok₂.lt_next⟩
    have hframe' : OutputsFrame store store₂ cs { cs₂ with input := rest, drop := st } :=
      ⟨hframe.next_le, hframe.tables_eq, hframe.numbers_new, hframe.compaction_eq,
        hframe.snapshot_eq⟩
    cases dropped with
    | true =>
      cases hr
      refine ⟨hnext, hframe', ?_, e, rfl⟩
      rw [hkeep]
      simp only [CompactionState.toKeep, hframe.snapshot_eq, hframe.compaction_eq, if_true, nil_append]
      exact congrArg (· ++ _) (hent₂.trans hent₁)
    | false =>
      obtain ⟨hok₃, hframe₃, hent₃, hin₃, hdrop₃⟩ := keepEntry_spec hnext (Option.some.inj hr)
      refine ⟨hok₃, hframe'.trans hframe₃, ?_, e, by rw [hin₃]⟩
      have hf := hframe'.trans hframe₃
      rw [hent₃, hkeep, CompactionState.toKeep, hf.snapshot_eq, hf.compaction_eq, hin₃, hdrop₃,
        append_assoc]
      exact congrArg (· ++ _) (hent₂.trans hent₁)

/-! ## The merged inputs -/

theorem mergingIterator_perm (children : List (List Entry)) :
    (mergingIterator ucmp children).Perm children.flatten := by
  induction children with
  | nil => exact List.Perm.refl _
  | cons l ls ih =>
    rw [mergingIterator, foldr_cons, flatten_cons, twoWayMerge_eq]
    exact (merge_perm_append _).trans (ih.append_left l)

/-- Entries with keys of different rank. -/
def DistinctRanks (ucmp : Comparator) (es : List Entry) : Prop :=
  es.Pairwise fun a b => a.key.rank ucmp ≠ b.key.rank ucmp

/-- **The merging iterator is sorted** when its children are and no key occurs twice. -/
theorem sortedEntries_mergingIterator {children : List (List Entry)}
    (hsort : ∀ l ∈ children, SortedEntries ucmp l) (hd : DistinctRanks ucmp children.flatten) :
    SortedEntries ucmp (mergingIterator ucmp children) := by
  have hle : ∀ a b : Entry, (internalCompare ucmp a.key b.key != .gt) = true ↔
      a.key.rank ucmp ≤ b.key.rank ucmp := fun a b => by rw [bne_iff_ne, internalCompare_ne_gt]
  have hpw : (mergingIterator ucmp children).Pairwise fun a b =>
      (internalCompare ucmp a.key b.key != .gt) = true := by
    clear hd
    induction children with
    | nil => exact List.Pairwise.nil
    | cons l ls ih =>
      rw [mergingIterator, foldr_cons, twoWayMerge_eq]
      refine pairwise_merge ?_ ?_ _ _ ?_ (ih fun x hx => hsort x (mem_cons_of_mem l hx))
      · grind
      · grind
      · exact (hsort l mem_cons_self).rank_lt.imp fun h => (hle _ _).mpr h.le
  have hd' : DistinctRanks ucmp (mergingIterator ucmp children) :=
    ((mergingIterator_perm children).pairwise_iff fun h => Ne.symm h).mpr hd
  rw [sortedEntries_iff]
  exact (hpw.and hd').imp fun h => lt_of_le_of_ne ((hle _ _).mp h.1) h.2

/-- The entries of the inputs, file by file. -/
def Compaction.entries (tables : ℕ → List Entry) (c : Compaction) : List Entry :=
  (c.inputs0 ++ c.inputs1).flatMap fun f => tables f.number

theorem inputEntries_perm (tables : ℕ → List Entry) (c : Compaction) :
    (inputEntries ucmp tables c).Perm (c.entries tables) := by
  refine (mergingIterator_perm _).trans (Perm.of_eq ?_)
  grind [Compaction.entries]

end RocketDb
