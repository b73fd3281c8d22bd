import RocketDb.Compaction.Work

/-! # Outputs and their grandparents (`Compaction::ShouldStopBefore`)

A file written to level `L + 1` will later be merged with the files of `L + 2` that it meets, its
grandparents. `ShouldStopBefore` moves an index over the grandparents that end before the key, counts their
sizes, and asks for a new output when the count passes the limit. The count runs on over dropped keys and over
outputs closed for their size, and it starts only after the first key. It is a signed number of 64 bits, so
the grandparents must be smaller than `2 ^ 63` bytes together.

* **`OutputInv`** — what index and count say about the open output.
* **`grandparentOverlap_le`** — no output meets more than the limit and one file. -/

namespace RocketDb

open KeyOrder List

/-- One key of the loop of `DoCompactionWork`: `ShouldStopBefore` may close the output; then the key
is dropped or kept. -/
def feedKey (opts : Options) (ucmp : Comparator) (sizes : TableSizes)
    (st : TableStore × CompactionState) (fed : Entry × Bool) : TableStore × CompactionState :=
  let (stop, cs) := shouldStopBefore opts ucmp st.2 fed.1.key
  let (store, cs) := if stop then finishCompactionOutputFile sizes st.1 cs else (st.1, cs)
  if fed.2 then (store, cs) else keepEntry opts sizes store cs fed.1

/-- The grandparent meets the range of keys. -/
def meetsKeys (ucmp : Comparator) (smallest largest : InternalKey) (g : FileMetaData) : Bool :=
  internalCompare ucmp g.largest smallest != .lt && internalCompare ucmp g.smallest largest != .gt

/-- The bytes of the grandparents that meet the range of keys. -/
def grandparentOverlap (ucmp : Comparator) (grandparents : List FileMetaData)
    (smallest largest : InternalKey) : ℕ :=
  sumFileSize (grandparents.filter (meetsKeys ucmp smallest largest))

/-- The range of keys meets at most the limit and one grandparent. -/
def FewGrandparents (opts : Options) (ucmp : Comparator) (grandparents : List FileMetaData)
    (smallest largest : InternalKey) : Prop :=
  (grandparentOverlap ucmp grandparents smallest largest : ℤ) ≤ maxGrandParentOverlapBytes opts ∨
    ∃ g ∈ grandparents, (grandparentOverlap ucmp grandparents smallest largest : ℤ) ≤
      maxGrandParentOverlapBytes opts + g.fileSize

variable {opts : Options} {ucmp : Comparator} {sizes : TableSizes} {store : TableStore}
  {cs : CompactionState} {e : Entry} {k smallest largest : InternalKey} {last : Option InternalKey}
  {files pre mid rest : List FileMetaData} {g : FileMetaData}

theorem meetsKeys_iff : meetsKeys ucmp smallest largest g = true ↔
    smallest.rank ucmp ≤ g.largest.rank ucmp ∧ g.smallest.rank ucmp ≤ largest.rank ucmp := by
  rw [meetsKeys, Bool.and_eq_true, bne_iff_ne, bne_iff_ne, internalCompare_ne_lt, internalCompare_ne_gt]

@[simp] theorem sumFileSize_append (l₁ l₂ : List FileMetaData) :
    sumFileSize (l₁ ++ l₂) = sumFileSize l₁ + sumFileSize l₂ := by
  simp [sumFileSize]

theorem sumFileSize_filter_le (p : FileMetaData → Bool) (files : List FileMetaData) :
    sumFileSize (files.filter p) ≤ sumFileSize files := by
  induction files with
  | nil => exact le_rfl
  | cons f files ih =>
    grind [sumFileSize]

/-- **The bytes a range meets.** The files before `mid` end before the range, and the file after
`mid` ends at or after it, so only `mid` and that file can meet it. -/
theorem grandparentOverlap_le_mid (hsort : SortedLevel ucmp (pre ++ mid ++ rest))
    (hpre : ∀ g ∈ pre, g.largest.rank ucmp < smallest.rank ucmp)
    (hrest : ∀ g ∈ rest.head?, largest.rank ucmp ≤ g.largest.rank ucmp) :
    grandparentOverlap ucmp (pre ++ mid ++ rest) smallest largest ≤
      sumFileSize mid + sumFileSize rest.head?.toList := by
  have hpre' : pre.filter (meetsKeys ucmp smallest largest) = [] := by
    rw [filter_eq_nil_iff]
    exact fun g hg hm => absurd (meetsKeys_iff.mp hm).1 (hpre g hg).not_ge
  have hrest' : sumFileSize (rest.filter (meetsKeys ucmp smallest largest)) ≤
      sumFileSize rest.head?.toList := by
    cases rest with
    | nil => exact le_rfl
    | cons g tail =>
      -- a file after `g` starts after `g` ends
      have htail : tail.filter (meetsKeys ucmp smallest largest) = [] := by
        rw [filter_eq_nil_iff]
        intro x hx hm
        have hgx := (pairwise_cons.mp (pairwise_append.mp hsort.rank_lt).2.1).1 x hx
        exact absurd (meetsKeys_iff.mp hm).2 ((hrest g rfl).trans_lt hgx).not_ge
      rw [filter_cons, htail]
      split_ifs
      · exact le_rfl
      · exact Nat.zero_le _
  grind [grandparentOverlap, sumFileSize_append, sumFileSize_filter_le]

/-! ## One call of `ShouldStopBefore` -/

/-- The scan passes the files that end before the key, and counts them if a key was seen before. -/
theorem grandparentScan_eq (ucmp : Comparator) (k : InternalKey) (seenKey : Bool) (files : List FileMetaData)
    (index : ℕ) (bytes : ℤ) (hnonneg : 0 ≤ bytes)
    (hsmall : bytes + sumFileSize files < 2 ^ 63) :
    grandparentScan ucmp k seenKey files index bytes =
      (index + (files.takeWhile fun g => internalCompare ucmp k g.largest == .gt).length,
        bytes + if seenKey then
          (sumFileSize (files.takeWhile fun g => internalCompare ucmp k g.largest == .gt) : ℤ)
          else 0) := by
  induction files generalizing index bytes with
  | nil => simp [grandparentScan, sumFileSize]
  | cons f files ih =>
    have hcons : sumFileSize (f :: files) = f.fileSize + sumFileSize files := rfl
    rw [hcons] at hsmall
    -- the count with the file does not wrap
    grind [grandparentScan, takeWhile_cons_of_pos, sumFileSize, takeWhile_cons_of_neg]

/-- Where the index stands after the key `k`: past the files that end before it, at one that does
not. -/
structure IndexAt (ucmp : Comparator) (cs : CompactionState) (k : InternalKey) : Prop where
  passed : ∀ g ∈ cs.compaction.grandparents.take cs.grandparentIndex,
    g.largest.rank ucmp < k.rank ucmp
  next : ∀ g ∈ (cs.compaction.grandparents.drop cs.grandparentIndex).head?,
    k.rank ucmp ≤ g.largest.rank ucmp

/-- **One call**: the index moves on to the key, and the files it passes are counted unless this is
the first key. -/
theorem shouldStopBefore_spec (opts : Options)
    (hlast : ∀ g ∈ cs.compaction.grandparents.take cs.grandparentIndex,
      g.largest.rank ucmp < k.rank ucmp)
    (hnonneg : 0 ≤ cs.overlappedBytes)
    (hsmall : cs.overlappedBytes +
      sumFileSize (cs.compaction.grandparents.drop cs.grandparentIndex) < 2 ^ 63) :
    let r := shouldStopBefore opts ucmp cs k
    IndexAt ucmp r.2 k ∧ 0 ≤ r.2.overlappedBytes ∧
      r.2.overlappedBytes ≤ maxGrandParentOverlapBytes opts ∧ r.2.seenKey = true ∧
      r.2.compaction = cs.compaction ∧ r.2.outputs = cs.outputs ∧ r.2.builder = cs.builder ∧
      ∃ passed, cs.compaction.grandparents.take r.2.grandparentIndex =
          cs.compaction.grandparents.take cs.grandparentIndex ++ passed ∧
        cs.compaction.grandparents.drop cs.grandparentIndex =
          passed ++ cs.compaction.grandparents.drop r.2.grandparentIndex ∧
        r.2.overlappedBytes ≤ cs.overlappedBytes + sumFileSize passed ∧
        (r.1 = false → cs.seenKey = true →
          r.2.overlappedBytes = cs.overlappedBytes + sumFileSize passed) := by
  -- the loop of `ShouldStopBefore` passes the grandparents that end before the key
  intro r
  obtain ⟨gs, hgs⟩ : ∃ gs, gs = cs.compaction.grandparents.drop cs.grandparentIndex := ⟨_, rfl⟩
  obtain ⟨passed, hpassed⟩ : ∃ passed,
      passed = gs.takeWhile fun g => internalCompare ucmp k g.largest == .gt := ⟨_, rfl⟩
  have hr : r = (decide (maxGrandParentOverlapBytes opts <
      cs.overlappedBytes + if cs.seenKey then (sumFileSize passed : ℤ) else 0),
      { cs with
        grandparentIndex := cs.grandparentIndex + passed.length
        seenKey := true
        overlappedBytes :=
          if maxGrandParentOverlapBytes opts <
              cs.overlappedBytes + if cs.seenKey then (sumFileSize passed : ℤ) else 0 then 0
          else cs.overlappedBytes + if cs.seenKey then (sumFileSize passed : ℤ) else 0 }) := by
    grind [grandparentScan_eq, shouldStopBefore]
  have hsplit : gs = passed ++ gs.dropWhile fun g => internalCompare ucmp k g.largest == .gt := by
    rw [hpassed, takeWhile_append_dropWhile]
  have htake : cs.compaction.grandparents.take (cs.grandparentIndex + passed.length) =
      cs.compaction.grandparents.take cs.grandparentIndex ++ passed := by
    grind
  have hdrop : cs.compaction.grandparents.drop (cs.grandparentIndex + passed.length) =
      gs.dropWhile fun g => internalCompare ucmp k g.largest == .gt := by
    grind [drop_drop, drop_left]
  rw [hr]
  have hmax : 0 ≤ maxGrandParentOverlapBytes opts := by
    unfold maxGrandParentOverlapBytes
    omega
  refine ⟨⟨?_, ?_⟩, ?_, ?_, rfl, rfl, rfl, rfl, passed, htake, ?_, ?_, ?_⟩
  · simp only [htake]
    intro g hg
    rcases mem_append.mp hg with hg | hg
    · exact hlast g hg
    · rw [hpassed] at hg
      have hgt := all_eq_true.mp all_takeWhile g hg
      exact internalCompare_eq_gt.mp (by simpa using hgt)
  · simp only [hdrop]
    intro g hg
    have hne : ¬ (internalCompare ucmp k g.largest == .gt) = true := by
      rw [Option.mem_def] at hg
      have hhead := head?_dropWhile_not
        (fun g : FileMetaData => internalCompare ucmp k g.largest == .gt) gs
      rw [hg] at hhead
      simpa using hhead
    exact internalCompare_ne_gt.mp (by simpa using hne)
  · simp only
    split_ifs <;> omega
  · simp only
    split_ifs <;> omega
  · simp only
    rw [hdrop, ← hgs]
    exact hsplit
  · simp only
    split_ifs <;> omega
  · grind

/-! ## The invariant of the loop -/

/-- What holds between two keys, the last of which was `last`: every finished output meets few
grandparents, and for the open one the count covers the files between the index at its first key and
the index now. -/
structure OutputInv (opts : Options) (ucmp : Comparator) (cs : CompactionState)
    (last : Option InternalKey) : Prop where
  sorted : SortedLevel ucmp cs.compaction.grandparents
  nonneg : 0 ≤ cs.overlappedBytes
  le_max : cs.overlappedBytes ≤ maxGrandParentOverlapBytes opts
  small : cs.overlappedBytes + sumFileSize (cs.compaction.grandparents.drop cs.grandparentIndex) < 2 ^ 63
  first : last = none → cs.grandparentIndex = 0
  index : ∀ k ∈ last, IndexAt ucmp cs k
  seen : last ≠ none → cs.seenKey = true
  finished : ∀ f ∈ cs.outputs,
    FewGrandparents opts ucmp cs.compaction.grandparents f.smallest f.largest
  largest_le : ∀ b, cs.builder = some b →
    b.entries ≠ [] ∧ ∃ k ∈ last, b.largest.rank ucmp ≤ k.rank ucmp
  counted : ∀ b, cs.builder = some b → ∃ pre mid,
    cs.compaction.grandparents.take cs.grandparentIndex = pre ++ mid ∧
      (∀ g ∈ pre, g.largest.rank ucmp < b.smallest.rank ucmp) ∧
      (sumFileSize mid : ℤ) ≤ cs.overlappedBytes

/-- **The open output meets few grandparents**: those counted, and the one at the index. -/
theorem OutputInv.few (h : OutputInv opts ucmp cs last) {b : OutputBuilder}
    (hb : cs.builder = some b) :
    FewGrandparents opts ucmp cs.compaction.grandparents b.smallest b.largest := by
  obtain ⟨-, k, hk, hle⟩ := h.largest_le b hb
  obtain ⟨pre, mid, htake, hpre, hmid⟩ := h.counted b hb
  obtain ⟨rest, hrest⟩ : ∃ rest,
      rest = cs.compaction.grandparents.drop cs.grandparentIndex := ⟨_, rfl⟩
  have hsplit : cs.compaction.grandparents = pre ++ mid ++ rest := by
    rw [← htake, hrest, take_append_drop]
  have hnext : ∀ g ∈ rest.head?, b.largest.rank ucmp ≤ g.largest.rank ucmp := fun g hg =>
    hle.trans ((h.index k hk).next g (hrest ▸ hg))
  have hover := grandparentOverlap_le_mid (hsplit ▸ h.sorted) hpre hnext
  rw [← hsplit] at hover
  have hmax := h.le_max
  cases hhead : rest.head? with
  | none =>
    rw [hhead] at hover
    simp only [Option.toList_none, sumFileSize, map_nil, sum_nil] at hover
    refine Or.inl ?_
    simp only [sumFileSize] at hmid
    omega
  | some g =>
    rw [hhead] at hover
    simp only [Option.toList_some, sumFileSize, map_cons, map_nil, sum_cons, sum_nil] at hover
    refine Or.inr ⟨g, ?_, ?_⟩
    · grind
    · simp only [sumFileSize] at hmid
      omega

theorem finishCompactionOutputFile_snd (sizes : TableSizes) (store : TableStore)
    (cs : CompactionState) :
    (finishCompactionOutputFile sizes store cs).2 = { cs with
      outputs := cs.outputs ++
        (cs.builder.map fun b => b.metaData (sizes.finishedSize b.entries)).toList
      builder := none } := by
  unfold finishCompactionOutputFile
  cases hb : cs.builder with
  | none =>
    cases cs
    simp_all
  | some b => rfl

theorem OutputInv.finish (h : OutputInv opts ucmp cs last) (sizes : TableSizes)
    (store : TableStore) :
    OutputInv opts ucmp (finishCompactionOutputFile sizes store cs).2 last := by
  rw [finishCompactionOutputFile_snd]
  exact
    { sorted := h.sorted
      nonneg := h.nonneg
      le_max := h.le_max
      small := h.small
      first := h.first
      index := fun k hk => ⟨(h.index k hk).passed, (h.index k hk).next⟩
      seen := h.seen
      finished := by
        intro f hf
        rcases mem_append.mp hf with hf | hf
        · exact h.finished f hf
        · obtain ⟨b, hb, rfl⟩ := Option.map_eq_some_iff.mp (Option.mem_toList.mp hf)
          exact h.few hb
      largest_le := fun b hb => by cases hb
      counted := fun b hb => by cases hb }

/-- **`ShouldStopBefore` and the close it asks for** keep the invariant. If it asks for none, the
count still covers the open output; if it does, the output is closed and the count starts over. -/
theorem OutputInv.stop (h : OutputInv opts ucmp cs last)
    (hlt : ∀ x ∈ last, x.rank ucmp < k.rank ucmp) (sizes : TableSizes) (store : TableStore) :
    OutputInv opts ucmp
      (if (shouldStopBefore opts ucmp cs k).1 then
        finishCompactionOutputFile sizes store (shouldStopBefore opts ucmp cs k).2
        else (store, (shouldStopBefore opts ucmp cs k).2)).2 (some k) := by
  have hlast : ∀ g ∈ cs.compaction.grandparents.take cs.grandparentIndex,
      g.largest.rank ucmp < k.rank ucmp := by
    cases hl : last with
    | none =>
      rw [h.first hl]
      simp
    | some x => exact fun g hg => ((h.index x hl).passed g hg).trans (hlt x hl)
  obtain ⟨hindex, hnonneg, hmax, hseen, hc, ho, hb, passed, htake, hdrop, hcount, hbytes⟩ :=
    shouldStopBefore_spec opts hlast h.nonneg h.small
  obtain ⟨⟨stop, cs₁⟩, hr⟩ : ∃ r, shouldStopBefore opts ucmp cs k = r := ⟨_, rfl⟩
  rw [hr] at hindex hnonneg hmax hseen hc ho hb htake hdrop hcount hbytes ⊢
  simp only at hindex hnonneg hmax hseen hc ho hb htake hdrop hcount hbytes ⊢
  have hsmall : cs₁.overlappedBytes +
      sumFileSize (cs₁.compaction.grandparents.drop cs₁.grandparentIndex) < 2 ^ 63 := by
    grind [OutputInv, sumFileSize_append]
  have hfinished : ∀ f ∈ cs₁.outputs,
      FewGrandparents opts ucmp cs₁.compaction.grandparents f.smallest f.largest := by
    rw [ho, hc]
    exact h.finished
  cases stop with
  | true =>
    -- the open output is closed and the count starts again
    rw [if_pos rfl, finishCompactionOutputFile_snd]
    exact
      { sorted := hc ▸ h.sorted
        nonneg := hnonneg
        le_max := hmax
        small := hsmall
        first := fun hn => by cases hn
        index := fun x hx => by cases hx; exact ⟨hindex.passed, hindex.next⟩
        seen := fun _ => hseen
        finished := by
          intro f hf
          rcases mem_append.mp hf with hf | hf
          · exact hfinished f hf
          · obtain ⟨b, hb', rfl⟩ := Option.map_eq_some_iff.mp (Option.mem_toList.mp hf)
            rw [hb] at hb'
            change FewGrandparents opts ucmp cs₁.compaction.grandparents b.smallest b.largest
            rw [hc]
            exact h.few hb'
        largest_le := fun b hb => by cases hb
        counted := fun b hb => by cases hb }
  | false =>
    -- the output goes on: the passed grandparents are added to its count
    rw [if_neg Bool.false_ne_true]
    refine
      { sorted := hc ▸ h.sorted
        nonneg := hnonneg
        le_max := hmax
        small := hsmall
        first := fun hn => by cases hn
        index := fun x hx => by cases hx; exact hindex
        seen := fun _ => hseen
        finished := hfinished
        largest_le := ?_
        counted := ?_ }
    · grind [OutputInv]
    · intro b hb'
      obtain ⟨-, x, hx, -⟩ := h.largest_le b (hb ▸ hb')
      obtain ⟨pre, mid, hpm, hpre, hmid⟩ := h.counted b (hb ▸ hb')
      have hsum := hbytes rfl (h.seen (by rw [Option.mem_def.mp hx]; simp))
      grind [sumFileSize_append]

/-- **Keeping the key** that was just asked about keeps the invariant. A new output starts with an
empty count. -/
theorem OutputInv.keep (h : OutputInv opts ucmp cs (some e.key)) (sizes : TableSizes)
    (store : TableStore) :
    OutputInv opts ucmp (keepEntry opts sizes store cs e).2 (some e.key) := by
  have hadd : OutputInv opts ucmp
      { cs with builder := some ((openCompactionOutputFile store cs).2.add e) } (some e.key) :=
    { sorted := h.sorted
      nonneg := h.nonneg
      le_max := h.le_max
      small := h.small
      first := h.first
      index := fun k hk => ⟨(h.index k hk).passed, (h.index k hk).next⟩
      seen := h.seen
      finished := h.finished
      largest_le := by
        rintro _ ⟨rfl⟩
        exact ⟨by simp [OutputBuilder.add], e.key, rfl, le_rfl⟩
      counted := by
        rintro _ ⟨rfl⟩
        unfold openCompactionOutputFile
        cases hb : cs.builder with
        | none =>
          refine ⟨cs.compaction.grandparents.take cs.grandparentIndex, [], by simp, ?_, ?_⟩
          · exact (h.index e.key rfl).passed
          · simpa [sumFileSize] using h.nonneg
        | some b =>
          obtain ⟨pre, mid, htake, hpre, hmid⟩ := h.counted b hb
          refine ⟨pre, mid, htake, ?_, hmid⟩
          simpa [OutputBuilder.add, (h.largest_le b hb).1] using hpre }
  unfold keepEntry
  simp only
  split_ifs
  · exact hadd.finish sizes _
  · exact hadd

theorem OutputInv.feedKey {st : TableStore × CompactionState}
    (h : OutputInv opts ucmp st.2 last) (sizes : TableSizes) (fed : Entry × Bool)
    (hlt : ∀ x ∈ last, x.rank ucmp < fed.1.key.rank ucmp) :
    OutputInv opts ucmp (RocketDb.feedKey opts ucmp sizes st fed).2 (some fed.1.key) := by
  have hstop := h.stop hlt sizes st.1
  unfold RocketDb.feedKey
  simp only
  cases fed.2 with
  | true => exact hstop
  | false => exact hstop.keep sizes _

/-- The state before the first key. -/
structure CompactionState.Fresh (cs : CompactionState) : Prop where
  index : cs.grandparentIndex = 0
  bytes : cs.overlappedBytes = 0
  outputs : cs.outputs = []
  builder : cs.builder = none

theorem OutputInv.fresh (hsort : SortedLevel ucmp cs.compaction.grandparents)
    (hsmall : sumFileSize cs.compaction.grandparents < 2 ^ 63) (h : cs.Fresh) :
    OutputInv opts ucmp cs none where
  sorted := hsort
  nonneg := h.bytes.ge
  le_max := by
    rw [h.bytes, maxGrandParentOverlapBytes]
    omega
  small := by
    rw [h.bytes, h.index, drop_zero]
    omega
  first := fun _ => h.index
  index := fun k hk => by cases hk
  seen := fun hn => absurd rfl hn
  finished := by simp [h.outputs]
  largest_le := by simp [h.builder]
  counted := by simp [h.builder]

theorem OutputInv.feedKeys (sizes : TableSizes) {fed : List (Entry × Bool)} :
    ∀ (st : TableStore × CompactionState) (last : Option InternalKey),
      OutputInv opts ucmp st.2 last → SortedEntries ucmp (fed.map Prod.fst) →
      (∀ x ∈ last, ∀ p ∈ fed, x.rank ucmp < p.1.key.rank ucmp) →
      ∃ last', OutputInv opts ucmp (fed.foldl (RocketDb.feedKey opts ucmp sizes) st).2 last' := by
  induction fed with
  | nil => exact fun _ _ h _ _ => ⟨_, h⟩
  | cons p fed ih =>
    intro st last h hsorted hlt
    obtain ⟨hfirst, hrest⟩ := pairwise_cons.mp hsorted.rank_lt
    have hstep := h.feedKey sizes p fun x hx => hlt x hx p mem_cons_self
    refine ih _ _ hstep (sortedEntries_iff.mpr hrest) ?_
    grind

theorem keepEntry_compaction (opts : Options) (sizes : TableSizes) (store : TableStore)
    (cs : CompactionState) (e : Entry) :
    (keepEntry opts sizes store cs e).2.compaction = cs.compaction := by
  grind [keepEntry, finishCompactionOutputFile_snd]

theorem feedKey_compaction (opts : Options) (ucmp : Comparator) (sizes : TableSizes)
    (st : TableStore × CompactionState) (fed : Entry × Bool) :
    (feedKey opts ucmp sizes st fed).2.compaction = st.2.compaction := by
  have hstop : (if (shouldStopBefore opts ucmp st.2 fed.1.key).1 then
      finishCompactionOutputFile sizes st.1 (shouldStopBefore opts ucmp st.2 fed.1.key).2
      else (st.1, (shouldStopBefore opts ucmp st.2 fed.1.key).2)).2.compaction =
      st.2.compaction := by
    split_ifs
    · rw [finishCompactionOutputFile_snd]
      rfl
    · rfl
  unfold feedKey
  simp only
  cases fed.2 with
  | true => exact hstop
  | false => exact (keepEntry_compaction _ _ _ _ _).trans hstop

theorem foldl_feedKey_compaction (fed : List (Entry × Bool)) (st : TableStore × CompactionState) :
    (fed.foldl (feedKey opts ucmp sizes) st).2.compaction = st.2.compaction := by
  induction fed generalizing st with
  | nil => rfl
  | cons p fed ih => rw [foldl_cons, ih, feedKey_compaction]

/-- **No output meets too many grandparents.** For every sorted list of grandparents of less than `2 ^ 63`
bytes and every increasing sequence of keys, whichever of them are dropped and wherever outputs are closed
because of their size, each output meets at most the limit and one grandparent. -/
theorem grandparentOverlap_le (opts : Options) (ucmp : Comparator) (sizes : TableSizes)
    (store : TableStore) (cs : CompactionState) (hfresh : cs.Fresh)
    (hsort : SortedLevel ucmp cs.compaction.grandparents)
    (hsmall : sumFileSize cs.compaction.grandparents < 2 ^ 63) (fed : List (Entry × Bool))
    (hfed : SortedEntries ucmp (fed.map Prod.fst)) :
    let st := fed.foldl (feedKey opts ucmp sizes) (store, cs)
    ∀ f ∈ (finishCompactionOutputFile sizes st.1 st.2).2.outputs,
      FewGrandparents opts ucmp cs.compaction.grandparents f.smallest f.largest := by
  intro st f hf
  obtain ⟨last, h⟩ := OutputInv.feedKeys sizes (store, cs) none
    (OutputInv.fresh hsort hsmall hfresh : OutputInv opts ucmp cs none) hfed (fun x hx => by cases hx)
  have hfew := (h.finish sizes st.1).finished f hf
  rwa [finishCompactionOutputFile_snd, foldl_feedKey_compaction] at hfew

/-- A compaction with three grandparents of the same size. -/
def threeGrandparents (size : ℕ) : Compaction where
  level := 1
  inputs0 := []
  inputs1 := []
  grandparents :=
    [⟨11, size, .ofParts (ascii "a") 1 .kTypeValue, .ofParts (ascii "b") 2 .kTypeValue⟩,
      ⟨12, size, .ofParts (ascii "c") 3 .kTypeValue, .ofParts (ascii "d") 4 .kTypeValue⟩,
      ⟨13, size, .ofParts (ascii "e") 5 .kTypeValue, .ofParts (ascii "f") 6 .kTypeValue⟩]
  inputVersion := .empty
  compactPointer := .ofParts (ascii "z") 1 .kTypeValue

/-- The keys `a`, `c` (dropped), `d`, `g` and `h`. -/
def fiveKeys : List (Entry × Bool) :=
  [(⟨.ofParts (ascii "a") 20 .kTypeValue, []⟩, false),
    (⟨.ofParts (ascii "c") 21 .kTypeValue, []⟩, true),
    (⟨.ofParts (ascii "d") 22 .kTypeValue, []⟩, false),
    (⟨.ofParts (ascii "g") 23 .kTypeValue, []⟩, false),
    (⟨.ofParts (ascii "h") 24 .kTypeValue, []⟩, false)]

/-- The state in which the keys are fed, with grandparents of 8 MiB. -/
def threeGrandparentsState : CompactionState :=
  .start bytewiseComparator (fun _ => []) (threeGrandparents (2 ^ 23)) 0

/-- The state after the keys. -/
def fiveKeysState : TableStore × CompactionState :=
  fiveKeys.foldl (feedKey .small bytewiseComparator .counting)
    (⟨20, fun _ => []⟩, threeGrandparentsState)

/-- The output is closed before `g`, where the count reaches 24 MiB, and both outputs keep the
bound. -/
theorem grandparentOverlap_le_fiveKeys :
    ((finishCompactionOutputFile .counting fiveKeysState.1 fiveKeysState.2).2.outputs.map fun f =>
        (f.smallest.userKey, f.largest.userKey)) =
        [(ascii "a", ascii "d"), (ascii "g", ascii "h")] ∧
      ∀ f ∈ (finishCompactionOutputFile .counting fiveKeysState.1 fiveKeysState.2).2.outputs,
        FewGrandparents .small bytewiseComparator threeGrandparentsState.compaction.grandparents
          f.smallest f.largest := by
  have hsorted : SortedEntries bytewiseComparator (fiveKeys.map Prod.fst) := by decide +kernel
  have hlevel : SortedLevel bytewiseComparator
      threeGrandparentsState.compaction.grandparents := by decide +kernel
  have h := grandparentOverlap_le .small bytewiseComparator .counting ⟨20, fun _ => []⟩
    threeGrandparentsState ⟨rfl, rfl, rfl, rfl⟩ hlevel (by decide) fiveKeys hsorted
  exact ⟨by decide +kernel, h⟩

/-- **The count wraps**: three grandparents of `2 ^ 63` bytes add up to a negative number, and the one output
with the keys `a` and `g` meets all of them. -/
theorem grandparentOverlap_wraps :
    let c := threeGrandparents (2 ^ 63)
    let fed : List (Entry × Bool) :=
      [(⟨.ofParts (ascii "a") 20 .kTypeValue, []⟩, false), (⟨.ofParts (ascii "g") 23 .kTypeValue, []⟩, false)]
    let st := fed.foldl (feedKey .small bytewiseComparator .counting)
      (⟨20, fun _ => []⟩, .start bytewiseComparator (fun _ => []) c 0)
    SortedLevel bytewiseComparator c.grandparents ∧
      ∃ f ∈ (finishCompactionOutputFile .counting st.1 st.2).2.outputs,
        ¬ FewGrandparents .small bytewiseComparator c.grandparents f.smallest f.largest := by
  unfold FewGrandparents
  decide +kernel

/-! ## The loop of the compaction -/

/-- The drop rule and the rest of the input do not touch what `OutputInv` is about. -/
theorem keepEntry_with (opts : Options) (sizes : TableSizes) (store : TableStore)
    (cs : CompactionState) (e : Entry) (input : List Entry) (drop : DropState (ℕ → ℕ)) :
    keepEntry opts sizes store { cs with input := input, drop := drop } e =
      ((keepEntry opts sizes store cs e).1,
        { (keepEntry opts sizes store cs e).2 with input := input, drop := drop }) := by
  obtain ⟨store₁, b, hopen⟩ : ∃ store₁ b, openCompactionOutputFile store cs = (store₁, b) :=
    ⟨_, _, rfl⟩
  have hopen' : openCompactionOutputFile store { cs with input := input, drop := drop } =
      (store₁, b) := hopen
  unfold keepEntry
  rw [hopen, hopen']
  simp only
  split_ifs <;> rfl

/-- **An iteration of the loop is a key fed**, dropped if the drop rule says so. -/
theorem compactEntry_eq_feedKey (opts : Options) (ucmp : Comparator) (sizes : TableSizes)
    (store : TableStore) {cs : CompactionState} {rest : List Entry} (hin : cs.input = e :: rest) :
    ∃ dropped drop, compactEntry opts ucmp sizes store cs =
      some ((feedKey opts ucmp sizes (store, cs) (e, dropped)).1,
        { (feedKey opts ucmp sizes (store, cs) (e, dropped)).2 with
          input := rest, drop := drop }) := by
  unfold compactEntry feedKey
  rw [hin]
  simp only
  obtain ⟨⟨store₁, cs₁⟩, hr⟩ : ∃ r, (if (shouldStopBefore opts ucmp cs e.key).1 then
      finishCompactionOutputFile sizes store (shouldStopBefore opts ucmp cs e.key).2
      else (store, (shouldStopBefore opts ucmp cs e.key).2)) = r := ⟨_, rfl⟩
  rw [hr]
  simp only
  obtain ⟨⟨dropped, drop⟩, hd⟩ : ∃ d, dropStep ucmp cs₁.smallestSnapshot
      (isBaseLevelForKey ucmp cs₁.compaction.inputVersion cs₁.compaction.level) cs₁.drop e.key =
      d := ⟨_, rfl⟩
  refine ⟨dropped, drop, ?_⟩
  grind [keepEntry_with]

/-- The loop of `DoCompactionWork`, for at most `n` entries. -/
def compactLoop (opts : Options) (ucmp : Comparator) (sizes : TableSizes) :
    ℕ → TableStore × CompactionState → TableStore × CompactionState
  | 0, st => st
  | n + 1, st =>
    match compactEntry opts ucmp sizes st.1 st.2 with
    | none => st
    | some st' => compactLoop opts ucmp sizes n st'

theorem OutputInv.compactLoop (sizes : TableSizes) (n : ℕ) :
    ∀ (st : TableStore × CompactionState) (last : Option InternalKey),
      OutputInv opts ucmp st.2 last → SortedEntries ucmp st.2.input →
      (∀ x ∈ last, ∀ y ∈ st.2.input, x.rank ucmp < y.key.rank ucmp) →
      (RocketDb.compactLoop opts ucmp sizes n st).2.compaction = st.2.compaction ∧
        ∃ last', OutputInv opts ucmp (RocketDb.compactLoop opts ucmp sizes n st).2 last' := by
  induction n with
  | zero => exact fun _ _ h _ _ => ⟨rfl, _, h⟩
  | succ n ih =>
    intro st last h hsorted hlt
    cases hin : st.2.input with
    | nil =>
      grind [RocketDb.compactLoop, compactEntry]
    | cons e rest =>
      rw [hin] at hsorted hlt
      obtain ⟨dropped, drop, hstep⟩ := compactEntry_eq_feedKey opts ucmp sizes st.1 hin
      obtain ⟨hfirst, hrest⟩ := pairwise_cons.mp hsorted.rank_lt
      have hfed := h.feedKey sizes (e, dropped) fun x hx => hlt x hx e mem_cons_self
      rw [RocketDb.compactLoop, hstep]
      have hnext := ih ((RocketDb.feedKey opts ucmp sizes st (e, dropped)).1,
        { (RocketDb.feedKey opts ucmp sizes st (e, dropped)).2 with
          input := rest, drop := drop }) (some e.key)
        ⟨hfed.sorted, hfed.nonneg, hfed.le_max, hfed.small, hfed.first,
          fun k hk => ⟨(hfed.index k hk).passed, (hfed.index k hk).next⟩, hfed.seen,
          hfed.finished, hfed.largest_le, hfed.counted⟩
        (sortedEntries_iff.mpr hrest) (by rintro _ ⟨rfl⟩ y hy; exact hfirst y hy)
      exact ⟨hnext.1.trans (feedKey_compaction _ _ _ _ _), hnext.2⟩

theorem CompactionRequest.grandparents_sorted {v : Version} {req : CompactionRequest}
    {c : Compaction} {pointer : ℕ → Option InternalKey}
    (hsort : ∀ level, 1 ≤ level → SortedLevel ucmp (v.files level))
    (hc : req.compaction opts ucmp v pointer = some c) :
    SortedLevel ucmp c.grandparents := by
  rw [compaction_eq_map_seed] at hc
  obtain ⟨⟨level, seed⟩, -, rfl⟩ := Option.map_eq_some_iff.mp hc
  simp only [setupOtherInputs]
  split_ifs
  all_goals first
    | exact (hsort (level + 2) (by omega)).of_sublist getOverlappingInputs_sublist
    | exact ⟨by simp, List.Pairwise.nil⟩

end RocketDb
