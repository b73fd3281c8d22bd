import RocketDb.Format.View
import RocketDb.Lib.Predecessor

/-! # The drop rule of a major compaction (`DBImpl::DoCompactionWork`)

The loop walks the merged inputs in internal-key order and drops entries **hidden** by a newer entry of the
same user key that every live snapshot sees, and **deletions** that every live snapshot sees and under which
no deeper level holds data. It carries the current user key and the sequence number of its previous entry; an
unparsable key is always kept and resets both.

So the decision depends on the entry *directly* before: an unparsable key between a dropped deletion and an
older value of the same key brings that value back. `dropLoop_preserves_reads_iff` says when this cannot
happen. -/

namespace RocketDb

open KeyOrder Newest List

/-- What the loop of `DoCompactionWork` carries from entry to entry: `current_user_key` (with
`has_current_user_key`), `last_sequence_for_key`, and the state of `IsBaseLevelForKey`. -/
structure DropState (σ : Type) where
  currentUserKey : Option Slice
  lastSequenceForKey : ℕ
  levelPtrs : σ
  deriving DecidableEq, Repr

/-- The state before the first entry. -/
def DropState.init {σ : Type} (q : σ) : DropState σ := ⟨none, kMaxSequenceNumber, q⟩

/-- On the first occurrence of a user key the loop starts over with it. -/
def DropState.enterKey {σ : Type} (ucmp : Comparator) (st : DropState σ) (userKey : Slice) :
    DropState σ :=
  let firstOccurrence : Bool :=
    match st.currentUserKey with
    | none => true
    | some current => ucmp.compare userKey current != .eq
  if firstOccurrence then
    { st with currentUserKey := some userKey, lastSequenceForKey := kMaxSequenceNumber }
  else st

/-- **One iteration** of the loop: whether the entry is dropped, and the next state.
`isBaseLevelForKey` is called only for a deletion that every snapshot sees. -/
def dropStep {σ : Type} (ucmp : Comparator) (smallestSnapshot : ℕ)
    (isBaseLevelForKey : σ → Slice → Bool × σ) (st : DropState σ) (key : InternalKey) :
    Bool × DropState σ :=
  match parseInternalKey key with
  | none =>
    -- Don't hide error keys
    (false, { st with currentUserKey := none, lastSequenceForKey := kMaxSequenceNumber })
  | some ikey =>
    let st := st.enterKey ucmp ikey.userKey
    if st.lastSequenceForKey ≤ smallestSnapshot then
      -- Hidden by a newer entry for the same user key
      (true, { st with lastSequenceForKey := ikey.sequence })
    else if ikey.type = .kTypeDeletion ∧ ikey.sequence ≤ smallestSnapshot then
      let (isBase, q) := isBaseLevelForKey st.levelPtrs ikey.userKey
      (isBase, { st with lastSequenceForKey := ikey.sequence, levelPtrs := q })
    else
      (false, { st with lastSequenceForKey := ikey.sequence })

/-- The entries the loop keeps. -/
def dropLoop {σ : Type} (ucmp : Comparator) (smallestSnapshot : ℕ)
    (isBaseLevelForKey : σ → Slice → Bool × σ) : DropState σ → List Entry → List Entry :=
  Predecessor.loop fun st e => dropStep ucmp smallestSnapshot isBaseLevelForKey st e.key

/-- `IsBaseLevelForKey` as a function of the key alone. -/
def pureBase (base : Slice → Bool) (_ : Unit) (u : Slice) : Bool × Unit := (base u, ())

/-- The entries kept by the loop when `IsBaseLevelForKey` is the function `base`. -/
def keptEntries (ucmp : Comparator) (smallestSnapshot : ℕ) (base : Slice → Bool)
    (es : List Entry) : List Entry :=
  dropLoop ucmp smallestSnapshot (pureBase base) (DropState.init ()) es

/-! ## The decision depends on the entry directly before -/

/-- The sequence number the loop remembers at `e` when `prev` is the entry directly before it. -/
def lastSequence (ucmp : Comparator) (prev : Option Entry) (e : Entry) : ℕ :=
  match prev with
  | none => kMaxSequenceNumber
  | some p =>
    if p.parsable && ucmp.compare e.key.userKey p.key.userKey == .eq then p.key.sequence
    else kMaxSequenceNumber

/-- Whether the loop drops `e` when `prev` is the entry directly before it. -/
def dropsAfter (ucmp : Comparator) (snap : ℕ) (base : Slice → Bool) (prev : Option Entry)
    (e : Entry) : Bool :=
  e.parsable && (decide (lastSequence ucmp prev e ≤ snap) ||
    (e.isDeletion && decide (e.key.sequence ≤ snap) && base e.key.userKey))

/-- The loop state after `prev`: empty after nothing or an unparsable key, else the class of its
user key with its sequence number. -/
def DropState.Follows {σ : Type} (ucmp : Comparator) (st : DropState σ) (prev : Option Entry) :
    Prop :=
  match prev with
  | none => st.currentUserKey = none ∧ st.lastSequenceForKey = kMaxSequenceNumber
  | some p =>
    if p.parsable then
      (∃ c, st.currentUserKey = some c ∧ userClass ucmp c = userClass ucmp p.key.userKey) ∧
        st.lastSequenceForKey = p.key.sequence
    else st.currentUserKey = none ∧ st.lastSequenceForKey = kMaxSequenceNumber

variable {ucmp : Comparator} {snap : ℕ} {base : Slice → Bool} {prev : Option Entry} {e : Entry}

/-- Entering the key of `e` leaves its class as the current key and `lastSequence prev e` as the
remembered sequence number. -/
theorem DropState.Follows.enterKey {σ : Type} {st : DropState σ} (h : st.Follows ucmp prev) :
    (∃ c, (st.enterKey ucmp e.key.userKey).currentUserKey = some c ∧
      userClass ucmp c = userClass ucmp e.key.userKey) ∧
    (st.enterKey ucmp e.key.userKey).lastSequenceForKey = lastSequence ucmp prev e := by
  unfold DropState.Follows at h
  unfold DropState.enterKey lastSequence
  cases prev with
  | none => simp [h.1]
  | some p =>
    by_cases hp : p.parsable = true
    · simp only [hp, if_true] at h
      obtain ⟨⟨c, hc, hcls⟩, hlast⟩ := h
      -- the current key stands for the class of `p`, so comparing with either is the same
      have hiff : ucmp.compare e.key.userKey c = .eq ↔
          ucmp.compare e.key.userKey p.key.userKey = .eq := by
        rw [← cls_eq_iff, ← cls_eq_iff]
        grind
      by_cases heq : ucmp.compare e.key.userKey p.key.userKey = .eq
      · have heq' := hiff.mpr heq
        have hcls' : userClass ucmp c = userClass ucmp e.key.userKey := (cls_eq_iff.mpr heq').symm
        simp [hc, hp, heq, heq', hlast, hcls']
      · grind
    · simp only [hp] at h
      simp [h.1, hp]

/-- Under `Follows` the loop decides as `dropsAfter` does, and the next state follows `e`. -/
theorem dropStep_of_follows {st : DropState Unit} (h : st.Follows ucmp prev) (e : Entry) :
    (dropStep ucmp snap (pureBase base) st e.key).1 = dropsAfter ucmp snap base prev e ∧
      (dropStep ucmp snap (pureBase base) st e.key).2.Follows ucmp (some e) := by
  rw [dropsAfter, dropStep]
  cases hparse : parseInternalKey e.key with
  | none =>
    have hp := Entry.parse_eq_none_iff.mp hparse
    simp [hp, DropState.Follows]
  | some p =>
    have hp : e.parsable = true := by rw [Entry.parsable, hparse]; rfl
    have hdel : e.isDeletion = (p.type == .kTypeDeletion) := by rw [Entry.isDeletion, hparse]
    obtain ⟨hu, hs, -⟩ := parseInternalKey_eq_some.mp hparse
    obtain ⟨hcur, hlast⟩ := h.enterKey (e := e)
    grind [DropState.Follows, pureBase]

theorem keptEntries_eq_keep (es : List Entry) :
    keptEntries ucmp snap base es = Predecessor.keep (dropsAfter ucmp snap base) none es :=
  Predecessor.loop_eq_keep (R := fun st prev => st.Follows ucmp prev)
    (fun _ _ e h => dropStep_of_follows h e) ⟨rfl, rfl⟩ es

/-! ## Which entries are kept -/

/-- **Membership.** An entry of a sorted list is kept exactly when the predecessor rule does not
drop it. -/
theorem mem_keptEntries_iff {pre post : List Entry}
    (hsort : SortedEntries ucmp (pre ++ e :: post)) :
    e ∈ keptEntries ucmp snap base (pre ++ e :: post) ↔
      dropsAfter ucmp snap base pre.getLast? e = false := by
  rw [keptEntries_eq_keep, Predecessor.mem_keep_iff hsort.nodup]

theorem keptEntries_sublist (es : List Entry) : (keptEntries ucmp snap base es).Sublist es := by
  rw [keptEntries_eq_keep]
  exact Predecessor.keep_sublist es

theorem mem_of_mem_keptEntries {es : List Entry} (h : e ∈ keptEntries ucmp snap base es) :
    e ∈ es :=
  (keptEntries_sublist es).mem h

theorem SortedEntries.keptEntries {es : List Entry} (h : SortedEntries ucmp es) :
    SortedEntries ucmp (keptEntries ucmp snap base es) :=
  h.sublist (keptEntries_sublist es)

theorem lastSequence_le (ucmp : Comparator) (prev : Option Entry) (e : Entry) :
    lastSequence ucmp prev e ≤ kMaxSequenceNumber := by
  unfold lastSequence
  grind [InternalKey.sequence_le]

/-- Below the maximal bound, the remembered sequence number is within the bound only after a
parsable entry of the same user key that is. -/
theorem lastSequence_le_iff (hsnap : snap < kMaxSequenceNumber) :
    lastSequence ucmp prev e ≤ snap ↔ ∃ p, prev = some p ∧ p.parsable = true ∧
      userClass ucmp e.key.userKey = userClass ucmp p.key.userKey ∧ p.key.sequence ≤ snap := by
  unfold lastSequence
  grind [cls_eq_iff]

/-! ## What the kept entries read as -/

section Reads

variable {inputs older : List Entry} {u : Slice} {s : ℕ}

section

variable (hsort : SortedEntries ucmp inputs)

include hsort

theorem mem_keptEntries_of_unparsable (he : e ∈ inputs) (hp : e.parsable = false) :
    e ∈ keptEntries ucmp snap base inputs := by
  obtain ⟨pre, post, rfl⟩ := append_of_mem he
  rw [mem_keptEntries_iff hsort, dropsAfter, hp, Bool.false_and]

theorem not_mem_keptEntries_of_max_le (hsnap : kMaxSequenceNumber ≤ snap) (hp : e.parsable = true) :
    e ∉ keptEntries ucmp snap base inputs := by
  intro hmem
  obtain ⟨pre, post, rfl⟩ := append_of_mem (mem_of_mem_keptEntries hmem)
  grind [lastSequence_le, mem_keptEntries_iff, dropsAfter]

theorem not_mem_keptEntries_of_deletion (hdel : e.isDeletion = true) (hle : e.key.sequence ≤ snap)
    (hbase : base e.key.userKey = true) : e ∉ keptEntries ucmp snap base inputs := by
  intro hmem
  obtain ⟨pre, post, rfl⟩ := append_of_mem (mem_of_mem_keptEntries hmem)
  grind [mem_keptEntries_iff, dropsAfter, Entry.parsable_of_isDeletion]

/-- **Why the newest entry may be dropped**: only as a deletion that every snapshot sees, over
nothing. A hidden entry has a newer visible one directly before it, so it is not the newest. -/
theorem deletion_of_newest_dropped (hsnap : snap < kMaxSequenceNumber) (hs : snap ≤ s)
    (hnew : newestVisible ucmp inputs u s = some e) (hdrop : e ∉ keptEntries ucmp snap base inputs) :
    e.isDeletion = true ∧ e.key.sequence ≤ snap ∧ base e.key.userKey = true := by
  obtain ⟨hpars, hcls, -⟩ := visible_iff.mp (vis_of_newest hnew)
  obtain ⟨pre, post, rfl⟩ := append_of_mem (mem_of_newest hnew)
  rw [mem_keptEntries_iff hsort, dropsAfter, hpars, Bool.true_and, Bool.not_eq_false,
    Bool.or_eq_true, decide_eq_true_iff, lastSequence_le_iff hsnap] at hdrop
  rcases hdrop with ⟨p, hprev, hppars, hpcls, hpseq⟩ | hdel
  · exfalso
    have hpmem : p ∈ pre := mem_of_getLast? hprev
    have hvis : visible ucmp u s p = true :=
      visible_iff.mpr ⟨hppars, hpcls.symm.trans hcls, hpseq.trans hs⟩
    have hle : p.version ≤ e.version :=
      ver_le_of_newest hnew (mem_append_left _ hpmem) hvis
    have hlt : p.key.rank ucmp < e.key.rank ucmp :=
      (pairwise_append.mp hsort.rank_lt).2.2 p hpmem e mem_cons_self
    rcases rank_lt_iff.mp hlt with h | ⟨-, h⟩
    · exact absurd hpcls h.ne'
    · exact absurd h (not_lt.mpr hle)
  · simpa [and_assoc] using hdel

/-- **What survives below a visible entry**: a kept entry `a` older than a visible entry of its user
key stands directly after an unparsable key. -/
theorem unparsable_before_of_kept (hsnap : snap < kMaxSequenceNumber) {a : Entry} (he : e ∈ inputs)
    (hcls : userClass ucmp a.key.userKey = userClass ucmp e.key.userKey) (hlt : a.version < e.version)
    (hle : e.key.sequence ≤ snap) (hpa : a.parsable = true) (ha : a ∈ keptEntries ucmp snap base inputs) :
    ∃ x, [x, a] <:+: inputs ∧ x.parsable = false := by
  obtain ⟨pre, post, rfl⟩ := append_of_mem (mem_of_mem_keptEntries ha)
  have hea : e.key.rank ucmp < a.key.rank ucmp := rank_lt_iff.mpr (Or.inr ⟨hcls.symm, hlt⟩)
  obtain ⟨-, htail, hcross⟩ := pairwise_append.mp hsort.rank_lt
  -- `e` comes before `a`, so there is an entry directly before `a`
  have hepre : e ∈ pre := by
    rcases mem_append.mp he with h | h
    · exact h
    · rcases mem_cons.mp h with rfl | h
      · exact absurd hea (lt_irrefl _)
      · exact absurd hea ((pairwise_cons.mp htail).1 e h).not_gt
  obtain ⟨pre', x, rfl⟩ : ∃ pre' x, pre = pre' ++ [x] :=
    (eq_nil_or_concat' pre).resolve_left (ne_nil_of_mem hepre)
  refine ⟨x, ⟨pre', post, by simp⟩, ?_⟩
  rw [mem_keptEntries_iff hsort, dropsAfter, hpa, Bool.true_and, Bool.or_eq_false_iff,
    decide_eq_false_iff_not, lastSequence_le_iff hsnap] at ha
  by_contra hx
  refine ha.1 ⟨x, by simp, by simpa using hx, ?_⟩
  -- `x` lies between `e` and `a`, hence in their class and within the bound
  have hxa : x.key.rank ucmp < a.key.rank ucmp := hcross x (by simp) a mem_cons_self
  have hex : e.key.rank ucmp ≤ x.key.rank ucmp := by
    rcases mem_append.mp hepre with h | h
    · exact ((pairwise_append.mp (pairwise_append.mp hsort.rank_lt).1).2.2 e h x
        (by simp)).le
    · rw [mem_singleton.mp h]
  have hclsx : userClass ucmp a.key.userKey = userClass ucmp x.key.userKey :=
    le_antisymm (hcls.le.trans (userClass_le_of_rank_le hex)) (userClass_le_of_rank_le hxa.le)
  refine ⟨hclsx, le_trans ?_ hle⟩
  rcases rank_le_iff.mp hex with h | ⟨-, h⟩
  · exact absurd (hcls.symm.trans hclsx) h.ne
  · exact Nat.div_le_div_right h

end

theorem Older.keptEntries (h : Older ucmp older inputs) :
    Older ucmp older (keptEntries ucmp snap base inputs) :=
  fun f hf e he => h f hf e (mem_of_mem_keptEntries he)

theorem readAt_kept_of_newest_kept (hsort : SortedEntries ucmp inputs)
    (hold : Older ucmp older inputs)
    (hkeep : ∀ e, newestVisible ucmp inputs u s = some e → e ∈ keptEntries ucmp snap base inputs) :
    readAt ucmp (keptEntries ucmp snap base inputs ++ older) u s =
      readAt ucmp (inputs ++ older) u s := by
  have heq : newestVisible ucmp (RocketDb.keptEntries ucmp snap base inputs) u s =
      newestVisible ucmp inputs u s :=
    newest_eq_of_keeps (hsort.distinct u s) (fun _ h => mem_of_mem_keptEntries h) hkeep
  cases hnew : newestVisible ucmp inputs u s with
  | none => rw [readAt_append_of_none (heq.trans hnew), readAt_append_of_none hnew]
  | some e =>
    rw [readAt_append_of_some hsort.keptEntries hold.keptEntries (heq.trans hnew),
      readAt_append_of_some hsort hold hnew]

/-- The input entries a dropped deletion would bring back to light: values of the user key of `e`,
within the bound, directly after an unparsable key. -/
def Uncovers (ucmp : Comparator) (snap : ℕ) (inputs : List Entry) (e a : Entry) : Prop :=
  (∃ x, [x, a] <:+: inputs ∧ x.parsable = false) ∧ a.isValue = true ∧ a.key.sequence ≤ snap ∧
    ucmp.compare a.key.userKey e.key.userKey = .eq

/-- **When dropping is safe.** Below the maximal bound: no droppable deletion that is the newest
entry within the bound uncovers a value. At a bound of `kMaxSequenceNumber` or more, where every
parsable entry is dropped: the deeper levels already read as the inputs do. -/
def DropSafe (ucmp : Comparator) (snap : ℕ) (base : Slice → Bool) (inputs older : List Entry) :
    Prop :=
  if snap < kMaxSequenceNumber then
    ∀ e ∈ inputs, newestVisible ucmp inputs e.key.userKey snap = some e → e.isDeletion = true →
      base e.key.userKey = true → ∀ a ∈ inputs, ¬ Uncovers ucmp snap inputs e a
  else
    ∀ e ∈ inputs, newestVisible ucmp inputs e.key.userKey snap = some e →
      e.read = readAt ucmp older e.key.userKey snap

/-- A safe compaction preserves the reads of every snapshot, below the maximal bound. -/
theorem readAt_kept_of_safe (hsort : SortedEntries ucmp inputs) (hold : Older ucmp older inputs)
    (hbase : ∀ k, base k = true → ∀ o ∈ older, ucmp.compare o.key.userKey k ≠ .eq)
    (hsnap : snap < kMaxSequenceNumber) (hs : snap ≤ s)
    (hsafe : ∀ e ∈ inputs, newestVisible ucmp inputs e.key.userKey snap = some e →
      e.isDeletion = true → base e.key.userKey = true → ∀ a ∈ inputs, ¬ Uncovers ucmp snap inputs e a) :
    readAt ucmp (keptEntries ucmp snap base inputs ++ older) u s =
      readAt ucmp (inputs ++ older) u s := by
  by_cases hkeep : ∀ e, newestVisible ucmp inputs u s = some e →
      e ∈ RocketDb.keptEntries ucmp snap base inputs
  · exact readAt_kept_of_newest_kept hsort hold hkeep
  · push Not at hkeep
    obtain ⟨e, hnew, hdrop⟩ := hkeep
    obtain ⟨hdel, hle, hb⟩ := deletion_of_newest_dropped hsort hsnap hs hnew hdrop
    have hcls := (visible_iff.mp (vis_of_newest hnew)).2.1
    rw [readAt_append_of_some hsort hold hnew, Entry.read_of_isDeletion hdel]
    cases hkept : newestVisible ucmp (RocketDb.keptEntries ucmp snap base inputs) u s with
    | none =>
      -- the deletion is at its base level: there is nothing below it
      have hnone : newestVisible ucmp older u s = none := by
        rw [newestVisible, newest_eq_none_iff]
        intro o ho
        by_contra hv
        have hv' := (visible_iff.mp (by simpa using hv)).2.1
        exact hbase _ hb o ho (cls_eq_iff.mp (hv'.trans hcls.symm))
      rw [readAt_append_of_none hkept, readAt, hnone]
      rfl
    | some a =>
      rw [readAt_append_of_some hsort.keptEntries hold.keptEntries hkept]
      have hamem := mem_of_newest hkept
      obtain ⟨hpa, hacls, -⟩ := visible_iff.mp (vis_of_newest hkept)
      have hae : userClass ucmp a.key.userKey = userClass ucmp e.key.userKey :=
        hacls.trans hcls.symm
      have hle' : a.version ≤ e.version :=
        ver_le_of_newest hnew (mem_of_mem_keptEntries hamem) (vis_of_newest hkept)
      have hlt : a.version < e.version := by
        refine lt_of_le_of_ne hle' fun heq => hdrop ?_
        rw [← hsort.distinct u s a (mem_of_mem_keptEntries hamem) e (mem_of_newest hnew)
          (vis_of_newest hkept) (vis_of_newest hnew) heq]
        exact hamem
      rcases Entry.isDeletion_or_isValue hpa with hd | hv
      · exact Entry.read_of_isDeletion hd
      · exfalso
        have hseq : a.key.sequence ≤ snap := (Nat.div_le_div_right hle').trans hle
        refine hsafe e (mem_of_newest hnew) ?_ hdel hb a (mem_of_mem_keptEntries hamem)
          ⟨unparsable_before_of_kept hsort hsnap (mem_of_newest hnew) hae hlt hle hpa hamem, hv,
            hseq, cls_eq_iff.mp hae⟩
        rw [newestVisible, newest_eq_some_iff (hsort.distinct _ _)]
        refine ⟨mem_of_newest hnew,
          visible_iff.mpr ⟨Entry.parsable_of_isDeletion hdel, rfl, hle⟩, fun b hb hvb => ?_⟩
        rw [visible_congr hcls] at hvb
        exact ver_le_of_newest hnew hb (visible_mono hs hvb)

theorem not_uncovers_of_readAt_kept (hsort : SortedEntries ucmp inputs)
    (hold : Older ucmp older inputs) (hcongr : ∀ a b, ucmp.compare a b = .eq → base a = base b)
    (hsnap : snap < kMaxSequenceNumber)
    (hread : ∀ u, readAt ucmp (keptEntries ucmp snap base inputs ++ older) u snap =
      readAt ucmp (inputs ++ older) u snap)
    (hnew : newestVisible ucmp inputs e.key.userKey snap = some e) (hdel : e.isDeletion = true)
    (hb : base e.key.userKey = true) (a : Entry) : ¬ Uncovers ucmp snap inputs e a := by
  rintro ⟨⟨x, ⟨pre, post, hinputs⟩, hx⟩, hval, hseq, hcmp⟩
  have hpa := Entry.parsable_of_isValue hval
  -- `a` is kept: nothing is remembered across the unparsable key
  have hakept : a ∈ keptEntries ucmp snap base inputs := by
    have hsplit : inputs = (pre ++ [x]) ++ a :: post := by simp [← hinputs]
    grind [Entry.isDeletion_iff, Entry.isValue_iff, mem_keptEntries_iff, dropsAfter, lastSequence]
  obtain ⟨f, hf, -⟩ : ∃ f, newestVisible ucmp (keptEntries ucmp snap base inputs) e.key.userKey snap
      = some f ∧ a.version ≤ f.version :=
    exists_newest hakept (visible_iff.mpr ⟨hpa, cls_eq_iff.mpr hcmp, hseq⟩)
  have hread' := hread e.key.userKey
  rw [readAt_append_of_some hsort hold hnew,
    readAt_append_of_some hsort.keptEntries hold.keptEntries hf, Entry.read_of_isDeletion hdel]
    at hread'
  obtain ⟨hpf, hfcls, hfseq⟩ := visible_iff.mp (vis_of_newest hf)
  rcases Entry.isDeletion_or_isValue hpf with hd | hv
  · -- a deletion of that user key would have been dropped
    exact not_mem_keptEntries_of_deletion hsort hd hfseq
      ((hcongr _ _ (cls_eq_iff.mp hfcls)).trans hb) (mem_of_newest hf)
  · rw [Entry.read_of_isValue hv] at hread'
    cases hread'

theorem visible_eq_of_max_le (hsnap : kMaxSequenceNumber ≤ snap) (hs : snap ≤ s) :
    visible ucmp u s = visible ucmp u snap := by
  funext e
  rw [Bool.eq_iff_iff, visible_iff, visible_iff]
  have hle := e.key.sequence_le.trans hsnap
  simp [hle, hle.trans hs]

theorem readAt_eq_of_max_le (hsnap : kMaxSequenceNumber ≤ snap) (hs : snap ≤ s)
    (es : List Entry) : readAt ucmp es u s = readAt ucmp es u snap := by
  rw [readAt, readAt, newestVisible, newestVisible, visible_eq_of_max_le hsnap hs]

theorem readAt_kept_of_max_le (hsort : SortedEntries ucmp inputs)
    (hsnap : kMaxSequenceNumber ≤ snap) :
    readAt ucmp (keptEntries ucmp snap base inputs ++ older) u s = readAt ucmp older u s := by
  refine readAt_append_of_none ?_
  rw [newestVisible, newest_eq_none_iff]
  intro a ha
  by_contra hv
  have hv' : visible ucmp u s a = true := by simpa using hv
  exact not_mem_keptEntries_of_max_le hsort hsnap (visible_iff.mp hv').1 ha

/-- **The drop rule preserves the reads of every snapshot exactly when it is safe.** The deeper
levels hold only older entries, and none for a key at its base level. -/
theorem dropLoop_preserves_reads_iff (ucmp : Comparator) (snap : ℕ) (base : Slice → Bool)
    (inputs older : List Entry) (hsort : SortedEntries ucmp inputs)
    (hold : Older ucmp older inputs) (hcongr : ∀ a b, ucmp.compare a b = .eq → base a = base b)
    (hbase : ∀ k, base k = true → ∀ o ∈ older, ucmp.compare o.key.userKey k ≠ .eq) :
    ((∀ u s, snap ≤ s →
        readAt ucmp (keptEntries ucmp snap base inputs ++ older) u s =
          readAt ucmp (inputs ++ older) u s) ∧
      ∀ e ∈ inputs, e.parsable = false → e ∈ keptEntries ucmp snap base inputs) ↔
      DropSafe ucmp snap base inputs older := by
  have hunpars : ∀ e ∈ inputs, e.parsable = false → e ∈ keptEntries ucmp snap base inputs :=
    fun e he hp => mem_keptEntries_of_unparsable hsort he hp
  rw [and_iff_left hunpars]
  unfold DropSafe
  split_ifs with hsnap
  · constructor
    · intro hread e _ hnew hdel hb a _
      exact not_uncovers_of_readAt_kept hsort hold hcongr hsnap (fun u => hread u snap le_rfl)
        hnew hdel hb a
    · grind [readAt_kept_of_safe]
  · rw [not_lt] at hsnap
    constructor
    · intro hread e _ hnew
      have h := hread e.key.userKey snap le_rfl
      grind [readAt_kept_of_max_le, readAt_append_of_some]
    · intro hsafe u s hs
      rw [readAt_kept_of_max_le hsort hsnap, readAt_eq_of_max_le hsnap hs, readAt_eq_of_max_le hsnap hs]
      cases hnew : newestVisible ucmp inputs u snap with
      | none => rw [readAt_append_of_none hnew]
      | some e =>
        have hcls := (visible_iff.mp (vis_of_newest hnew)).2.1
        grind [newestVisible, visible_congr, readAt_append_of_some, mem_of_newest, readAt_congr]

/-- A deletion and a value of one user key with a key of unknown type between them. -/
def splitVersions : List Entry :=
  [Entry.ofParts (ascii "k") 5 .kTypeDeletion [],
    ⟨⟨ascii "k", 4 * 256 + 2⟩, []⟩,
    Entry.ofParts (ascii "k") 3 .kTypeValue (ascii "v")]

/-- **A deleted value comes back**: the deletion is dropped at its base level, the unparsable key
resets the loop, and the older value is kept as if nothing hid it. -/
theorem dropLoop_resurrects_deleted_value :
    SortedEntries bytewiseComparator splitVersions ∧ Older bytewiseComparator [] splitVersions ∧
      readAt bytewiseComparator (splitVersions ++ []) (ascii "k") 10 = none ∧
      readAt bytewiseComparator
        (keptEntries bytewiseComparator 10 (fun _ => true) splitVersions ++ []) (ascii "k") 10
          = some (ascii "v") := by
  decide

/-- The exact condition on two versions of one key over a deeper level that holds another key. -/
theorem dropLoop_preserves_reads_iff_two_versions :
    let inputs := [Entry.ofParts (ascii "k") 5 .kTypeDeletion [],
      Entry.ofParts (ascii "k") 3 .kTypeValue (ascii "v")]
    let older := [Entry.ofParts (ascii "l") 1 .kTypeValue (ascii "w")]
    let base := fun k : Slice => k == ascii "k"
    ((∀ u s, 10 ≤ s →
        readAt bytewiseComparator (keptEntries bytewiseComparator 10 base inputs ++ older) u s =
          readAt bytewiseComparator (inputs ++ older) u s) ∧
      ∀ e ∈ inputs, e.parsable = false → e ∈ keptEntries bytewiseComparator 10 base inputs) ↔
      DropSafe bytewiseComparator 10 base inputs older := by
  refine dropLoop_preserves_reads_iff _ _ _ _ _ (by decide) (by decide) ?_ ?_
  · intro a b hab
    rw [show a = b from eq_of_bytewiseCompare hab]
  · intro k hk
    rw [show k = ascii "k" from by simpa using hk]
    decide

end Reads

end RocketDb
