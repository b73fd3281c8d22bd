import RocketDb.Iterator.Backward
import RocketDb.Iterator.Sampled

/-! # The iterator refines a cursor over the user map

In both directions `DBIter` shows one live entry, and the number of live entries before it is the position of
a plain cursor over `userMap`.

* **`Tracks`** — the relation between the iterator and that position; every call keeps it (`Tracks.call`).
* **`iterator_shows_user_map`** — after every sequence of calls both show the same, if and only if the seed of
  the iterator is not one of those from which `ParseKey` hangs. -/

namespace RocketDb

open KeyOrder Transition

variable {ucmp : Comparator} {es : List Entry} {s maxSkip draws : ℕ} {it it' : DBIter} {e : Entry}
  {i j k : ℕ}

/-! ## The relation -/

/-- Where the internal cursor is while the live entry `e` at position `j` is shown. -/
def ShownAt (ucmp : Comparator) (es : List Entry) (s : ℕ) (it : DBIter) (j : ℕ) (e : Entry) : Prop :=
  match it.direction with
  | .kForward => it.pos = j
  | .kReverse => Saved ucmp es s (remaining es it.pos) (j + 1) it j e ∧
      ∀ i < remaining es it.pos, ∀ a, es[i]? = some a →
        userClass ucmp a.key.userKey < userClass ucmp e.key.userKey

/-- **The iterator is at position `i` of the user map.** -/
structure Tracks (ucmp : Comparator) (es : List Entry) (s : ℕ) (it : DBIter) (i : ℕ) : Prop where
  statusOk : it.statusOk = true
  shown : it.valid = true → ∃ j e, es[j]? = some e ∧ isLive ucmp es s e = true ∧
    Cursor.rank (isLive ucmp es s) es j = i ∧ ShownAt ucmp es s it j e
  ended : it.valid = false → (userMap ucmp es s).length ≤ i

theorem length_userMap : (userMap ucmp es s).length = (es.filter (isLive ucmp es s)).length :=
  List.length_map _

theorem userMap_getElem?_rank (he : es[j]? = some e) (hlive : isLive ucmp es s e = true) :
    (userMap ucmp es s)[Cursor.rank (isLive ucmp es s) es j]? = some (e.key.userKey, e.value) := by
  rw [userMap, List.getElem?_map, Cursor.getElem?_rank_of_selected he hlive, Option.map_some]

theorem Tracks.shows (h : Tracks ucmp es s it i) : it.shows es = (userMap ucmp es s)[i]? := by
  rw [DBIter.shows]
  cases hv : it.valid with
  | false => simp [h.ended hv]
  | true =>
    obtain ⟨j, e, he, hlive, rfl, hat⟩ := h.shown hv
    rw [userMap_getElem?_rank he hlive, if_pos rfl]
    grind [ShownAt, Saved.savedKey, Saved.savedValue]

theorem Tracks.valid_iff (h : Tracks ucmp es s it i) :
    it.valid = true ↔ i < (userMap ucmp es s).length := by
  cases hv : it.valid with
  | false => simp [h.ended hv]
  | true =>
    obtain ⟨j, e, he, hlive, rfl, -⟩ := h.shown hv
    simpa using (List.getElem?_eq_some_iff.mp (userMap_getElem?_rank he hlive)).1

/-! ## After a search -/

theorem NextFound.tracks {skipping : Bool} (h : NextFound ucmp es s skipping it it')
    (hstatus : it.statusOk = true) (hdir : it.direction = .kForward)
    (hk : Cursor.rank (isLive ucmp es s) es it'.pos = k) : Tracks ucmp es s it' k where
  statusOk := h.statusOk.trans hstatus
  shown hv := by
    grind [shown, ShownAt, direction]
  ended hv := by
    rw [← hk, Cursor.rank_of_length_le (h.ended hv), length_userMap]

theorem PrevFound.tracks {r : ℕ} (h : PrevFound ucmp es s r it it') (hdir : it.direction = .kReverse)
    (hpos : Cursor.rank (isLive ucmp es s) es r ≠ 0 →
      Cursor.rank (isLive ucmp es s) es r = k + 1)
    (hzero : Cursor.rank (isLive ucmp es s) es r = 0 → (userMap ucmp es s).length ≤ k) :
    Tracks ucmp es s it' k where
  statusOk := h.statusOk
  shown hv := by
    obtain ⟨hdir', j, e, hsaved, hlive, hbelow⟩ := h.shown hv
    -- the shown entry is the last live one before `r`
    have hrank : Cursor.rank (isLive ucmp es s) es r = Cursor.rank (isLive ucmp es s) es j + 1 := by
      rw [← Cursor.rank_succ_of_selected hsaved.at_pos hlive]
      exact Cursor.rank_eq_of_none hsaved.lt fun i hi => hsaved.behind i hi
    refine ⟨j, e, hsaved.at_pos, hlive, by have := hpos (by omega); omega, ?_⟩
    rw [ShownAt, hdir', hdir]
    exact ⟨{ hsaved with lt := Nat.lt_succ_self j, behind := fun i hi hlt => by omega }, hbelow⟩
  ended hv := by
    refine hzero ?_
    rw [Cursor.rank_eq_of_none (Nat.zero_le r) fun i _ hi => (h.ended hv).2 i hi, Cursor.rank_zero]

/-! ## The calls -/

theorem next_tracks (hok : EntriesOk ucmp es) (hs : s ≤ kMaxSequenceNumber)
    (hstatus : it.statusOk = true) (hdir : it.direction = .kForward) (he : es[j]? = some e)
    (hlive : isLive ucmp es s e = true) (hkey : it.savedKey = e.key.userKey) (hle : it.pos ≤ j + 1)
    (hbefore : ∀ i < it.pos, ∀ a, es[i]? = some a →
      userClass ucmp a.key.userKey ≤ userClass ucmp e.key.userKey)
    (hafter : ∀ i ≥ it.pos, ∀ a, es[i]? = some a → a.key.sequence ≤ s →
      userClass ucmp e.key.userKey ≤ userClass ucmp a.key.userKey) :
    ∃ it', findNextUserEntry ucmp es s maxSkip draws true it = some it' ∧
      Tracks ucmp es s it' (Cursor.rank (isLive ucmp es s) es j + 1) := by
  have hj := (List.getElem?_eq_some_iff.mp he).1
  have hinv : NextInv ucmp es s it.pos true it.savedKey := by
    rw [hkey]
    refine ⟨fun _ => hafter, fun t _ x _ hnot i hi a ha _ hcls => hnot ⟨rfl, ?_⟩⟩
    exact hcls ▸ hbefore i hi a ha
  obtain ⟨it', hfind, hfound⟩ := findNextUserEntry_spec hok hs true (by omega) hinv
  refine ⟨it', hfind, hfound.tracks hstatus hdir ?_⟩
  have hover := hfound.passed
  have hshown := hfound.shown
  rw [hkey] at hover hshown
  have hlt : j < it'.pos := by
    cases hv : it'.valid with
    | false => exact hj.trans_le (hfound.ended hv)
    | true =>
      obtain ⟨x, hx, -, hnot⟩ := hshown hv
      by_contra hge
      exact hnot ⟨rfl, hok.class_le (not_lt.mp hge) hx he⟩
  rw [← Cursor.rank_succ_of_selected he hlive]
  refine Cursor.rank_eq_of_none hlt fun i hi hi' a ha => Bool.eq_false_iff.mpr fun hlive' => ?_
  -- what the search passes over has the skipped user key, of which only `e` is live
  have hcls := le_antisymm (hover i (by omega) hi' a ha hlive').2 (hok.class_le (by omega) he ha)
  grind [isLive_unique]

theorem Tracks.next (h : Tracks ucmp es s it i) (hok : EntriesOk ucmp es)
    (hs : s ≤ kMaxSequenceNumber) (hv : it.valid = true) :
    ∃ it', it.next ucmp es s maxSkip draws = some it' ∧ Tracks ucmp es s it' (i + 1) := by
  obtain ⟨j, e, he, hlive, rfl, hat⟩ := h.shown hv
  have hj := (List.getElem?_eq_some_iff.mp he).1
  rw [ShownAt] at hat
  cases hdir : it.direction with
  | kForward =>
    simp only [hdir] at hat
    simp only [DBIter.next, hdir, hat, he, Option.map_some, Option.getD_some]
    by_cases hlast : j + 1 < es.length
    · rw [if_pos hlast]
      refine next_tracks hok hs h.statusOk rfl he hlive rfl le_rfl (fun i hi a ha => ?_) ?_
      · exact hok.class_le (Nat.le_of_lt_succ hi) ha he
      · exact fun i hi a ha _ => hok.class_le (Nat.le_of_succ_le hi) he ha
    · rw [if_neg hlast]
      refine ⟨_, rfl, h.statusOk, by simp, fun _ => ?_⟩
      rw [← Cursor.rank_succ_of_selected he hlive, Cursor.rank_of_length_le (not_lt.mp hlast),
        length_userMap]
  | kReverse =>
    simp only [hdir] at hat
    obtain ⟨hsaved, hbelow⟩ := hat
    -- stepping forward takes the cursor to the first entry of the shown key
    have hpos : (if it.pos < es.length then it.pos + 1 else 0) = remaining es it.pos := rfl
    have hle := hsaved.le
    simp only [DBIter.next, hdir, hpos]
    rw [if_pos (by omega)]
    refine next_tracks hok hs h.statusOk rfl he hlive hsaved.savedKey (by simp only; omega)
      (fun i hi a ha => (hbelow i hi a ha).le) fun i hi a ha hseq => ?_
    rcases Nat.lt_or_ge i j with hij | hij
    · grind [Saved]
    · exact hok.class_le hij he ha

theorem prev_tracks (hok : EntriesOk ucmp es) (hs : s ≤ kMaxSequenceNumber)
    (hstatus : it.statusOk = true) (hdir : it.direction = .kReverse)
    (hsplit : SplitAt ucmp es s (remaining es it.pos)) (hle : remaining es it.pos ≤ j)
    (hnone : ∀ i, remaining es it.pos ≤ i → i < j → ∀ a, es[i]? = some a →
      isLive ucmp es s a = false) :
    ∃ it', findPrevUserEntry ucmp es s maxSkip draws it = some it' ∧ Tracks ucmp es s it'
      (Cursor.prev (userMap ucmp es s) (Cursor.rank (isLive ucmp es s) es j)) := by
  obtain ⟨it', hfind, hfound⟩ := findPrevUserEntry_spec maxSkip hok hs hstatus hsplit
  have hrank := Cursor.rank_eq_of_none hle hnone
  refine ⟨it', hfind, hfound.tracks hdir (fun hne => ?_) fun hzero => ?_⟩
  · rw [hrank, Cursor.prev, if_neg hne]
    omega
  · rw [hrank, Cursor.prev, if_pos hzero]

theorem Tracks.prev (h : Tracks ucmp es s it i) (hok : EntriesOk ucmp es)
    (hs : s ≤ kMaxSequenceNumber) (hv : it.valid = true) :
    ∃ it', it.prev ucmp es s maxSkip draws = some it' ∧
      Tracks ucmp es s it' (Cursor.prev (userMap ucmp es s) i) := by
  obtain ⟨j, e, he, hlive, rfl, hat⟩ := h.shown hv
  have hj := (List.getElem?_eq_some_iff.mp he).1
  rw [ShownAt] at hat
  cases hdir : it.direction with
  | kReverse =>
    simp only [hdir] at hat
    obtain ⟨hsaved, hbelow⟩ := hat
    simp only [DBIter.prev, hdir]
    refine prev_tracks hok hs h.statusOk hdir (fun i hi a ha t ht b hb hseq => ?_) hsaved.le
      fun i hi hij a ha => not_isLive_of_sequence_lt hok ha (hsaved.between i hi hij a ha)
    rcases Nat.lt_or_ge t j with htj | htj
    · grind [Saved]
    · exact (hbelow i hi a ha).trans_le (hok.class_le htj he hb)
  | kForward =>
    simp only [hdir] at hat
    obtain rfl : it.pos = j := hat
    simp only [DBIter.prev, hdir, he, Option.map_some, Option.getD_some]
    have hcur : es[({ it with savedKey := e.key.userKey } : DBIter).pos]? = some e := he
    obtain ⟨pos, hleave, hbefore⟩ :=
      leaveKeyLoop_spec maxSkip hok (es.length + 1) 0 hcur le_rfl (by simp only; omega)
    have hle : remaining es pos ≤ it.pos := by
      grind [BeforeKey]
    have hnone : ∀ i, remaining es pos ≤ i → i < it.pos → ∀ a, es[i]? = some a →
        isLive ucmp es s a = false := by
      intro i hi hlt a ha
      refine Bool.eq_false_iff.mpr fun hlive' => ?_
      have hcls := le_antisymm (hok.class_le hlt.le ha he) (hbefore.above i hi a ha)
      grind [isLive_unique]
    simp only [hdir] at hleave
    rw [hleave]
    by_cases hpos : pos < es.length
    · simp only [hpos, if_true]
      exact prev_tracks hok hs h.statusOk rfl
        (fun i hi a ha t ht b hb _ => (hbefore.below i hi a ha).trans_le (hbefore.above t ht b hb))
        hle hnone
    · simp only [hpos, if_false]
      -- no entry is left before those of the key
      rw [remaining_of_le (not_lt.mp hpos)] at hnone
      refine ⟨_, rfl, h.statusOk, by simp, fun _ => ?_⟩
      rw [Cursor.rank_eq_of_none (Nat.zero_le _) hnone, Cursor.rank_zero, Cursor.prev, if_pos rfl]

section

variable (hok : EntriesOk ucmp es) (hs : s ≤ kMaxSequenceNumber)

include hok hs

/-- The position of a target in the user map is the number of live entries before its internal key. -/
theorem seek_userMap (target : Slice) :
    Cursor.seek (userMap ucmp es s) (fun x => ucmp.compare x.1 target != .lt) =
      Cursor.rank (isLive ucmp es s) es
        (seekTarget ucmp es (.ofParts target s kValueTypeForSeek)) := by
  rw [userMap, Cursor.seek, List.findIdx_map]
  refine Cursor.seek_filter (fun i hi a ha hlive => ?_) fun i hi a ha _ => ?_
  · have hlt := rank_lt_of_lt_seekTarget hi ha
    have hcls : userClass ucmp a.key.userKey < userClass ucmp target := by
      refine lt_of_le_of_ne (userClass_le_of_rank_le hlt.le) fun heq => ?_
      have := sequence_lt_of_rank_lt hs (hok.parsable_at ha) heq hlt
      exact absurd (isLive_sequence_le hok ha hlive) (not_le.mpr this)
    simpa using cls_lt_iff.mp hcls
  · have hcls : userClass ucmp target ≤ userClass ucmp a.key.userKey :=
      userClass_le_of_rank_le (rank_le_of_seekTarget_le hok hi ha)
    simpa using cls_le_iff_ne_lt.mp hcls

theorem seek_tracks
    (hstatus : it.statusOk = true) (hdir : it.direction = .kForward) (hle : it.pos ≤ es.length)
    (hsplit : ∀ t ≥ it.pos, ∀ x, es[t]? = some x → ∀ i < it.pos, ∀ a, es[i]? = some a →
      a.key.sequence ≤ s → userClass ucmp a.key.userKey ≠ userClass ucmp x.key.userKey) :
    ∃ it', (if it.pos < es.length then findNextUserEntry ucmp es s maxSkip draws false it
        else some { it with valid := false }) = some it' ∧
      Tracks ucmp es s it' (Cursor.rank (isLive ucmp es s) es it.pos) := by
  by_cases hlt : it.pos < es.length
  · rw [if_pos hlt]
    obtain ⟨it', hfind, hfound⟩ := findNextUserEntry_spec hok hs false hle
      ⟨by simp, fun t ht x hx _ => hsplit t ht x hx⟩
    refine ⟨it', hfind, hfound.tracks hstatus hdir ?_⟩
    refine Cursor.rank_eq_of_none hfound.le fun i hi hi' a ha => Bool.eq_false_iff.mpr fun hlive => ?_
    exact absurd (hfound.passed i hi hi' a ha hlive).1 (by simp)
  · rw [if_neg hlt]
    refine ⟨_, rfl, hstatus, by simp, fun _ => ?_⟩
    rw [Cursor.rank_of_length_le (not_lt.mp hlt), length_userMap]

theorem DBIter.seek_tracks (hstatus : it.statusOk = true) (target : Slice) :
    ∃ it', it.seek ucmp es s maxSkip draws target = some it' ∧ Tracks ucmp es s it'
      (Cursor.seek (userMap ucmp es s) fun x => ucmp.compare x.1 target != .lt) := by
  rw [seek_userMap hok hs]
  refine RocketDb.seek_tracks hok hs hstatus rfl (Cursor.seek_le_length _ _) ?_
  intro t ht x hx i hi a ha hseq hcls
  have hlt := rank_lt_of_lt_seekTarget hi ha
  have hge := userClass_le_of_rank_le (rank_le_of_seekTarget_le hok ht hx)
  -- the target lies between two entries of one user key, so it has that user key too
  have htarget : userClass ucmp a.key.userKey = userClass ucmp target :=
    le_antisymm (userClass_le_of_rank_le hlt.le) (hcls ▸ hge)
  exact absurd hseq (not_le.mpr (sequence_lt_of_rank_lt hs (hok.parsable_at ha) htarget hlt))

theorem DBIter.seekToFirst_tracks (hstatus : it.statusOk = true) :
    ∃ it', it.seekToFirst ucmp es s maxSkip draws = some it' ∧ Tracks ucmp es s it' 0 :=
  RocketDb.seek_tracks hok hs hstatus rfl (Nat.zero_le _) fun _ _ _ _ i hi =>
    absurd hi (Nat.not_lt_zero i)

theorem DBIter.seekToLast_tracks (hstatus : it.statusOk = true) :
    ∃ it', it.seekToLast ucmp es s maxSkip draws = some it' ∧
      Tracks ucmp es s it' (Cursor.seekToLast (userMap ucmp es s)) := by
  let it₁ : DBIter := { it with
    direction := .kReverse, savedValue := [], pos := Cursor.seekToLast es }
  have hrem : remaining es it₁.pos = es.length := remaining_seekToLast es
  have hrank : Cursor.rank (isLive ucmp es s) es (remaining es it₁.pos) =
      (userMap ucmp es s).length := by
    rw [hrem, Cursor.rank_of_length_le le_rfl, length_userMap]
  have hsplit : SplitAt ucmp es s (remaining es it₁.pos) := by
    rw [hrem]
    intro _ _ _ _ t ht b hb
    grind
  have hstatus₁ : it₁.statusOk = true := hstatus
  obtain ⟨it', hfind, hfound⟩ := findPrevUserEntry_spec maxSkip hok hs hstatus₁ hsplit
  refine ⟨it', hfind, hfound.tracks rfl ?_ ?_⟩
  · rw [hrank, Cursor.seekToLast]
    omega
  · rw [hrank, Cursor.seekToLast]
    omega

end

/-! ## Runs -/

/-- **Every call keeps the relation**, and is refused on one side exactly if it is on the other. -/
theorem Tracks.compute (h : Tracks ucmp es s it i) (maxSkip draws : ℕ) (hok : EntriesOk ucmp es)
    (hs : s ≤ kMaxSequenceNumber) (c : IterCall) :
    Option.Rel (Tracks ucmp es s) (it.compute ucmp es s maxSkip draws c)
      (mapCursorCall ucmp (userMap ucmp es s) i c) := by
  have hsome : ∀ {r : Option DBIter} {k : ℕ}, (∃ it', r = some it' ∧ Tracks ucmp es s it' k) →
      Option.Rel (Tracks ucmp es s) r (some k) := by
    rintro _ k ⟨it', rfl, ht⟩
    exact .some ht
  cases c with
  | seek target => exact hsome (DBIter.seek_tracks hok hs h.statusOk target)
  | seekToFirst => exact hsome (DBIter.seekToFirst_tracks hok hs h.statusOk)
  | seekToLast => exact hsome (DBIter.seekToLast_tracks hok hs h.statusOk)
  | next =>
    rw [DBIter.compute, mapCursorCall]
    by_cases hv : it.valid = true
    · rw [if_pos hv, if_pos (h.valid_iff.mp hv)]
      exact hsome (h.next hok hs hv)
    · rw [if_neg hv, if_neg (fun hlt => hv (h.valid_iff.mpr hlt))]
      exact .none
  | prev =>
    rw [DBIter.compute, mapCursorCall]
    by_cases hv : it.valid = true
    · rw [if_pos hv, if_pos (h.valid_iff.mp hv)]
      exact hsome (h.prev hok hs hv)
    · rw [if_neg hv, if_neg (fun hlt => hv (h.valid_iff.mpr hlt))]
      exact .none

/-- The relation between the iterator and the position, with a generator that is not caught. -/
def TracksLive (ucmp : Comparator) (es : List Entry) (s : ℕ) (it : DBIter) (i : ℕ) : Prop :=
  Tracks ucmp es s it i ∧ it.Sampling

/-- With enough draws every `ParseKey` of a call returns, so that its result is seen. -/
theorem TracksLive.call (h : TracksLive ucmp es s it i) (maxSkip : ℕ) (hok : EntriesOk ucmp es)
    (hs : s ≤ kMaxSequenceNumber) (hdraws : DrawsSuffice es draws) (c : IterCall) :
    Option.Rel (TracksLive ucmp es s) (it.call ucmp es s maxSkip draws c)
      (mapCursorCall ucmp (userMap ucmp es s) i c) := by
  have hrel := h.1.compute maxSkip draws hok hs c
  rw [DBIter.call]
  generalize mapCursorCall ucmp (userMap ucmp es s) i c = r at hrel
  cases hit : it.compute ucmp es s maxSkip draws c with
  | none =>
    rw [hit] at hrel
    cases hrel
    exact .none
  | some it' =>
    rw [hit] at hrel
    have hlive := h.2.compute hdraws c hit
    rw [Option.filter_some, if_pos hlive.isSome]
    cases hrel with
    | some htracks => exact .some ⟨htracks, hlive⟩

/-- A database iterator whose seed is not stuck is a cursor over the user map. -/
theorem run_shows_userMap {seed : UInt32} (hseed : (seed &&& 0x7fffffff).toNat ∉ stuckSeeds) (maxSkip : ℕ)
    (hok : EntriesOk ucmp es) (hs : s ≤ kMaxSequenceNumber) (hdraws : DrawsSuffice es draws)
    (calls : List IterCall) :
    (run (DBIter.call ucmp es s maxSkip draws) (DBIter.new es seed) calls).map (DBIter.shows es) =
      (run (mapCursorCall ucmp (userMap ucmp es s)) (userMap ucmp es s).length calls).map
        fun i => (userMap ucmp es s)[i]? := by
  have hinit : TracksLive ucmp es s (DBIter.new es seed) (userMap ucmp es s).length :=
    ⟨⟨rfl, by simp [DBIter.new], fun _ => le_rfl⟩, .new es hseed⟩
  exact run_map_eq (fun _ _ c h => h.call maxSkip hok hs hdraws c) (fun _ _ h => h.1.shows) hinit calls

/-- **A database iterator is a cursor over the user map**, exactly for the seeds from which `ParseKey` always
returns: with enough draws, after every sequence of calls that is allowed, for every reseek threshold, it
shows the entry of the map at the position of the plain cursor. The seed counts without its top bit. -/
theorem iterator_shows_user_map (seed : UInt32) :
    (∀ (ucmp : Comparator) (es : List Entry) (s maxSkip : ℕ), EntriesOk ucmp es → s ≤ kMaxSequenceNumber →
      ∃ least, ∀ draws ≥ least, ∀ calls,
        (run (DBIter.call ucmp es s maxSkip draws) (DBIter.new es seed) calls).map (DBIter.shows es) =
          (run (mapCursorCall ucmp (userMap ucmp es s)) (userMap ucmp es s).length calls).map
            fun i => (userMap ucmp es s)[i]?) ↔
      (seed &&& 0x7fffffff).toNat ∉ stuckSeeds := by
  refine ⟨fun h hmem => ?_, fun hseed ucmp es s maxSkip hok hs => ?_⟩
  · -- one long entry, at which the first `ParseKey` hangs
    obtain ⟨value, hhangs⟩ := ReadSampler.exists_parseKey_hangs (ReadSampler.stuck_new hmem)
    have hok : EntriesOk bytewiseComparator [⟨⟨[], 0⟩, value⟩] := by
      refine ⟨List.pairwise_singleton _ _, fun e he => ?_⟩
      rw [List.mem_singleton.mp he]
      exact (by decide : (⟨⟨[], 0⟩, []⟩ : Entry).parsable = true)
    obtain ⟨least, hleast⟩ := h bytewiseComparator [⟨⟨[], 0⟩, value⟩] 0 0 hok (Nat.zero_le _)
    have hrun := hleast least le_rfl [.seekToFirst]
    have hcall := DBIter.call_seekToFirst_hangs bytewiseComparator 0 0 (hhangs least)
    rw [run, hcall] at hrun
    cases hrun
  · obtain ⟨least, hleast⟩ := exists_drawsSuffice es
    exact ⟨least, fun draws hdraws calls =>
      run_shows_userMap hseed maxSkip hok hs (hleast draws hdraws) calls⟩

/-- Four versions of one key, a deleted key and a third key. -/
def versionedEntries : List Entry :=
  [.ofParts (ascii "a") 9 .kTypeValue (ascii "new"), .ofParts (ascii "a") 4 .kTypeValue (ascii "x"),
    .ofParts (ascii "a") 2 .kTypeDeletion [], .ofParts (ascii "a") 1 .kTypeValue (ascii "old"),
    .ofParts (ascii "b") 5 .kTypeDeletion [], .ofParts (ascii "b") 3 .kTypeValue (ascii "y"),
    .ofParts (ascii "c") 6 .kTypeValue (ascii "z")]

/-- With a reseek at every entry, going to the last key, back over the deleted one and forward again
ends where the plain cursor ends. -/
theorem iterator_shows_user_map_turning :
    let es := versionedEntries
    let calls : List IterCall := [.seekToLast, .prev, .next]
    EntriesOk bytewiseComparator es ∧ 7 ≤ kMaxSequenceNumber ∧
      ∃ draws, (run (DBIter.call bytewiseComparator es 7 1 draws) (DBIter.new es 1) calls).map
        (DBIter.shows es) = some (some (ascii "c", ascii "z")) := by
  have hok : EntriesOk bytewiseComparator versionedEntries := by
    refine ⟨?_, by decide⟩
    unfold SortedEntries
    decide
  have hs : 7 ≤ kMaxSequenceNumber := by decide
  obtain ⟨least, hleast⟩ := (iterator_shows_user_map 1).mpr (by decide) _ _ 7 1 hok hs
  refine ⟨hok, hs, least, (hleast least le_rfl _).trans ?_⟩
  decide

/-- **The iterator with the seed `2 ^ 28` hangs** on a database with one record: `SeekToFirst` does not
return, whatever the number of draws, and the user map has the record. -/
theorem iterator_hangs_two_pow_28 :
    let es : List Entry := [⟨.ofParts [0] 1 .kTypeValue, []⟩]
    EntriesOk bytewiseComparator es ∧ userMap bytewiseComparator es 1 = [([0], [])] ∧
      ∀ draws maxSkip, run (DBIter.call bytewiseComparator es 1 maxSkip draws) (DBIter.new es 268435456)
        [.seekToFirst] = none := by
  refine ⟨?_, by decide, fun draws maxSkip => ?_⟩
  · exact ⟨List.pairwise_singleton _ _, by decide⟩
  · rw [run, DBIter.call_seekToFirst_hangs _ 1 maxSkip (ReadSampler.parseKey_two_pow_28 draws)]

end RocketDb
