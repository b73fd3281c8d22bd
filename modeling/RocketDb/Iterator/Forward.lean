import RocketDb.Iterator.Live

/-! # The forward search of the iterator

`FindNextUserEntry` walks to the first live entry that is not *hidden*, that is, not of a user key up to the
one to skip (**`findNextUserEntry_spec`**), for every threshold of the reseek optimisation: a seek only jumps
over entries that plain stepping would pass as well (`advance_spec`). -/

namespace RocketDb

open KeyOrder

variable {ucmp : Comparator} {es : List Entry} {s maxSkip draws : ℕ} {e : Entry} {i j : ℕ}
  {target : InternalKey}
  {u : Slice}

/-! ## Seeking -/

/-- What a seek passes ranks before its target. -/
theorem rank_lt_of_lt_seekTarget (hi : i < seekTarget ucmp es target) (he : es[i]? = some e) :
    e.key.rank ucmp < target.rank ucmp := by
  have hfalse := Cursor.not_of_lt_seek hi he
  rw [bne_eq_false_iff_eq] at hfalse
  exact internalCompare_eq_lt.mp hfalse

theorem rank_le_of_seekTarget_le (h : EntriesOk ucmp es) (hi : seekTarget ucmp es target ≤ i)
    (he : es[i]? = some e) :
    target.rank ucmp ≤ e.key.rank ucmp := by
  have hlen : i < es.length := (List.getElem?_eq_some_iff.mp he).1
  obtain ⟨a, ha⟩ : ∃ a, es[seekTarget ucmp es target]? = some a :=
    ⟨_, List.getElem?_eq_getElem (hi.trans_lt hlen)⟩
  have hle : target.rank ucmp ≤ a.key.rank ucmp := by
    have htrue := Cursor.of_seek ha
    rw [bne_iff_ne] at htrue
    exact internalCompare_ne_lt.mp htrue
  rcases Nat.eq_or_lt_of_le hi with rfl | hlt
  · rw [ha] at he
    cases he
    exact hle
  · exact hle.trans (h.rank_lt hlt ha he).le

theorem lt_seekTarget (h : EntriesOk ucmp es) (he : es[i]? = some e)
    (hlt : e.key.rank ucmp < target.rank ucmp) : i < seekTarget ucmp es target := by
  by_contra hge
  exact absurd hlt (not_lt.mpr (rank_le_of_seekTarget_le h (not_lt.mp hge) he))

theorem sequence_lt_of_rank_lt (hs : s ≤ kMaxSequenceNumber) (hp : e.parsable = true)
    (hcls : userClass ucmp e.key.userKey = userClass ucmp u)
    (hlt : e.key.rank ucmp < (InternalKey.ofParts u s kValueTypeForSeek).rank ucmp) :
    s < e.key.sequence := by
  rcases rank_lt_iff.mp hlt with hlt | ⟨-, hlt⟩
  · exact absurd hcls hlt.ne
  · grind [InternalKey.ofParts, packSequenceAndType_toNat, kValueTypeForSeek, ValueType.toNat,
      Entry.parsable_iff, InternalKey.sequence]

/-! ## The invariant of the loop -/

/-- The entry belongs to a user key up to the one to skip. -/
def Hidden (ucmp : Comparator) (skipping : Bool) (skip : Slice) (e : Entry) : Prop :=
  skipping = true ∧ userClass ucmp e.key.userKey ≤ userClass ucmp skip

/-- What `FindNextUserEntry` knows at position `c`: no visible entry of a key before the one to skip
lies ahead, and the visible entries behind are of hidden keys or of keys that do not occur ahead. -/
structure NextInv (ucmp : Comparator) (es : List Entry) (s c : ℕ) (skipping : Bool)
    (skip : Slice) : Prop where
  ahead : skipping = true → ∀ j ≥ c, ∀ e, es[j]? = some e → e.key.sequence ≤ s →
    userClass ucmp skip ≤ userClass ucmp e.key.userKey
  behind : ∀ j ≥ c, ∀ e, es[j]? = some e → ¬ Hidden ucmp skipping skip e → ∀ i < c, ∀ a,
    es[i]? = some a → a.key.sequence ≤ s →
      userClass ucmp a.key.userKey ≠ userClass ucmp e.key.userKey

variable {c d : ℕ} {skipping : Bool} {skip : Slice} {it : DBIter} {st : NextLoop}

section

variable (h : NextInv ucmp es s c skipping skip)

include h

theorem NextInv.move (hcd : c ≤ d)
    (hover : ∀ i, c ≤ i → i < d → ∀ a, es[i]? = some a → a.key.sequence ≤ s →
      Hidden ucmp skipping skip a) : NextInv ucmp es s d skipping skip where
  ahead hskip j hj := h.ahead hskip j (hcd.trans hj)
  behind j hj e he hnot i hi a ha hseq hcls := by
    rcases Nat.lt_or_ge i c with hic | hic
    · grind [NextInv]
    · obtain ⟨hskip, hle⟩ := hover i hic hi a ha hseq
      exact hnot ⟨hskip, hcls ▸ hle⟩

theorem NextInv.deletion (hok : EntriesOk ucmp es) (he : es[c]? = some e) (hseq : e.key.sequence ≤ s) :
    NextInv ucmp es s (c + 1) true e.key.userKey where
  ahead _ j hj a ha _ := hok.class_le (Nat.le_of_succ_le hj) he ha
  behind j hj b hb hnot i hi a ha haseq hcls := by
    have hlt : userClass ucmp e.key.userKey < userClass ucmp b.key.userKey :=
      not_le.mp fun hle => hnot ⟨rfl, hle⟩
    rcases Nat.lt_succ_iff_lt_or_eq.mp hi with hic | rfl
    · by_cases hhid : Hidden ucmp skipping skip b
      · -- the key to skip is not ahead of this visible entry
        have hskip := h.ahead hhid.1 c le_rfl e he hseq
        exact absurd (hhid.2.trans hskip) (not_le.mpr hlt)
      · grind [NextInv]
    · grind

theorem NextInv.isLive (hok : EntriesOk ucmp es) (he : es[c]? = some e) (hseq : e.key.sequence ≤ s)
    (hval : e.isValue = true) (hnot : ¬ Hidden ucmp skipping skip e) : isLive ucmp es s e = true :=
  (isLive_iff hok he).mpr ⟨hval, hseq, h.behind c le_rfl e he hnot⟩

end

/-! ## One iteration -/

theorem hidden_iff (hu : u = e.key.userKey) :
    (st.skipping && ucmp.compare u it.savedKey != .gt) = true ↔
      Hidden ucmp st.skipping it.savedKey e := by
  rw [Bool.and_eq_true, bne_iff_ne, hu, ← cls_le_iff]
  rfl

theorem NextLoop.enterKey_countedKey (st : NextLoop) (u : Slice) (hmax : maxSkip ≠ 0) :
    ∃ k, (st.enterKey ucmp maxSkip u).countedKey = some k ∧ userClass ucmp k = userClass ucmp u := by
  rw [enterKey]
  cases hk : st.countedKey with
  | none =>
    grind
  | some k =>
    by_cases heq : ucmp.compare u k = .eq
    · simp only [heq, beq_self_eq_true, Bool.true_eq_false, and_false, if_false]
      exact ⟨k, hk, (cls_eq_iff.mpr heq).symm⟩
    · grind

theorem NextLoop.enterKey_skipping (ucmp : Comparator) (maxSkip : ℕ) (st : NextLoop) (u : Slice) :
    (st.enterKey ucmp maxSkip u).skipping = st.skipping := by
  rw [enterKey]
  split_ifs <;> rfl

/-- What one iteration that goes on may do: move ahead over entries that are not wanted. -/
structure Advanced (ucmp : Comparator) (es : List Entry) (s : ℕ) (it : DBIter) (st : NextLoop)
    (it' : DBIter) (st' : NextLoop) : Prop where
  lt : it.pos < it'.pos
  le : it'.pos ≤ es.length
  direction : it'.direction = it.direction
  statusOk : it'.statusOk = it.statusOk
  savedValue : it'.savedValue = it.savedValue
  inv : NextInv ucmp es s it'.pos st'.skipping it'.savedKey
  passed : ∀ i, it.pos ≤ i → i < it'.pos → ∀ a, es[i]? = some a → isLive ucmp es s a = true →
    Hidden ucmp st.skipping it.savedKey a
  hidden : ∀ j ≥ it'.pos, ∀ a, es[j]? = some a → isLive ucmp es s a = true →
    (Hidden ucmp st'.skipping it'.savedKey a ↔ Hidden ucmp st.skipping it.savedKey a)

/-- **Stepping or seeking ahead** passes only entries that are hidden or invisible. -/
theorem advance_spec (hok : EntriesOk ucmp es) (hs : s ≤ kMaxSequenceNumber) (he : es[it.pos]? = some e)
    (hu : u = e.key.userKey)
    (hcount : maxSkip ≠ 0 → ∃ k, st.countedKey = some k ∧ userClass ucmp k = userClass ucmp u)
    (hpass : Hidden ucmp st.skipping it.savedKey e ∨ s < e.key.sequence)
    (hinv : NextInv ucmp es s (it.pos + 1) st.skipping it.savedKey) :
    Advanced ucmp es s it st (advance ucmp es s maxSkip it st e u).1
      (advance ucmp es s maxSkip it st e u).2 := by
  have hlen : it.pos < es.length := (List.getElem?_eq_some_iff.mp he).1
  have hcur : ∀ a, es[it.pos]? = some a → isLive ucmp es s a = true →
      Hidden ucmp st.skipping it.savedKey a := fun a ha hlive => by
    rw [he] at ha
    cases ha
    exact hpass.resolve_right fun hlt =>
      absurd (isLive_sequence_le hok he hlive) (not_le.mpr hlt)
  -- a plain step
  have hstep : ∀ st' : NextLoop, st'.skipping = st.skipping →
      Advanced ucmp es s it st { it with pos := it.pos + 1 } st' := fun st' hst =>
    { lt := Nat.lt_succ_self _
      le := hlen
      direction := rfl
      statusOk := rfl
      savedValue := rfl
      inv := hst ▸ hinv
      passed := fun i hi hlt a ha hlive => by
        grind
      hidden := fun j _ a _ _ => by rw [hst] }
  -- a seek to a target of the current key
  have hseek : ∀ (st' : NextLoop) (target : InternalKey), st'.skipping = st.skipping →
      e.key.rank ucmp < target.rank ucmp →
      (∀ i, it.pos + 1 ≤ i → i < seekTarget ucmp es target → ∀ a, es[i]? = some a →
        a.key.sequence ≤ s → Hidden ucmp st.skipping it.savedKey a) →
      Advanced ucmp es s it st { it with pos := seekTarget ucmp es target } st' :=
    fun st' target hst hlt hover =>
    { lt := lt_seekTarget hok he hlt
      le := Cursor.seek_le_length _ _
      direction := rfl
      statusOk := rfl
      savedValue := rfl
      inv := hst ▸ hinv.move (lt_seekTarget hok he hlt) hover
      passed := fun i hi hlt a ha hlive => by
        grind [isLive_sequence_le]
      hidden := fun j _ a _ _ => by rw [hst] }
  rw [advance]
  by_cases hmax : maxSkip = 0
  · simp only [hmax, if_true]
    exact hstep st rfl
  simp only [hmax, if_false]
  generalize (if st.skipped < maxSkip then st.skipped + 1 else st.skipped) = skipped
  obtain ⟨k, hk, hkcls⟩ := hcount hmax
  -- entries between the current one and a target of its key have its key
  have hbetween : ∀ t : InternalKey, userClass ucmp t.userKey = userClass ucmp u →
      ∀ i, it.pos + 1 ≤ i → i < seekTarget ucmp es t → ∀ a, es[i]? = some a →
        userClass ucmp a.key.userKey = userClass ucmp u := fun t ht i hi hlt a ha => by
    refine le_antisymm ?_ ?_
    · rw [← ht]
      exact userClass_le_of_rank_le (rank_lt_of_lt_seekTarget hlt ha).le
    · rw [hu]
      exact hok.class_le (Nat.le_of_succ_le hi) he ha
  cases hhid : (st.skipping && ucmp.compare u it.savedKey != .gt) with
  | true =>
    have hHidden := (hidden_iff hu).mp hhid
    simp only [if_true]
    split_ifs with hsought htarget
    · refine hseek _ _ rfl (internalCompare_eq_lt.mp htarget) fun i hi hlt a ha _ => ?_
      have hcls := hbetween _ (by simp [InternalKey.ofParts, hk, hkcls]) i hi hlt a ha
      exact ⟨hHidden.1, by rw [hcls, hu]; exact hHidden.2⟩
    · exact hstep _ rfl
    · exact hstep _ rfl
  | false =>
    simp only [Bool.false_eq_true, if_false]
    split_ifs with hsought htarget
    · refine hseek _ _ rfl (internalCompare_eq_lt.mp htarget) fun i hi hlt a ha haseq => ?_
      -- between the current entry and the snapshot's version everything is too new
      have hcls := hbetween _ (by simp [InternalKey.ofParts, hk, hkcls]) i hi hlt a ha
      have hnew := sequence_lt_of_rank_lt hs (hok.parsable_at ha)
        (by simpa [hk, hkcls] using hcls) (rank_lt_of_lt_seekTarget hlt ha)
      exact absurd haseq (not_le.mpr hnew)
    · exact hstep _ rfl
    · exact hstep _ rfl

/-- After a visible deletion, what is hidden by it and what was hidden before are the same live
entries: none. -/
theorem Advanced.of_deletion (hok : EntriesOk ucmp es) {it it' : DBIter} {st st' : NextLoop}
    (he : es[it.pos]? = some e) (hseq : e.key.sequence ≤ s) (hdel : e.isValue = false)
    (hinv : NextInv ucmp es s it.pos st.skipping it.savedKey) {st₁ : NextLoop}
    (h : Advanced ucmp es s { it with savedKey := e.key.userKey } st₁ it' st') :
    Advanced ucmp es s it st it' st' := by
  have hnone : ∀ j ≥ it.pos, ∀ a, es[j]? = some a → isLive ucmp es s a = true →
      ¬ userClass ucmp a.key.userKey ≤ userClass ucmp e.key.userKey := by
    intro j hj a ha hlive hle
    rcases Nat.eq_or_lt_of_le hj with rfl | hlt
    · grind [isLive_isValue]
    · have hcls := le_antisymm (hok.class_le hj he ha) hle
      grind [not_isLive_of_visible_before]
  refine ⟨h.lt, h.le, h.direction, h.statusOk, h.savedValue, h.inv, ?_, ?_⟩
  · intro i hi hlt a ha hlive
    exact absurd (h.passed i hi hlt a ha hlive).2 (hnone i hi a ha hlive)
  · intro j hj a ha hlive
    have hj' : it.pos ≤ j := h.lt.le.trans hj
    rw [h.hidden j hj a ha hlive]
    refine iff_of_false (fun hhid => hnone j hj' a ha hlive hhid.2) fun hhid => ?_
    exact hnone j hj' a ha hlive (hhid.2.trans (hinv.ahead hhid.1 it.pos le_rfl e he hseq))

/-- **One iteration** returns with a live entry that is not hidden, or passes entries that are not
wanted. -/
theorem findNextStep_spec (maxSkip : ℕ) (it : DBIter) (hok : EntriesOk ucmp es) (hs : s ≤ kMaxSequenceNumber)
    (he : es[it.pos]? = some e) (hinv : NextInv ucmp es s it.pos st.skipping it.savedKey) :
    match findNextStep ucmp es s maxSkip it st e with
    | .inl it' => it' = { it with valid := true, savedKey := [] } ∧ isLive ucmp es s e = true ∧
        ¬ Hidden ucmp st.skipping it.savedKey e
    | .inr (it', st') => Advanced ucmp es s it st it' st' := by
  obtain ⟨ikey, hparse⟩ := Option.isSome_iff_exists.mp (hok.parsable_at he)
  obtain ⟨hu, hseq, htype⟩ := parseInternalKey_eq_some.mp hparse
  have hskip := st.enterKey_skipping ucmp maxSkip ikey.userKey
  -- passing the entry without changing what is skipped
  have hpass : ∀ st₁ : NextLoop, st₁ = st.enterKey ucmp maxSkip ikey.userKey →
      (Hidden ucmp st.skipping it.savedKey e ∨ s < e.key.sequence) →
      Advanced ucmp es s it st (advance ucmp es s maxSkip it st₁ e ikey.userKey).1
        (advance ucmp es s maxSkip it st₁ e ikey.userKey).2 := by
    rintro _ rfl hpass
    have hmove : NextInv ucmp es s (it.pos + 1) st.skipping it.savedKey := by
      refine hinv.move (Nat.le_succ _) fun i hi hlt a ha haseq => ?_
      grind
    have hadv := advance_spec hok hs he hu (st.enterKey_countedKey ikey.userKey)
      (by rw [hskip]; exact hpass) (by rw [hskip]; exact hmove)
    grind [Advanced]
  rw [findNextStep, hparse]
  simp only
  by_cases hvis : ikey.sequence ≤ s
  · rw [if_pos hvis]
    cases htyp : ikey.type with
    | kTypeDeletion =>
      have hdel : e.isValue = false := by
        rw [Bool.eq_false_iff, ne_eq, Entry.isValue_iff, htype, htyp]
        decide
      simp only
      have hmove := hinv.deletion hok he (hseq ▸ hvis)
      have hadv : Advanced ucmp es s { it with savedKey := ikey.userKey }
          { st.enterKey ucmp maxSkip ikey.userKey with skipping := true } _ _ :=
        advance_spec hok hs he hu (st.enterKey_countedKey ikey.userKey)
          (Or.inl ⟨rfl, by rw [hu]⟩) (by rw [hu]; exact hmove)
      grind [Advanced.of_deletion]
    | kTypeValue =>
      have hval : e.isValue = true := by
        rw [Entry.isValue_iff, htype, htyp]
        rfl
      simp only
      by_cases hhid : ((st.enterKey ucmp maxSkip ikey.userKey).skipping &&
          ucmp.compare ikey.userKey it.savedKey != .gt) = true
      · grind [hidden_iff]
      · rw [if_neg hhid]
        have hnot : ¬ Hidden ucmp st.skipping it.savedKey e := fun hHidden =>
          hhid ((hidden_iff hu).mpr (by rw [hskip]; exact hHidden))
        exact ⟨rfl, hinv.isLive hok he (hseq ▸ hvis) hval hnot, hnot⟩
  · grind

/-! ## The loop -/

/-- The outcome of the forward search from `it`: the first live entry at or after the cursor that is
not hidden, or none. -/
structure NextFound (ucmp : Comparator) (es : List Entry) (s : ℕ) (skipping : Bool) (it it' : DBIter) :
    Prop where
  direction : it'.direction = it.direction
  statusOk : it'.statusOk = it.statusOk
  le : it.pos ≤ it'.pos
  passed : ∀ i, it.pos ≤ i → i < it'.pos → ∀ a, es[i]? = some a → isLive ucmp es s a = true →
    Hidden ucmp skipping it.savedKey a
  shown : it'.valid = true → ∃ e, es[it'.pos]? = some e ∧ isLive ucmp es s e = true ∧
    ¬ Hidden ucmp skipping it.savedKey e
  ended : it'.valid = false → es.length ≤ it'.pos

theorem findNextLoop_spec (hok : EntriesOk ucmp es) (hs : s ≤ kMaxSequenceNumber) (fuel : ℕ) :
    ∀ (it : DBIter) (st : NextLoop), es.length < it.pos + fuel → it.pos ≤ es.length →
      NextInv ucmp es s it.pos st.skipping it.savedKey →
      ∃ it', findNextLoop ucmp es s maxSkip draws fuel it st = some it' ∧
        NextFound ucmp es s st.skipping it it' := by
  induction fuel with
  | zero =>
    intro it st hfuel hle _
    omega
  | succ fuel ih =>
    intro it st hfuel hle hinv
    rw [findNextLoop]
    cases he : es[it.pos]? with
    | none =>
      refine ⟨_, rfl, rfl, rfl, le_rfl, ?_, by simp, fun _ => List.getElem?_eq_none_iff.mp he⟩
      intro i hi hlt
      exact absurd hlt (not_lt.mpr hi)
    | some e =>
      have hstep := findNextStep_spec maxSkip (it.parseKey draws e) hok hs he hinv
      cases hr : findNextStep ucmp es s maxSkip (it.parseKey draws e) st e with
      | inl it' =>
        rw [hr] at hstep
        obtain ⟨rfl, hlive, hnot⟩ := hstep
        simp only [hr]
        refine ⟨_, rfl, rfl, rfl, le_rfl, ?_, fun _ => ⟨e, he, hlive, hnot⟩, by simp⟩
        intro i hi hlt
        exact absurd hlt (not_lt.mpr hi)
      | inr r =>
        obtain ⟨it₁, st₁⟩ := r
        rw [hr] at hstep
        have hlt : it.pos < it₁.pos := hstep.lt
        obtain ⟨it', hloop, hfound⟩ := ih it₁ st₁ (by omega) hstep.le hstep.inv
        simp only [hr]
        refine ⟨it', hloop, ?_⟩
        refine ⟨hfound.direction.trans hstep.direction, hfound.statusOk.trans hstep.statusOk,
          hlt.le.trans hfound.le, ?_, ?_, hfound.ended⟩
        · intro i hi hlt' a ha hlive
          rcases Nat.lt_or_ge i it₁.pos with hi₁ | hi₁
          · exact hstep.passed i hi hi₁ a ha hlive
          · exact (hstep.hidden i hi₁ a ha hlive).mp (hfound.passed i hi₁ hlt' a ha hlive)
        · intro hvalid
          obtain ⟨e', he', hlive, hnot⟩ := hfound.shown hvalid
          exact ⟨e', he', hlive, fun hhid =>
            hnot ((hstep.hidden _ hfound.le e' he' hlive).mpr hhid)⟩

/-- **`FindNextUserEntry`** stops at the first live entry that is not hidden, whatever the reseek
threshold. -/
theorem findNextUserEntry_spec (hok : EntriesOk ucmp es) (hs : s ≤ kMaxSequenceNumber) (skipping : Bool)
    (hle : it.pos ≤ es.length) (hinv : NextInv ucmp es s it.pos skipping it.savedKey) :
    ∃ it', findNextUserEntry ucmp es s maxSkip draws skipping it = some it' ∧
      NextFound ucmp es s skipping it it' :=
  findNextLoop_spec hok hs _ it (.init skipping) (by omega) hle hinv

end RocketDb
