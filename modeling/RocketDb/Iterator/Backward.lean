import RocketDb.Format.Table
import RocketDb.Iterator.Forward

/-! # The backward search of the iterator

`FindPrevUserEntry` meets the versions of a user key from the oldest to the newest and must keep a value until
it knows that no newer visible entry follows. **`findPrevUserEntry_spec`**: it ends at the last live entry up
to the cursor, with key and value saved and the cursor before all entries of the key, whatever the reseek
threshold.

Going backward, `remaining es c` is the number of entries at or before the cursor. -/

namespace RocketDb

open KeyOrder

variable {ucmp : Comparator} {es : List Entry} {s maxSkip draws : ℕ} {e : Entry} {i j c : ℕ}

/-! ## Positions going backward -/

/-- The number of entries at or before the cursor; none if it is invalid. -/
def remaining (es : List Entry) (c : ℕ) : ℕ := if c < es.length then c + 1 else 0

theorem remaining_of_lt (h : c < es.length) : remaining es c = c + 1 := if_pos h

theorem remaining_of_le (h : es.length ≤ c) : remaining es c = 0 := if_neg (not_lt.mpr h)

theorem remaining_prev (h : c < es.length) : remaining es (Cursor.prev es c) = c := by
  grind [Cursor.prev, remaining_of_le, remaining_of_lt]

theorem remaining_seekToLast (es : List Entry) : remaining es (Cursor.seekToLast es) = es.length := by
  rw [Cursor.seekToLast, remaining]
  split_ifs <;> omega

theorem lt_remaining_of_getElem? (he : es[c]? = some e) : remaining es c = c + 1 :=
  remaining_of_lt (List.getElem?_eq_some_iff.mp he).1

/-- The remaining entries are exactly those of smaller user keys. -/
structure BeforeKey (ucmp : Comparator) (es : List Entry) (u : Slice) (r : ℕ) : Prop where
  below : ∀ i < r, ∀ a, es[i]? = some a → userClass ucmp a.key.userKey < userClass ucmp u
  above : ∀ i ≥ r, ∀ a, es[i]? = some a → userClass ucmp u ≤ userClass ucmp a.key.userKey

/-- **`SeekBeforeUserKey`** leaves the entries of smaller user keys. -/
theorem seekBeforeUserKey_spec (hok : EntriesOk ucmp es) (u : Slice) :
    BeforeKey ucmp es u (remaining es (seekBeforeUserKey ucmp es u)) := by
  have hrem : remaining es (seekBeforeUserKey ucmp es u) =
      seekTarget ucmp es (.ofParts u kMaxSequenceNumber kValueTypeForSeek) := by
    rw [seekBeforeUserKey]
    split_ifs with h
    · exact remaining_prev h
    · rw [remaining_seekToLast]
      exact le_antisymm (not_lt.mp h) (Cursor.seek_le_length _ _)
  rw [hrem]
  refine ⟨fun i hi a ha => ?_, fun i hi a ha => ?_⟩
  · have hlt := rank_lt_of_lt_seekTarget hi ha
    by_contra hge
    have hpars := Entry.parsable_iff.mp (hok.parsable_at ha)
    exact absurd ((rank_seekKey_le_iff hpars).mpr (not_lt.mp hge)) (not_le.mpr hlt)
  · have hpars := Entry.parsable_iff.mp (hok.parsable_at ha)
    exact (rank_seekKey_le_iff hpars).mp (rank_le_of_seekTarget_le hok hi ha)

/-! ## Seeking the value of a key -/

/-- **The seek finds the live entry** of a user key if there is one. -/
theorem saveSnapshotValue_spec (hok : EntriesOk ucmp es) (hs : s ≤ kMaxSequenceNumber)
    (it : DBIter) (u : Slice) :
    let r := saveSnapshotValue ucmp es s draws it u
    r.2.statusOk = it.statusOk ∧ r.2.direction = it.direction ∧
      (r.1 = true → ∃ e, es[r.2.pos]? = some e ∧ isLive ucmp es s e = true ∧
        userClass ucmp e.key.userKey = userClass ucmp u ∧ r.2.savedKey = e.key.userKey ∧
        r.2.savedValue = e.value) ∧
      (r.1 = false → ∀ (j : ℕ) (a : Entry), es[j]? = some a →
        userClass ucmp a.key.userKey = userClass ucmp u → isLive ucmp es s a = false) := by
  -- visible entries of the key are at or behind the target
  have hbehind : ∀ (j : ℕ) (a : Entry), es[j]? = some a → userClass ucmp a.key.userKey = userClass ucmp u →
      a.key.sequence ≤ s → seekTarget ucmp es (.ofParts u s kValueTypeForSeek) ≤ j := by
    intro j a ha hcls hseq
    by_contra hlt
    have := sequence_lt_of_rank_lt hs (hok.parsable_at ha) hcls
      (rank_lt_of_lt_seekTarget (not_le.mp hlt) ha)
    exact absurd hseq (not_le.mpr this)
  -- a live entry of the key must be the one that is found
  have hlive : ∀ (j : ℕ) (a : Entry), es[j]? = some a → userClass ucmp a.key.userKey = userClass ucmp u →
      isLive ucmp es s a = true → seekTarget ucmp es (.ofParts u s kValueTypeForSeek) = j := by
    intro j a ha hcls hlive
    have hle := hbehind j a ha hcls (isLive_sequence_le hok ha hlive)
    by_contra hne
    have hlt := lt_of_le_of_ne hle hne
    obtain ⟨b, hb⟩ : ∃ b, es[seekTarget ucmp es (.ofParts u s kValueTypeForSeek)]? = some b :=
      ⟨_, List.getElem?_eq_getElem (hlt.trans (List.getElem?_eq_some_iff.mp ha).1)⟩
    rcases (rank_lookupKey_le_iff hs (hok.parsable_at hb)).mp
      (rank_le_of_seekTarget_le hok le_rfl hb) with hucls | ⟨hucls, hbseq⟩
    · have := hok.class_le hle hb ha
      grind
    · grind [not_isLive_of_visible_before]
  rw [saveSnapshotValue]
  simp only
  cases hb : es[seekTarget ucmp es (.ofParts u s kValueTypeForSeek)]? with
  | none =>
    grind
  | some b =>
    obtain ⟨ikey, hparse⟩ := Option.isSome_iff_exists.mp (hok.parsable_at hb)
    obtain ⟨hu, hseq, htype⟩ := parseInternalKey_eq_some.mp hparse
    simp only [hparse]
    split_ifs with hcond
    · obtain ⟨hvis, hcmp, hval⟩ := hcond
      have hcls : userClass ucmp b.key.userKey = userClass ucmp u := hu ▸ cls_eq_iff.mpr hcmp
      refine ⟨rfl, rfl, fun _ => ⟨b, hb, ?_, hcls, hu, rfl⟩, by simp⟩
      refine (isLive_iff hok hb).mpr ⟨?_, hseq ▸ hvis, fun i hi a ha haseq hacls => ?_⟩
      · rw [Entry.isValue_iff, htype, hval]
        rfl
      · grind
    · refine ⟨rfl, rfl, by simp, fun _ j a ha hcls => Bool.eq_false_iff.mpr fun hl => hcond ?_⟩
      have hj := hlive j a ha hcls hl
      rw [hj, ha] at hb
      cases hb
      refine ⟨hseq ▸ isLive_sequence_le hok ha hl, hu ▸ cls_eq_iff.mp hcls, ?_⟩
      have hval := Entry.isValue_iff.mp (isLive_isValue hl)
      rw [htype] at hval
      cases htyp : ikey.type with
      | kTypeDeletion =>
        rw [htyp] at hval
        cases hval
      | kTypeValue => rfl

/-- **`FindValueForCurrentKeyUsingSeek`** saves the live entry of a user key, if there is one, and
leaves the cursor before all entries of the key. -/
theorem findValueForCurrentKeyUsingSeek_spec (hok : EntriesOk ucmp es)
    (hs : s ≤ kMaxSequenceNumber) {it : DBIter} (hstatus : it.statusOk = true) (u : Slice) :
    let r := findValueForCurrentKeyUsingSeek ucmp es s draws it u
    r.2.statusOk = true ∧ r.2.direction = it.direction ∧
      r.2.pos = seekBeforeUserKey ucmp es u ∧
      (r.1 = true → ∃ (j : ℕ) (e : Entry), es[j]? = some e ∧ isLive ucmp es s e = true ∧
        userClass ucmp e.key.userKey = userClass ucmp u ∧ r.2.savedKey = e.key.userKey ∧
        r.2.savedValue = e.value) ∧
      (r.1 = false → ∀ (j : ℕ) (a : Entry), es[j]? = some a →
        userClass ucmp a.key.userKey = userClass ucmp u → isLive ucmp es s a = false) := by
  obtain ⟨found, it₁, hr⟩ : ∃ found it₁, saveSnapshotValue ucmp es s draws it u = (found, it₁) :=
    ⟨_, _, rfl⟩
  obtain ⟨hst, hdir, hfound, hnone⟩ := saveSnapshotValue_spec hok hs it u
  rw [hr] at hst hdir hfound hnone
  have hst₁ : it₁.statusOk = true := hst.trans hstatus
  simp only [findValueForCurrentKeyUsingSeek, hr, hst₁, if_true]
  cases found with
  | true =>
    obtain ⟨e, he, hlive, hcls, hkey, hval⟩ := hfound rfl
    exact ⟨hst₁, hdir, trivial, fun _ => ⟨_, e, he, hlive, hcls, hkey, hval⟩, by simp⟩
  | false => exact ⟨rfl, hdir, trivial, by simp, fun _ => hnone rfl⟩

/-! ## The invariant of the loop -/

/-- No visible entry behind the start belongs to a user key before it. -/
def SplitAt (ucmp : Comparator) (es : List Entry) (s r : ℕ) : Prop :=
  ∀ i < r, ∀ a, es[i]? = some a → ∀ t ≥ r, ∀ b, es[t]? = some b → b.key.sequence ≤ s →
    userClass ucmp a.key.userKey < userClass ucmp b.key.userKey

/-- The saved entry, at position `j`: a visible value with nothing visible between it and the cursor,
and nothing live behind it. -/
structure Saved (ucmp : Comparator) (es : List Entry) (s r r₀ : ℕ) (it : DBIter) (j : ℕ)
    (e : Entry) : Prop where
  at_pos : es[j]? = some e
  le : r ≤ j
  lt : j < r₀
  value : e.isValue = true
  sequence : e.key.sequence ≤ s
  savedKey : it.savedKey = e.key.userKey
  savedValue : it.savedValue = e.value
  between : ∀ i, r ≤ i → i < j → ∀ a, es[i]? = some a → s < a.key.sequence
  behind : ∀ i, j < i → i < r₀ → ∀ a, es[i]? = some a → isLive ucmp es s a = false

/-- What `FindPrevUserEntry` knows after reading the entries from the cursor to `r₀`. -/
structure PrevInv (ucmp : Comparator) (es : List Entry) (s r₀ : ℕ) (it : DBIter) (st : PrevLoop) :
    Prop where
  statusOk : it.statusOk = true
  none_live : st.valueType = .kTypeDeletion → ∀ i, remaining es it.pos ≤ i → i < r₀ → ∀ a,
    es[i]? = some a → isLive ucmp es s a = false
  saved : st.valueType = .kTypeValue → ∃ j e, Saved ucmp es s (remaining es it.pos) r₀ it j e

/-- The outcome of the backward search: the last live entry before `r₀`, or none. -/
structure PrevFound (ucmp : Comparator) (es : List Entry) (s r₀ : ℕ) (it it' : DBIter) : Prop where
  statusOk : it'.statusOk = true
  shown : it'.valid = true → it'.direction = it.direction ∧ ∃ j e,
    Saved ucmp es s (remaining es it'.pos) r₀ it' j e ∧ isLive ucmp es s e = true ∧
      ∀ i < remaining es it'.pos, ∀ a, es[i]? = some a →
        userClass ucmp a.key.userKey < userClass ucmp e.key.userKey
  ended : it'.valid = false → it'.direction = .kForward ∧
    ∀ i < r₀, ∀ a, es[i]? = some a → isLive ucmp es s a = false

variable {r₀ : ℕ} {it : DBIter} {st : PrevLoop}

theorem Saved.found (hok : EntriesOk ucmp es) (h : Saved ucmp es s (remaining es it.pos) r₀ it j e)
    (hstatus : it.statusOk = true)
    (hbelow : ∀ i < remaining es it.pos, ∀ a, es[i]? = some a →
      userClass ucmp a.key.userKey < userClass ucmp e.key.userKey) :
    PrevFound ucmp es s r₀ it (finishPrev it .kTypeValue) := by
  refine ⟨hstatus, fun _ => ⟨rfl, j, e, ⟨h.at_pos, h.le, h.lt, h.value, h.sequence, h.savedKey,
    h.savedValue, h.between, h.behind⟩, ?_, hbelow⟩, by simp [finishPrev]⟩
  grind [isLive_iff, Saved]

section

variable (h : PrevInv ucmp es s r₀ it st)

include h

theorem PrevInv.found_of_smaller (hok : EntriesOk ucmp es) (he : es[it.pos]? = some e) {u : Slice}
    (hu : u = e.key.userKey) (hbreak : st.valueType ≠ .kTypeDeletion ∧ ucmp.compare u it.savedKey = .lt) :
    PrevFound ucmp es s r₀ it (finishPrev it st.valueType) := by
  have hval : st.valueType = .kTypeValue := by
    cases hv : st.valueType with
    | kTypeDeletion => exact absurd hv hbreak.1
    | kTypeValue => rfl
  obtain ⟨j, x, hx⟩ := h.saved hval
  rw [hval]
  refine hx.found hok h.statusOk fun i hi a ha => ?_
  rw [lt_remaining_of_getElem? he] at hi
  have hlt := cls_lt_iff.mpr hbreak.2
  rw [hu, hx.savedKey] at hlt
  exact (hok.class_le (Nat.le_of_lt_succ hi) ha he).trans_lt hlt

theorem PrevInv.ended (hdel : st.valueType = .kTypeDeletion) (hrem : remaining es it.pos = 0) :
    PrevFound ucmp es s r₀ it (finishPrev it .kTypeDeletion) :=
  ⟨h.statusOk, by simp [finishPrev], fun _ => ⟨rfl, fun i hi =>
    h.none_live hdel i (hrem ▸ Nat.zero_le i) hi⟩⟩

/-- As long as the loop goes on, only the user key at the cursor can be live between the cursor and the
start. -/
theorem PrevInv.class_of_live (hok : EntriesOk ucmp es) (he : es[it.pos]? = some e)
    (hstay : ¬ (st.valueType ≠ .kTypeDeletion ∧ ucmp.compare e.key.userKey it.savedKey = .lt)) {a : Entry}
    (hi : it.pos < i) (hlt : i < r₀) (ha : es[i]? = some a) (hlive : isLive ucmp es s a = true) :
    userClass ucmp e.key.userKey = userClass ucmp a.key.userKey := by
  have hrem := lt_remaining_of_getElem? he
  cases htype : st.valueType with
  | kTypeDeletion => simp [h.none_live htype i (by omega) hlt a ha] at hlive
  | kTypeValue =>
    obtain ⟨j, x, hx⟩ := h.saved htype
    rcases Nat.lt_trichotomy i j with hij | rfl | hij
    · grind [not_isLive_of_sequence_lt, Saved]
    · -- the saved entry itself: its key is not smaller than the one at the cursor
      obtain rfl : a = x := Option.some.inj (ha.symm.trans hx.at_pos)
      have hge : userClass ucmp a.key.userKey ≤ userClass ucmp e.key.userKey := by
        grind [Saved, cls_le_iff_ne_lt]
      exact le_antisymm (hok.class_le hi.le he ha) hge
    · simp [hx.behind i hij hlt a ha] at hlive

/-- A visible entry at the cursor hides the rest of its user key. -/
theorem PrevInv.none_live_of_visible (hok : EntriesOk ucmp es) (he : es[it.pos]? = some e)
    (hseq : e.key.sequence ≤ s)
    (hstay : ¬ (st.valueType ≠ .kTypeDeletion ∧ ucmp.compare e.key.userKey it.savedKey = .lt)) :
    ∀ i, it.pos < i → i < r₀ → ∀ a, es[i]? = some a → isLive ucmp es s a = false := by
  intro i hi hlt a ha
  refine Bool.eq_false_iff.mpr fun hlive => ?_
  have hcls := h.class_of_live hok he hstay hi hlt ha hlive
  grind [not_isLive_of_visible_before]

/-- **Looking at the entry and stepping back.** -/
theorem stepBack_spec (hok : EntriesOk ucmp es) (he : es[it.pos]? = some e) (hle : remaining es it.pos ≤ r₀)
    {ikey : ParsedInternalKey} (hparse : parseInternalKey e.key = some ikey) :
    match stepBack ucmp es s it st e ikey with
    | .inl (it', valueType) => PrevFound ucmp es s r₀ it (finishPrev it' valueType)
    | .inr (it', st') => PrevInv ucmp es s r₀ it' st' ∧ it'.direction = it.direction ∧
        remaining es it'.pos < remaining es it.pos := by
  obtain ⟨hu, hseq, htype⟩ := parseInternalKey_eq_some.mp hparse
  have hrem := lt_remaining_of_getElem? he
  have hprev : remaining es (Cursor.prev es it.pos) = it.pos :=
    remaining_prev (List.getElem?_eq_some_iff.mp he).1
  have hcur : ∀ i a, es[i]? = some a → it.pos ≤ i → i = it.pos ∧ a = e ∨ it.pos < i := by
    grind
  rw [stepBack]
  by_cases hvis : ikey.sequence ≤ s
  · rw [if_pos hvis]
    by_cases hbreak : st.valueType ≠ .kTypeDeletion ∧ ucmp.compare ikey.userKey it.savedKey = .lt
    · rw [if_pos hbreak]
      exact h.found_of_smaller hok he hu hbreak
    · rw [if_neg hbreak]
      rw [hu] at hbreak
      have hnone := h.none_live_of_visible hok he (hseq ▸ hvis) hbreak
      cases htyp : ikey.type with
      | kTypeDeletion =>
        refine ⟨⟨h.statusOk, fun _ i hi hlt a ha => ?_, by simp⟩, rfl, by simp only; omega⟩
        simp only [hprev] at hi
        rcases hcur i a ha hi with ⟨rfl, rfl⟩ | hgt
        · refine Bool.eq_false_iff.mpr fun hlive => ?_
          have hval := Entry.isValue_iff.mp (isLive_isValue hlive)
          rw [htype, htyp] at hval
          cases hval
        · exact hnone i hgt hlt a ha
      | kTypeValue =>
        refine ⟨⟨h.statusOk, by simp, fun _ => ⟨it.pos, e, ?_⟩⟩, rfl, by simp only; omega⟩
        simp only [hprev]
        refine ⟨he, le_rfl, by omega, ?_, hseq ▸ hvis, rfl, rfl, fun i hi hlt => by omega, hnone⟩
        rw [Entry.isValue_iff, htype, htyp]
        rfl
  · rw [if_neg hvis]
    have hnew : s < e.key.sequence := hseq ▸ not_le.mp hvis
    refine ⟨⟨h.statusOk, fun hdel i hi hlt a ha => ?_, fun hval => ?_⟩, rfl, by simp only; omega⟩
    · grind [not_isLive_of_sequence_lt, PrevInv]
    · obtain ⟨j, x, hx⟩ := h.saved hval
      refine ⟨j, x, ⟨hx.at_pos, ?_, hx.lt, hx.value, hx.sequence, hx.savedKey, hx.savedValue, ?_,
        hx.behind⟩⟩
      · grind [Saved]
      · grind [Saved]

end

theorem PrevLoop.enterKey_spec (st : PrevLoop) (ucmp : Comparator) (u : Slice) :
    (st.enterKey ucmp u).valueType = st.valueType ∧
      userClass ucmp ((st.enterKey ucmp u).countedKey.getD []) = userClass ucmp u := by
  rw [enterKey]
  cases hk : st.countedKey with
  | none => simp
  | some k =>
    by_cases hcmp : ucmp.compare u k = .eq
    · simp [hcmp, hk, cls_eq_iff.mpr hcmp]
    · simp [hcmp]

/-- **Seeking the value of the counted key**: found, it is the last live entry; otherwise the search
goes on before the key. -/
theorem PrevInv.reseek (h : PrevInv ucmp es s r₀ it st) (draws : ℕ) (hok : EntriesOk ucmp es)
    (hs : s ≤ kMaxSequenceNumber) (hsplit : SplitAt ucmp es s r₀) (he : es[it.pos]? = some e)
    (hle : remaining es it.pos ≤ r₀)
    (hstay : ¬ (st.valueType ≠ .kTypeDeletion ∧ ucmp.compare e.key.userKey it.savedKey = .lt))
    {u : Slice} (hu : userClass ucmp u = userClass ucmp e.key.userKey) (counted : Option Slice)
    (n : ℕ) :
    let r := findValueForCurrentKeyUsingSeek ucmp es s draws it u
    r.2.statusOk = true ∧
      (r.1 = true → PrevFound ucmp es s r₀ it (finishPrev r.2 .kTypeValue)) ∧
      (r.1 = false → PrevInv ucmp es s r₀ r.2 ⟨.kTypeDeletion, counted, n⟩ ∧
        r.2.direction = it.direction ∧ remaining es r.2.pos < remaining es it.pos) := by
  intro r
  obtain ⟨hstatus, hdir, hpos, hfound, hnone⟩ :=
    findValueForCurrentKeyUsingSeek_spec hok hs h.statusOk u
  have hrem := lt_remaining_of_getElem? he
  have hbefore : BeforeKey ucmp es u (remaining es r.2.pos) := by
    rw [hpos]
    exact seekBeforeUserKey_spec hok u
  -- from the new cursor to the old one all entries have the counted key
  have hclass : ∀ i, remaining es r.2.pos ≤ i → i ≤ it.pos → ∀ a, es[i]? = some a →
      userClass ucmp a.key.userKey = userClass ucmp u := fun i hi hip a ha =>
    le_antisymm ((hok.class_le hip ha he).trans_eq hu.symm) (hbefore.above i hi a ha)
  have hcounted : ∀ i, remaining es r.2.pos ≤ i → i < r₀ → ∀ a, es[i]? = some a →
      isLive ucmp es s a = true → userClass ucmp a.key.userKey = userClass ucmp u := by
    intro i hi hlt a ha hlive
    rcases Nat.lt_or_ge it.pos i with hip | hip
    · exact (hu.trans (h.class_of_live hok he hstay hip hlt ha hlive)).symm
    · exact hclass i hi hip a ha
  refine ⟨hstatus, fun hf => ?_, fun hf => ⟨⟨hstatus, fun _ i hi hlt a ha => ?_, by simp⟩, hdir, ?_⟩⟩
  · obtain ⟨j, x, hx, hlive, hxu, hkey, hvalue⟩ := hfound hf
    have hle_j : remaining es r.2.pos ≤ j := by
      grind [BeforeKey]
    have hlt_j : j < r₀ := by
      by_contra hge
      have := hsplit it.pos (by omega) e he j (not_lt.mp hge) x hx
        (isLive_sequence_le hok hx hlive)
      exact this.ne (hu.symm.trans hxu.symm)
    have hsaved : Saved ucmp es s (remaining es r.2.pos) r₀ r.2 j x := by
      refine ⟨hx, hle_j, hlt_j, isLive_isValue hlive, isLive_sequence_le hok hx hlive,
        hkey, hvalue, fun i hi hij a ha => ?_, fun i hij hlt a ha => ?_⟩
      · refine sequence_lt_of_before_live hok hx hlive hij ha ?_
        exact le_antisymm (hok.class_le hij.le ha hx) (hxu ▸ hbefore.above i hi a ha)
      · grind [isLive_unique]
    have := hsaved.found hok hstatus fun i hi a ha => (hbefore.below i hi a ha).trans_eq hxu.symm
    grind [PrevFound]
  · grind
  · grind [BeforeKey]

/-- **One iteration**: the search ends with the last live entry, or goes on with a smaller cursor. -/
theorem findPrevStep_spec (maxSkip draws : ℕ) (h : PrevInv ucmp es s r₀ it st) (hok : EntriesOk ucmp es)
    (hs : s ≤ kMaxSequenceNumber) (hsplit : SplitAt ucmp es s r₀) (he : es[it.pos]? = some e)
    (hle : remaining es it.pos ≤ r₀) :
    match findPrevStep ucmp es s maxSkip draws it st e with
    | .inl (it', valueType) => PrevFound ucmp es s r₀ it (finishPrev it' valueType)
    | .inr (it', st') => PrevInv ucmp es s r₀ it' st' ∧ it'.direction = it.direction ∧
        remaining es it'.pos < remaining es it.pos := by
  obtain ⟨ikey, hparse⟩ := Option.isSome_iff_exists.mp (hok.parsable_at he)
  obtain ⟨hu, -, -⟩ := parseInternalKey_eq_some.mp hparse
  simp only [findPrevStep, hparse]
  by_cases hskip : maxSkip = 0
  · grind [stepBack_spec]
  rw [if_neg hskip]
  by_cases hbreak : st.valueType ≠ .kTypeDeletion ∧ ucmp.compare ikey.userKey it.savedKey = .lt
  · rw [if_pos hbreak]
    exact h.found_of_smaller hok he hu hbreak
  rw [if_neg hbreak]
  obtain ⟨htype, hcounted⟩ := st.enterKey_spec ucmp ikey.userKey
  generalize st.enterKey ucmp ikey.userKey = st' at htype hcounted
  generalize (if st'.skipped < maxSkip then st'.skipped + 1 else st'.skipped) = n
  by_cases hn : maxSkip ≤ n
  · rw [if_pos hn]
    rw [hu] at hbreak hcounted
    obtain ⟨hstatus, hfound, hnone⟩ := h.reseek draws hok hs hsplit he hle hbreak hcounted none n
    grind
  · rw [if_neg hn]
    -- counting changes nothing the invariant reads
    have hinv : PrevInv ucmp es s r₀ it { st' with skipped := n } :=
      ⟨h.statusOk, fun hd => h.none_live (htype ▸ hd), fun hv => h.saved (htype ▸ hv)⟩
    exact stepBack_spec hinv hok he hle hparse

/-! ## The loop -/

/-- **The loop ends with the last live entry before its start**, in as many steps as there are entries
before the cursor. -/
theorem findPrevLoop_spec (hok : EntriesOk ucmp es) (hs : s ≤ kMaxSequenceNumber)
    (hsplit : SplitAt ucmp es s r₀) (fuel : ℕ) (h : PrevInv ucmp es s r₀ it st)
    (hle : remaining es it.pos ≤ r₀) (hfuel : remaining es it.pos < fuel) :
    ∃ it', findPrevLoop ucmp es s maxSkip draws fuel it st = some it' ∧
      PrevFound ucmp es s r₀ it it' := by
  induction fuel generalizing it st with
  | zero => omega
  | succ fuel ih =>
    rw [findPrevLoop]
    cases hpos : es[it.pos]? with
    | none =>
      have hrem := remaining_of_le (List.getElem?_eq_none_iff.mp hpos)
      refine ⟨_, rfl, ?_⟩
      cases htype : st.valueType with
      | kTypeDeletion => exact h.ended htype hrem
      | kTypeValue =>
        obtain ⟨j, e, hsaved⟩ := h.saved htype
        exact hsaved.found hok h.statusOk fun i hi => by omega
    | some e =>
      -- sampling changes nothing the invariant reads
      have hinv : PrevInv ucmp es s r₀ (it.parseKey draws e) st :=
        ⟨h.statusOk, h.none_live, fun hv => let ⟨j, e, hsaved⟩ := h.saved hv; ⟨j, e, { hsaved with }⟩⟩
      have hstep := findPrevStep_spec maxSkip draws hinv hok hs hsplit hpos hle
      cases hr : findPrevStep ucmp es s maxSkip draws (it.parseKey draws e) st e with
      | inl r =>
        simp only [hr] at hstep ⊢
        exact ⟨_, rfl, hstep.statusOk, hstep.shown, hstep.ended⟩
      | inr r =>
        simp only [hr] at hstep ⊢
        obtain ⟨hinv, hdir, hlt⟩ := hstep
        have hlt : remaining es r.1.pos < remaining es it.pos := hlt
        obtain ⟨it', hloop, hfound⟩ := ih hinv (by omega) (by omega)
        exact ⟨it', hloop, hfound.statusOk,
          fun hv => ⟨(hfound.shown hv).1.trans hdir, (hfound.shown hv).2⟩, hfound.ended⟩

/-- **`FindPrevUserEntry`** finds the last live entry before the cursor. -/
theorem findPrevUserEntry_spec (maxSkip : ℕ) (hok : EntriesOk ucmp es)
    (hs : s ≤ kMaxSequenceNumber) (hstatus : it.statusOk = true)
    (hsplit : SplitAt ucmp es s (remaining es it.pos)) :
    ∃ it', findPrevUserEntry ucmp es s maxSkip draws it = some it' ∧
      PrevFound ucmp es s (remaining es it.pos) it it' := by
  refine findPrevLoop_spec hok hs hsplit _ ⟨hstatus, fun _ i hi hlt => by omega, by simp⟩ le_rfl ?_
  rw [remaining]
  split <;> omega

/-! ## Leaving the current key -/

/-- **`Prev` on a forward iterator** first takes the cursor to just before the entries of its key. -/
theorem leaveKeyLoop_spec (maxSkip : ℕ) (hok : EntriesOk ucmp es) (fuel skipped : ℕ)
    (he : es[it.pos]? = some e)
    (hge : userClass ucmp it.savedKey ≤ userClass ucmp e.key.userKey) (hfuel : it.pos < fuel) :
    ∃ pos, leaveKeyLoop ucmp es maxSkip fuel it skipped = some { it with pos := pos } ∧
      BeforeKey ucmp es it.savedKey (remaining es pos) := by
  induction fuel generalizing it skipped e with
  | zero => omega
  | succ fuel ih =>
    have hrem := remaining_prev (List.getElem?_eq_some_iff.mp he).1
    have habove : ∀ i ≥ it.pos, ∀ a, es[i]? = some a →
        userClass ucmp it.savedKey ≤ userClass ucmp a.key.userKey := fun i hi a ha =>
      hge.trans (hok.class_le hi he ha)
    simp only [leaveKeyLoop]
    cases hprev : es[Cursor.prev es it.pos]? with
    | none =>
      have hend := List.getElem?_eq_none_iff.mp hprev
      rw [remaining_of_le hend] at hrem
      refine ⟨_, rfl, fun i hi => ?_, ?_⟩
      · rw [remaining_of_le hend] at hi
        omega
      · rw [remaining_of_le hend, hrem]
        exact habove
    | some a =>
      have ha := lt_remaining_of_getElem? hprev
      by_cases hlt : ucmp.compare a.key.userKey it.savedKey = .lt
      · refine ⟨Cursor.prev es it.pos, by simp [hlt], fun i hi x hx => ?_, ?_⟩
        · exact (hok.class_le (by omega) hx hprev).trans_lt (cls_lt_iff.mpr hlt)
        · rw [hrem]
          exact habove
      · simp only [hlt, if_false]
        by_cases hmax : maxSkip ≠ 0 ∧ maxSkip ≤ skipped + 1
        · grind [seekBeforeUserKey_spec]
        · rw [if_neg hmax]
          have hcur : es[({ it with pos := Cursor.prev es it.pos } : DBIter).pos]? = some a := hprev
          exact ih (skipped + 1) hcur (cls_le_iff_ne_lt.mpr hlt) (by simp only; omega)

end RocketDb
