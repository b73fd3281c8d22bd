import RocketDb.Iterator.DBIter

/-! # What a database iterator should show

An entry is **live** at sequence number `s` if it is the newest visible entry of its user key and a value. The
live entries, in key order, are the map that a reader at `s` sees (**`userMap`**); a plain cursor over it is
the reference for `DBIter`. `isLive_iff`: no visible entry of the same user key comes before. -/

namespace RocketDb

open KeyOrder Newest List

/-- The contents of an internal iterator: sorted, well-formed entries. -/
structure EntriesOk (ucmp : Comparator) (es : List Entry) : Prop where
  sorted : SortedEntries ucmp es
  parsable : ∀ e ∈ es, e.parsable = true

/-- The entry is the newest visible one of its user key, and a value. -/
def isLive (ucmp : Comparator) (es : List Entry) (s : ℕ) (e : Entry) : Bool :=
  decide (newestVisible ucmp es e.key.userKey s = some e) && e.isValue

/-- **The map that a reader at `s` sees**, in key order. -/
def userMap (ucmp : Comparator) (es : List Entry) (s : ℕ) : List (Slice × Slice) :=
  (es.filter (isLive ucmp es s)).map fun e => (e.key.userKey, e.value)

variable {ucmp : Comparator} {es : List Entry} {s : ℕ} {e a : Entry} {i j : ℕ}

/-! ## Entries by position -/

section

variable (h : EntriesOk ucmp es)

include h

theorem EntriesOk.rank_lt (hij : i < j) (ha : es[i]? = some a) (he : es[j]? = some e) :
    a.key.rank ucmp < e.key.rank ucmp := by
  obtain ⟨hi, rfl⟩ := List.getElem?_eq_some_iff.mp ha
  obtain ⟨hj, rfl⟩ := List.getElem?_eq_some_iff.mp he
  exact pairwise_iff_getElem.mp h.sorted.rank_lt i j hi hj hij

theorem EntriesOk.class_le (hij : i ≤ j) (ha : es[i]? = some a) (he : es[j]? = some e) :
    userClass ucmp a.key.userKey ≤ userClass ucmp e.key.userKey := by
  rcases Nat.eq_or_lt_of_le hij with rfl | hlt
  · rw [ha] at he
    cases he
    exact le_rfl
  · exact userClass_le_of_rank_le (h.rank_lt hlt ha he).le

theorem EntriesOk.version_lt (hij : i < j) (ha : es[i]? = some a) (he : es[j]? = some e)
    (hcls : userClass ucmp a.key.userKey = userClass ucmp e.key.userKey) :
    e.version < a.version := by
  rcases rank_lt_iff.mp (h.rank_lt hij ha he) with hlt | ⟨-, hlt⟩
  · exact absurd hcls hlt.ne
  · exact hlt

theorem EntriesOk.parsable_at (he : es[j]? = some e) :
    e.parsable = true :=
  h.parsable e (mem_of_getElem? he)

/-- **Liveness by position.** -/
theorem isLive_iff (he : es[j]? = some e) :
    isLive ucmp es s e = true ↔ e.isValue = true ∧ e.key.sequence ≤ s ∧
      ∀ i < j, ∀ a, es[i]? = some a → a.key.sequence ≤ s →
        userClass ucmp a.key.userKey ≠ userClass ucmp e.key.userKey := by
  rw [isLive, Bool.and_eq_true, decide_eq_true_iff, newestVisible,
    newest_eq_some_iff (h.sorted.distinct _ _)]
  constructor
  · rintro ⟨⟨-, hvis, hmax⟩, hval⟩
    refine ⟨hval, (visible_iff.mp hvis).2.2, fun i hij a ha hseq hcls => ?_⟩
    have hle := hmax a (mem_of_getElem? ha)
      (visible_iff.mpr ⟨h.parsable_at ha, hcls, hseq⟩)
    exact absurd (h.version_lt hij ha he hcls) (not_lt.mpr hle)
  · rintro ⟨hval, hseq, hfirst⟩
    refine ⟨⟨mem_of_getElem? he, visible_iff.mpr ⟨h.parsable_at he, rfl, hseq⟩, ?_⟩, hval⟩
    intro a ha hvis
    obtain ⟨-, hcls, haseq⟩ := visible_iff.mp hvis
    obtain ⟨i, hi⟩ := getElem?_of_mem ha
    rcases Nat.lt_trichotomy i j with hij | rfl | hij
    · exact absurd hcls (hfirst i hij a hi haseq)
    · rw [he] at hi
      cases hi
      exact le_rfl
    · exact (h.version_lt hij he hi hcls.symm).le

theorem isLive_sequence_le (he : es[j]? = some e) (hlive : isLive ucmp es s e = true) :
    e.key.sequence ≤ s :=
  ((isLive_iff h he).mp hlive).2.1

end

theorem isLive_isValue (hlive : isLive ucmp es s e = true) : e.isValue = true :=
  (Bool.and_eq_true _ _ ▸ hlive).2

section

variable (h : EntriesOk ucmp es) (he : es[j]? = some e)

include h he

theorem not_isLive_of_sequence_lt (hs : s < e.key.sequence) : isLive ucmp es s e = false :=
  Bool.eq_false_iff.mpr fun hlive => absurd (isLive_sequence_le h he hlive) (not_le.mpr hs)

theorem not_isLive_of_visible_before (hij : i < j) (ha : es[i]? = some a) (hseq : a.key.sequence ≤ s)
    (hcls : userClass ucmp a.key.userKey = userClass ucmp e.key.userKey) :
    isLive ucmp es s e = false :=
  Bool.eq_false_iff.mpr fun hlive => ((isLive_iff h he).mp hlive).2.2 i hij a ha hseq hcls

/-- What is before a live entry and of its user key is too new to be seen. -/
theorem sequence_lt_of_before_live (hlive : isLive ucmp es s e = true) (hij : i < j) (ha : es[i]? = some a)
    (hcls : userClass ucmp a.key.userKey = userClass ucmp e.key.userKey) :
    s < a.key.sequence := by
  grind [isLive_iff]

theorem isLive_unique (ha : es[i]? = some a) (hlive : isLive ucmp es s e = true)
    (hlive' : isLive ucmp es s a = true)
    (hcls : userClass ucmp a.key.userKey = userClass ucmp e.key.userKey) : i = j := by
  rcases Nat.lt_trichotomy i j with hij | rfl | hij
  · have := sequence_lt_of_before_live h he hlive hij ha hcls
    exact absurd (isLive_sequence_le h ha hlive') (not_le.mpr this)
  · rfl
  · have := sequence_lt_of_before_live h ha hlive' hij he hcls.symm
    exact absurd (isLive_sequence_le h he hlive) (not_le.mpr this)

end

/-! ## The map reads like the entries -/

/-- **The map holds what a reader at `s` reads.** -/
theorem find?_userMap (u : Slice) :
    ((userMap ucmp es s).find? fun x => ucmp.compare x.1 u == .eq).map Prod.snd =
      readAt ucmp es u s := by
  have hnewest : ∀ e ∈ es, isLive ucmp es s e = true → ucmp.compare e.key.userKey u = .eq →
      newestVisible ucmp es u s = some e := fun e _ hlive hcmp => by
    have hnew : newestVisible ucmp es e.key.userKey s = some e :=
      of_decide_eq_true ((Bool.and_eq_true _ _).mp hlive).1
    rw [newestVisible, ← visible_congr (cls_eq_iff.mpr hcmp)]
    exact hnew
  rw [userMap, find?_map, Option.map_map]
  cases hfind : (es.filter (isLive ucmp es s)).find?
      ((fun x : Slice × Slice => ucmp.compare x.1 u == .eq) ∘ fun e => (e.key.userKey, e.value)) with
  | some e =>
    obtain ⟨hmem, hlive⟩ := mem_filter.mp (mem_of_find?_eq_some hfind)
    have hcmp : ucmp.compare e.key.userKey u = .eq := by simpa using find?_some hfind
    rw [readAt_of_newestVisible (hnewest e hmem hlive hcmp), Entry.read_of_isValue (isLive_isValue hlive)]
    rfl
  | none =>
    rw [readAt]
    cases hnew : newestVisible ucmp es u s with
    | none => rfl
    | some e =>
      -- the newest entry is not live, so it is a deletion
      have hmem := mem_of_newest hnew
      have hcls := (visible_iff.mp (vis_of_newest hnew)).2.1
      have hval : ¬ e.isValue = true := fun hval => by
        have hlive : isLive ucmp es s e = true := by
          grind [isLive, newestVisible, visible_congr]
        have := find?_eq_none.mp hfind e (mem_filter.mpr ⟨hmem, hlive⟩)
        simp [cls_eq_iff.mp hcls] at this
      grind [Entry.read]

end RocketDb
