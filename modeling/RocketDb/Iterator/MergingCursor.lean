import RocketDb.Iterator.Merging

/-! # The merging iterator is a cursor over the sorted union

At a position `p` of the tagged union, child `i` is at the rank of `p`, the number of entries with tag `i`
before `p`; going backward it is one before the rank of `p + 1`.

* **`ForwardAt`**, **`BackwardAt`** — the two descriptions of the children; a change of direction takes one to
  the other.
* **`newMergingIterator_isCursor`** — over cursors over sorted lists without a common key,
  `NewMergingIterator` returns a cursor over the sorted union. -/

namespace RocketDb

open Transition List

variable {σ : Type*} {it : Iterator σ} {cmp : Comparator} {ms : List (List (Slice × Slice))}
  {m : List (Slice × Slice)} {u : List (ℕ × Slice × Slice)} {x : ℕ × Slice × Slice} {i j p q : ℕ}
  {children : List (IteratorWrapper σ)} {w : IteratorWrapper σ}

/-! ## The searches -/

section Pick

variable {better : Slice → Slice → Bool} {xs : List (IteratorWrapper σ × ℕ)}

/-- Children that are not valid are not picked. -/
theorem foldl_pickChild_invalid {best : Option (ℕ × Slice)} (h : ∀ x ∈ xs, x.1.valid = false) :
    xs.foldl (pickChild better) best = best := by
  induction xs with
  | nil => rfl
  | cons x xs ih =>
    grind [pickChild_of_invalid]

/-- A child that is better than the rest stays picked. -/
theorem foldl_pickChild_stays {k : Slice}
    (h : ∀ x ∈ xs, x.1.valid = true → better x.1.key k = false) :
    xs.foldl (pickChild better) (some (j, k)) = some (j, k) := by
  induction xs with
  | nil => rfl
  | cons x xs ih =>
    have hx : pickChild better (some (j, k)) x = some (j, k) := by
      grind [pickChild_some, pickChild_of_invalid]
    grind

/-- What is picked is the key of a child. -/
theorem foldl_pickChild_mem {b : ℕ × Slice} (h : xs.foldl (pickChild better) none = some b) :
    ∃ x ∈ xs, x.1.valid = true ∧ x.1.key = b.2 := by
  suffices hgen : ∀ best, xs.foldl (pickChild better) best = some b →
      best = some b ∨ ∃ x ∈ xs, x.1.valid = true ∧ x.1.key = b.2 by
    rcases hgen none h with h | h
    · cases h
    · exact h
  clear h
  induction xs with
  | nil => exact fun best h => Or.inl h
  | cons x xs ih =>
    intro best h
    rw [foldl_cons] at h
    rcases ih _ h with hb | ⟨y, hy, hyv⟩
    · by_cases hv : x.1.valid = true
      · have hmem : some (x.2, x.1.key) = some b →
            ∃ y ∈ x :: xs, y.1.valid = true ∧ y.1.key = b.2 := by
          grind
        cases best with
        | none => exact Or.inr (hmem (pickChild_none hv ▸ hb))
        | some b' =>
          rw [pickChild_some hv] at hb
          grind
      · grind [pickChild_of_invalid]
    · exact Or.inr ⟨y, mem_cons_of_mem x hy, hyv⟩

/-- **The search finds the child that beats all others.** -/
theorem foldl_pickChild_best {ys : List (IteratorWrapper σ × ℕ)} (hv : w.valid = true)
    (hbefore : ∀ x ∈ xs, x.1.valid = true → better w.key x.1.key = true)
    (hafter : ∀ y ∈ ys, y.1.valid = true → better y.1.key w.key = false) :
    (xs ++ (w, j) :: ys).foldl (pickChild better) none = some (j, w.key) := by
  rw [foldl_append, foldl_cons]
  have hw : pickChild better (xs.foldl (pickChild better) none) (w, j) = some (j, w.key) := by
    cases hb : xs.foldl (pickChild better) none with
    | none => exact pickChild_none hv
    | some b =>
      obtain ⟨x, hx, hxv, hkey⟩ := foldl_pickChild_mem hb
      rw [pickChild_some hv, ← hkey, hbefore x hx hxv]
      rfl
  rw [hw]
  exact foldl_pickChild_stays hafter

end Pick

/-- The other children, before and after one of them. -/
theorem zipIdx_split (hw : children[j]? = some w) :
    ∃ xs ys, children.zipIdx = xs ++ (w, j) :: ys ∧
      ∀ x, x ∈ xs ∨ x ∈ ys → x.2 ≠ j ∧ children[x.2]? = some x.1 := by
  obtain ⟨hj, rfl⟩ := List.getElem?_eq_some_iff.mp hw
  have hsplit : children = children.take j ++ children[j] :: children.drop (j + 1) := by
    rw [← drop_eq_getElem_cons hj, take_append_drop]
  have hlen : (children.take j).length = j := by
    rw [length_take]
    omega
  refine ⟨(children.take j).zipIdx, (children.drop (j + 1)).zipIdx (j + 1), ?_, ?_⟩
  · grind
  · grind

/-- The child with the strictly smallest key is found. -/
theorem findSmallest_of_lt (hw : children[j]? = some w) (hv : w.valid = true)
    (h : ∀ i w', i ≠ j → children[i]? = some w' → w'.valid = true →
      cmp.compare w.key w'.key = .lt) : findSmallest cmp children = some j := by
  obtain ⟨xs, ys, hsplit, hothers⟩ := zipIdx_split hw
  rw [findSmallest, hsplit, foldl_pickChild_best hv]
  · rfl
  · grind
  · intro x hx hxv
    obtain ⟨hne, hx⟩ := hothers x (Or.inr hx)
    rw [cmp.oriented, h x.2 x.1 hne hx hxv]
    rfl

theorem findLargest_of_lt (hw : children[j]? = some w) (hv : w.valid = true)
    (h : ∀ i w', i ≠ j → children[i]? = some w' → w'.valid = true →
      cmp.compare w'.key w.key = .lt) : findLargest cmp children = some j := by
  obtain ⟨xs, ys, hsplit, hothers⟩ := zipIdx_split hw
  rw [findLargest, hsplit, reverse_append, reverse_cons, append_assoc,
    singleton_append, foldl_pickChild_best hv]
  · rfl
  · intro x hx hxv
    obtain ⟨hne, hx⟩ := hothers x (Or.inr (mem_reverse.mp hx))
    rw [cmp.oriented, h x.2 x.1 hne hx hxv]
    rfl
  · grind

theorem findSmallest_of_invalid (h : ∀ w ∈ children, w.valid = false) :
    findSmallest cmp children = none := by
  grind [findSmallest, foldl_pickChild_invalid]

theorem findLargest_of_invalid (h : ∀ w ∈ children, w.valid = false) :
    findLargest cmp children = none := by
  grind [findLargest, foldl_pickChild_invalid]

/-! ## The children -/

/-- Child `i` is a cursor over list `i` at position `pos i`. -/
def ChildrenAt (it : Iterator σ) (cmp : Comparator) (ms : List (List (Slice × Slice)))
    (children : List (IteratorWrapper σ)) (pos : ℕ → List (Slice × Slice) → ℕ) : Prop :=
  children.length = ms.length ∧
    ∀ (i : ℕ) (w : IteratorWrapper σ) (m : List (Slice × Slice)), children[i]? = some w →
      ms[i]? = some m → w.At it cmp m (pos i m)

/-- Going forward: each child is on its first entry at or after position `p` of the union. -/
def ForwardAt (it : Iterator σ) (cmp : Comparator) (ms : List (List (Slice × Slice)))
    (u : List (ℕ × Slice × Slice)) (children : List (IteratorWrapper σ)) (p : ℕ) : Prop :=
  ChildrenAt it cmp ms children fun i _ => Cursor.rank (tagged i) u p

/-- Going backward: each child is on its last entry before position `q` of the union. -/
def BackwardAt (it : Iterator σ) (cmp : Comparator) (ms : List (List (Slice × Slice)))
    (u : List (ℕ × Slice × Slice)) (children : List (IteratorWrapper σ)) (q : ℕ) : Prop :=
  ChildrenAt it cmp ms children fun i m => Cursor.prev m (Cursor.rank (tagged i) u q)

namespace ChildrenAt

variable {pos pos' : ℕ → List (Slice × Slice) → ℕ}

section

variable (h : ChildrenAt it cmp ms children pos)

include h

theorem congr (hpos : ∀ i m, ms[i]? = some m → pos i m = pos' i m) :
    ChildrenAt it cmp ms children pos' := by
  refine ⟨h.1, fun i w m hw hm => ?_⟩
  rw [← hpos i m hm]
  exact h.2 i w m hw hm

theorem at_index (hw : children[i]? = some w) :
    ∃ m, ms[i]? = some m ∧ w.At it cmp m (pos i m) := by
  have hi : i < ms.length := h.1 ▸ (List.getElem?_eq_some_iff.mp hw).1
  exact ⟨ms[i], getElem?_eq_getElem hi, h.2 i w _ hw (getElem?_eq_getElem hi)⟩

theorem exists_child (hi : i < ms.length) :
    ∃ w m, children[i]? = some w ∧ ms[i]? = some m ∧ w.At it cmp m (pos i m) := by
  have hi' : i < children.length := h.1.symm ▸ hi
  have hw : children[i]? = some children[i] := getElem?_eq_getElem hi'
  obtain ⟨m, hm, hat⟩ := h.at_index hw
  exact ⟨_, m, hw, hm, hat⟩

end

/-- A loop over all children moves each to its new position. -/
theorem forEachChild {f : ℕ → IteratorWrapper σ → Option (IteratorWrapper σ)}
    (pos' : ℕ → List (Slice × Slice) → ℕ) (h : ChildrenAt it cmp ms children pos)
    (hf : ∀ i w m, children[i]? = some w → ms[i]? = some m → w.At it cmp m (pos i m) →
      ∃ w', f i w = some w' ∧ w'.At it cmp m (pos' i m)) :
    ∃ children', RocketDb.forEachChild f 0 children = some children' ∧
      ChildrenAt it cmp ms children' pos' := by
  suffices hgen : ∀ (k : ℕ) (ws : List (IteratorWrapper σ)),
      (∀ i w, ws[i]? = some w → ∃ w', f (k + i) w = some w' ∧
        ∀ m, ms[k + i]? = some m → w'.At it cmp m (pos' (k + i) m)) →
      ∃ ws', RocketDb.forEachChild f k ws = some ws' ∧ ws'.length = ws.length ∧
        ∀ i w' m, ws'[i]? = some w' → ms[k + i]? = some m → w'.At it cmp m (pos' (k + i) m) by
    obtain ⟨ws', hws', hlen, hat⟩ := hgen 0 children (fun i w hw => by
      rw [Nat.zero_add]
      obtain ⟨m, hm, hwat⟩ := h.at_index hw
      obtain ⟨w', hw', hat'⟩ := hf i w m hw hm hwat
      refine ⟨w', hw', fun m' hm' => ?_⟩
      rwa [← Option.some.inj (hm.symm.trans hm')])
    exact ⟨ws', hws', hlen.trans h.1, fun i w m hw hm => by
      simpa using hat i w m hw (by rwa [Nat.zero_add])⟩
  intro k ws
  induction ws generalizing k with
  | nil => exact fun _ => ⟨[], rfl, rfl, fun i w' m hw => by simp at hw⟩
  | cons w ws ih =>
    intro hstep
    obtain ⟨w', hw', hat⟩ := hstep 0 w rfl
    obtain ⟨ws', hws', hlen, hats⟩ := ih (k + 1) (fun i v hv => by
      have := hstep (i + 1) v hv
      rwa [show k + (i + 1) = k + 1 + i by omega] at this)
    rw [Nat.add_zero] at hw' hat
    refine ⟨w' :: ws', ?_, by simp [hlen], fun i v m hv hm => ?_⟩
    · rw [RocketDb.forEachChild, hw']
      dsimp only
      rw [hws']
    · cases i with
      | zero =>
        obtain rfl : w' = v := by simpa using hv
        exact hat m (by rwa [Nat.add_zero] at hm)
      | succ i =>
        have := hats i v m (by simpa using hv)
          (by rwa [show k + 1 + i = k + (i + 1) by omega])
        rwa [show k + 1 + i = k + (i + 1) by omega] at this

/-- A call of the current child moves it and no other. -/
theorem moveCurrent {c : IterCall} (pos' : ℕ → List (Slice × Slice) → ℕ)
    (h : ChildrenAt it cmp ms children pos) (hm : ms[j]? = some m)
    (hpos : mapCursorCall cmp m (pos j m) c = some (pos' j m))
    (hothers : ∀ i m, i ≠ j → ms[i]? = some m → pos' i m = pos i m) :
    ∃ children', MergingIterator.moveCurrent it c j children = some children' ∧
      ChildrenAt it cmp ms children' pos' := by
  obtain ⟨w, m', hw, hm', hat⟩ := h.exists_child (List.getElem?_eq_some_iff.mp hm).1
  obtain rfl := Option.some.inj (hm.symm.trans hm')
  obtain ⟨w', hcall, hat'⟩ := hat.of_mapCursorCall hpos
  refine ⟨children.set j w', ?_, by rw [length_set]; exact h.1, fun i v n hv hn => ?_⟩
  · grind [MergingIterator.moveCurrent]
  · rw [getElem?_set] at hv
    split at hv
    · grind
    · rename_i hji
      rw [hothers i n (fun h => hji h.symm) hn]
      exact h.2 i v n hv hn

end ChildrenAt

/-! ## What the searches find -/

/-- The tag of the entry at a position. -/
def tagAt (u : List (ℕ × Slice × Slice)) (p : ℕ) : Option ℕ := (u[p]?).map Prod.fst

/-- **Going forward, `FindSmallest` finds the child of the entry at `p`.** -/
theorem findSmallest_eq (hu : IsUnion cmp ms u) (h : ForwardAt it cmp ms u children p) :
    findSmallest cmp children = tagAt u p := by
  rw [tagAt]
  cases hx : u[p]? with
  | none =>
    refine findSmallest_of_invalid fun w hw => ?_
    obtain ⟨i, hi⟩ := getElem?_of_mem hw
    obtain ⟨m, hm, hat⟩ := h.at_index hi
    rw [Bool.eq_false_iff, ne_eq, hat.valid_iff, not_lt,
      Cursor.rank_of_length_le (List.getElem?_eq_none_iff.mp hx), hu.length_eq hm]
  | some x =>
    obtain ⟨w, m, hw, hm, hat⟩ := h.exists_child (hu.tag_lt x (mem_of_getElem? hx))
    have hentry := hu.getElem?_rank_tag hx hm
    have hlt := (List.getElem?_eq_some_iff.mp hentry).1
    have hkey := Option.some.inj ((hat.entry hlt).symm.trans hentry)
    refine findSmallest_of_lt hw (hat.valid_iff.mpr hlt) fun i w' hne hw' hv => ?_
    -- another child shows an entry with its tag after `p`
    obtain ⟨m', hm', hat'⟩ := h.at_index hw'
    have hentry' := hat'.entry (hat'.valid_iff.mp hv)
    rw [hu.getElem?_rank hm', Option.map_eq_some_iff] at hentry'
    obtain ⟨y, hy, hkey'⟩ := hentry'
    obtain ⟨k, hk⟩ := getElem?_of_mem (mem_of_find?_eq_some hy)
    rw [getElem?_drop] at hk
    have htag : y.1 = i := by simpa using find?_some hy
    have hcmp := hu.compare_eq_lt (Nat.le_add_right p k) hx hk (fun he => hne (htag ▸ he.symm))
    rw [← hkey, hkey'] at hcmp
    exact hcmp

/-- An entry of a child below its rank stands earlier in the union. -/
theorem exists_of_lt_rank (hu : IsUnion cmp ms u) (hm : ms[i]? = some m) {k : ℕ} {e : Slice × Slice}
    (hk : k < Cursor.rank (tagged i) u q) (he : m[k]? = some e) :
    ∃ r < q, u[r]? = some (i, e) := by
  have hsplit : u.filter (tagged i) =
      (u.take q).filter (tagged i) ++ (u.drop q).filter (tagged i) := by
    rw [← filter_append, take_append_drop]
  rw [Cursor.rank, countP_eq_length_filter] at hk
  rw [← hu.entries i m hm, getElem?_map, hsplit, getElem?_append_left hk, Option.map_eq_some_iff] at he
  obtain ⟨y, hy, rfl⟩ := he
  obtain ⟨hmem, htag⟩ := mem_filter.mp (mem_of_getElem? hy)
  obtain ⟨r, hr⟩ := getElem?_of_mem hmem
  grind

/-- **Going backward, `FindLargest` finds the child of the last entry before `q`.** -/
theorem findLargest_eq (hu : IsUnion cmp ms u) (hq : q ≤ u.length)
    (h : BackwardAt it cmp ms u children q) :
    findLargest cmp children = if q = 0 then none else tagAt u (q - 1) := by
  by_cases hzero : q = 0
  · rw [if_pos hzero]
    refine findLargest_of_invalid fun w hw => ?_
    obtain ⟨i, hi⟩ := getElem?_of_mem hw
    obtain ⟨m, hm, hat⟩ := h.at_index hi
    rw [Bool.eq_false_iff, ne_eq, hat.valid_iff, hzero, Cursor.rank_zero, Cursor.prev, if_pos rfl]
    exact lt_irrefl _
  · rw [if_neg hzero, tagAt]
    obtain ⟨p, rfl⟩ : ∃ p, q = p + 1 := ⟨q - 1, by omega⟩
    obtain ⟨x, hx⟩ : ∃ x, u[p]? = some x := ⟨u[p], getElem?_eq_getElem hq⟩
    rw [Nat.add_sub_cancel, hx]
    obtain ⟨w, m, hw, hm, hat⟩ := h.exists_child (hu.tag_lt x (mem_of_getElem? hx))
    rw [IsUnion.rank_succ_of_eq hx, Cursor.prev, if_neg (Nat.succ_ne_zero _), Nat.add_sub_cancel] at hat
    have hentry := hu.getElem?_rank_tag hx hm
    have hlt := (List.getElem?_eq_some_iff.mp hentry).1
    have hkey := Option.some.inj ((hat.entry hlt).symm.trans hentry)
    refine findLargest_of_lt hw (hat.valid_iff.mpr hlt) fun i w' hne hw' hv => ?_
    -- another child shows an entry with its tag before `p`
    obtain ⟨m', hm', hat'⟩ := h.at_index hw'
    have hentry' := hat'.entry (hat'.valid_iff.mp hv)
    have hpos : Cursor.rank (tagged i) u (p + 1) ≠ 0 := by
      grind [Cursor.prev]
    rw [Cursor.prev, if_neg hpos] at hentry'
    obtain ⟨r, hr, hr'⟩ := exists_of_lt_rank (q := p + 1) hu hm' (by omega) hentry'
    grind [IsUnion.compare_eq_lt]

/-! ## The relation -/

/-- **The merging iterator is at position `p` of the union.** -/
structure MergingAt (it : Iterator σ) (cmp : Comparator) (ms : List (List (Slice × Slice)))
    (u : List (ℕ × Slice × Slice)) (m : MergingIterator σ) (p : ℕ) : Prop where
  current : m.current = tagAt u p
  children : ∃ pos, ChildrenAt it cmp ms m.children pos
  forward : p < u.length → m.direction = .kForward → ForwardAt it cmp ms u m.children p
  backward : p < u.length → m.direction = .kReverse → BackwardAt it cmp ms u m.children (p + 1)

/-- Going forward, the smallest child shows the entry of the union. -/
theorem ForwardAt.mergingAt (hu : IsUnion cmp ms u) (h : ForwardAt it cmp ms u children p) :
    MergingAt it cmp ms u ⟨children, findSmallest cmp children, .kForward⟩ p where
  current := findSmallest_eq hu h
  children := ⟨_, h⟩
  forward _ _ := h
  backward _ hd := by cases hd

/-- Going backward, the largest child does. -/
theorem BackwardAt.mergingAt (hu : IsUnion cmp ms u) (hq : q ≤ u.length)
    (h : BackwardAt it cmp ms u children q) (hpos : q ≠ 0 → p + 1 = q)
    (hzero : q = 0 → u.length ≤ p) :
    MergingAt it cmp ms u ⟨children, findLargest cmp children, .kReverse⟩ p where
  current := by
    rw [findLargest_eq hu hq h]
    grind [tagAt]
  children := ⟨_, h⟩
  forward _ hd := by cases hd
  backward hp _ := by
    grind

variable {mi : MergingIterator σ}

/-- The current child is at the entry shown. -/
theorem MergingAt.currentChild (h : MergingAt it cmp ms u mi p) (hu : IsUnion cmp ms u)
    (hx : u[p]? = some x) :
    ∃ w m, mi.children[x.1]? = some w ∧ ms[x.1]? = some m ∧
      w.At it cmp m (Cursor.rank (tagged x.1) u p) ∧ w.key = x.2.1 ∧ w.value it = x.2.2 := by
  have hp := (List.getElem?_eq_some_iff.mp hx).1
  obtain ⟨w, m, hw, hm, hat⟩ : ∃ w m, mi.children[x.1]? = some w ∧ ms[x.1]? = some m ∧
      w.At it cmp m (Cursor.rank (tagged x.1) u p) := by
    cases hdir : mi.direction with
    | kForward => exact (h.forward hp hdir).exists_child (hu.tag_lt x (mem_of_getElem? hx))
    | kReverse =>
      obtain ⟨w, m, hw, hm, hat⟩ :=
        (h.backward hp hdir).exists_child (hu.tag_lt x (mem_of_getElem? hx))
      grind [IsUnion.rank_succ_of_eq, Cursor.prev]
  have hentry := hu.getElem?_rank_tag hx hm
  grind [IteratorWrapper.At.entry]

theorem MergingAt.shows_eq (h : MergingAt it cmp ms u mi p) (hu : IsUnion cmp ms u) :
    (MergingIterator.iterator it cmp).shows mi = (u.map Prod.snd)[p]? := by
  rw [getElem?_map]
  cases hx : u[p]? with
  | none =>
    grind [MergingAt, tagAt, Iterator.shows, MergingIterator.iterator]
  | some x =>
    obtain ⟨w, m, hw, -, -, hkey, hvalue⟩ := h.currentChild hu hx
    have hcur : mi.current = some x.1 := by
      rw [h.current, tagAt, hx]
      rfl
    simp [Iterator.shows, MergingIterator.iterator, MergingIterator.currentChild, hcur, hw, hkey, hvalue]

/-! ## The calls -/

/-- A seek of all children leaves each at its rank. -/
theorem seekForward_mergingAt (hu : IsUnion cmp ms u) {c : IterCall}
    (hch : ∃ pos, ChildrenAt it cmp ms mi.children pos)
    (hc : ∀ i m k, ms[i]? = some m →
      mapCursorCall cmp m k c = some (Cursor.rank (tagged i) u p)) :
    ∃ mi', MergingIterator.seekForward it cmp c mi = some mi' ∧ MergingAt it cmp ms u mi' p := by
  obtain ⟨pos, hpos⟩ := hch
  obtain ⟨children', hloop, hat⟩ := hpos.forEachChild (fun i _ => Cursor.rank (tagged i) u p)
    fun i w m _ hm hw => hw.of_mapCursorCall (hc i m (pos i m) hm)
  refine ⟨_, ?_, ForwardAt.mergingAt hu hat⟩
  rw [MergingIterator.seekForward, hloop]
  rfl

/-- What a seek in the union separates. -/
theorem seek_union_spec (hu : IsUnion cmp ms u) (target : Slice) :
    (∀ q < Cursor.seek (u.map Prod.snd) (fun x => cmp.compare x.1 target != .lt), ∀ x,
        u[q]? = some x → cmp.compare x.2.1 target = .lt) ∧
      ∀ q ≥ Cursor.seek (u.map Prod.snd) (fun x => cmp.compare x.1 target != .lt), ∀ x,
        u[q]? = some x → cmp.compare x.2.1 target ≠ .lt := by
  constructor
  · intro q hq x hx
    have := Cursor.not_of_lt_seek hq (by rw [getElem?_map, hx]; rfl : _ = some x.2)
    simpa using this
  · intro q hq x hx hlt
    -- the element at the position is not before the target, and none after it is
    have hlen := (List.getElem?_eq_some_iff.mp hx).1
    obtain ⟨y, hy⟩ : ∃ y, u[Cursor.seek (u.map Prod.snd) fun x => cmp.compare x.1 target != .lt]? =
        some y := ⟨_, getElem?_eq_getElem (hq.trans_lt hlen)⟩
    have hge := Cursor.of_seek (by rw [getElem?_map, hy]; rfl : _ = some y.2)
    grind [IsUnion, IsUnion.compare_ne_gt, Comparator.lt_of_le_of_lt]

section

variable (h : MergingAt it cmp ms u mi p) (hu : IsUnion cmp ms u)

include h hu

theorem MergingAt.seek (target : Slice) :
    ∃ mi', MergingIterator.seek it cmp target mi = some mi' ∧ MergingAt it cmp ms u mi'
      (Cursor.seek (u.map Prod.snd) fun x => cmp.compare x.1 target != .lt) := by
  obtain ⟨hbefore, hafter⟩ := seek_union_spec hu target
  refine seekForward_mergingAt hu h.children fun i m k hm => ?_
  grind [mapCursorCall, IsUnion.seek_eq]

theorem MergingAt.seekToFirst :
    ∃ mi', MergingIterator.seekToFirst it cmp mi = some mi' ∧ MergingAt it cmp ms u mi' 0 :=
  seekForward_mergingAt hu h.children fun _ _ _ _ => rfl

theorem MergingAt.seekToLast :
    ∃ mi', MergingIterator.seekToLast it cmp mi = some mi' ∧
      MergingAt it cmp ms u mi' (Cursor.seekToLast (u.map Prod.snd)) := by
  obtain ⟨pos, hpos⟩ := h.children
  obtain ⟨children', hloop, hat⟩ := hpos.forEachChild
    (fun i m => Cursor.prev m (Cursor.rank (tagged i) u u.length))
    fun i w m _ hm hw => hw.of_mapCursorCall (c := .seekToLast) (by
      rw [mapCursorCall, Cursor.rank_of_length_le le_rfl, hu.length_eq hm, Cursor.seekToLast, Cursor.prev]
      split_ifs <;> simp_all)
  refine ⟨_, ?_, BackwardAt.mergingAt hu le_rfl hat ?_ ?_⟩
  · rw [MergingIterator.seekToLast, hloop]
    rfl
  · intro hne
    rw [Cursor.seekToLast, length_map]
    omega
  · intro hzero
    rw [hzero]
    exact Nat.zero_le _

end

/-- A child that is sought to the current key goes to its rank. -/
theorem seek_currentKey (hu : IsUnion cmp ms u) (hx : u[p]? = some x) (hne : i ≠ x.1)
    (hm : ms[i]? = some m) {k : ℕ} (hw : w.At it cmp m k) :
    ∃ w', w.call it (.seek x.2.1) = some w' ∧ w'.At it cmp m (Cursor.rank (tagged i) u p) := by
  refine hw.of_mapCursorCall ?_
  rw [mapCursorCall, hu.seek_eq hm]
  · intro q hq y hy htag
    have hlt := hu.compare_eq_lt hq.le hy hx (fun h => hne ((beq_iff_eq.mp htag).symm.trans h))
    simp [hlt]
  · intro q hq y hy _
    have hle := hu.compare_ne_gt hq hx hy
    rw [bne_iff_ne]
    intro hlt
    rw [cmp.oriented, hlt] at hle
    exact hle rfl

/-- No other child has the current key. -/
theorem key_ne_currentKey (hu : IsUnion cmp ms u) (hx : u[p]? = some x) (hne : i ≠ x.1)
    (hm : ms[i]? = some m) (hw : w.At it cmp m (Cursor.rank (tagged i) u p)) :
    ¬ (w.valid = true ∧ cmp.compare x.2.1 w.key = .eq) := by
  rintro ⟨hv, heq⟩
  have hentry := hw.entry (hw.valid_iff.mp hv)
  rw [hu.getElem?_rank hm, Option.map_eq_some_iff] at hentry
  grind [IsUnion]

section

variable (h : MergingAt it cmp ms u mi p) (hu : IsUnion cmp ms u)

include h hu

/-- **A turn forward** seeks every other child to the current key. -/
theorem MergingAt.turn_forward (hx : u[p]? = some x) :
    ∃ children', mi.turn .kForward (MergingIterator.turnForward it cmp) x.1 = some children' ∧
      ForwardAt it cmp ms u children' p := by
  have hp := (List.getElem?_eq_some_iff.mp hx).1
  cases hdir : mi.direction with
  | kForward =>
    grind [MergingAt, MergingIterator.turn]
  | kReverse =>
    obtain ⟨w, m, hw, -, -, hkey, -⟩ := h.currentChild hu hx
    have hne : mi.direction ≠ .kForward := by
      rw [hdir]
      decide
    rw [MergingIterator.turn, if_pos hne, hw]
    refine (h.backward hp hdir).forEachChild _ fun i v n hv hn hat => ?_
    split_ifs with hi
    · -- the child is sought, and does not stand on the current key
      obtain ⟨v', hcall, hat'⟩ := seek_currentKey hu hx hi hn hat
      grind [MergingIterator.turnForward, key_ne_currentKey]
    · grind [IsUnion.rank_succ_of_eq, Cursor.prev]

/-- **A turn backward** puts every other child before the current key. -/
theorem MergingAt.turn_backward (hx : u[p]? = some x) :
    ∃ children', mi.turn .kReverse (MergingIterator.turnBackward it) x.1 = some children' ∧
      ChildrenAt it cmp ms children' fun i m =>
        if i = x.1 then Cursor.rank (tagged i) u p
        else Cursor.prev m (Cursor.rank (tagged i) u p) := by
  have hp := (List.getElem?_eq_some_iff.mp hx).1
  cases hdir : mi.direction with
  | kReverse =>
    refine ⟨mi.children, ?_, (h.backward hp hdir).congr fun i m _ => ?_⟩
    · rw [MergingIterator.turn, if_neg (not_not.mpr hdir)]
    · split_ifs with hi
      · grind [IsUnion.rank_succ_of_eq, Cursor.prev]
      · rw [IsUnion.rank_succ_of_ne hx fun he => hi he.symm]
  | kForward =>
    obtain ⟨w, m, hw, -, -, hkey, -⟩ := h.currentChild hu hx
    have hne : mi.direction ≠ .kReverse := by
      rw [hdir]
      decide
    rw [MergingIterator.turn, if_pos hne, hw]
    refine (h.forward hp hdir).forEachChild _ fun i v n hv hn hat => ?_
    by_cases hi : i = x.1
    · grind
    · rw [if_pos hi, if_neg hi]
      obtain ⟨v', hcall, hat'⟩ := seek_currentKey hu hx hi hn hat
      rw [MergingIterator.turnBackward, hkey, hcall]
      dsimp only
      by_cases hv : v'.valid = true
      · rw [if_pos hv]
        exact hat'.of_mapCursorCall (if_pos (hat'.valid_iff.mp hv))
      · rw [if_neg hv]
        refine hat'.of_mapCursorCall ?_
        -- the child has nothing at or after `p`: its last entry is before
        have hrank : Cursor.rank (tagged i) u p = n.length :=
          le_antisymm (hu.rank_le hn p) (not_lt.mp fun hlt => hv (hat'.valid_iff.mpr hlt))
        grind [mapCursorCall, Cursor.seekToLast, Cursor.prev]

/-- `Next` goes to the next entry of the union. -/
theorem MergingAt.next (hx : u[p]? = some x) :
    ∃ mi', MergingIterator.next it cmp x.1 mi = some mi' ∧ MergingAt it cmp ms u mi' (p + 1) := by
  obtain ⟨w, m, -, hm, -⟩ := h.currentChild hu hx
  obtain ⟨children', hturn, hat⟩ := h.turn_forward hu hx
  have hlt := (List.getElem?_eq_some_iff.mp (hu.getElem?_rank_tag hx hm)).1
  obtain ⟨children'', hmove, hat'⟩ := hat.moveCurrent (c := .next)
    (fun i _ => Cursor.rank (tagged i) u (p + 1)) hm
    (by rw [IsUnion.rank_succ_of_eq hx]; exact if_pos hlt)
    (fun i n hne _ => IsUnion.rank_succ_of_ne hx fun he => hne he.symm)
  refine ⟨_, ?_, ForwardAt.mergingAt hu hat'⟩
  rw [MergingIterator.next, hturn]
  dsimp only
  rw [hmove]
  rfl

/-- `Prev` goes to the one before. -/
theorem MergingAt.prev (hx : u[p]? = some x) :
    ∃ mi', MergingIterator.prev it cmp x.1 mi = some mi' ∧
      MergingAt it cmp ms u mi' (Cursor.prev (u.map Prod.snd) p) := by
  obtain ⟨w, m, -, hm, -⟩ := h.currentChild hu hx
  obtain ⟨children', hturn, hat⟩ := h.turn_backward hu hx
  have hlt := (List.getElem?_eq_some_iff.mp (hu.getElem?_rank_tag hx hm)).1
  have hp := (List.getElem?_eq_some_iff.mp hx).1
  obtain ⟨children'', hmove, hat'⟩ := hat.moveCurrent (c := .prev)
    (fun i m => Cursor.prev m (Cursor.rank (tagged i) u p)) hm
    (by rw [if_pos rfl]; exact if_pos hlt)
    (fun i n hne _ => (if_neg hne).symm)
  refine ⟨_, ?_, BackwardAt.mergingAt hu hp.le hat' (fun hne => ?_) fun hzero => ?_⟩
  · grind [MergingIterator.prev]
  · rw [Cursor.prev, if_neg hne]
    omega
  · rw [Cursor.prev, if_pos hzero, length_map]

/-- **Every call** moves the iterator as it moves a cursor over the union. -/
theorem MergingAt.call (c : IterCall) :
    Option.Rel (MergingAt it cmp ms u) ((MergingIterator.iterator it cmp).call mi c)
      (mapCursorCall cmp (u.map Prod.snd) p c) := by
  have hsome : ∀ {r : Option (MergingIterator σ)} {k : ℕ},
      (∃ mi', r = some mi' ∧ MergingAt it cmp ms u mi' k) →
      Option.Rel (MergingAt it cmp ms u) r (some k) := by
    rintro _ k ⟨mi', rfl, hat⟩
    exact .some hat
  have hlen : (u.map Prod.snd).length = u.length := length_map _
  cases c with
  | seek target => exact hsome (h.seek hu target)
  | seekToFirst => exact hsome (h.seekToFirst hu)
  | seekToLast => exact hsome (h.seekToLast hu)
  | next =>
    rw [mapCursorCall, hlen]
    cases hx : u[p]? with
    | none =>
      rw [if_neg (not_lt.mpr (List.getElem?_eq_none_iff.mp hx))]
      simp only [MergingIterator.iterator, h.current, tagAt, hx, Option.map_none, Option.bind_none]
      exact .none
    | some x =>
      rw [if_pos (List.getElem?_eq_some_iff.mp hx).1]
      simp only [MergingIterator.iterator, h.current, tagAt, hx, Option.map_some, Option.bind_some]
      exact hsome (h.next hu hx)
  | prev =>
    rw [mapCursorCall, hlen]
    cases hx : u[p]? with
    | none =>
      rw [if_neg (not_lt.mpr (List.getElem?_eq_none_iff.mp hx))]
      simp only [MergingIterator.iterator, h.current, tagAt, hx, Option.map_none, Option.bind_none]
      exact .none
    | some x =>
      rw [if_pos (List.getElem?_eq_some_iff.mp hx).1]
      simp only [MergingIterator.iterator, h.current, tagAt, hx, Option.map_some, Option.bind_some]
      exact hsome (h.prev hu hx)

theorem MergingAt.isCursor :
    (MergingIterator.iterator it cmp).IsCursor cmp (u.map Prod.snd) mi p :=
  Iterator.isCursor_of_rel (fun _ _ h => h.shows_eq hu) (fun _ _ c h => h.call hu c) h

end

/-! ## What `NewMergingIterator` returns -/

theorem sortedUnion_singleton (h : MergeInput cmp [m]) : sortedUnion cmp [m] = m := by
  have hu := h.isUnion
  have hall : (taggedUnion cmp [m]).filter (fun x => x.1 == 0) = taggedUnion cmp [m] :=
    filter_eq_self.mpr fun x hx => by simpa using hu.tag_lt x hx
  rw [sortedUnion, ← hall]
  exact hu.entries 0 m rfl

theorem sortedUnion_nil (cmp : Comparator) : sortedUnion cmp [] = [] := by
  simp [sortedUnion, taggedUnion, taggedEntries]

/-- Where what `NewMergingIterator` returns starts: a single child is returned as it is, anything else is
not valid until it is sought. -/
def mergeStart (cmp : Comparator) (ms : List (List (Slice × Slice))) (pos : ℕ → ℕ) : ℕ :=
  if ms.length = 1 then pos 0 else (sortedUnion cmp ms).length

/-- **`NewMergingIterator` returns a cursor over the sorted union.** For any number of children that are
cursors over sorted lists without a common key, every sequence of calls shows what it shows on a single
cursor over the entries of all lists in key order. -/
theorem newMergingIterator_isCursor (it : Iterator σ) (cmp : Comparator)
    (ms : List (List (Slice × Slice))) (children : List σ) (pos : ℕ → ℕ) (hin : MergeInput cmp ms)
    (hlen : children.length = ms.length)
    (hch : ∀ (i : ℕ) (s : σ) (m : List (Slice × Slice)), children[i]? = some s → ms[i]? = some m →
      it.IsCursor cmp m s (pos i)) :
    (MergedIterator.iterator it cmp).IsCursor cmp (sortedUnion cmp ms)
      (newMergingIterator it children) (mergeStart cmp ms pos) := by
  match children, hlen, hch with
  | [], hlen, _ =>
    obtain rfl : ms = [] := eq_nil_of_length_eq_zero hlen.symm
    rw [sortedUnion_nil]
    exact (emptyIterator_isCursor cmp .ok _).embed (f := MergedIterator.empty) (fun _ _ => rfl) fun _ => rfl
  | [s], hlen, hch =>
    obtain ⟨m, rfl⟩ := length_eq_one_iff.mp hlen.symm
    rw [sortedUnion_singleton hin]
    exact (hch 0 s m rfl rfl).embed (f := MergedIterator.child) (fun _ _ => rfl) fun _ => rfl
  | s₁ :: s₂ :: rest, hlen, hch =>
    have hmany : ms.length ≠ 1 := by
      rw [← hlen]
      simp
    have hat : MergingAt it cmp ms (taggedUnion cmp ms)
        ⟨(s₁ :: s₂ :: rest).map (.set it), none, .kForward⟩ (taggedUnion cmp ms).length := by
      refine ⟨?_, ⟨fun i _ => pos i, ?_, fun i w m hw hm => ?_⟩, fun h => ?_, fun h => ?_⟩
      · rw [tagAt, getElem?_eq_none le_rfl]
        rfl
      · rw [length_map, hlen]
      · grind [IteratorWrapper.set_at]
      · exact absurd h (lt_irrefl _)
      · exact absurd h (lt_irrefl _)
    rw [mergeStart, if_neg hmany, sortedUnion, length_map]
    exact (hat.isCursor hin.isUnion).embed (f := MergedIterator.merging) (fun _ _ => rfl) fun _ => rfl

/-- Two children with interleaved keys, walked forward, back and forward again. -/
theorem newMergingIterator_isCursor_turning :
    (run ((MergedIterator.iterator (listIterator bytewiseComparator) bytewiseComparator).call)
        (newMergingIterator (listIterator bytewiseComparator)
          [([([1], []), ([4], [])], 2, .ok), ([([2], []), ([3], [])], 2, .ok)])
        [.seek [2], .next, .prev, .prev]).map
      (MergedIterator.iterator (listIterator bytewiseComparator) bytewiseComparator).shows =
    (run (mapCursorCall bytewiseComparator
        (sortedUnion bytewiseComparator [[([1], []), ([4], [])], [([2], []), ([3], [])]]))
      4 [.seek [2], .next, .prev, .prev]).map fun j =>
        (sortedUnion bytewiseComparator [[([1], []), ([4], [])], [([2], []), ([3], [])]])[j]? := by
  have hin : MergeInput bytewiseComparator [[([1], []), ([4], [])], [([2], []), ([3], [])]] :=
    ⟨by decide, by decide⟩
  have hlen : (sortedUnion bytewiseComparator
      [[([1], []), ([4], [])], [([2], []), ([3], [])]]).length = 4 := by
    rw [sortedUnion, length_map, taggedUnion, length_mergeSort]
    rfl
  have h := newMergingIterator_isCursor (listIterator bytewiseComparator) bytewiseComparator
    [[([1], []), ([4], [])], [([2], []), ([3], [])]]
    [([([1], []), ([4], [])], 2, .ok), ([([2], []), ([3], [])], 2, .ok)] (fun _ => 2) hin rfl
    (by
      intro i s m hs hm
      match i, hs, hm with
      | 0, rfl, rfl => exact listIterator_isCursor _ _ _ _
      | 1, rfl, rfl => exact listIterator_isCursor _ _ _ _
      | i + 2, hs, _ => simp at hs)
  rw [mergeStart, if_neg (by decide), hlen] at h
  exact h _

end RocketDb
