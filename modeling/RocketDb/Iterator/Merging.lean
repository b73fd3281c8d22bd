import RocketDb.Iterator.Interface

/-! # The merging iterator (`table/merger.cc`)

Going forward every child stands on its first entry at or after the one shown, going backward on its last
entry at or before it; when the direction changes, all children but the current one are sought again.

* **`newMergingIterator`** — the iterator for none, one or several children.
* **`sortedUnion`** — the entries of all children in key order, tagged with the index of their list, so that
  the position of a child is the number of entries with its tag before a position
  (`IsUnion.getElem?_rank`). -/

namespace RocketDb

open Transition List

variable {σ : Type*}

/-! ## The iterator -/

/-- The state of a `MergingIterator`. -/
structure MergingIterator (σ : Type*) where
  children : List (IteratorWrapper σ)
  /-- The index of `current_`, none for a null pointer. -/
  current : Option ℕ
  direction : Direction

/-- One turn of the loops of `FindSmallest` and `FindLargest`: the best child so far, with its key. -/
def pickChild (better : Slice → Slice → Bool) (best : Option (ℕ × Slice))
    (x : IteratorWrapper σ × ℕ) : Option (ℕ × Slice) :=
  if x.1.valid then
    match best with
    | none => some (x.2, x.1.key)
    | some b => if better x.1.key b.2 then some (x.2, x.1.key) else some b
  else best

section PickChild

variable {better : Slice → Slice → Bool} {best : Option (ℕ × Slice)} {x : IteratorWrapper σ × ℕ}

theorem pickChild_of_invalid (h : x.1.valid = false) : pickChild better best x = best := by
  simp [pickChild, h]

theorem pickChild_none (h : x.1.valid = true) :
    pickChild better none x = some (x.2, x.1.key) := by
  simp [pickChild, h]

theorem pickChild_some (h : x.1.valid = true) (b : ℕ × Slice) :
    pickChild better (some b) x = if better x.1.key b.2 then some (x.2, x.1.key) else some b := by
  simp [pickChild, h]

end PickChild

/-- `MergingIterator::FindSmallest`, from the first child to the last. -/
def findSmallest (cmp : Comparator) (children : List (IteratorWrapper σ)) : Option ℕ :=
  (children.zipIdx.foldl (pickChild fun k b => cmp.compare k b == .lt) none).map Prod.fst

/-- `MergingIterator::FindLargest`, from the last child to the first. -/
def findLargest (cmp : Comparator) (children : List (IteratorWrapper σ)) : Option ℕ :=
  (children.zipIdx.reverse.foldl (pickChild fun k b => cmp.compare k b == .gt) none).map Prod.fst

/-- A loop over the children with their indices from `i` on. -/
def forEachChild (f : ℕ → IteratorWrapper σ → Option (IteratorWrapper σ)) :
    ℕ → List (IteratorWrapper σ) → Option (List (IteratorWrapper σ))
  | _, [] => some []
  | i, child :: children =>
    match f i child with
    | none => none
    | some child =>
      match forEachChild f (i + 1) children with
      | none => none
      | some children => some (child :: children)

namespace MergingIterator

variable (it : Iterator σ) (cmp : Comparator)

/-- Move every child, then show the smallest and go forward. -/
def seekForward (c : IterCall) (m : MergingIterator σ) : Option (MergingIterator σ) :=
  (forEachChild (fun _ child => child.call it c) 0 m.children).map fun children =>
    ⟨children, findSmallest cmp children, .kForward⟩

/-- `MergingIterator::Seek`. -/
def seek (target : Slice) : MergingIterator σ → Option (MergingIterator σ) :=
  seekForward it cmp (.seek target)

/-- `MergingIterator::SeekToFirst`. -/
def seekToFirst : MergingIterator σ → Option (MergingIterator σ) := seekForward it cmp .seekToFirst

/-- `MergingIterator::SeekToLast`. -/
def seekToLast (m : MergingIterator σ) : Option (MergingIterator σ) :=
  (forEachChild (fun _ child => child.call it .seekToLast) 0 m.children).map fun children =>
    ⟨children, findLargest cmp children, .kReverse⟩

/-- The body of the loop in `Next` for a child other than the current one, whose key is `key`. -/
def turnForward (key : Slice) (child : IteratorWrapper σ) : Option (IteratorWrapper σ) :=
  match child.call it (.seek key) with
  | none => none
  | some child =>
    if child.valid = true ∧ cmp.compare key child.key = .eq then child.call it .next else some child

/-- The body of the loop in `Prev`. -/
def turnBackward (key : Slice) (child : IteratorWrapper σ) : Option (IteratorWrapper σ) :=
  match child.call it (.seek key) with
  | none => none
  | some child => if child.valid then child.call it .prev else child.call it .seekToLast

/-- Turn all children but the current one, unless the direction is `direction` already. -/
def turn (direction : Direction) (turnChild : Slice → IteratorWrapper σ → Option (IteratorWrapper σ))
    (j : ℕ) (m : MergingIterator σ) : Option (List (IteratorWrapper σ)) :=
  if m.direction ≠ direction then
    match m.children[j]? with
    | none => none
    | some current =>
      forEachChild (fun i child => if i ≠ j then turnChild current.key child else some child) 0
        m.children
  else some m.children

/-- Move the current child. -/
def moveCurrent (c : IterCall) (j : ℕ) (children : List (IteratorWrapper σ)) :
    Option (List (IteratorWrapper σ)) :=
  match children[j]? with
  | none => none
  | some current => (current.call it c).map fun current => children.set j current

/-- `MergingIterator::Next` with the current child `j`. -/
def next (j : ℕ) (m : MergingIterator σ) : Option (MergingIterator σ) :=
  match m.turn .kForward (turnForward it cmp) j with
  | none => none
  | some children =>
    (moveCurrent it .next j children).map fun children =>
      ⟨children, findSmallest cmp children, .kForward⟩

/-- `MergingIterator::Prev` with the current child `j`. -/
def prev (j : ℕ) (m : MergingIterator σ) : Option (MergingIterator σ) :=
  match m.turn .kReverse (turnBackward it) j with
  | none => none
  | some children =>
    (moveCurrent it .prev j children).map fun children =>
      ⟨children, findLargest cmp children, .kReverse⟩

/-- The child shown. -/
def currentChild (m : MergingIterator σ) : Option (IteratorWrapper σ) :=
  m.current.bind fun j => m.children[j]?

/-- The loop of `MergingIterator::status`: the first failing status, or the last one. -/
def statusLoop : Status → List (IteratorWrapper σ) → Status
  | status, [] => status
  | _, child :: children =>
    if (it.status child.iter).isOk then statusLoop (it.status child.iter) children
    else it.status child.iter

/-- `MergingIterator` as an iterator. -/
def iterator : Iterator (MergingIterator σ) where
  call m
    | .seek target => seek it cmp target m
    | .seekToFirst => seekToFirst it cmp m
    | .seekToLast => seekToLast it cmp m
    | .next => m.current.bind fun j => next it cmp j m
    | .prev => m.current.bind fun j => prev it cmp j m
  valid m := m.current.isSome
  key m := (m.currentChild.map IteratorWrapper.key).getD []
  value m := (m.currentChild.map (IteratorWrapper.value it)).getD []
  status m := statusLoop it .ok m.children

end MergingIterator

/-- What `NewMergingIterator` returns: an empty iterator, the only child, or a merging iterator. -/
inductive MergedIterator (σ : Type*) where
  | empty (status : Status)
  | child (s : σ)
  | merging (m : MergingIterator σ)

/-- `NewMergingIterator`. -/
def newMergingIterator (it : Iterator σ) : List σ → MergedIterator σ
  | [] => .empty .ok
  | [child] => .child child
  | children => .merging ⟨children.map (.set it), none, .kForward⟩

/-- The methods of what `NewMergingIterator` returns. -/
def MergedIterator.iterator (it : Iterator σ) (cmp : Comparator) : Iterator (MergedIterator σ) where
  call
    | .empty st, c => (emptyIterator.call st c).map .empty
    | .child s, c => (it.call s c).map .child
    | .merging m, c => ((MergingIterator.iterator it cmp).call m c).map .merging
  valid
    | .empty st => emptyIterator.valid st
    | .child s => it.valid s
    | .merging m => (MergingIterator.iterator it cmp).valid m
  key
    | .empty st => emptyIterator.key st
    | .child s => it.key s
    | .merging m => (MergingIterator.iterator it cmp).key m
  value
    | .empty st => emptyIterator.value st
    | .child s => it.value s
    | .merging m => (MergingIterator.iterator it cmp).value m
  status
    | .empty st => emptyIterator.status st
    | .child s => it.status s
    | .merging m => (MergingIterator.iterator it cmp).status m

/-! ## The sorted union -/

/-- The entries of all lists, each with the index of its list. -/
def taggedEntries (ms : List (List (Slice × Slice))) : List (ℕ × Slice × Slice) :=
  ms.zipIdx.flatMap fun x => x.1.map fun e => (x.2, e)

/-- The order of tagged entries: by key. -/
def taggedLe (cmp : Comparator) (a b : ℕ × Slice × Slice) : Bool := cmp.compare a.2.1 b.2.1 != .gt

/-- The tagged entries in key order. -/
def taggedUnion (cmp : Comparator) (ms : List (List (Slice × Slice))) : List (ℕ × Slice × Slice) :=
  (taggedEntries ms).mergeSort (taggedLe cmp)

/-- **The sorted union** of lists of entries. -/
def sortedUnion (cmp : Comparator) (ms : List (List (Slice × Slice))) : List (Slice × Slice) :=
  (taggedUnion cmp ms).map Prod.snd

/-- What the proofs use of the tagged union: it holds each list in its order, is in key order, and no key
has two tags. -/
structure IsUnion (cmp : Comparator) (ms : List (List (Slice × Slice))) (u : List (ℕ × Slice × Slice)) :
    Prop where
  tag_lt : ∀ x ∈ u, x.1 < ms.length
  entries : ∀ i m, ms[i]? = some m → (u.filter fun x => x.1 == i).map Prod.snd = m
  sorted : u.Pairwise fun a b => cmp.compare a.2.1 b.2.1 ≠ .gt
  distinct : ∀ a ∈ u, ∀ b ∈ u, a.1 ≠ b.1 → cmp.compare a.2.1 b.2.1 ≠ .eq

/-- The lists are in key order, and no key is in two of them. -/
structure MergeInput (cmp : Comparator) (ms : List (List (Slice × Slice))) : Prop where
  sorted : ∀ m ∈ ms, m.Pairwise fun a b => cmp.compare a.1 b.1 ≠ .gt
  distinct : ms.Pairwise fun m m' => ∀ a ∈ m, ∀ b ∈ m', cmp.compare a.1 b.1 ≠ .eq

variable {cmp : Comparator} {ms : List (List (Slice × Slice))} {m : List (Slice × Slice)}
  {u : List (ℕ × Slice × Slice)} {x : ℕ × Slice × Slice} {i j p q : ℕ}

theorem mem_taggedEntries : x ∈ taggedEntries ms ↔ ∃ m, ms[x.1]? = some m ∧ x.2 ∈ m := by
  obtain ⟨i, e⟩ := x
  simp only [taggedEntries, mem_flatMap, mem_map, Prod.mk.injEq]
  constructor
  · grind
  · rintro ⟨m, hm, he⟩
    exact ⟨(m, i), mem_zipIdx_iff_getElem?.mpr hm, e, he, rfl, rfl⟩

theorem filter_tagged_self (m : List (Slice × Slice)) (i : ℕ) :
    (m.map fun e => (i, e)).filter (fun x => x.1 == i) = m.map fun e => (i, e) := by
  simp_all

theorem filter_tagged (ms : List (List (Slice × Slice))) (k : ℕ) (hm : ms[i]? = some m) :
    ((ms.zipIdx k).flatMap fun x => x.1.map fun e => (x.2, e)).filter (fun x => x.1 == k + i) =
      m.map fun e => (k + i, e) := by
  induction ms generalizing k i with
  | nil => simp at hm
  | cons a ms ih =>
    rw [zipIdx_cons, flatMap_cons, filter_append]
    cases i with
    | zero =>
      obtain rfl : a = m := by simpa using hm
      have hrest : ((ms.zipIdx (k + 1)).flatMap fun x => x.1.map fun e => (x.2, e)).filter
          (fun x => x.1 == k + 0) = [] := by
        grind [filter_eq_nil_iff]
      rw [hrest, append_nil, Nat.add_zero, filter_tagged_self]
    | succ i =>
      have hfront : (a.map fun e => (k, e)).filter (fun x => x.1 == k + (i + 1)) = [] := by
        simp_all
      grind

theorem taggedLe_trans (a b c : ℕ × Slice × Slice) (hab : taggedLe cmp a b = true)
    (hbc : taggedLe cmp b c = true) : taggedLe cmp a c = true := by
  rw [taggedLe, bne_iff_ne] at *
  exact Ordering.isLE_iff_ne_gt.mp (cmp.transitive _ _ _ (Ordering.isLE_iff_ne_gt.mpr hab)
    (Ordering.isLE_iff_ne_gt.mpr hbc))

theorem taggedLe_total (a b : ℕ × Slice × Slice) : (taggedLe cmp a b || taggedLe cmp b a) = true := by
  rw [taggedLe, taggedLe, cmp.oriented b.2.1 a.2.1]
  cases cmp.compare a.2.1 b.2.1 <;> rfl

/-- **The tagged union is a union.** Sorting is stable, so that each list stays in its order. -/
theorem MergeInput.isUnion (h : MergeInput cmp ms) : IsUnion cmp ms (taggedUnion cmp ms) := by
  have hperm : (taggedUnion cmp ms).Perm (taggedEntries ms) := mergeSort_perm _ _
  refine ⟨fun x hx => ?_, fun i m hm => ?_, ?_, fun a ha b hb hne => ?_⟩
  · obtain ⟨m, hm, -⟩ := mem_taggedEntries.mp (hperm.mem_iff.mp hx)
    exact (List.getElem?_eq_some_iff.mp hm).1
  · have htag : (taggedEntries ms).filter (fun x => x.1 == i) = m.map fun e => (i, e) := by
      have := filter_tagged ms 0 hm
      rwa [Nat.zero_add] at this
    -- the entries of the list are a sorted sublist, and remain one
    have hsub : (m.map fun e => (i, e)).Sublist (taggedUnion cmp ms) := by
      refine sublist_mergeSort taggedLe_trans taggedLe_total ?_ (htag ▸ filter_sublist)
      rw [pairwise_map]
      exact (h.sorted m (mem_of_getElem? hm)).imp fun hab => bne_iff_ne.mpr hab
    have hfilter := hsub.filter fun x => x.1 == i
    rw [filter_tagged_self] at hfilter
    have hlen : (m.map fun e => (i, e)).length =
        ((taggedUnion cmp ms).filter fun x => x.1 == i).length := by
      rw [← htag]
      exact ((hperm.filter _).length_eq).symm
    rw [← hfilter.eq_of_length hlen, map_map]
    exact map_id m
  · exact (pairwise_mergeSort taggedLe_trans taggedLe_total (taggedEntries ms)).imp
      bne_iff_ne.mp
  · obtain ⟨m₁, hm₁, ha⟩ := mem_taggedEntries.mp (hperm.mem_iff.mp ha)
    obtain ⟨m₂, hm₂, hb⟩ := mem_taggedEntries.mp (hperm.mem_iff.mp hb)
    obtain ⟨h₁, rfl⟩ := List.getElem?_eq_some_iff.mp hm₁
    obtain ⟨h₂, rfl⟩ := List.getElem?_eq_some_iff.mp hm₂
    have hpair := pairwise_iff_getElem.mp h.distinct
    rcases Nat.lt_or_gt_of_ne hne with hlt | hgt
    · exact hpair _ _ h₁ h₂ hlt _ ha _ hb
    · intro heq
      exact hpair _ _ h₂ h₁ hgt _ hb _ ha (Std.OrientedCmp.eq_symm heq)

/-! ## Positions in the union -/

/-- The entry has tag `i`. -/
abbrev tagged (i : ℕ) (x : ℕ × Slice × Slice) : Bool := x.1 == i

namespace IsUnion

section

variable (h : IsUnion cmp ms u)

include h

theorem length_eq (hm : ms[i]? = some m) :
    (u.filter (tagged i)).length = m.length := by
  rw [← h.entries i m hm, length_map]

/-- A list shows at the rank of `p` the first of its entries at or after `p`. -/
theorem getElem?_rank (hm : ms[i]? = some m) (p : ℕ) :
    m[Cursor.rank (tagged i) u p]? = ((u.drop p).find? (tagged i)).map Prod.snd := by
  rw [← h.entries i m hm, getElem?_map, Cursor.getElem?_filter_rank]

theorem getElem?_rank_tag (hx : u[p]? = some x) (hm : ms[x.1]? = some m) :
    m[Cursor.rank (tagged x.1) u p]? = some x.2 := by
  have hsel : tagged x.1 x = true := beq_self_eq_true x.1
  rw [← h.entries x.1 m hm, getElem?_map, Cursor.getElem?_rank_of_selected hx hsel]
  rfl

theorem rank_le (hm : ms[i]? = some m) (p : ℕ) :
    Cursor.rank (tagged i) u p ≤ m.length := by
  grind [IsUnion, Cursor.rank, take_sublist]

end

theorem rank_succ_of_ne (hx : u[p]? = some x) (hne : x.1 ≠ i) :
    Cursor.rank (tagged i) u (p + 1) = Cursor.rank (tagged i) u p := by
  grind [Cursor.rank_succ]

theorem rank_succ_of_eq (hx : u[p]? = some x) :
    Cursor.rank (tagged x.1) u (p + 1) = Cursor.rank (tagged x.1) u p + 1 :=
  Cursor.rank_succ_of_selected hx (beq_self_eq_true _)

theorem compare_ne_gt (h : IsUnion cmp ms u) {y : ℕ × Slice × Slice} (hpq : p ≤ q)
    (hx : u[p]? = some x) (hy : u[q]? = some y) : cmp.compare x.2.1 y.2.1 ≠ .gt := by
  obtain ⟨hp, rfl⟩ := List.getElem?_eq_some_iff.mp hx
  obtain ⟨hq, rfl⟩ := List.getElem?_eq_some_iff.mp hy
  rcases Nat.lt_or_eq_of_le hpq with hlt | rfl
  · exact pairwise_iff_getElem.mp h.sorted p q hp hq hlt
  · exact cmp.compare_self_ne_gt _

theorem compare_eq_lt (h : IsUnion cmp ms u) {y : ℕ × Slice × Slice} (hpq : p ≤ q)
    (hx : u[p]? = some x) (hy : u[q]? = some y) (hne : x.1 ≠ y.1) :
    cmp.compare x.2.1 y.2.1 = .lt := by
  have hle := h.compare_ne_gt hpq hx hy
  have hdist := h.distinct x (mem_of_getElem? hx) y (mem_of_getElem? hy) hne
  cases hc : cmp.compare x.2.1 y.2.1 with
  | lt => rfl
  | eq => exact absurd hc hdist
  | gt => exact absurd hc hle

/-- **Seeking in one list** leads to the rank of the position that the union is sought to. -/
theorem seek_eq (h : IsUnion cmp ms u) (hm : ms[i]? = some m) {test : Slice × Slice → Bool}
    (hbefore : ∀ q < p, ∀ x, u[q]? = some x → tagged i x = true → test x.2 = false)
    (hafter : ∀ q, p ≤ q → ∀ x, u[q]? = some x → tagged i x = true → test x.2 = true) :
    Cursor.seek m test = Cursor.rank (tagged i) u p := by
  rw [← h.entries i m hm, Cursor.seek, findIdx_map]
  exact Cursor.seek_filter hbefore hafter

end IsUnion

end RocketDb
