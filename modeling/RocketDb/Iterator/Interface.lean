import RocketDb.Lib.Cursor
import RocketDb.Lib.Transition
import RocketDb.Util.Env

/-! # The iterator interface (`include/iterator.h`, `table/iterator_wrapper.h`)

An implementation is given by its state type and its methods (**`Iterator σ`**).

* **`mapCursorCall`** — the calls on a plain cursor, a position in a list of keys and values.
* **`Iterator.IsCursor`** — no sequence of calls that is allowed tells the iterator from such a cursor. One
  rule for each call follows, so that an iterator built from others is verified against cursors.
* **`IteratorWrapper`** — an iterator with its cached validity and key. -/

namespace RocketDb

open Transition

/-! ## Calls -/

/-- The calls of the iterator interface that move it. -/
inductive IterCall where
  | seek (target : Slice)
  | seekToFirst
  | seekToLast
  | next
  | prev

/-- The calls that are allowed only while the iterator is valid. -/
def IterCall.needsValid : IterCall → Bool
  | .next => true
  | .prev => true
  | _ => false

/-- `DBIter::Direction`, `MergingIterator::Direction`. -/
inductive Direction where
  | kForward
  | kReverse
  deriving DecidableEq, Repr

/-- A call on a cursor over a map in key order. -/
def mapCursorCall (ucmp : Comparator) (m : List (Slice × Slice)) (i : ℕ) : IterCall → Option ℕ
  | .seek target => some (Cursor.seek m fun x => ucmp.compare x.1 target != .lt)
  | .seekToFirst => some 0
  | .seekToLast => some (Cursor.seekToLast m)
  | .next => if i < m.length then some (i + 1) else none
  | .prev => if i < m.length then some (Cursor.prev m i) else none

/-- An implementation of the `Iterator` interface with states in `σ`. A call gives `none` if it is not
allowed or does not return. -/
structure Iterator (σ : Type*) where
  call : σ → IterCall → Option σ
  valid : σ → Bool
  key : σ → Slice
  value : σ → Slice
  status : σ → Status

variable {σ : Type*} {it : Iterator σ} {cmp : Comparator} {m : List (Slice × Slice)} {s s' : σ}
  {i j : ℕ} {c : IterCall} {target : Slice} {it' : Iterator τ} {τ : Type*}

/-- What the iterator shows: `key()` and `value()` if `Valid()`. -/
def Iterator.shows (it : Iterator σ) (s : σ) : Option (Slice × Slice) :=
  if it.valid s then some (it.key s, it.value s) else none

/-- **The iterator in state `s` is a cursor over `m` at position `i`**: every sequence of calls is
allowed for both or for neither, and then both show the same. -/
def Iterator.IsCursor (it : Iterator σ) (cmp : Comparator) (m : List (Slice × Slice)) (s : σ) (i : ℕ) :
    Prop :=
  ∀ calls, (run it.call s calls).map it.shows =
    (run (mapCursorCall cmp m) i calls).map fun j => m[j]?

/-- A relation that every call keeps, between states and positions that show the same, makes an iterator
a cursor. -/
theorem Iterator.isCursor_of_rel {R : σ → ℕ → Prop} (hshow : ∀ s i, R s i → it.shows s = m[i]?)
    (hcall : ∀ s i c, R s i → Option.Rel R (it.call s c) (mapCursorCall cmp m i c)) (h : R s i) :
    it.IsCursor cmp m s i :=
  run_map_eq hcall hshow h

namespace Iterator.IsCursor

section

variable (h : it.IsCursor cmp m s i)

include h

theorem shows_eq : it.shows s = m[i]? := by
  simpa [run] using h []

theorem valid_iff : it.valid s = true ↔ i < m.length := by
  have hs := h.shows_eq
  grind [Iterator.shows]

theorem call (c : IterCall) :
    Option.Rel (it.IsCursor cmp m) (it.call s c) (mapCursorCall cmp m i c) := by
  have hrest : ∀ calls, ((it.call s c).bind fun s' => run it.call s' calls).map it.shows =
      ((mapCursorCall cmp m i c).bind fun j => run (mapCursorCall cmp m) j calls).map
        fun j => m[j]? := by
    intro calls
    have hcons := h (c :: calls)
    rw [run, run] at hcons
    cases hs : it.call s c <;> cases hi : mapCursorCall cmp m i c <;> rw [hs, hi] at hcons <;>
      exact hcons
  cases hs : it.call s c with
  | none =>
    cases hi : mapCursorCall cmp m i c with
    | none => exact .none
    | some j =>
      have := hrest []
      rw [hs, hi] at this
      cases this
  | some s' =>
    cases hi : mapCursorCall cmp m i c with
    | none =>
      have := hrest []
      rw [hs, hi] at this
      cases this
    | some j =>
      refine .some fun calls => ?_
      have := hrest calls
      rwa [hs, hi] at this

theorem of_mapCursorCall (hj : mapCursorCall cmp m i c = some j) :
    ∃ s', it.call s c = some s' ∧ it.IsCursor cmp m s' j := by
  have hrel := h.call c
  rw [hj] at hrel
  cases hs : it.call s c with
  | none =>
    rw [hs] at hrel
    cases hrel
  | some s' =>
    simp_all

theorem seek (target : Slice) :
    ∃ s', it.call s (.seek target) = some s' ∧
      it.IsCursor cmp m s' (Cursor.seek m fun x => cmp.compare x.1 target != .lt) :=
  h.of_mapCursorCall rfl

/-- `Seek` shows the first entry that is not before the target, wherever the iterator was. -/
theorem seek_shows (target : Slice) :
    ∃ s', it.call s (.seek target) = some s' ∧
      it.shows s' = m.find? fun x => cmp.compare x.1 target != .lt := by
  obtain ⟨s', hs', hcur⟩ := h.seek target
  exact ⟨s', hs', hcur.shows_eq.trans List.find?_eq_getElem?_findIdx.symm⟩

theorem of_run {calls : List IterCall} (hrun : run it.call s calls = some s') :
    ∃ j, it.IsCursor cmp m s' j := by
  have hstep : ∀ s c s', (∃ j, it.IsCursor cmp m s j) → it.call s c = some s' →
      ∃ j, it.IsCursor cmp m s' j := by
    rintro s c s' ⟨k, hk⟩ hc
    have hrel := hk.call c
    rw [hc] at hrel
    generalize mapCursorCall cmp m k c = r at hrel
    cases hrel with
    | some hs' => exact ⟨_, hs'⟩
  exact run_invariant hstep ⟨i, h⟩ hrun

end

end Iterator.IsCursor

/-! ## One of two iterators -/

/-- A part of an iterator that answers its calls alone is a cursor if it is one by itself. -/
theorem Iterator.IsCursor.embed {outer : Iterator τ} {f : σ → τ}
    (hcall : ∀ s c, outer.call (f s) c = (it.call s c).map f) (hshow : ∀ s, outer.shows (f s) = it.shows s)
    (h : it.IsCursor cmp m s i) :
    outer.IsCursor cmp m (f s) i := by
  intro calls
  have hshows : outer.shows ∘ f = it.shows := funext hshow
  rw [run_embed hcall, Option.map_map, hshows]
  exact h calls

/-- An iterator of one of two kinds. -/
def Iterator.sum {τ : Type*} (it : Iterator σ) (it' : Iterator τ) : Iterator (σ ⊕ τ) where
  call
    | .inl s, c => (it.call s c).map .inl
    | .inr s, c => (it'.call s c).map .inr
  valid := Sum.elim it.valid it'.valid
  key := Sum.elim it.key it'.key
  value := Sum.elim it.value it'.value
  status := Sum.elim it.status it'.status

theorem Iterator.IsCursor.inr (h : it.IsCursor cmp m s i) :
    (it'.sum it).IsCursor cmp m (.inr s) i :=
  h.embed (fun _ _ => rfl) fun _ => rfl

/-! ## Plain cursors and empty iterators -/

/-- The plain cursor as an iterator: its state is a list and a position, with a status. -/
def listIterator (cmp : Comparator) : Iterator (List (Slice × Slice) × ℕ × Status) where
  call s c := (mapCursorCall cmp s.1 s.2.1 c).map fun i => (s.1, i, s.2.2)
  valid s := decide (s.2.1 < s.1.length)
  key s := ((s.1[s.2.1]?).map Prod.fst).getD []
  value s := ((s.1[s.2.1]?).map Prod.snd).getD []
  status s := s.2.2

theorem listIterator_isCursor (cmp : Comparator) (m : List (Slice × Slice)) (i : ℕ) (st : Status) :
    (listIterator cmp).IsCursor cmp m (m, i, st) i := by
  refine Iterator.isCursor_of_rel (R := fun s i => s = (m, i, st)) ?_ ?_ rfl
  · rintro _ i rfl
    by_cases h : i < m.length
    · simp [Iterator.shows, listIterator, h]
    · simp [Iterator.shows, listIterator, h]
  · rintro _ i c rfl
    change Option.Rel _ ((mapCursorCall cmp m i c).map _) _
    cases mapCursorCall cmp m i c with
    | none => exact .none
    | some j => exact .some rfl

/-- `EmptyIterator`, by its status: what `NewEmptyIterator` and `NewErrorIterator` return. -/
def emptyIterator : Iterator Status where
  call s
    | .seek _ => some s
    | .seekToFirst => some s
    | .seekToLast => some s
    | .next => none
    | .prev => none
  valid _ := false
  key _ := []
  value _ := []
  status s := s

theorem emptyIterator_isCursor (cmp : Comparator) (st : Status) (i : ℕ) :
    emptyIterator.IsCursor cmp [] st i := by
  refine Iterator.isCursor_of_rel (R := fun s _ => s = st) ?_ ?_ rfl
  · rintro _ i rfl
    rfl
  · rintro _ i c rfl
    cases c with
    | seek target => exact .some rfl
    | seekToFirst => exact .some rfl
    | seekToLast => exact .some rfl
    | next => exact .none
    | prev => exact .none

/-- **The iterator has failed**: it reports an error, now and after any further calls. -/
def Iterator.Failed (it : Iterator σ) (s : σ) : Prop :=
  ∀ calls s', run it.call s calls = some s' → (it.status s').isOk = false

theorem Iterator.Failed.status (h : it.Failed s) : (it.status s).isOk = false := h [] s rfl

/-- A part that answers the calls alone and reports its own status has failed if it has by itself. -/
theorem Iterator.Failed.embed {outer : Iterator τ} {f : σ → τ}
    (hcall : ∀ s c, outer.call (f s) c = (it.call s c).map f)
    (hstatus : ∀ s, outer.status (f s) = it.status s) (h : it.Failed s) : outer.Failed (f s) := by
  intro calls t hrun
  rw [run_embed hcall] at hrun
  obtain ⟨s', hs', rfl⟩ := Option.map_eq_some_iff.mp hrun
  rw [hstatus]
  exact h calls s' hs'

theorem Iterator.Failed.call (h : it.Failed s) (hs : it.call s c = some s') : it.Failed s' :=
  fun calls s'' hrun => h (c :: calls) s'' (run_cons_eq_some.mpr ⟨s', hs, hrun⟩)

/-- A property that every call keeps and that shows as an error makes an iterator a failed one. -/
theorem Iterator.failed_of_step {P : σ → Prop} (hstep : ∀ s c s', P s → it.call s c = some s' → P s')
    (herror : ∀ s, P s → (it.status s).isOk = false) (h : P s) : it.Failed s :=
  fun _ _ hrun => herror _ (run_invariant hstep h hrun)

theorem emptyIterator_failed {st : Status} (h : st.isOk = false) : emptyIterator.Failed st := by
  refine Iterator.failed_of_step (P := fun s => s.isOk = false) ?_ (fun _ hs => hs) h
  rintro s (_ | _ | _ | _ | _) s' hs hcall <;> cases hcall <;> exact hs

theorem listIterator_failed {st : Status} (h : st.isOk = false) :
    (listIterator cmp).Failed (m, i, st) := by
  refine Iterator.failed_of_step (P := fun s => s.2.2.isOk = false) ?_ (fun s hs => hs) h
  intro s c s' hs hcall
  obtain ⟨j, -, rfl⟩ := Option.map_eq_some_iff.mp hcall
  exact hs

/-! ## Wrappers -/

/-- `IteratorWrapper`, with an iterator that is not null. -/
structure IteratorWrapper (σ : Type*) where
  iter : σ
  /-- The cached `Valid()`. -/
  valid : Bool
  /-- The cached `key()`; stale while the iterator is not valid. -/
  key : Slice

/-- `IteratorWrapper::Update`, with the key cached before. -/
def IteratorWrapper.update (it : Iterator σ) (s : σ) (key : Slice) : IteratorWrapper σ :=
  ⟨s, it.valid s, if it.valid s then it.key s else key⟩

/-- `IteratorWrapper::Set`. -/
def IteratorWrapper.set (it : Iterator σ) (s : σ) : IteratorWrapper σ := .update it s []

/-- The methods that move: call the iterator, then update. -/
def IteratorWrapper.call (it : Iterator σ) (w : IteratorWrapper σ) (c : IterCall) :
    Option (IteratorWrapper σ) :=
  (it.call w.iter c).map fun s => .update it s w.key

/-- `IteratorWrapper::value`. -/
def IteratorWrapper.value (it : Iterator σ) (w : IteratorWrapper σ) : Slice := it.value w.iter

/-- What the wrapper shows. -/
def IteratorWrapper.shows (it : Iterator σ) (w : IteratorWrapper σ) : Option (Slice × Slice) :=
  if w.valid then some (w.key, w.value it) else none

/-- The wrapped iterator is a cursor over `m` at `i`, and the caches are in step. -/
structure IteratorWrapper.At (it : Iterator σ) (cmp : Comparator) (m : List (Slice × Slice))
    (w : IteratorWrapper σ) (i : ℕ) : Prop where
  isCursor : it.IsCursor cmp m w.iter i
  valid_eq : w.valid = it.valid w.iter
  key_eq : w.valid = true → w.key = it.key w.iter

namespace IteratorWrapper

variable {w : IteratorWrapper σ} {key : Slice}

theorem update_at (h : it.IsCursor cmp m s i) : At it cmp m (update it s key) i where
  isCursor := h
  valid_eq := rfl
  key_eq hv := if_pos hv

theorem set_at (h : it.IsCursor cmp m s i) : At it cmp m (set it s) i := update_at h

theorem At.shows_eq (h : At it cmp m w i) : w.shows it = m[i]? := by
  rw [← h.isCursor.shows_eq, shows, Iterator.shows, h.valid_eq]
  by_cases hv : it.valid w.iter = true
  · rw [if_pos hv, if_pos hv, h.key_eq (h.valid_eq.trans hv)]
    rfl
  · rw [if_neg hv, if_neg hv]

theorem At.valid_iff (h : At it cmp m w i) : w.valid = true ↔ i < m.length := by
  rw [h.valid_eq, h.isCursor.valid_iff]

theorem At.entry (h : At it cmp m w i) (hi : i < m.length) : m[i]? = some (w.key, w.value it) := by
  rw [← h.shows_eq, shows, if_pos (h.valid_iff.mpr hi)]

theorem At.of_mapCursorCall (h : At it cmp m w i) (hj : mapCursorCall cmp m i c = some j) :
    ∃ w', w.call it c = some w' ∧ At it cmp m w' j := by
  obtain ⟨s', hs', hcur⟩ := h.isCursor.of_mapCursorCall hj
  exact ⟨_, by rw [IteratorWrapper.call, hs']; rfl, update_at hcur⟩

end IteratorWrapper

end RocketDb
