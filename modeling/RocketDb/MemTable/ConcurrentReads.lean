import RocketDb.MemTable.SkipList

/-! # Readers of a skip list while a writer inserts (`db/skiplist.h`)

`Insert` needs the mutex of the database, `FindGreaterOrEqual` does not: readers follow pointers while a node
is being linked, level by level from the lowest. All pointers are atomic; a step here is one load of a reader,
or what the writer does up to its next store that a reader can see.

* **`SharedList.step`** — the steps of the writer and of any number of readers.
* **`concurrent_search`** — in every interleaving a search ends with the first key that is not before the one
  looked for, among those whose lowest level is linked at its last load. -/

namespace RocketDb

open SkipChains Transition List

variable {Key : Type*}

/-! ## The threads -/

/-- The variables of `FindGreaterOrEqual`. -/
structure Search (Key : Type*) where
  key : Key
  place : Option ℕ
  level : ℕ

/-- The variables of `Insert` in its loop. -/
structure Insertion where
  node : ℕ
  height : ℕ
  prev : List (Option ℕ)
  level : ℕ

/-- A skip list with the calls under way. -/
structure SharedList (Key : Type*) where
  list : SkipList Key
  writer : Option Insertion
  readers : ℕ → Option (Search Key)

/-- How tall a place is for readers: of a node that is being inserted, the levels that are linked. -/
def SkipList.seenHeight (l : SkipList Key) : Option Insertion → Option ℕ → ℕ
  | none => l.height
  | some w => Function.update l.height (some w.node) w.level

inductive SkipAction (Key : Type*) where
  /-- `Insert` up to its loop. -/
  | insert (key : Key) (height : ℕ)
  /-- One round of the loop. -/
  | link
  /-- A reader calls `FindGreaterOrEqual` and loads `max_height_`. -/
  | seek (id : ℕ) (key : Key) (height : ℕ)
  /-- A reader loads a pointer. -/
  | read (id : ℕ)

variable (cmp : Key → Key → Ordering)

/-- One round of the loop of `FindGreaterOrEqual`, with a result at its end. -/
def Search.read (l : SkipList Key) (r : Search Key) : Option (Search Key ⊕ Option ℕ) :=
  match l.next r.place r.level with
  | none => none
  | some y =>
    match y.filter (l.test fun k => cmp r.key k == .gt) with
    | some a => some (.inl { r with place := some a })
    | none =>
      match r.level with
      | 0 => some (.inr y)
      | level + 1 => some (.inl { r with level })

namespace SharedList

/-- An empty list that nobody reads. -/
def new : SharedList Key := ⟨.new, none, fun _ => none⟩

/-- **One step** of the writer or of a reader. -/
def step (s : SharedList Key) : SkipAction Key → Option (SharedList Key)
  | .insert key height =>
    if s.writer.isNone ∧ 1 ≤ height ∧ height ≤ kMaxHeight ∧ ∀ n ∈ s.list.shape, cmp key n.1 ≠ .eq then
      match s.list.findGreaterOrEqual cmp key with
      | none => none
      | some (prev, _) =>
        let prev := prev ++ List.replicate (height - s.list.maxHeight) none
        let l := if s.list.maxHeight < height then { s.list with maxHeight := height } else s.list
        some { s with list := l.newNode key height, writer := some ⟨l.nodes.length, height, prev, 0⟩ }
    else none
  | .link =>
    match s.writer with
    | none => none
    | some w =>
      -- the pointer of the new node is not seen before the one to the node
      match SkipList.linkLevel w.node w.prev s.list w.level with
      | none => none
      | some l =>
        let w := if w.level + 1 < w.height then some { w with level := w.level + 1 } else none
        some { s with list := l, writer := w }
  | .seek id key height =>
    -- the load is relaxed: it can give an older value, and `max_height_` grows
    if 1 ≤ height ∧ height ≤ s.list.maxHeight then
      some { s with readers := Function.update s.readers id (some ⟨key, none, height - 1⟩) }
    else none
  | .read id =>
    match s.readers id with
    | none => none
    | some r =>
      match r.read cmp s.list with
      | none => none
      | some (.inl r) => some { s with readers := Function.update s.readers id (some r) }
      | some (.inr _) => some { s with readers := Function.update s.readers id none }

/-- **What a search has to find**: the first node that is linked on the lowest level and whose key is not
before the given one. -/
structure IsFirst (s : SharedList Key) (key : Key) (y : Option ℕ) : Prop where
  mem : ∀ j ∈ y, 0 < s.list.seenHeight s.writer (some j) ∧ s.list.test (fun k => cmp key k != .gt) j
  first : ∀ j < s.list.nodes.length, 0 < s.list.seenHeight s.writer (some j) →
    s.list.test (fun k => cmp key k != .gt) j → ∃ i ∈ y, i = j ∨ SkipList.Before cmp s.list i j

end SharedList

/-! ## What readers see -/

open SkipList

variable {cmp} {s s' : SharedList Key} {chain : List ℕ} {a : SkipAction Key}

/-- **The writer** is idle, or in the loop of an `Insert`; the nodes are in order. -/
inductive SharedList.Shows (cmp : Key → Key → Ordering) :
  SkipList Key → Option Insertion → List ℕ → Prop where
  | idle {l : SkipList Key} {chain : List ℕ} (h : Holds cmp l chain) : Shows cmp l none chain
  | inserting {l l₀ list : SkipList Key} {key : Key} {w : Insertion} {less greater : List ℕ}
      (o : Opened cmp l l₀ key w.height w.prev less greater) (hnode : w.node = l.nodes.length)
      (hlevel : w.level < w.height)
      (hlink : linkLevels w.node w.prev (l₀.newNode key w.height) w.level = some list) :
      Shows cmp list (some w) (less ++ w.node :: greater)

/-- The search can be where it is. -/
def Search.Reached (cmp : Key → Key → Ordering) (l : SkipList Key) (w : Option Insertion) (chain : List ℕ)
    (r : Search Key) : Prop :=
  SkipChains.Reached (l.seenHeight w) (l.test fun k => cmp r.key k == .gt) chain r.level r.place

/-- **The invariant.** -/
structure SharedList.Ok (cmp : Key → Key → Ordering) (s : SharedList Key) (chain : List ℕ) : Prop where
  shows : Shows cmp s.list s.writer chain
  readers : ∀ id r, s.readers id = some r → r.Reached cmp s.list s.writer chain

namespace SharedList

variable {l l' : SkipList Key} {w : Option Insertion}

/-- The pointers that readers follow are those of the nodes in order. -/
theorem Shows.linked (h : Shows cmp l w chain) :
    Linked l.next (l.seenHeight w) chain ∧ chain.Pairwise (Before cmp l) ∧
      chain.Perm (List.range l.nodes.length) ∧ l.maxHeight ≤ l.seenHeight w none := by
  cases h with
  | idle h =>
    refine ⟨h.linked, h.sorted, length_shape _ ▸ h.perm, ?_⟩
    exact h.maxHeight_range.2.trans_eq h.head_length.symm
  | @inserting l₁ l₀ _ key w less greater o hnode hlevel hlink =>
    obtain ⟨l', hlink', hsame, hlinked⟩ := o.linked hlevel.le
    rw [← hnode] at hlink' hlinked
    obtain rfl := Option.some.inj (hlink'.symm.trans hlink)
    refine ⟨hlinked, hnode ▸ o.sorted hsame.shape, ?_, ?_⟩
    · rw [← length_shape, hsame.shape, o.shape, length_append, length_shape, length_singleton, hnode]
      exact o.perm
    · have hnone : l'.seenHeight (some w) none = kMaxHeight := by
        rw [seenHeight, Function.update_of_ne (Option.some_ne_none _).symm, hsame.height,
          (o.next_height (Option.some_ne_none _).symm).2]
        exact o.holds.head_length
      rw [hnone, hsame.maxHeight]
      exact o.maxHeight.trans_le (Nat.max_le.mpr ⟨o.holds.maxHeight_range.2, o.range.2⟩)

theorem Shows.advance [Std.TransCmp cmp] (h : Shows cmp l w chain) (key : Key) :
    chain.Pairwise fun i j => l.test (fun k => cmp key k == .gt) j = true →
      l.test (fun k => cmp key k == .gt) i = true :=
  h.linked.2.1.imp fun hij hj => test_of_before (passed_of_lt key) hij hj

/-- **`Insert` up to its loop** makes a node that no reader can see. -/
theorem Shows.insert [Std.TransCmp cmp] {l₀ : SkipList Key} {key : Key} {ht : ℕ} {prev : List (Option ℕ)}
    {less greater : List ℕ} (o : Opened cmp l l₀ key ht prev less greater) :
    let w := some ⟨l.nodes.length, ht, prev, 0⟩
    Shows cmp (l₀.newNode key ht) w (less ++ l.nodes.length :: greater) ∧
      ∀ r, Search.Reached cmp l none (less ++ greater) r →
        r.Reached cmp (l₀.newNode key ht) w (less ++ l.nodes.length :: greater) := by
  intro w
  have hshows : Shows cmp (l₀.newNode key ht) w (less ++ l.nodes.length :: greater) :=
    .inserting o rfl o.range.1 rfl
  refine ⟨hshows, fun r hr => (hr.mono (fun j hj => ?_) ?_ fun j hj => ?_).insert (hshows.advance r.key)⟩
  · rw [test_eq, test_eq, o.shape, getElem?_append_left (o.holds.mem_chain_iff.mp hj)]
  · exact (o.next_height (Option.some_ne_none _).symm).2.ge
  · have hj' : some j ≠ some l.nodes.length := fun heq => o.notMem (Option.some.inj heq ▸ hj)
    rw [seenHeight, seenHeight, Function.update_of_ne hj', (o.next_height hj').2]

/-- **A round of the loop** makes the new node taller for readers. -/
theorem Shows.link {w : Insertion} (h : Shows cmp l (some w) chain)
    (hround : linkLevel w.node w.prev l w.level = some l') :
    let w' := if w.level + 1 < w.height then some { w with level := w.level + 1 } else none
    Shows cmp l' w' chain ∧ ∀ r, Search.Reached cmp l (some w) chain r → r.Reached cmp l' w' chain := by
  intro w'
  cases h with
  | @inserting l₁ l₀ _ key _ less greater o hnode hlevel hlink =>
    have hlink' : linkLevels w.node w.prev (l₀.newNode key w.height) (w.level + 1) = some l' := by
      rw [linkLevels, hlink]
      exact hround
    have hsame {m : ℕ} {l : SkipList Key} (hm : m ≤ w.height)
        (hl : linkLevels w.node w.prev (l₀.newNode key w.height) m = some l) :
        SameShape (l₀.newNode key w.height) l := by
      obtain ⟨l'', hl', hsame, -⟩ := o.linked hm
      grind
    have hshape := hsame hlevel.le hlink
    have hshape' := hsame hlevel hlink'
    have hheight : l'.height = l.height := hshape'.height.trans hshape.height.symm
    have hkeep {w' : Option Insertion} (hgrows : l.seenHeight (some w) ≤ l'.seenHeight w') (r : Search Key)
        (hr : r.Reached cmp l (some w) (less ++ w.node :: greater)) :
        r.Reached cmp l' w' (less ++ w.node :: greater) :=
      hr.mono (fun j _ => by rw [test_eq, test_eq, hshape.shape, hshape'.shape]) (hgrows none)
        fun j _ => hgrows (some j)
    by_cases hmore : w.level + 1 < w.height
    · rw [show w' = some { w with level := w.level + 1 } from if_pos hmore]
      refine ⟨.inserting o hnode hmore hlink', hkeep ?_⟩
      rw [seenHeight, seenHeight, hheight, update_le_update_iff]
      exact ⟨Nat.le_succ _, fun _ _ => le_rfl⟩
    · obtain ⟨l'', hl', hholds, -⟩ := o.holds_linkLevels
      have hlast : w.level + 1 = w.height := by omega
      rw [hlast] at hlink'
      rw [← hnode, hlink', Option.some_inj] at hl'
      rw [show w' = none from if_neg hmore]
      refine ⟨.idle (by rwa [hl', hnode]), hkeep ?_⟩
      rw [seenHeight, seenHeight, hheight, update_le_self_iff, hshape.height, hnode, ← o.nodes,
        height_newNode_self]
      exact hlevel.le

theorem Ok.new : (new : SharedList Key).Ok cmp [] := ⟨.idle holds_new, fun _ _ h => by cases h⟩

/-- **One load of a reader** keeps it where it can be; at its end the reader has what it looks for. -/
theorem Ok.read [Std.TransCmp cmp] (h : s.Ok cmp chain) {id : ℕ} {r : Search Key}
    (hr : s.readers id = some r) :
    ∃ out, r.read cmp s.list = some out ∧ (∀ r', out = .inl r' → r'.Reached cmp s.list s.writer chain) ∧
      ∀ y, out = .inr y → y = chain.find? fun j =>
        tall (s.list.seenHeight s.writer) 0 j && !s.list.test (fun k => cmp r.key k == .gt) j := by
  obtain ⟨y, hnext, hadvance, hend⟩ := (h.readers id r hr).read h.shows.linked.1 (h.shows.advance r.key)
  rw [Search.read, hnext]
  simp only
  cases hstop : y.filter (s.list.test fun k => cmp r.key k == .gt) with
  | some a => exact ⟨_, rfl, by rintro _ ⟨⟩; exact hadvance a hstop, by rintro _ ⟨⟩⟩
  | none =>
    cases hlevel : r.level with
    | zero => exact ⟨_, rfl, by rintro _ ⟨⟩, by rintro _ ⟨⟩; exact hend hstop hlevel⟩
    | succ level =>
      refine ⟨_, rfl, ?_, by rintro _ ⟨⟩⟩
      rintro _ ⟨⟩
      obtain ⟨d, rest, hchain, hplace, hlt, hd⟩ := h.readers id r hr
      rw [hlevel] at hlt
      exact ⟨d, rest, hchain, hplace, Nat.lt_of_succ_lt hlt, hd⟩

/-- A reader starts, moves on or ends. -/
theorem Ok.setReader (h : s.Ok cmp chain) (id : ℕ) {r : Option (Search Key)}
    (hr : ∀ r' ∈ r, Search.Reached cmp s.list s.writer chain r') :
    ({ s with readers := Function.update s.readers id r } : SharedList Key).Ok cmp chain := by
  grind [Ok]

/-- **Every step** keeps the invariant. -/
theorem Ok.step [Std.TransCmp cmp] (h : ∃ chain, s.Ok cmp chain) (hstep : s.step cmp a = some s') :
    ∃ chain, s'.Ok cmp chain := by
  obtain ⟨chain, h⟩ := h
  cases a with
  | insert key height =>
    simp only [SharedList.step] at hstep
    split at hstep
    case isFalse => cases hstep
    case isTrue hguard =>
      obtain ⟨hidle, hpos, hle, hkey⟩ := hguard
      have hshows := h.shows
      have hreaders := h.readers
      rw [Option.isNone_iff_eq_none.mp hidle] at hshows hreaders
      cases hshows with
      | idle hholds =>
        obtain ⟨prev, y, less, greater, rfl, hfind, o⟩ := hholds.opened hkey hpos hle
        rw [hfind] at hstep
        simp only [Option.some.injEq] at hstep
        subst hstep
        rw [o.nodes]
        obtain ⟨hshows, hkeep⟩ := Shows.insert o
        exact ⟨_, hshows, fun id r hr => hkeep r (hreaders id r hr)⟩
  | link =>
    simp only [SharedList.step] at hstep
    split at hstep
    case h_1 => cases hstep
    case h_2 w hw =>
      split at hstep
      case h_1 => cases hstep
      case h_2 l' hround =>
        have hreaders := h.readers
        rw [hw] at hreaders
        obtain ⟨hshows, hkeep⟩ := Shows.link (hw ▸ h.shows) hround
        obtain rfl := Option.some.inj hstep
        exact ⟨chain, hshows, fun id r hr => hkeep r (hreaders id r hr)⟩
  | seek id key height =>
    simp only [SharedList.step] at hstep
    split at hstep
    case isFalse => cases hstep
    case isTrue hguard =>
      obtain rfl := Option.some.inj hstep
      refine ⟨chain, h.setReader id ?_⟩
      rintro _ ⟨⟩
      have hlevel : height - 1 < s.list.seenHeight s.writer none := by
        have := h.shows.linked.2.2.2
        omega
      exact ⟨[], chain, rfl, rfl, hlevel, by simp⟩
  | read id =>
    simp only [SharedList.step] at hstep
    split at hstep
    case h_1 => cases hstep
    case h_2 r hr =>
      obtain ⟨out, hout, hnext, -⟩ := h.read hr
      rw [hout] at hstep
      cases out with
      | inl r' =>
        obtain rfl := Option.some.inj hstep
        exact ⟨chain, h.setReader id (by rintro _ ⟨⟩; exact hnext r' rfl)⟩
      | inr y =>
        obtain rfl := Option.some.inj hstep
        exact ⟨chain, h.setReader id (by rintro _ ⟨⟩)⟩

/-- What the search ends with is what it has to find. -/
theorem Ok.isFirst (h : s.Ok cmp chain) (key : Key) :
    s.IsFirst cmp key (chain.find? fun j =>
      tall (s.list.seenHeight s.writer) 0 j && !s.list.test (fun k => cmp key k == .gt) j) := by
  obtain ⟨-, hsorted, hperm, -⟩ := h.shows.linked
  have hmem (j : ℕ) : j ∈ chain ↔ j < s.list.nodes.length := by rw [hperm.mem_iff, mem_range]
  have htest (j : ℕ) (hj : j < s.list.nodes.length) :
      s.list.test (fun k => cmp key k != .gt) j = !s.list.test (fun k => cmp key k == .gt) j := by
    rw [test, test, getElem?_eq_getElem hj]
    rfl
  refine ⟨fun j hj => ?_, fun j hj hseen hkey => ?_⟩
  · have hfound := find?_some hj
    rw [Bool.and_eq_true, tall, decide_eq_true_eq] at hfound
    exact ⟨hfound.1, (htest j ((hmem j).mp (mem_of_find?_eq_some hj))).trans hfound.2⟩
  · rw [htest j hj] at hkey
    have hj' : (tall (s.list.seenHeight s.writer) 0 j && !s.list.test (fun k => cmp key k == .gt) j) =
        true := by
      grind [tall]
    cases hfirst : chain.find? fun j =>
        tall (s.list.seenHeight s.writer) 0 j && !s.list.test (fun k => cmp key k == .gt) j with
    | none => exact absurd hj' (find?_eq_none.mp hfirst j ((hmem j).mpr hj))
    | some i =>
      obtain ⟨-, before, after, rfl, hbefore⟩ := find?_eq_some_iff_append.mp hfirst
      refine ⟨i, rfl, ?_⟩
      rcases mem_append.mp ((hmem j).mpr hj) with hmem | hmem
      · exact absurd (hbefore j hmem) (by rw [hj']; decide)
      · exact (mem_cons.mp hmem).imp Eq.symm ((pairwise_cons.mp (pairwise_append.mp hsorted).2.1).1 j)

end SharedList

/-- **Searches and insertions at the same time.** In every state that any interleaving of the loads of readers
with the rounds of `Insert` leads to, the next load of a search meets a pointer that exists. If it is the last
one, the result is the first node that is linked at that moment and whose key is not before the key of the
search; and left alone from here on, the search ends with that node. -/
theorem concurrent_search (cmp : Key → Key → Ordering) [Std.TransCmp cmp] (as : List (SkipAction Key))
    (s : SharedList Key) (hrun : run (SharedList.step cmp) .new as = some s) (id : ℕ) (r : Search Key)
    (hr : s.readers id = some r) :
    ∃ y, s.IsFirst cmp r.key y ∧
      (∃ out, r.read cmp s.list = some out ∧ ∀ z, out = .inr z → z = y) ∧
      (descend s.list.next (s.list.test fun k => cmp r.key k == .gt) (s.list.nodes.length + r.level + 1)
        r.place r.level []).map Prod.snd = some y := by
  obtain ⟨chain, h⟩ : ∃ chain, s.Ok cmp chain :=
    run_invariant (fun _ _ _ => SharedList.Ok.step) ⟨[], SharedList.Ok.new⟩ hrun
  refine ⟨_, h.isFirst r.key, ?_, ?_⟩
  · obtain ⟨out, hout, -, hend⟩ := h.read hr
    exact ⟨out, hout, hend⟩
  · obtain ⟨hlinked, -, hperm, -⟩ := h.shows.linked
    have hlen : chain.length = s.list.nodes.length := by rw [hperm.length_eq, length_range]
    exact (h.readers id r hr).descend hlinked (h.shows.advance r.key) (by omega) []

/-- A search begins while the node of key 3 is linked on its lowest level only. -/
theorem concurrent_search_half_linked :
    let as : List (SkipAction ℕ) := [.insert 5 2, .link, .link, .insert 3 2, .link, .seek 0 2 2, .read 0]
    ∃ s, run (SharedList.step compare) .new as = some s ∧ ∃ r, s.readers 0 = some r ∧ r.level = 0 ∧
      s.writer.isSome ∧ s.IsFirst compare 2 (some 1) := by
  intro as
  obtain ⟨s, hrun, hwriter, hr, hdescend⟩ : ∃ s, run (SharedList.step compare) .new as = some s ∧
      s.writer.isSome ∧ s.readers 0 = some ⟨2, none, 0⟩ ∧
      (descend s.list.next (s.list.test fun k => compare 2 k == .gt) (s.list.nodes.length + 0 + 1)
        none 0 []).map Prod.snd = some (some 1) := ⟨_, rfl, rfl, rfl, rfl⟩
  obtain ⟨y, hfirst, -, hy⟩ := concurrent_search compare as s hrun 0 _ hr
  obtain rfl := Option.some.inj (hdescend.symm.trans hy)
  exact ⟨s, hrun, _, hr, rfl, hwriter, hfirst⟩

end RocketDb
