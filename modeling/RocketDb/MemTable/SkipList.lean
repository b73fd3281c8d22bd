import RocketDb.Lib.SkipChains
import RocketDb.Lib.Transition
import RocketDb.Util.Random
import Mathlib.Data.List.Induction

/-! # Skip lists (`db/skiplist.h`)

Nodes are numbered in the order in which they are made. A place of the list is `none` for `head_` or a node; a
pointer is `none` for `nullptr` or a node. Reading or writing a pointer that a node does not have is `none`.

* **`SkipList.Holds`** — the invariant: the nodes in order, and the pointers between them.
* **`Opened`** — what `Insert` knows in its loop; `Opened.linked` says what its rounds do.
* **`skipList_run`** — what holds after every sequence of insertions. -/

namespace RocketDb

open SkipChains List

/-- `SkipList::kMaxHeight`. -/
def kMaxHeight : ℕ := 12

/-- `SkipList::Node`. -/
structure SkipNode (Key : Type*) where
  key : Key
  next : List (Option ℕ)

/-- `SkipList`. -/
structure SkipList (Key : Type*) where
  /-- The pointers of `head_`. -/
  head : List (Option ℕ)
  nodes : List (SkipNode Key)
  maxHeight : ℕ

namespace SkipList

variable {Key : Type*}

/-! ## The source -/

/-- `SkipList::SkipList`. -/
def new : SkipList Key := ⟨List.replicate kMaxHeight none, [], 1⟩

/-- `Node::Next`. -/
def next (l : SkipList Key) (x : Option ℕ) (level : ℕ) : Option (Option ℕ) :=
  match x with
  | none => l.head[level]?
  | some j => l.nodes[j]?.bind fun node => node.next[level]?

/-- `Node::SetNext`. -/
def setNext (l : SkipList Key) (x : Option ℕ) (level : ℕ) (ptr : Option ℕ) : Option (SkipList Key) :=
  match l.next x level with
  | none => none
  | some _ =>
    match x with
    | none => some { l with head := l.head.set level ptr }
    | some j => some { l with nodes := l.nodes.modify j fun node =>
        { node with next := node.next.set level ptr } }

/-- A test of the key of a node. -/
def test (l : SkipList Key) (p : Key → Bool) (j : ℕ) : Bool := l.nodes[j]?.any fun node => p node.key

/-- The loop that `FindGreaterOrEqual`, `FindLessThan` and `FindLast` share: from `head_` on the highest
level, to the next node as long as its key passes the test, else down. The places at which it goes down are
`prev`; the one of level 0 is where it ends. -/
def find (l : SkipList Key) (p : Key → Bool) : Option (List (Option ℕ) × Option ℕ) :=
  descend l.next (l.test p) (l.nodes.length + l.maxHeight + 1) none (l.maxHeight - 1) []

variable (cmp : Key → Key → Ordering)

/-- `FindGreaterOrEqual`: `prev` and the node. -/
def findGreaterOrEqual (l : SkipList Key) (key : Key) : Option (List (Option ℕ) × Option ℕ) :=
  l.find fun k => cmp key k == .gt

/-- `FindLessThan`. -/
def findLessThan (l : SkipList Key) (key : Key) : Option (Option ℕ) :=
  (l.find fun k => cmp k key == .lt).bind fun (prev, _) => prev.head?

/-- `FindLast`. -/
def findLast (l : SkipList Key) : Option (Option ℕ) :=
  (l.find fun _ => true).bind fun (prev, _) => prev.head?

/-- One round of the loop of `Insert`. -/
def linkLevel (x : ℕ) (prev : List (Option ℕ)) (l : SkipList Key) (i : ℕ) : Option (SkipList Key) :=
  match prev[i]? with
  | none => none
  | some p =>
    match l.next p i with
    | none => none
    | some next =>
      match l.setNext (some x) i next with
      | none => none
      | some l => l.setNext p i (some x)

/-- The loop of `Insert`. -/
def linkLevels (x : ℕ) (prev : List (Option ℕ)) (l : SkipList Key) : ℕ → Option (SkipList Key)
  | 0 => some l
  | i + 1 =>
    match linkLevels x prev l i with
    | none => none
    | some l => linkLevel x prev l i

/-- `NewNode`: the number of the node is that of the nodes before. Its pointers are not set yet. -/
def newNode (l : SkipList Key) (key : Key) (height : ℕ) : SkipList Key :=
  { l with nodes := l.nodes ++ [⟨key, List.replicate height none⟩] }

/-- `Insert`, for the height that `RandomHeight` gives. -/
def insert (l : SkipList Key) (key : Key) (height : ℕ) : Option (SkipList Key) :=
  match l.findGreaterOrEqual cmp key with
  | none => none
  | some (prev, _) =>
    -- levels that have not been used start at `head_`
    let prev := prev ++ List.replicate (height - l.maxHeight) none
    let l := if l.maxHeight < height then { l with maxHeight := height } else l
    linkLevels l.nodes.length prev (l.newNode key height) height

/-- `Contains`. -/
def contains (l : SkipList Key) (key : Key) : Option Bool :=
  match l.findGreaterOrEqual cmp key with
  | none => none
  | some (_, x) => some (x.any (l.test fun k => cmp key k == .eq))

/-- The loop of `RandomHeight`: one level more in one of four cases. -/
def randomHeightLoop : ℕ → Random → ℕ → ℕ × Random
  | 0, rnd, height => (height, rnd)
  | fuel + 1, rnd, height =>
    if height < kMaxHeight then
      let (more, rnd) := rnd.oneIn 4
      if more then randomHeightLoop fuel rnd (height + 1) else (height, rnd)
    else (height, rnd)

/-- `RandomHeight`. -/
def randomHeight (rnd : Random) : ℕ × Random := randomHeightLoop kMaxHeight rnd 1

/-- The heights that `Insert` draws are such as its loop needs. -/
theorem randomHeight_range (rnd : Random) : 1 ≤ (randomHeight rnd).1 ∧ (randomHeight rnd).1 ≤ kMaxHeight := by
  have hloop (fuel : ℕ) : ∀ (rnd : Random) (height : ℕ), 1 ≤ height → height ≤ kMaxHeight →
      1 ≤ (randomHeightLoop fuel rnd height).1 ∧ (randomHeightLoop fuel rnd height).1 ≤ kMaxHeight := by
    induction fuel with
    | zero => exact fun _ _ hpos hle => ⟨hpos, hle⟩
    | succ fuel ih =>
      grind [randomHeightLoop]
  exact hloop kMaxHeight rnd 1 (Nat.le_refl 1) (by decide)

/-! ## Reading and writing pointers -/

/-- The number of levels of a place. -/
def height (l : SkipList Key) : Option ℕ → ℕ
  | none => l.head.length
  | some j => (l.nodes[j]?.map fun node => node.next.length).getD 0

/-- The keys and heights of the nodes. -/
def shape (l : SkipList Key) : List (Key × ℕ) := l.nodes.map fun node => (node.key, node.next.length)

/-- Two lists differ in pointers only. -/
structure SameShape (l l' : SkipList Key) : Prop where
  shape : l'.shape = l.shape
  head : l'.head.length = l.head.length
  maxHeight : l'.maxHeight = l.maxHeight

variable {l l' l'' : SkipList Key} {x y ptr : Option ℕ} {level i j : ℕ}

theorem height_some (l : SkipList Key) (j : ℕ) : l.height (some j) = (l.shape[j]?.map Prod.snd).getD 0 := by
  rw [height, shape, getElem?_map, Option.map_map]
  rfl

theorem test_eq (l : SkipList Key) (p : Key → Bool) (j : ℕ) :
    l.test p j = l.shape[j]?.any fun n => p n.1 := by
  rw [test, shape, getElem?_map, Option.any_map]

theorem length_shape (l : SkipList Key) : l.shape.length = l.nodes.length := length_map _

namespace SameShape

theorem refl (l : SkipList Key) : SameShape l l := ⟨rfl, rfl, rfl⟩

theorem trans (h : SameShape l l') (h' : SameShape l' l'') : SameShape l l'' :=
  ⟨h'.shape.trans h.shape, h'.head.trans h.head, h'.maxHeight.trans h.maxHeight⟩

theorem height (h : SameShape l l') : l'.height = l.height := by
  funext x
  cases x with
  | none => exact h.head
  | some j => rw [height_some, height_some, h.shape]

end SameShape

/-- Every place has a pointer on each level below its height. -/
theorem next_isSome (h : level < l.height x) : ∃ ptr, l.next x level = some ptr := by
  cases x with
  | none => exact ⟨_, getElem?_eq_getElem h⟩
  | some j =>
    rw [height] at h
    cases hj : l.nodes[j]? with
    | none =>
      rw [hj] at h
      exact absurd h (Nat.not_lt_zero _)
    | some node =>
      rw [hj] at h
      exact ⟨_, by rw [next, hj, Option.bind_some, getElem?_eq_getElem h]⟩

theorem getElem?_set_level {ptrs : List (Option ℕ)} (h : level < ptrs.length) (ptr : Option ℕ) (i : ℕ) :
    (ptrs.set level ptr)[i]? = if i = level then some ptr else ptrs[i]? := by
  grind

/-- `SetNext` changes one pointer. -/
theorem setNext_spec (h : level < l.height x) (ptr : Option ℕ) :
    ∃ l', l.setNext x level ptr = some l' ∧ SameShape l l' ∧
      ∀ y i, l'.next y i = if y = x ∧ i = level then some ptr else l.next y i := by
  obtain ⟨old, hold⟩ := next_isSome h
  cases x with
  | none =>
    refine ⟨{ l with head := l.head.set level ptr }, by rw [setNext, hold],
      ⟨rfl, length_set, rfl⟩, fun y i => ?_⟩
    cases y with
    | none =>
      rw [next, getElem?_set_level h]
      simp [next]
    | some j =>
      rw [if_neg fun hy => Option.some_ne_none j hy.1]
      rfl
  | some j =>
    refine ⟨{ l with nodes := l.nodes.modify j fun node => { node with next := node.next.set level ptr } },
      by rw [setNext, hold], ⟨?_, rfl, rfl⟩, fun y i => ?_⟩
    · apply ext_getElem?
      grind [shape]
    · cases y with
      | none =>
        rw [if_neg fun hy => Option.some_ne_none j hy.1.symm]
        rfl
      | some k =>
        rw [next, getElem?_modify]
        by_cases hk : j = k
        · subst hk
          rw [height] at h
          cases hnode : l.nodes[j]? with
          | none =>
            grind
          | some node =>
            rw [hnode] at h
            have hset := getElem?_set_level h ptr i
            simp [next, hnode, hset]
        · have hne : ¬(some k = some j ∧ i = level) := fun hy => hk (Option.some.inj hy.1).symm
          rw [if_neg hne]
          simp [next, hk]

/-! ## Linking a node -/

section NewNode

variable {key : Key} {h : ℕ}

theorem getElem?_concat_of_ne {α : Type*} {xs : List α} {a : α} (hj : j ≠ xs.length) :
    (xs ++ [a])[j]? = xs[j]? := by
  grind

/-- A new node comes after the others. -/
theorem shape_newNode : (l.newNode key h).shape = l.shape ++ [(key, h)] := by
  grind [newNode, shape]

theorem height_newNode_self : (l.newNode key h).height (some l.nodes.length) = h := by
  rw [height_some, shape_newNode, ← length_shape, getElem?_concat_length]
  rfl

theorem height_newNode (hx : x ≠ some l.nodes.length) : (l.newNode key h).height x = l.height x := by
  cases x with
  | none => rfl
  | some j =>
    grind [length_shape, height_some, shape_newNode]

theorem next_newNode (hx : x ≠ some l.nodes.length) : (l.newNode key h).next x i = l.next x i := by
  cases x with
  | none => rfl
  | some j =>
    have hj : j ≠ l.nodes.length := fun heq => hx (by rw [heq])
    rw [next, next, newNode, getElem?_concat_of_ne hj]

end NewNode

/-- **The loop of `Insert`** puts the node behind the places of `prev`. -/
theorem linkLevels_spec {prev : List (Option ℕ)} {x m : ℕ} (hx : m ≤ l.height (some x))
    (hprev : ∀ i < m, ∃ p, prev[i]? = some p ∧ p ≠ some x ∧ i < l.height p) :
    ∃ l', linkLevels x prev l m = some l' ∧ SameShape l l' ∧
      ∀ y i, l'.next y i =
        if i < m then
          if y = some x then prev[i]?.bind (l.next · i)
          else if prev[i]? = some y then some (some x) else l.next y i
        else l.next y i := by
  induction m with
  | zero => exact ⟨l, rfl, .refl l, fun y i => by rw [if_neg (Nat.not_lt_zero i)]⟩
  | succ m ih =>
    obtain ⟨l₁, hlink, hshape₁, hnext₁⟩ := ih (by omega) fun i hi => hprev i (by omega)
    obtain ⟨p, hp, hpx, hpm⟩ := hprev m (Nat.lt_succ_self m)
    obtain ⟨old, hold⟩ := next_isSome hpm
    have hold₁ : l₁.next p m = some old := by rw [hnext₁, if_neg (Nat.lt_irrefl m), hold]
    have hx₁ : m < l₁.height (some x) := by
      rw [hshape₁.height]
      omega
    obtain ⟨l₂, hset₂, hshape₂, hnext₂⟩ := setNext_spec hx₁ old
    have hp₂ : m < l₂.height p := by rwa [(hshape₁.trans hshape₂).height]
    obtain ⟨l₃, hset₃, hshape₃, hnext₃⟩ := setNext_spec hp₂ (some x)
    refine ⟨l₃, ?_, (hshape₁.trans hshape₂).trans hshape₃, fun y i => ?_⟩
    · grind [linkLevels, linkLevel]
    · rw [hnext₃, hnext₂, hnext₁]
      by_cases hi : i = m
      · grind
      · grind

/-! ## The invariant -/

section Invariant

/-- The key of the first node is less than that of the second. -/
def Before (cmp : Key → Key → Ordering) (l : SkipList Key) (i j : ℕ) : Prop :=
  ∃ m ∈ l.shape[i]?, ∃ n ∈ l.shape[j]?, cmp m.1 n.1 = .lt

/-- **The nodes in order**, and the pointers between them. -/
structure Holds (cmp : Key → Key → Ordering) (l : SkipList Key) (chain : List ℕ) : Prop where
  linked : Linked l.next l.height chain
  perm : chain.Perm (List.range l.shape.length)
  sorted : chain.Pairwise (Before cmp l)
  head_length : l.head.length = kMaxHeight
  height_range : ∀ n ∈ l.shape, 1 ≤ n.2 ∧ n.2 ≤ l.maxHeight
  maxHeight_range : 1 ≤ l.maxHeight ∧ l.maxHeight ≤ kMaxHeight

variable {cmp : Key → Key → Ordering} {chain : List ℕ}

/-- A test that smaller keys pass is passed by the nodes before one that passes it. -/
theorem test_of_before {p : Key → Bool} (hp : ∀ a b, cmp a b = .lt → p b = true → p a = true)
    (hij : Before cmp l i j) (hj : l.test p j = true) : l.test p i = true := by
  obtain ⟨m, hm, n, hn, hlt⟩ := hij
  grind [test_eq]

theorem passed_of_lt [Std.TransCmp cmp] (key a b : Key) (hab : cmp a b = .lt)
    (hb : (cmp key b == .gt) = true) :
    (cmp key a == .gt) = true := by
  rw [beq_iff_eq, Std.OrientedCmp.gt_iff_lt] at hb ⊢
  exact Std.TransCmp.lt_trans hab hb

/-- An empty list. -/
theorem holds_new : Holds cmp (new : SkipList Key) [] where
  linked := by
    intro d rest hsplit i hi
    obtain ⟨rfl, rfl⟩ := append_eq_nil_iff.mp hsplit.symm
    have hlt : i < kMaxHeight := by simpa [height, new] using hi
    simp [next, new, hlt]
  perm := .refl _
  sorted := .nil
  head_length := length_replicate
  height_range n hn := absurd hn not_mem_nil
  maxHeight_range := ⟨Nat.le_refl 1, (by decide : 1 ≤ kMaxHeight)⟩

namespace Holds

variable (h : Holds cmp l chain)

include h

theorem mem_chain_iff : j ∈ chain ↔ j < l.shape.length := by rw [h.perm.mem_iff, mem_range]

theorem nodup : chain.Nodup := h.perm.nodup_iff.mpr nodup_range

theorem length_chain : chain.length = l.nodes.length := by
  rw [h.perm.length_eq, length_range, length_shape]

/-- Every node of the chain is there. -/
theorem exists_node (hj : j ∈ chain) : ∃ n ∈ l.shape, l.shape[j]? = some n ∧ l.height (some j) = n.2 := by
  have hlt := h.mem_chain_iff.mp hj
  refine ⟨l.shape[j], getElem_mem hlt, getElem?_eq_getElem hlt, ?_⟩
  rw [height_some, getElem?_eq_getElem hlt]
  rfl

theorem height_pos (hj : j ∈ chain) : 0 < l.height (some j) := by
  obtain ⟨n, hn, -, hheight⟩ := h.exists_node hj
  rw [hheight]
  exact (h.height_range n hn).1

theorem height_getLast?_pos {d rest : List ℕ} (hchain : chain = d ++ rest) : 0 < l.height d.getLast? := by
  cases hlast : d.getLast? with
  | none =>
    rw [height, h.head_length]
    decide
  | some j => exact h.height_pos (hchain ▸ mem_append_left rest (mem_of_getLast? hlast))

/-- **The search** for the end of the nodes whose keys pass a test. -/
theorem find_spec {p : Key → Bool} (hp : ∀ a b, cmp a b = .lt → p b = true → p a = true) :
    ∃ places, l.find p = some (places, chain.find? fun j => !l.test p j) ∧ places.length = l.maxHeight ∧
      places.head? = some (chain.takeWhile (l.test p)).getLast? ∧
      ∀ i x, places[i]? = some x → LastTall l.height (chain.takeWhile (l.test p)) i x := by
  obtain ⟨hpos, hle⟩ := h.maxHeight_range
  have hlevel : l.maxHeight - 1 < l.height ([] : List ℕ).getLast? := by
    rw [getLast?_nil, height, h.head_length]
    omega
  have hfuel : chain.length + (l.maxHeight - 1) < l.nodes.length + l.maxHeight + 1 := by
    rw [h.length_chain]
    omega
  obtain ⟨places, hfind, hlen, hplaces⟩ := descend_spec h.linked
    (h.sorted.imp fun hij hj => test_of_before hp hij hj) (nil_append chain).symm
    (fun a ha => absurd ha not_mem_nil) hlevel hfuel []
  -- all nodes are on the lowest level
  have hfirst : chain.find? (fun j => tall l.height 0 j && !l.test p j) = chain.find? fun j => !l.test p j :=
    find?_congr fun j hj => by rw [tall, decide_eq_true (h.height_pos hj), Bool.true_and]
  rw [append_nil, hfirst] at hfind
  refine ⟨places, hfind, by omega, ?_, hplaces⟩
  have hlt : 0 < places.length := by omega
  have hpos' := h.height_getLast?_pos (takeWhile_append_dropWhile (p := l.test p) (l := chain)).symm
  rw [head?_eq_getElem?, getElem?_eq_getElem hlt]
  exact congrArg some ((hplaces 0 _ (getElem?_eq_getElem hlt)).unique
    ⟨_, [], (append_nil _).symm, rfl, hpos', fun a ha => absurd ha not_mem_nil⟩)

/-- Behind the nodes that pass a test none passes it. -/
theorem test_of_mem_dropWhile {p : Key → Bool} (hp : ∀ a b, cmp a b = .lt → p b = true → p a = true)
    (hj : j ∈ chain.dropWhile (l.test p)) : l.test p j = false := by
  have hsorted := h.sorted.sublist (dropWhile_sublist (l.test p))
  have hhead : ∀ i ∈ (chain.dropWhile (l.test p)).head?, l.test p i = false := fun i hi => by
    have hnot := head?_dropWhile_not (l.test p) chain
    rwa [Option.mem_def.mp hi] at hnot
  generalize chain.dropWhile (l.test p) = greater at hj hsorted hhead
  cases greater with
  | nil => exact absurd hj not_mem_nil
  | cons i greater =>
    rcases mem_cons.mp hj with rfl | hj
    · exact hhead _ rfl
    · by_contra htest
      have := test_of_before hp ((pairwise_cons.mp hsorted).1 j hj) (Bool.of_not_eq_false htest)
      rw [hhead i rfl] at this
      cases this

variable {less : List ℕ} {prev : List (Option ℕ)} {ht : ℕ}

/-- The places that point to a new node: on the levels that have not been used, it is `head_`. -/
theorem lastTall_prev (hless : less ⊆ chain) (hlen : prev.length = l.maxHeight)
    (hprev : ∀ i x, prev[i]? = some x → LastTall l.height less i x) (hht : ht ≤ kMaxHeight) (hi : i < ht) :
    ∃ p, (prev ++ List.replicate (ht - l.maxHeight) none)[i]? = some p ∧ LastTall l.height less i p := by
  by_cases hlow : i < l.maxHeight
  · have hlt : i < prev.length := hlen ▸ hlow
    refine ⟨prev[i], ?_, hprev i _ (getElem?_eq_getElem hlt)⟩
    rw [getElem?_append_left hlt, getElem?_eq_getElem hlt]
  · refine ⟨none, ?_, [], less, rfl, rfl, ?_, fun j hj => ?_⟩
    · grind
    · rw [height, h.head_length]
      omega
    · obtain ⟨n, hn, -, hheight⟩ := h.exists_node (hless hj)
      grind [Holds, tall]

theorem ne_of_lastTall (hless : less ⊆ chain) (hp : LastTall l.height less i x) :
    x ≠ some l.nodes.length := by
  rintro rfl
  obtain ⟨d, more, rfl, hlast, -⟩ := hp
  have hmem := hless (mem_append_left more (mem_of_getLast? hlast.symm))
  grind [Holds, length_shape]

end Holds

/-- The chain stays in order with the new node between smaller and greater keys. -/
theorem sorted_insert {key : Key} {ht : ℕ} {less greater : List ℕ}
    (hshape : l'.shape = l.shape ++ [(key, ht)])
    (hsorted : (less ++ greater).Pairwise (Before cmp l))
    (hless : ∀ j ∈ less, ∃ n ∈ l.shape[j]?, cmp n.1 key = .lt)
    (hgreater : ∀ j ∈ greater, ∃ n ∈ l.shape[j]?, cmp key n.1 = .lt) :
    (less ++ l.shape.length :: greater).Pairwise (Before cmp l') := by
  have hold {i : ℕ} {n : Key × ℕ} (hn : n ∈ l.shape[i]?) : n ∈ l'.shape[i]? := by
    grind
  have hnew : (key, ht) ∈ l'.shape[l.shape.length]? := by
    rw [hshape, Option.mem_def, getElem?_concat_length]
  have hsorted' : (less ++ greater).Pairwise (Before cmp l') := hsorted.imp fun ⟨m, hm, n, hn, hlt⟩ =>
    ⟨m, hold hm, n, hold hn, hlt⟩
  obtain ⟨hl, hg, hlg⟩ := pairwise_append.mp hsorted'
  refine pairwise_append.mpr ⟨hl, pairwise_cons.mpr ⟨fun j hj => ?_, hg⟩, fun i hi j hj => ?_⟩
  · obtain ⟨n, hn, hlt⟩ := hgreater j hj
    exact ⟨_, hnew, n, hold hn, hlt⟩
  · rcases mem_cons.mp hj with rfl | hj
    · obtain ⟨n, hn, hlt⟩ := hless i hi
      exact ⟨n, hold hn, _, hnew, hlt⟩
    · exact hlg i hi j hj

/-- **What `Insert` knows when it enters its loop**: the node belongs between those with smaller and those
with greater keys, and `prev` has the last places in front of it that are tall enough. `l₀` has the new
`max_height_`. -/
structure Opened (cmp : Key → Key → Ordering) (l l₀ : SkipList Key) (key : Key) (ht : ℕ)
    (prev : List (Option ℕ))
    (less greater : List ℕ) : Prop where
  holds : Holds cmp l (less ++ greater)
  range : 1 ≤ ht ∧ ht ≤ kMaxHeight
  head : l₀.head = l.head
  nodes : l₀.nodes = l.nodes
  maxHeight : l₀.maxHeight = max l.maxHeight ht
  prev : ∀ i < ht, ∃ p, prev[i]? = some p ∧ LastTall l.height less i p
  less : ∀ j ∈ less, ∃ n ∈ l.shape[j]?, cmp n.1 key = .lt
  greater : ∀ j ∈ greater, ∃ n ∈ l.shape[j]?, cmp key n.1 = .lt

/-- `Insert` before its loop. -/
theorem Holds.opened [Std.TransCmp cmp] (h : Holds cmp l chain) {key : Key} {ht : ℕ}
    (hkey : ∀ n ∈ l.shape, cmp key n.1 ≠ .eq) (hpos : 1 ≤ ht) (hle : ht ≤ kMaxHeight) :
    ∃ prev y less greater, chain = less ++ greater ∧ l.findGreaterOrEqual cmp key = some (prev, y) ∧
      Opened cmp l (if l.maxHeight < ht then { l with maxHeight := ht } else l) key ht
        (prev ++ List.replicate (ht - l.maxHeight) none) less greater := by
  obtain ⟨places, hfind, hlen, -, hplaces⟩ := h.find_spec (passed_of_lt key)
  have hchain := takeWhile_append_dropWhile (p := l.test fun k => cmp key k == .gt) (l := chain)
  refine ⟨_, _, _, _, hchain.symm, hfind, hchain.symm ▸ h, ⟨hpos, hle⟩, ?_, ?_, ?_, fun i hi => ?_,
    fun j hj => ?_,
    fun j hj => ?_⟩
  · split_ifs <;> rfl
  · split_ifs <;> rfl
  · grind
  · exact h.lastTall_prev (takeWhile_sublist _).subset hlen hplaces hle hi
  · have htest := mem_takeWhile_imp hj
    rw [test_eq, Option.any_eq_true] at htest
    obtain ⟨n, hn, hgt⟩ := htest
    exact ⟨n, hn, Std.OrientedCmp.gt_iff_lt.mp (beq_iff_eq.mp hgt)⟩
  · obtain ⟨n, hmem, hn, -⟩ := h.exists_node ((dropWhile_sublist _).subset hj)
    have htest := h.test_of_mem_dropWhile (passed_of_lt key) hj
    rw [test_eq, hn, Option.any_some, beq_eq_false_iff_ne] at htest
    refine ⟨n, hn, ?_⟩
    cases hcmp : cmp key n.1 with
    | lt => rfl
    | eq => exact absurd hcmp (hkey n hmem)
    | gt => exact absurd hcmp htest

namespace Opened

variable {l₀ : SkipList Key} {key : Key} {ht m : ℕ} {prev : List (Option ℕ)} {less greater : List ℕ}
  (o : Opened cmp l l₀ key ht prev less greater)

include o

theorem shape : (l₀.newNode key ht).shape = l.shape ++ [(key, ht)] := by
  rw [shape_newNode, SkipList.shape, o.nodes, ← SkipList.shape]

theorem notMem : l.nodes.length ∉ less ++ greater := fun hmem => by
  grind [Opened, length_shape]

/-- The other nodes have the pointers and heights that they had. -/
theorem next_height (hx : x ≠ some l.nodes.length) :
    (∀ i, (l₀.newNode key ht).next x i = l.next x i) ∧ (l₀.newNode key ht).height x = l.height x := by
  rw [← o.nodes] at hx
  rw [height_newNode hx]
  cases x with
  | none => exact ⟨fun i => by rw [next_newNode hx, next, next, o.head], by rw [height, height, o.head]⟩
  | some j => exact ⟨fun i => by rw [next_newNode hx, next, next, o.nodes], by rw [height, height, o.nodes]⟩

/-- **The pointers in the loop of `Insert`** are those of the list with the new node, if this counts as being
as tall as the number of levels that have been linked. -/
theorem linked (hm : m ≤ ht) :
    ∃ l', linkLevels l.nodes.length prev (l₀.newNode key ht) m = some l' ∧ SameShape (l₀.newNode key ht) l' ∧
      Linked l'.next (Function.update l'.height (some l.nodes.length) m)
        (less ++ l.nodes.length :: greater) := by
  have hself : (l₀.newNode key ht).height (some l.nodes.length) = ht := o.nodes ▸ height_newNode_self
  have hne {i : ℕ} {p : Option ℕ} (htall : LastTall l.height less i p) : p ≠ some l.nodes.length :=
    o.holds.ne_of_lastTall (subset_append_left less greater) htall
  obtain ⟨l', hlink, hshape, hnext'⟩ := linkLevels_spec (l := l₀.newNode key ht) (x := l.nodes.length)
    (hm.trans_eq hself.symm) fun i hi => by
      obtain ⟨p, hp, htall⟩ := o.prev i (hi.trans_le hm)
      refine ⟨p, hp, hne htall, ?_⟩
      obtain ⟨-, -, -, -, hi', -⟩ := id htall
      rwa [(o.next_height (hne htall)).2]
  refine ⟨l', hlink, hshape, ?_⟩
  have hself' : Function.update l'.height (some l.nodes.length) m (some l.nodes.length) = m :=
    Function.update_self _ _ _
  have hheight (x : Option ℕ) (hx : x ≠ some l.nodes.length) :
      Function.update l'.height (some l.nodes.length) m x = l.height x := by
    rw [Function.update_of_ne hx, hshape.height, (o.next_height hx).2]
  have hsplice : Splice l.next l'.next l.height (Function.update l'.height (some l.nodes.length) m) less
    greater
      l.nodes.length (fun i => prev[i]?.getD none) :=
    { linked := o.holds.linked
      nodup := o.holds.nodup
      notMem := o.notMem
      height_none := hheight none (Option.some_ne_none _).symm
      height_some := fun b hb => hheight (some b) fun heq => o.notMem (Option.some.inj heq ▸ hb)
      lastTall := fun i hi => by
        obtain ⟨p, hp, htall⟩ := o.prev i ((hself' ▸ hi).trans_le hm)
        rw [hp]
        exact htall
      next_new := fun i hi => by
        rw [hself'] at hi
        obtain ⟨p, hp, htall⟩ := o.prev i (hi.trans_le hm)
        rw [hnext', if_pos hi, if_pos rfl, hp, Option.bind_some, (o.next_height (hne htall)).1]
        rfl
      next_prev := fun i hi => by
        rw [hself'] at hi
        obtain ⟨p, hp, htall⟩ := o.prev i (hi.trans_le hm)
        grind
      next_other := fun x i hx hi hother => by
        rw [hself'] at hother
        rw [hnext', if_neg hx]
        by_cases him : i < m
        · rw [if_pos him, if_neg fun hp => hother him (by rw [hp]; rfl), (o.next_height hx).1]
        · rw [if_neg him, (o.next_height hx).1] }
  exact hsplice.linked_insert

theorem perm : (less ++ l.nodes.length :: greater).Perm (List.range (l.nodes.length + 1)) := by
  rw [range_succ]
  refine perm_middle.trans ((List.Perm.cons _ ?_).trans (perm_append_singleton _ _).symm)
  rw [← length_shape]
  exact o.holds.perm

/-- The chain with the new node is in order. -/
theorem sorted (hshape : l'.shape = (l₀.newNode key ht).shape) :
    (less ++ l.nodes.length :: greater).Pairwise (Before cmp l') := by
  rw [← length_shape]
  exact sorted_insert (hshape.trans o.shape) o.holds.sorted o.less o.greater

/-- **`Insert` after its loop.** -/
theorem holds_linkLevels : ∃ l', linkLevels l.nodes.length prev (l₀.newNode key ht) ht = some l' ∧
    Holds cmp l' (less ++ l.nodes.length :: greater) ∧ l'.shape = l.shape ++ [(key, ht)] ∧
      l'.maxHeight = max l.maxHeight ht := by
  obtain ⟨hmax, hmaxLe⟩ := o.holds.maxHeight_range
  obtain ⟨l', hlink, hsame, hlinked⟩ := o.linked le_rfl
  have hshape : l'.shape = l.shape ++ [(key, ht)] := hsame.shape.trans o.shape
  have hmax' : l'.maxHeight = max l.maxHeight ht := hsame.maxHeight.trans o.maxHeight
  have hself : l'.height (some l.nodes.length) = ht := by
    rw [hsame.height, ← o.nodes, height_newNode_self]
  rw [← hself, Function.update_eq_self] at hlinked
  refine ⟨l', hlink, ?_, hshape, hmax'⟩
  exact
    { linked := hlinked
      perm := by
        rw [hshape, length_append, length_singleton, length_shape]
        exact o.perm
      sorted := o.sorted hsame.shape
      head_length := hsame.head.trans ((congrArg List.length o.head).trans o.holds.head_length)
      height_range := fun n hn => by
        rw [hmax']
        rw [hshape] at hn
        rcases mem_append.mp hn with hn | hn
        · obtain ⟨hlow, hhigh⟩ := o.holds.height_range n hn
          exact ⟨hlow, hhigh.trans (Nat.le_max_left _ _)⟩
        · obtain rfl := mem_singleton.mp hn
          exact ⟨o.range.1, Nat.le_max_right _ _⟩
      maxHeight_range := by
        rw [hmax']
        exact ⟨hmax.trans (Nat.le_max_left _ _), Nat.max_le.mpr ⟨hmaxLe, o.range.2⟩⟩ }

end Opened

/-- **A node is inserted** between the nodes with smaller keys and those with greater keys. -/
theorem Holds.insert [Std.TransCmp cmp] (h : Holds cmp l chain) {key : Key} {ht : ℕ}
    (hkey : ∀ n ∈ l.shape, cmp key n.1 ≠ .eq) (hpos : 1 ≤ ht) (hle : ht ≤ kMaxHeight) :
    ∃ l' chain', l.insert cmp key ht = some l' ∧ Holds cmp l' chain' ∧ l'.shape = l.shape ++ [(key, ht)] ∧
      l'.maxHeight = max l.maxHeight ht := by
  obtain ⟨prev, y, less, greater, -, hfind, o⟩ := h.opened hkey hpos hle
  obtain ⟨l', hlink, hholds⟩ := o.holds_linkLevels
  grind [SkipList.insert]

/-! ## Searches in the list -/

/-- The nodes on a level. -/
def levelNodes (l : SkipList Key) (i : ℕ) : Option (List ℕ) := follow l.next i (l.nodes.length + 1) none

/-- What is known of a list of keys and heights in the order in which they were inserted. -/
structure Lists (cmp : Key → Key → Ordering) (l : SkipList Key) (inserts : List (Key × ℕ))
    (levels : ℕ → List ℕ) : Prop where
  /-- The nodes are numbered in the order of the insertions. -/
  shape : l.shape = inserts
  level : ∀ i < kMaxHeight, l.levelNodes i = some (levels i)
  /-- Level 0 has all nodes, in the order of their keys. -/
  perm : (levels 0).Perm (List.range inserts.length)
  sorted : (levels 0).Pairwise (Before cmp l)
  /-- Every level is a part of the one below, with the nodes that are taller. -/
  sublist : ∀ i, (levels (i + 1)).Sublist (levels i)
  mem : ∀ i j, j ∈ levels i ↔ ∃ n ∈ inserts[j]?, i < n.2
  maxHeight : l.maxHeight = (inserts.map Prod.snd).foldl max 1
  findGreaterOrEqual : ∀ key, (l.findGreaterOrEqual cmp key).map Prod.snd =
    some ((levels 0).find? fun j => !l.test (fun k => cmp key k == .gt) j)
  findLessThan : ∀ key, l.findLessThan cmp key =
    some ((levels 0).filter (l.test fun k => cmp k key == .lt)).getLast?
  findLast : l.findLast = some (levels 0).getLast?
  contains : ∀ key, l.contains cmp key = some (inserts.any fun n => cmp key n.1 == .eq)

namespace Holds

variable (h : Holds cmp l chain)

include h

/-- The nodes of a level are those of the chain that are taller. -/
theorem levelNodes_eq (hi : i < kMaxHeight) : l.levelNodes i = some (chain.filter (tall l.height i)) := by
  have hi' : i < l.height ([] : List ℕ).getLast? := by rwa [getLast?_nil, height, h.head_length]
  have hfuel : chain.length < l.nodes.length + 1 := by
    rw [h.length_chain]
    omega
  exact h.linked.follow_eq (nil_append chain).symm hi' hfuel

/-- The nodes that pass are the first ones of the chain. -/
theorem takeWhile_eq_filter {p : Key → Bool} (hp : ∀ a b, cmp a b = .lt → p b = true → p a = true) :
    chain.takeWhile (l.test p) = chain.filter (l.test p) := by
  have hsplit := takeWhile_append_dropWhile (p := l.test p) (l := chain)
  have hnone : (chain.dropWhile (l.test p)).filter (l.test p) = [] :=
    filter_eq_nil_iff.mpr fun j hj => by rw [h.test_of_mem_dropWhile hp hj]; decide
  conv_rhs => rw [← hsplit, filter_append, hnone, append_nil]
  exact (filter_eq_self.mpr fun j hj => mem_takeWhile_imp hj).symm

/-- `FindGreaterOrEqual` finds the first node whose key is not smaller. -/
theorem findGreaterOrEqual_eq [Std.TransCmp cmp] (key : Key) : (l.findGreaterOrEqual cmp key).map Prod.snd =
    some (chain.find? fun j => !l.test (fun k => cmp key k == .gt) j) := by
  obtain ⟨places, hfind, -⟩ := h.find_spec (passed_of_lt key)
  rw [findGreaterOrEqual, hfind, Option.map_some]

/-- `FindLessThan` finds the last node with a smaller key. -/
theorem findLessThan_eq [Std.TransCmp cmp] (key : Key) : l.findLessThan cmp key =
    some (chain.filter (l.test fun k => cmp k key == .lt)).getLast? := by
  have hp : ∀ a b, cmp a b = .lt → (cmp b key == .lt) = true → (cmp a key == .lt) = true := by
    intro a b hab hb
    rw [beq_iff_eq] at hb ⊢
    exact Std.TransCmp.lt_trans hab hb
  obtain ⟨places, hfind, -, hhead, -⟩ := h.find_spec hp
  rw [findLessThan, hfind, ← h.takeWhile_eq_filter hp]
  exact hhead

theorem findLast_eq : l.findLast = some chain.getLast? := by
  have hp : ∀ a b : Key, cmp a b = .lt → (fun _ => true) b = true → (fun _ => true) a = true :=
    fun _ _ _ _ => rfl
  obtain ⟨places, hfind, -, hhead, -⟩ := h.find_spec hp
  have hall : chain.filter (l.test fun _ => true) = chain := filter_eq_self.mpr fun j hj => by
    grind [Holds, test_eq]
  rw [h.takeWhile_eq_filter hp, hall] at hhead
  rw [findLast, hfind]
  exact hhead

/-- `Contains` finds the keys that were inserted. -/
theorem contains_eq [Std.TransCmp cmp] (key : Key) :
    l.contains cmp key = some (l.shape.any fun n => cmp key n.1 == .eq) := by
  obtain ⟨⟨prev, x⟩, hfind, hx⟩ := Option.map_eq_some_iff.mp (h.findGreaterOrEqual_eq key)
  rw [contains, hfind]
  simp only at hx ⊢
  rw [hx, Option.some_inj, Bool.eq_iff_iff, Option.any_eq_true, any_eq_true]
  constructor
  · grind [test_eq]
  · rintro ⟨n, hn, heq⟩
    obtain ⟨j, hj⟩ := getElem?_of_mem hn
    have hchain : j ∈ chain := h.mem_chain_iff.mpr (List.getElem?_eq_some_iff.mp hj).1
    have hnot : (!l.test (fun k => cmp key k == .gt) j) = true := by
      grind [test_eq]
    cases hfirst : chain.find? fun j => !l.test (fun k => cmp key k == .gt) j with
    | none => exact absurd hnot (find?_eq_none.mp hfirst j hchain)
    | some i =>
      refine ⟨i, rfl, ?_⟩
      obtain ⟨hi, before, after, rfl, hbefore⟩ := find?_eq_some_iff_append.mp hfirst
      rcases mem_append.mp hchain with hmem | hmem
      · exact absurd (hbefore j hmem) (by rw [hnot]; decide)
      · rcases mem_cons.mp hmem with rfl | hmem
        · rw [test_eq, hj]
          exact heq
        · -- a node in front of that of the key would be passed
          obtain ⟨m, hm, n', hn', hlt⟩ :=
            (pairwise_cons.mp (pairwise_append.mp h.sorted).2.1).1 j hmem
          obtain rfl := Option.some.inj (hj.symm.trans hn')
          have hpassed : cmp key m.1 = .gt := Std.OrientedCmp.gt_iff_lt.mpr
            (Std.TransCmp.lt_of_lt_of_eq hlt (Std.OrientedCmp.eq_symm (beq_iff_eq.mp heq)))
          grind [test_eq]

/-- On the lowest level every node points to the next one of the chain. -/
theorem next_zero {d rest : List ℕ} (hchain : chain = d ++ rest) : l.next d.getLast? 0 = some rest.head? := by
  rw [h.linked d rest hchain 0 (h.height_getLast?_pos hchain)]
  cases rest with
  | nil => rfl
  | cons j rest =>
    have htall : tall l.height 0 j = true :=
      decide_eq_true (h.height_pos (hchain ▸ mem_append_right d mem_cons_self))
    rw [find?_cons_of_pos htall, head?_cons]

theorem findLessThan_node [Std.TransCmp cmp] {d rest : List ℕ} (hchain : chain = d ++ j :: rest)
    {node : SkipNode Key} (hnode : l.nodes[j]? = some node) :
    l.findLessThan cmp node.key = some d.getLast? := by
  have hshape : l.shape[j]? = some (node.key, node.next.length) := by rw [shape, getElem?_map, hnode]; rfl
  have hsorted := h.sorted
  rw [hchain] at hsorted
  obtain ⟨-, hrest, hd⟩ := pairwise_append.mp hsorted
  have hpassed : d.filter (l.test fun k => cmp k node.key == .lt) = d := filter_eq_self.mpr fun i hi => by
    obtain ⟨m, hm, n, hn, hlt⟩ := hd i hi j mem_cons_self
    grind [test_eq]
  have hnot : (j :: rest).filter (l.test fun k => cmp k node.key == .lt) = [] :=
    filter_eq_nil_iff.mpr fun i hi => by
      rcases mem_cons.mp hi with rfl | hi
      · grind [test_eq]
      · obtain ⟨m, hm, n, hn, hlt⟩ := (pairwise_cons.mp hrest).1 i hi
        obtain rfl := Option.some.inj (hshape.symm.trans hm)
        rw [test_eq, Option.mem_def.mp hn, Option.any_some, Std.OrientedCmp.gt_iff_lt.mpr hlt]
        decide
  rw [h.findLessThan_eq, hchain, filter_append, hpassed, hnot, append_nil]

/-- **What the chain says about the list**, level by level and search by search. -/
theorem lists [Std.TransCmp cmp] {inserts : List (Key × ℕ)} (hshape : l.shape = inserts)
    (hmax : l.maxHeight = (inserts.map Prod.snd).foldl max 1) :
    Lists cmp l inserts fun i => chain.filter (tall l.height i) := by
  have hzero : chain.filter (tall l.height 0) = chain :=
    filter_eq_self.mpr fun j hj => decide_eq_true (h.height_pos hj)
  have hmem (i j : ℕ) : j ∈ chain.filter (tall l.height i) ↔ ∃ n ∈ l.shape[j]?, i < n.2 := by
    rw [mem_filter, h.mem_chain_iff, tall, decide_eq_true_iff, height_some]
    grind
  exact
    { shape := hshape
      level := fun i hi => h.levelNodes_eq hi
      perm := by
        rw [hzero, ← hshape]
        exact h.perm
      sorted := by
        rw [hzero]
        exact h.sorted
      sublist := fun i => monotone_filter_right chain fun j hj =>
        decide_eq_true (Nat.lt_of_succ_lt (of_decide_eq_true hj))
      mem := hshape ▸ hmem
      maxHeight := hmax
      findGreaterOrEqual := by
        rw [hzero]
        exact h.findGreaterOrEqual_eq
      findLessThan := by
        rw [hzero]
        exact h.findLessThan_eq
      findLast := by
        rw [hzero]
        exact h.findLast_eq
      contains := hshape ▸ h.contains_eq }

end Holds

end Invariant

end SkipList

/-! ## Whole runs -/

section Runs

variable {Key : Type*}

open Transition SkipList

/-- Insertions of different keys keep the invariant, in any order. -/
theorem holds_run (cmp : Key → Key → Ordering) [Std.TransCmp cmp] {inserts : List (Key × ℕ)}
    (hdistinct : inserts.Pairwise fun a b => cmp a.1 b.1 ≠ .eq)
    (hheights : ∀ n ∈ inserts, 1 ≤ n.2 ∧ n.2 ≤ kMaxHeight) :
    ∃ l chain, run (fun (l : SkipList Key) n => l.insert cmp n.1 n.2) .new inserts = some l ∧
      l.Holds cmp chain ∧ l.shape = inserts ∧ l.maxHeight = (inserts.map Prod.snd).foldl max 1 := by
  induction inserts using List.reverseRecOn with
  | nil => exact ⟨_, [], rfl, holds_new, rfl, rfl⟩
  | append_singleton inserts n ih =>
    obtain ⟨hbefore, -, hnew⟩ := pairwise_append.mp hdistinct
    obtain ⟨l, chain, hrun, h, hshape, hmax⟩ := ih hbefore fun m hm => hheights m (mem_append_left _ hm)
    obtain ⟨hlow, hhigh⟩ := hheights n (mem_append_right _ mem_cons_self)
    have hkey : ∀ m ∈ l.shape, cmp n.1 m.1 ≠ .eq := fun m hm heq =>
      hnew m (hshape ▸ hm) n mem_cons_self (Std.OrientedCmp.eq_symm heq)
    obtain ⟨l', chain', hinsert, h', hshape', hmax'⟩ := h.insert hkey hlow hhigh
    refine ⟨l', chain', run_concat_eq_some.mpr ⟨l, hrun, hinsert⟩, h', by rw [hshape', hshape], ?_⟩
    rw [hmax', hmax, map_append, foldl_append]
    rfl

/-- **The skip list after any insertions of distinct keys**, whatever heights are drawn. -/
theorem skipList_run (cmp : Key → Key → Ordering) [Std.TransCmp cmp] (inserts : List (Key × ℕ))
    (hdistinct : inserts.Pairwise fun a b => cmp a.1 b.1 ≠ .eq)
    (hheights : ∀ n ∈ inserts, 1 ≤ n.2 ∧ n.2 ≤ kMaxHeight) :
    ∃ l levels, run (fun (l : SkipList Key) n => l.insert cmp n.1 n.2) .new inserts = some l ∧
      l.Lists cmp inserts levels := by
  obtain ⟨l, chain, hrun, h, hshape, hmax⟩ := holds_run cmp hdistinct hheights
  exact ⟨l, _, hrun, h.lists hshape hmax⟩

/-- Three keys, the second one higher than the list so far. -/
theorem skipList_run_three : ∃ l levels,
    run (fun (l : SkipList ℕ) n => l.insert compare n.1 n.2) .new [(5, 1), (3, 4), (9, 2)] = some l ∧
      l.Lists compare [(5, 1), (3, 4), (9, 2)] levels :=
  skipList_run compare [(5, 1), (3, 4), (9, 2)] (by decide) (by decide)

end Runs

end RocketDb
