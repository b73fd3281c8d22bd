import Mathlib.Data.List.Nodup
import Mathlib.Data.List.Find
import Mathlib.Data.List.Infix
import Mathlib.Data.List.TakeWhile

/-! # Lists with shortcuts

The elements of a list have heights. On every level below its height an element points to the next element
that is taller than the level, and so does the beginning of the list, which is no element. A **place** is
`none` for the beginning or an element; `next x i` is `none` if the place has no level `i`.

* **`Linked`** — the pointers are those of a list. A place is given by what is up to it, as `d.getLast?`.
* **`descend`** — the search from the highest level down; `descend_spec` says where it stops and goes down.
* **`Reached`** — where a search under way can be; elements that are added do not disturb it.
* **`Splice.linked_insert`** — an element is added at the places at which the search for it went down. -/

namespace SkipChains

open List

variable {α : Type*}

/-- Search from a place and a level; the places at which it goes down are collected, the last one first. -/
def descend (next : Option α → ℕ → Option (Option α)) (advance : α → Bool) :
    ℕ → Option α → ℕ → List (Option α) → Option (List (Option α) × Option α)
  | 0, _, _, _ => none
  | fuel + 1, x, level, prev =>
    match next x level with
    | none => none
    | some y =>
      match y.filter advance with
      | some a => descend next advance fuel (some a) level prev
      | none =>
        match level with
        | 0 => some (x :: prev, y)
        | level + 1 => descend next advance fuel x level (x :: prev)

/-- The elements that are reached on a level from a place. -/
def follow (next : Option α → ℕ → Option (Option α)) (level : ℕ) : ℕ → Option α → Option (List α)
  | 0, _ => none
  | fuel + 1, x =>
    match next x level with
    | none => none
    | some none => some []
    | some (some a) => (follow next level fuel (some a)).map (a :: ·)

/-- The element is taller than the level. -/
def tall (height : Option α → ℕ) (i : ℕ) (a : α) : Bool := decide (i < height (some a))

/-- **The pointers are those of the list.** -/
def Linked (next : Option α → ℕ → Option (Option α)) (height : Option α → ℕ) (chain : List α) : Prop :=
  ∀ d rest, chain = d ++ rest → ∀ i < height d.getLast?, next d.getLast? i = some (rest.find? (tall height i))

/-- The last place of a list that is taller than the level. -/
def LastTall (height : Option α → ℕ) (less : List α) (i : ℕ) (x : Option α) : Prop :=
  ∃ d more, less = d ++ more ∧ x = d.getLast? ∧ i < height x ∧ ∀ a ∈ more, tall height i a = false

variable {next next' : Option α → ℕ → Option (Option α)} {height height' : Option α → ℕ}
  {advance : α → Bool} {chain d rest less greater : List α} {i level fuel : ℕ} {x y : Option α} {a : α}

/-! ## Following a level -/

/-- On a level lie the elements that are taller. -/
theorem Linked.follow_eq (h : Linked next height chain) (hchain : chain = d ++ rest)
    (hi : i < height d.getLast?) (hfuel : rest.length < fuel) :
    follow next i fuel d.getLast? = some (rest.filter (tall height i)) := by
  induction fuel generalizing d rest with
  | zero => exact absurd hfuel (Nat.not_lt_zero _)
  | succ fuel ih =>
    rw [follow, h d rest hchain i hi]
    cases hfind : rest.find? (tall height i) with
    | none =>
      simp_all
    | some a =>
      obtain ⟨htall, before, after, rfl, hbefore⟩ := find?_eq_some_iff_append.mp hfind
      have hlast : (d ++ before ++ [a]).getLast? = some a := getLast?_concat
      have hsplit : chain = (d ++ before ++ [a]) ++ after := by
        rw [hchain, append_assoc, append_assoc, singleton_append]
      have hrec := ih hsplit (by rw [hlast]; exact of_decide_eq_true htall) (by
        rw [length_append, length_cons] at hfuel
        omega)
      simp_all

/-! ## Searching -/

/-- A search that stops at a level has passed all elements to advance over that are taller. -/
theorem stop_of_filter_eq_none (hadvance : rest.Pairwise fun a b => advance b = true → advance a = true)
    (hstop : (rest.find? (tall height i)).filter advance = none) :
    ∀ a ∈ rest, tall height i a = true → advance a = false := by
  intro b hb htall
  cases hfind : rest.find? (tall height i) with
  | none => exact absurd htall (find?_eq_none.mp hfind b hb)
  | some a =>
    rw [hfind, Option.filter_some] at hstop
    have ha : advance a = false := by
      grind
    obtain ⟨-, before, after, rfl, hbefore⟩ := find?_eq_some_iff_append.mp hfind
    rcases mem_append.mp hb with hb | hb
    · exact absurd htall (by simpa using hbefore b hb)
    · rcases mem_cons.mp hb with rfl | hb
      · exact ha
      · -- the elements behind one that is not passed are not passed either
        by_contra hne
        have := (pairwise_cons.mp (pairwise_append.mp hadvance).2.1).1 b hb
          (Bool.of_not_eq_false hne)
        rw [ha] at this
        cases this

/-- **A step on a level**: all elements up to the one to which the search advances are to be passed. -/
theorem passed_of_filter_eq_some (hadvance : (d ++ rest).Pairwise fun a b => advance b = true → advance
    a = true)
    (hstop : (rest.find? (tall height i)).filter advance = some a) :
    i < height (some a) ∧ ∃ before after, rest = before ++ a :: after ∧
      ∀ b ∈ d ++ before ++ [a], advance b = true := by
  obtain ⟨hfind, ha⟩ := Option.filter_eq_some_iff.mp hstop
  obtain ⟨htall, before, after, rfl, -⟩ := find?_eq_some_iff_append.mp hfind
  refine ⟨of_decide_eq_true htall, before, after, rfl, fun b hb => ?_⟩
  grind

/-- **The end of the search**: on the lowest level there are all elements that can be reached. -/
theorem find?_of_filter_eq_none (hd : ∀ a ∈ d, advance a = true)
    (hadvance : (d ++ rest).Pairwise fun a b => advance b = true → advance a = true)
    (hstop : (rest.find? (tall height 0)).filter advance = none) :
    rest.find? (tall height 0) = (d ++ rest).find? fun a => tall height 0 a && !advance a := by
  have hrest := stop_of_filter_eq_none (pairwise_append.mp hadvance).2.1 hstop
  have hnone : d.find? (fun a => tall height 0 a && !advance a) = none :=
    find?_eq_none.mpr fun a ha => by simp [hd a ha]
  rw [find?_append, hnone, Option.none_or]
  exact find?_congr fun a ha => by
    grind

/-- **The search** ends at the first element on the lowest level that is not to be passed, and has gone down
at the last elements to pass that are taller than the level. -/
theorem descend_spec (h : Linked next height chain)
    (hadvance : chain.Pairwise fun a b => advance b = true → advance a = true)
    (hchain : chain = d ++ rest) (hd : ∀ a ∈ d, advance a = true) (hlevel : level < height d.getLast?)
    (hfuel : rest.length + level < fuel) (prev : List (Option α)) :
    ∃ places, descend next advance fuel d.getLast? level prev =
        some (places ++ prev, chain.find? fun a => tall height 0 a && !advance a) ∧
      places.length = level + 1 ∧
      ∀ i x, places[i]? = some x → LastTall height (chain.takeWhile advance) i x := by
  induction fuel generalizing d rest level prev with
  | zero => exact absurd hfuel (Nat.not_lt_zero _)
  | succ fuel ih =>
    rw [descend, h d rest hchain level hlevel]
    simp only
    cases hstop : (rest.find? (tall height level)).filter advance with
    | some a =>
      -- the search advances to the element
      obtain ⟨hlevel', before, after, rfl, hpassed⟩ := passed_of_filter_eq_some (hchain ▸ hadvance) hstop
      have hlast : (d ++ before ++ [a]).getLast? = some a := getLast?_concat
      have hsplit : chain = (d ++ before ++ [a]) ++ after := by
        rw [hchain, append_assoc, append_assoc, singleton_append]
      have hrec := ih hsplit hpassed (by rwa [hlast]) (by
        rw [length_append, length_cons] at hfuel
        omega) prev
      rwa [hlast] at hrec
    | none =>
      have hrest := stop_of_filter_eq_none (pairwise_append.mp (hchain ▸ hadvance)).2.1 hstop
      have hprev : LastTall height (chain.takeWhile advance) level d.getLast? := by
        refine ⟨d, rest.takeWhile advance, ?_, rfl, hlevel, fun a ha => ?_⟩
        · rw [hchain, takeWhile_append_of_pos hd]
        · grind [takeWhile_sublist, mem_takeWhile_imp]
      cases level with
      | zero =>
        refine ⟨[d.getLast?], ?_, rfl, fun i x hx => ?_⟩
        · simp only [find?_of_filter_eq_none hd (hchain ▸ hadvance) hstop, hchain, singleton_append]
        · obtain ⟨rfl, rfl⟩ : i = 0 ∧ d.getLast? = x := by
            cases i with
            | zero => exact ⟨rfl, Option.some.inj hx⟩
            | succ i => cases hx
          exact hprev
      | succ level =>
        have hlevel' : level < height d.getLast? := by omega
        obtain ⟨places, hplaces, hlen, hall⟩ := ih hchain hd hlevel' (by omega) (d.getLast? :: prev)
        refine ⟨places ++ [d.getLast?], ?_, ?_, fun i x hx => ?_⟩
        · simp only [hplaces, append_assoc, singleton_append]
        · rw [length_append, hlen, length_singleton]
        · rw [getElem?_append] at hx
          split_ifs at hx with hi
          · exact hall i x hx
          · rw [hlen] at hi hx
            obtain ⟨hi', hx⟩ := List.getElem?_eq_some_iff.mp hx
            rw [length_singleton] at hi'
            obtain rfl : i = level + 1 := by omega
            rw [getElem_singleton] at hx
            rwa [← hx]

/-! ## Searches under way -/

/-- A search can be at the place on the level: all elements up to the place are to be passed. -/
def Reached (height : Option α → ℕ) (advance : α → Bool) (chain : List α) (level : ℕ) (x : Option α) : Prop :=
  ∃ d rest, chain = d ++ rest ∧ x = d.getLast? ∧ level < height x ∧ ∀ a ∈ d, advance a = true

namespace Reached

/-- **One read** leads to the next element to pass, one level down, or to the end. -/
theorem read (hr : Reached height advance chain level x) (h : Linked next height chain)
    (hadvance : chain.Pairwise fun a b => advance b = true → advance a = true) :
    ∃ y, next x level = some y ∧ (∀ a, y.filter advance = some a → Reached height advance chain level
      (some a)) ∧
      (y.filter advance = none → level = 0 → y = chain.find? fun a => tall height 0 a && !advance a) := by
  obtain ⟨d, rest, rfl, rfl, hlevel, hd⟩ := hr
  refine ⟨_, h d rest rfl level hlevel, fun a hstop => ?_, fun hstop hzero => ?_⟩
  · obtain ⟨hlevel', before, after, rfl, hpassed⟩ := passed_of_filter_eq_some hadvance hstop
    exact ⟨d ++ before ++ [a], after, by simp, getLast?_concat.symm, hlevel', hpassed⟩
  · subst hzero
    exact find?_of_filter_eq_none hd hadvance hstop

/-- The places of a list can grow. -/
theorem mono {advance' : α → Bool} (hr : Reached height advance chain level x)
    (hadvance : ∀ a ∈ chain, advance' a = advance a) (hnone : height none ≤ height' none)
    (hsome : ∀ a ∈ chain, height (some a) ≤ height' (some a)) : Reached height' advance' chain level x := by
  obtain ⟨d, rest, rfl, rfl, hlevel, hd⟩ := hr
  refine ⟨d, rest, rfl, rfl, hlevel.trans_le ?_, fun a ha => ?_⟩
  · grind
  · rw [hadvance a (mem_append_left rest ha), hd a ha]

/-- **An element that is added** does not disturb a search. -/
theorem insert (hr : Reached height advance (less ++ greater) level x)
    (hadvance : (less ++ a :: greater).Pairwise fun a b => advance b = true → advance a = true) :
    Reached height advance (less ++ a :: greater) level x := by
  obtain ⟨d, rest, hsplit, rfl, hlevel, hd⟩ := hr
  rcases append_eq_append_iff.mp hsplit with ⟨more, rfl, rfl⟩ | ⟨more, rfl, rfl⟩
  · rcases eq_nil_or_concat more with rfl | ⟨before, b, rfl⟩
    · rw [append_nil] at hd hlevel ⊢
      exact ⟨less, a :: rest, rfl, rfl, hlevel, hd⟩
    · -- the element is in front of one that has been passed
      rw [concat_eq_append] at hd hlevel ⊢
      refine ⟨less ++ a :: (before ++ [b]), rest, by simp, ?_, hlevel, fun c hc => ?_⟩
      · grind
      · rcases mem_append.mp hc with hc | hc
        · exact hd c (mem_append_left _ hc)
        · rcases mem_cons.mp hc with rfl | hc
          · exact (pairwise_cons.mp (pairwise_append.mp hadvance).2.1).1 b (by simp) (hd b (by simp))
          · exact hd c (mem_append_right _ hc)
  · exact ⟨d, more ++ a :: greater, by simp, rfl, hlevel, hd⟩

/-- Left alone, a search ends. -/
theorem descend (hr : Reached height advance chain level x) (h : Linked next height chain)
    (hadvance : chain.Pairwise fun a b => advance b = true → advance a = true)
    (hfuel : chain.length + level < fuel) (prev : List (Option α)) :
    (SkipChains.descend next advance fuel x level prev).map Prod.snd =
      some (chain.find? fun a => tall height 0 a && !advance a) := by
  obtain ⟨d, rest, rfl, rfl, hlevel, hd⟩ := hr
  have hfuel' : rest.length + level < fuel := by
    rw [length_append] at hfuel
    omega
  obtain ⟨places, hfind, -⟩ := descend_spec h hadvance rfl hd hlevel hfuel' prev
  rw [hfind]
  rfl

end Reached

/-! ## Adding an element -/

theorem eq_of_getLast?_eq {d' rest' : List α} (hnodup : chain.Nodup) (h : chain = d ++ rest)
    (h' : chain = d' ++ rest') (hlast : d.getLast? = d'.getLast?) : d = d' ∧ rest = rest' := by
  have hshort {d d' rest rest' : List α} (h : chain = d ++ rest) (h' : chain = d' ++ rest')
      (hlast : d.getLast? = d'.getLast?) (more : List α) (hd : d' = d ++ more) : more = [] := by
    rcases eq_nil_or_concat more with rfl | ⟨before, a, rfl⟩
    · rfl
    · -- the last element would be there twice
      rw [concat_eq_append, ← append_assoc] at hd
      rw [hd, getLast?_concat] at hlast
      grind
  rcases append_eq_append_iff.mp (h.symm.trans h') with ⟨more, hd, hrest⟩ | ⟨more, hd, hrest⟩
  · grind
  · grind

theorem LastTall.unique (h : LastTall height less i x) (h' : LastTall height less i y) : x = y := by
  have hshort {d d' more more' : List α} (hmore : ∀ a ∈ more, tall height i a = false)
      (hi : i < height d'.getLast?) (between : List α) (hd' : d' = d ++ between)
      (hbetween : more = between ++ more') : d.getLast? = d'.getLast? := by
    rcases eq_nil_or_concat between with rfl | ⟨before, a, rfl⟩
    · rw [hd', append_nil]
    · -- the second place would be a later one
      rw [concat_eq_append] at hd' hbetween
      rw [hd', ← append_assoc, getLast?_concat] at hi
      have hnot := hmore a (by rw [hbetween]; simp)
      rw [tall, decide_eq_true hi] at hnot
      cases hnot
  obtain ⟨d, more, hless, rfl, hi, hmore⟩ := h
  obtain ⟨d', more', hless', rfl, hi', hmore'⟩ := h'
  rcases append_eq_append_iff.mp (hless.symm.trans hless') with ⟨between, hd, hb⟩ | ⟨between, hd, hb⟩
  · exact hshort hmore hi' between hd hb
  · exact (hshort hmore' hi between hd hb).symm

/-- The pointers after an element has been added between two parts of a list: on each of its levels the last
place before it that is tall enough points to it, and it points to what that place pointed to. -/
structure Splice (next next' : Option α → ℕ → Option (Option α)) (height height' : Option α → ℕ)
    (less greater : List α) (a : α) (prev : ℕ → Option α) : Prop where
  linked : Linked next height (less ++ greater)
  nodup : (less ++ greater).Nodup
  notMem : a ∉ less ++ greater
  height_none : height' none = height none
  height_some : ∀ b ∈ less ++ greater, height' (some b) = height (some b)
  lastTall : ∀ i < height' (some a), LastTall height less i (prev i)
  next_new : ∀ i < height' (some a), next' (some a) i = next (prev i) i
  next_prev : ∀ i < height' (some a), next' (prev i) i = some (some a)
  next_other : ∀ x i, x ≠ some a → i < height x → (i < height' (some a) → prev i ≠ x) → next' x i = next x i

namespace Splice

variable {prev : ℕ → Option α} (h : Splice next next' height height' less greater a prev)

include h

theorem height_getLast? (hd : less ++ greater = d ++ rest) :
    d.getLast? ≠ some a ∧ height' d.getLast? = height d.getLast? := by
  grind [Splice]

theorem find?_tall (i : ℕ) (hrest : rest ⊆ less ++ greater) :
    rest.find? (tall height' i) = rest.find? (tall height i) :=
  find?_congr fun b hb => by rw [tall, tall, h.height_some b (hrest hb)]

theorem next_before {more : List α} (hless : less = d ++ more) (hi : i < height' d.getLast?) :
    next' d.getLast? i = some ((more ++ a :: greater).find? (tall height' i)) := by
  have hchain : less ++ greater = d ++ (more ++ greater) := by rw [hless, append_assoc]
  obtain ⟨hne, heq⟩ := h.height_getLast? hchain
  rw [heq] at hi
  have hold := h.linked d (more ++ greater) hchain i hi
  rw [find?_append] at hold
  rw [find?_append, h.find?_tall i (hless ▸ fun b hb => by simp [hb])]
  cases hfind : more.find? (tall height i) with
  | some b =>
    -- the place points to an element in front of the new one
    rw [h.next_other _ i hne hi, hold, hfind]
    · rfl
    · intro hia hx
      obtain ⟨d', more', hless', hx', -, hmore'⟩ := h.lastTall i hia
      obtain ⟨-, rfl⟩ := eq_of_getLast?_eq (nodup_append.mp h.nodup).1 hless hless' (hx.symm.trans hx')
      grind
  | none =>
    have hnone : ∀ b ∈ more, tall height i b = false := fun b hb => by
      simpa using find?_eq_none.mp hfind b hb
    by_cases hia : i < height' (some a)
    · have hx : prev i = d.getLast? := (h.lastTall i hia).unique ⟨d, more, hless, rfl, hi, hnone⟩
      grind [tall, Splice]
    · rw [h.next_other _ i hne hi (fun hlt => absurd hlt hia), hold, hfind,
        find?_cons_of_neg (by simpa [tall] using hia), h.find?_tall i (by simp)]

theorem next_at (hi : i < height' (some a)) : next' (some a) i = some (greater.find? (tall height' i)) := by
  obtain ⟨d, more, hless, hx, hi', hmore⟩ := h.lastTall i hi
  have hold := h.linked d (more ++ greater) (by rw [hless, append_assoc]) i (hx ▸ hi')
  have hnone : more.find? (tall height i) = none := find?_eq_none.mpr fun b hb => by simpa using hmore b hb
  rw [h.next_new i hi, hx, hold, find?_append, hnone, h.find?_tall i (by simp)]
  rfl

theorem next_behind {before : List α} {b : α} (hgreater : greater = before ++ [b] ++ rest)
    (hi : i < height' (some b)) : next' (some b) i = some (rest.find? (tall height' i)) := by
  have hlast : (less ++ before ++ [b]).getLast? = some b := getLast?_concat
  have hchain : less ++ greater = less ++ before ++ [b] ++ rest := by rw [hgreater]; simp
  obtain ⟨hne, heq⟩ := h.height_getLast? hchain
  have hold := h.linked _ rest hchain i (by rwa [← heq, hlast])
  rw [hlast] at hne heq hold
  rw [h.next_other _ i hne (heq ▸ hi), hold, h.find?_tall i (by rw [hchain]; exact subset_append_right _ _)]
  -- the places that point to the new element are in front of it
  intro hia hprev
  obtain ⟨d, more, hless, hx, -, -⟩ := h.lastTall i hia
  have hb : b ∈ less := hless ▸ mem_append_left more (mem_of_getLast? (hx.symm.trans hprev))
  exact (nodup_append.mp h.nodup).2.2 b hb b (by rw [hgreater]; simp) rfl

/-- **The pointers are those of the list with the new element.** -/
theorem linked_insert : Linked next' height' (less ++ a :: greater) := by
  intro d rest hsplit i hi
  rcases append_eq_append_iff.mp hsplit.symm with ⟨more, hless, hrest⟩ | ⟨more, hd, hgreater⟩
  · rw [hrest]
    exact h.next_before hless hi
  · cases more with
    | nil =>
      rw [append_nil] at hd
      rw [← show a :: greater = rest from hgreater]
      rw [hd] at hi ⊢
      exact h.next_before (append_nil less).symm hi
    | cons c more =>
      have hmore : greater = more ++ rest := (List.cons.inj hgreater).2
      rw [← (List.cons.inj hgreater).1] at hd
      rcases eq_nil_or_concat more with rfl | ⟨before, b, rfl⟩
      · rw [hd, getLast?_concat] at hi ⊢
        rw [h.next_at hi, hmore]
        rfl
      · rw [concat_eq_append] at hd hmore
        have hlast : d.getLast? = some b := by
          rw [hd, ← cons_append, ← append_assoc, getLast?_concat]
        rw [hlast] at hi ⊢
        exact h.next_behind hmore hi

end Splice

end SkipChains
