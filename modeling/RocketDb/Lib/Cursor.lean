import Mathlib.Data.List.Basic

/-! # Cursors over lists

A cursor over a list is a **position**; a position past the end is *invalid*, and so is what moving back from
the first position or forward from the last gives.

`rank p xs c` is the position among the selected elements of the first one at or after `c`: an implementation
that walks over all elements and shows some is compared with a plain cursor over the **selection** through
it. -/

namespace Cursor

open List

variable {α : Type*} {xs : List α} {p q : α → Bool} {x : α} {c d i : ℕ}

/-- The last position. -/
def seekToLast (xs : List α) : ℕ := xs.length - 1

/-- The first position that satisfies `p`. -/
def seek (xs : List α) (p : α → Bool) : ℕ := xs.findIdx p

/-- One position back; invalid from the first. -/
def prev (xs : List α) (i : ℕ) : ℕ := if i = 0 then xs.length else i - 1

theorem seek_le_length (xs : List α) (p : α → Bool) : seek xs p ≤ xs.length :=
  findIdx_le_length

theorem not_of_lt_seek (h : i < seek xs p) (hx : xs[i]? = some x) : p x = false := by
  obtain ⟨hi, rfl⟩ := List.getElem?_eq_some_iff.mp hx
  exact not_of_lt_findIdx h

theorem of_seek (hx : xs[seek xs p]? = some x) : p x = true := by
  obtain ⟨hi, rfl⟩ := List.getElem?_eq_some_iff.mp hx
  exact findIdx_getElem

/-! ## Selections -/

/-- The position among the selected elements of the first one at or after `c`. -/
def rank (p : α → Bool) (xs : List α) (c : ℕ) : ℕ := (xs.take c).countP p

@[simp] theorem rank_zero : rank p xs 0 = 0 := rfl

/-- **The element a selection shows** at the rank of `c` is the first selected one at or after `c`. -/
theorem getElem?_filter_rank (p : α → Bool) (xs : List α) (c : ℕ) :
    (xs.filter p)[rank p xs c]? = (xs.drop c).find? p := by
  have hsplit : xs.filter p = (xs.take c).filter p ++ (xs.drop c).filter p := by
    rw [← filter_append, take_append_drop]
  rw [hsplit, rank, countP_eq_length_filter, getElem?_append_right (Nat.le_refl _),
    Nat.sub_self, ← head?_eq_getElem?, head?_filter]

theorem rank_succ (hx : xs[c]? = some x) :
    rank p xs (c + 1) = rank p xs c + if p x = true then 1 else 0 := by
  grind [rank, take_add_one]

theorem rank_succ_of_selected (hx : xs[c]? = some x) (hp : p x = true) :
    rank p xs (c + 1) = rank p xs c + 1 := by
  rw [rank_succ hx, if_pos hp]

theorem rank_eq_of_none (hcd : c ≤ d)
    (h : ∀ i, c ≤ i → i < d → ∀ x, xs[i]? = some x → p x = false) :
    rank p xs d = rank p xs c := by
  induction d with
  | zero =>
    have : c = 0 := Nat.le_zero.mp hcd
    rw [this]
  | succ d ih =>
    rcases Nat.eq_or_lt_of_le hcd with rfl | hlt
    · rfl
    · have ih := ih (Nat.le_of_lt_succ hlt) fun i hi hid => h i hi (Nat.lt_succ_of_lt hid)
      cases hx : xs[d]? with
      | none =>
        grind [take_of_length_le, rank]
      | some x =>
        grind [rank_succ]

theorem rank_of_length_le (h : xs.length ≤ c) : rank p xs c = (xs.filter p).length := by
  rw [rank, take_of_length_le h, countP_eq_length_filter]

theorem getElem?_rank_of_selected (hx : xs[c]? = some x) (hp : p x = true) :
    (xs.filter p)[rank p xs c]? = some x := by
  rw [getElem?_filter_rank]
  grind [drop_eq_getElem_cons]

/-- **Seeking in a selection**: if the selected elements before `c` fail `q` and those from `c` on
satisfy it, the selection is sought to the rank of `c`. -/
theorem seek_filter (hbefore : ∀ i < c, ∀ x, xs[i]? = some x → p x = true → q x = false)
    (hafter : ∀ i, c ≤ i → ∀ x, xs[i]? = some x → p x = true → q x = true) :
    seek (xs.filter p) q = rank p xs c := by
  have hsplit : xs.filter p = (xs.take c).filter p ++ (xs.drop c).filter p := by
    rw [← filter_append, take_append_drop]
  have hfront : ∀ x ∈ (xs.take c).filter p, q x = false := by
    intro x hx
    obtain ⟨hx, hp⟩ := mem_filter.mp hx
    obtain ⟨i, hi⟩ := getElem?_of_mem hx
    grind
  rw [seek, hsplit, findIdx_append, rank, countP_eq_length_filter,
    findIdx_eq_length_of_false hfront, if_neg (Nat.lt_irrefl _)]
  cases hback : (xs.drop c).filter p with
  | nil => simp
  | cons y ys =>
    have hy : y ∈ (xs.drop c).filter p := hback ▸ mem_cons_self
    obtain ⟨hy, hp⟩ := mem_filter.mp hy
    obtain ⟨i, hi⟩ := getElem?_of_mem hy
    grind

end Cursor
