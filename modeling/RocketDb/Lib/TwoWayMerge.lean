import Mathlib.Data.List.Basic

/-! # Merging two lists by a loop

The loop takes the smaller head until one list is empty, and prefers the first list on ties. **`twoWayMerge`**
runs it with the total length as fuel; **`twoWayMerge_eq`** identifies it with `List.merge`. -/

namespace TwoWayMerge

variable {α : Type*}

/-- The merge loop, for at most `fuel` heads. -/
def mergeLoop (le : α → α → Bool) : ℕ → List α → List α → List α
  | 0, xs, ys => xs ++ ys
  | _ + 1, [], ys => ys
  | _ + 1, x :: xs, [] => x :: xs
  | fuel + 1, x :: xs, y :: ys =>
    if le x y then x :: mergeLoop le fuel xs (y :: ys) else y :: mergeLoop le fuel (x :: xs) ys

/-- Merge two lists. -/
def twoWayMerge (le : α → α → Bool) (xs ys : List α) : List α :=
  mergeLoop le (xs.length + ys.length) xs ys

theorem mergeLoop_eq (le : α → α → Bool) {fuel : ℕ} {xs ys : List α}
    (h : xs.length + ys.length ≤ fuel) : mergeLoop le fuel xs ys = List.merge xs ys le := by
  induction fuel generalizing xs ys with
  | zero =>
    have hx : xs = [] := List.eq_nil_of_length_eq_zero (by omega)
    have hy : ys = [] := List.eq_nil_of_length_eq_zero (by omega)
    simp [hx, hy, mergeLoop]
  | succ fuel ih =>
    cases xs with
    | nil => simp [mergeLoop]
    | cons x xs =>
      cases ys with
      | nil => simp [mergeLoop]
      | cons y ys =>
        grind [mergeLoop, List.cons_merge_cons]

/-- **The loop is `List.merge`.** -/
theorem twoWayMerge_eq (le : α → α → Bool) (xs ys : List α) :
    twoWayMerge le xs ys = List.merge xs ys le :=
  mergeLoop_eq le (Nat.le_refl _)

end TwoWayMerge
