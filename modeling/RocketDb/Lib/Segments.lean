import Mathlib.Data.List.Basic
import Mathlib.Data.List.Flatten
import Mathlib.Order.Nat

/-! # Segments one after another

`xs.flatMap f` holds the segment `f x` of each `x` in turn, and `start f xs k` is where segment `k` begins.
Reading at a position of the whole becomes reading inside one segment (`getElem?_start_add`), and cutting at
the start of a segment leaves the segments from there on (`drop_start`). -/

namespace Segments

open List

variable {α β : Type*} {f : α → List β} {xs ys : List α} {x : α} {k l j : ℕ}

/-- Where segment `k` starts. -/
def start (f : α → List β) (xs : List α) (k : ℕ) : ℕ := ((xs.take k).flatMap f).length

@[simp] theorem start_zero : start f xs 0 = 0 := rfl

theorem start_succ (hx : xs[k]? = some x) : start f xs (k + 1) = start f xs k + (f x).length := by
  grind [start, take_add_one]

theorem start_of_le (h : xs.length ≤ k) : start f xs k = (xs.flatMap f).length := by
  rw [start, take_of_length_le h]

theorem flatMap_split (hx : xs[k]? = some x) :
    xs.flatMap f = (xs.take k).flatMap f ++ (f x ++ (xs.drop (k + 1)).flatMap f) := by
  grind [take_append_drop, drop_eq_getElem_cons]

theorem drop_start (f : α → List β) (xs : List α) (k : ℕ) :
    (xs.flatMap f).drop (start f xs k) = (xs.drop k).flatMap f := by
  grind [take_append_drop, start]

/-- The list from the start of a segment on begins with the segment. -/
theorem drop_start_of_getElem? (hx : xs[k]? = some x) :
    (xs.flatMap f).drop (start f xs k) = f x ++ (xs.drop (k + 1)).flatMap f := by
  grind [drop_start, drop_eq_getElem_cons]

/-- Cutting at the starts of a segment and of the next one. -/
theorem take_drop_start (hx : xs[k]? = some x) :
    ((xs.flatMap f).drop (start f xs k)).take (start f xs (k + 1) - start f xs k) = f x := by
  rw [drop_start_of_getElem? hx, start_succ hx, Nat.add_sub_cancel_left, take_left]

theorem getElem?_start_add (hx : xs[k]? = some x) (hj : j < (f x).length) :
    (xs.flatMap f)[start f xs k + j]? = (f x)[j]? := by
  rw [← getElem?_drop, drop_start_of_getElem? hx, getElem?_append_left hj]

theorem start_add_lt (hx : xs[k]? = some x) (hj : j < (f x).length) :
    start f xs k + j < (xs.flatMap f).length := by
  have h := getElem?_start_add hx hj
  grind

theorem start_mono (h : k ≤ l) : start f xs k ≤ start f xs l := by
  grind [Nat.exists_eq_add_of_le, start]

theorem start_le_length (f : α → List β) (xs : List α) (k : ℕ) :
    start f xs k ≤ (xs.flatMap f).length := by
  rcases Nat.le_total k xs.length with h | h
  · rw [← start_of_le (f := f) (Nat.le_refl xs.length)]
    exact start_mono h
  · rw [start_of_le h]

theorem start_lt_start (hne : ∀ x ∈ xs, f x ≠ []) (h : k < l) (hk : k < xs.length) :
    start f xs k < start f xs l := by
  have hx : xs[k]? = some xs[k] := getElem?_eq_getElem hk
  have hpos := length_pos_of_ne_nil (hne _ (getElem_mem hk))
  calc start f xs k < start f xs (k + 1) := by
        rw [start_succ hx]
        omega
    _ ≤ start f xs l := start_mono h

theorem length_le_length_flatMap (hne : ∀ x ∈ xs, f x ≠ []) : xs.length ≤ (xs.flatMap f).length := by
  induction xs with
  | nil => exact Nat.zero_le _
  | cons x xs ih =>
    grind [length_pos_of_ne_nil]

theorem start_eq_mul {n : ℕ} (h : ∀ x ∈ xs, (f x).length = n) (hk : k ≤ xs.length) :
    start f xs k = k * n := by
  induction k with
  | zero => rw [start_zero, Nat.zero_mul]
  | succ k ih =>
    have hlt : k < xs.length := hk
    rw [start_succ (getElem?_eq_getElem hlt), ih hlt.le, h _ (getElem_mem hlt), Nat.succ_mul]

theorem length_flatMap_eq_mul {n : ℕ} (h : ∀ x ∈ xs, (f x).length = n) :
    (xs.flatMap f).length = xs.length * n := by
  rw [← start_of_le (f := f) (Nat.le_refl xs.length), start_eq_mul h le_rfl]

theorem start_append_left (h : k ≤ xs.length) : start f (xs ++ ys) k = start f xs k := by
  rw [start, take_append_of_le_length h, start]

end Segments
