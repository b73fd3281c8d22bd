import Mathlib.Data.List.Basic
import Mathlib.Order.Lattice

/-! # Best-so-far loops

`best better proj k as` is the loop that keeps the best key seen so far; `best_spec`: its result is one of the
keys and no key is better, for any linear order that `better` reads. The dual order gives maxima. -/

namespace RunningBest

variable {α κ β : Type*} [LinearOrder β]

/-- The best of `k` and the keys of `as`; the earliest wins on ties. -/
def best (better : κ → κ → Bool) (proj : α → κ) (k : κ) (as : List α) : κ :=
  as.foldl (fun k a => if better (proj a) k then proj a else k) k

/-- **The result is an extremum**: `k` or the key of an element, and at least as good as all of
them. -/
theorem best_spec {better : κ → κ → Bool} {rank : κ → β} (proj : α → κ)
    (hbetter : ∀ x y, better x y = true ↔ rank x < rank y) (k : κ) (as : List α) :
    (best better proj k as = k ∨ ∃ a ∈ as, proj a = best better proj k as) ∧
      rank (best better proj k as) ≤ rank k ∧
      ∀ a ∈ as, rank (best better proj k as) ≤ rank (proj a) := by
  induction as generalizing k with
  | nil => exact ⟨Or.inl rfl, le_rfl, by simp⟩
  | cons a as ih =>
    have hfold : best better proj k (a :: as) =
        best better proj (if better (proj a) k then proj a else k) as := rfl
    grind

theorem foldl_prod {γ δ : Type*} (f : γ → α → γ) (g : δ → α → δ) (as : List α) (c : γ) (d : δ) :
    as.foldl (fun r a => (f r.1 a, g r.2 a)) (c, d) = (as.foldl f c, as.foldl g d) := by
  induction as generalizing c d with
  | nil => rfl
  | cons a as ih => exact ih (f c a) (g d a)

end RunningBest
