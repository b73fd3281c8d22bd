import Mathlib.Data.List.Basic
import Mathlib.Order.Nat

/-! # Binary search for the first element that satisfies a test

`lowerBound p as` halves the index interval as C++ code does. When `p` is **monotone along the list** the
result is the index of the first element that satisfies it (`lowerBound_eq_findIdx`), so a caller can forget
the search. -/

namespace BinarySearch

variable {α : Type*} {p : α → Bool} {as : List α}

/-- The search loop over `[left, right)`. -/
def search (p : α → Bool) (as : List α) : ℕ → ℕ → ℕ → ℕ
  | 0, _, right => right
  | fuel + 1, left, right =>
    if left < right then
      let mid := (left + right) / 2
      match as[mid]? with
      | none => right
      | some a => if p a then search p as fuel left mid else search p as fuel (mid + 1) right
    else right

/-- The index of the first element that satisfies `p`, or the length. -/
def lowerBound (p : α → Bool) (as : List α) : ℕ := search p as as.length 0 as.length

/-- Elements before index `k` fail the test and those from it on, below `n`, pass. -/
def SplitsAt (p : α → Bool) (as : List α) (lo k n : ℕ) : Prop :=
  (∀ i a, lo ≤ i → i < k → as[i]? = some a → p a = false) ∧
    ∀ i a, k ≤ i → i < n → as[i]? = some a → p a = true

/-- **The loop finds the boundary**, given as much fuel as the interval is long. -/
theorem search_splitsAt (hmono : as.Pairwise fun a b => p a = true → p b = true) :
    ∀ fuel left right, left ≤ right → right ≤ as.length → right - left ≤ fuel →
      left ≤ search p as fuel left right ∧ search p as fuel left right ≤ right ∧
        SplitsAt p as left (search p as fuel left right) right := by
  have hle : ∀ (i j : ℕ) a b, i ≤ j → as[i]? = some a → as[j]? = some b → p a = true → p b = true := by
    intro i j a b hij ha hb hpa
    rcases Nat.lt_or_eq_of_le hij with h | rfl
    · obtain ⟨hi, rfl⟩ := List.getElem?_eq_some_iff.mp ha
      obtain ⟨hj, rfl⟩ := List.getElem?_eq_some_iff.mp hb
      exact List.pairwise_iff_getElem.mp hmono i j hi hj h hpa
    · grind
  intro fuel
  induction fuel with
  | zero =>
    intro left right hlr _ hfuel
    rw [search]
    exact ⟨hlr, le_rfl, fun i _ h₁ h₂ => by omega, fun i _ h₁ h₂ => by omega⟩
  | succ fuel ih =>
    intro left right hlr hlen hfuel
    rw [search]
    split_ifs with hlt
    · have hmid : (left + right) / 2 < as.length := by omega
      obtain ⟨m, hm⟩ : ∃ m, as[(left + right) / 2]? = some m := ⟨_, List.getElem?_eq_getElem hmid⟩
      simp only [hm]
      split_ifs with hp
      · -- the boundary is at or before the middle
        obtain ⟨h₁, h₂, h₃, h₄⟩ := ih left ((left + right) / 2) (by omega) (by omega) (by omega)
        refine ⟨h₁, by omega, h₃, fun i a hi hir ha => ?_⟩
        grind
      · -- the boundary is after the middle
        obtain ⟨h₁, h₂, h₃, h₄⟩ := ih ((left + right) / 2 + 1) right (by omega) hlen (by omega)
        refine ⟨by omega, h₂, fun i a hi hik ha => ?_, h₄⟩
        grind
    · exact ⟨hlr, le_rfl, fun i _ h₁ h₂ => by omega, fun i _ h₁ h₂ => by omega⟩

/-- **Binary search is linear search** on a list along which the test is monotone. -/
theorem lowerBound_eq_findIdx (hmono : as.Pairwise fun a b => p a = true → p b = true) :
    lowerBound p as = as.findIdx p := by
  obtain ⟨-, hle, hfail, hpass⟩ :=
    search_splitsAt hmono as.length 0 as.length (Nat.zero_le _) le_rfl (by omega)
  change search p as as.length 0 as.length = _
  generalize search p as as.length 0 as.length = k at hle hfail hpass ⊢
  symm
  rcases Nat.lt_or_eq_of_le hle with hlt | rfl
  · refine (List.findIdx_eq hlt).mpr ⟨?_, fun j hj => ?_⟩
    · exact hpass k as[k] le_rfl hlt (List.getElem?_eq_getElem hlt)
    · exact hfail j as[j] (Nat.zero_le _) hj (List.getElem?_eq_getElem (by omega))
  · refine List.findIdx_eq_length_of_false fun a ha => ?_
    obtain ⟨i, hi, rfl⟩ := List.getElem_of_mem ha
    simp_all

end BinarySearch
