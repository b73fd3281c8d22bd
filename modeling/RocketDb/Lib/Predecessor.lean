import Mathlib.Data.List.Induction
import Mathlib.Data.List.Nodup

/-! # Filters that look one element back

Loops over a sorted sequence often decide about an element from what they remember of the element **directly
before it**, kept or not.

* **`loop step s as`** — the program: a filter that carries a state;
* **`keep drop prev as`** — its meaning: a filter whose test sees the element before;
* **`loop_eq_keep`** — the rule that connects them, by a relation every step preserves;
* **`mem_keep_iff`** — membership in the result, by the predecessor alone;
* **`exists_keep_rel`** — what is kept represents what is dropped. -/

namespace Predecessor

variable {α σ : Type*} {step : σ → α → Bool × σ} {drop : Option α → α → Bool}

/-- A filter loop: `step` says whether the element is dropped, and gives the next state. -/
def loop (step : σ → α → Bool × σ) (s : σ) : List α → List α
  | [] => []
  | a :: as =>
    let (dropped, s') := step s a
    if dropped then loop step s' as else a :: loop step s' as

/-- The elements that `drop` does not reject, given the element directly before. -/
def keep (drop : Option α → α → Bool) (prev : Option α) : List α → List α
  | [] => []
  | a :: as => if drop prev a then keep drop (some a) as else a :: keep drop (some a) as

/-- **The loop rule.** A state that describes the previous element at every step makes the loop
decide by the previous element. -/
theorem loop_eq_keep {R : σ → Option α → Prop}
    (hstep : ∀ s prev a, R s prev → (step s a).1 = drop prev a ∧ R (step s a).2 (some a))
    {s : σ} {prev : Option α} (h : R s prev) (as : List α) :
    loop step s as = keep drop prev as := by
  induction as generalizing s prev with
  | nil => rfl
  | cons a as ih =>
    grind [loop, keep]

theorem keep_sublist {prev : Option α} (as : List α) : (keep drop prev as).Sublist as := by
  induction as generalizing prev with
  | nil => exact List.Sublist.slnil
  | cons a as ih =>
    grind [keep]

theorem keep_append {prev : Option α} (pre rest : List α) :
    keep drop prev (pre ++ rest) =
      keep drop prev pre ++ keep drop (pre.getLast?.or prev) rest := by
  induction pre generalizing prev with
  | nil => simp [keep]
  | cons a as ih =>
    grind [keep]

/-- **Membership.** Without repetitions, an element is kept exactly when its predecessor does not
make the test reject it. -/
theorem mem_keep_iff {a : α} {pre post : List α} (hnd : (pre ++ a :: post).Nodup) :
    a ∈ keep drop none (pre ++ a :: post) ↔ drop pre.getLast? a = false := by
  obtain ⟨-, hnd', hdisj⟩ := List.nodup_append.mp hnd
  have hpre : a ∉ keep drop none pre :=
    fun h => hdisj a ((keep_sublist pre).mem h) a List.mem_cons_self rfl
  grind [keep, keep_sublist, keep_append]

/-- **What is dropped is represented.** If a dropped element is `R`-related to the one directly before it,
every element is related to one that is kept. -/
theorem exists_keep_rel {R S : α → α → Prop} {as : List α} (hrefl : ∀ a, R a a)
    (htrans : ∀ a b c, R a b → R b c → R a c) (hnone : ∀ a, drop none a = false)
    (hdrop : ∀ p a, S p a → drop (some p) a = true → R p a) (hsort : as.Pairwise S) {a : α} (ha : a ∈ as) :
    ∃ n ∈ keep drop none as, R n a := by
  induction as using List.reverseRecOn generalizing a with
  | nil => cases ha
  | append_singleton as b ih =>
    obtain ⟨hsort', -, hlast⟩ := List.pairwise_append.mp hsort
    rw [keep_append, Option.or_none]
    rcases List.mem_append.mp ha with ha | ha
    · grind
    · obtain rfl := List.mem_singleton.mp ha
      cases hd : drop as.getLast? a with
      | false => exact ⟨a, List.mem_append_right _ (by simp [keep, hd]), hrefl a⟩
      | true =>
        cases hp : as.getLast? with
        | none => rw [hp, hnone] at hd; cases hd
        | some p =>
          grind

end Predecessor
