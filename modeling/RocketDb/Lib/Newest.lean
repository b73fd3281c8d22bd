import Mathlib.Data.List.MinMax

/-! # The newest visible element of a multi-version collection

A multi-version store answers a read by the element of **largest version** among those *visible* to the
reader.

* **`newest vis ver es`** — the visible element of largest version, if any.
* **`Distinct vis ver es`** — no two visible elements share a version, so `newest` depends on the *set* only.
* `newest_eq_of_keeps` and `newest_congr`, by which a garbage collector proves that what it removed cannot be
  seen. -/

namespace Newest

open List

variable {ε : Type*} {vis : ε → Bool} {ver : ε → ℕ} {es fs : List ε} {e : ε}

/-- The visible element of largest version. -/
def newest (vis : ε → Bool) (ver : ε → ℕ) (es : List ε) : Option ε :=
  (es.filter vis).argmax ver

/-- No two visible elements share a version. -/
def Distinct (vis : ε → Bool) (ver : ε → ℕ) (es : List ε) : Prop :=
  ∀ a ∈ es, ∀ b ∈ es, vis a = true → vis b = true → ver a = ver b → a = b

theorem Distinct.of_subset (h : Distinct vis ver es) (hsub : ∀ e ∈ fs, e ∈ es) :
    Distinct vis ver fs :=
  fun a ha b hb => h a (hsub a ha) b (hsub b hb)

theorem mem_of_newest (h : newest vis ver es = some e) : e ∈ es :=
  (mem_filter.mp (argmax_mem h)).1

theorem vis_of_newest (h : newest vis ver es = some e) : vis e = true :=
  (mem_filter.mp (argmax_mem h)).2

theorem ver_le_of_newest (h : newest vis ver es = some e) {a : ε} (ha : a ∈ es)
    (hv : vis a = true) : ver a ≤ ver e :=
  le_of_mem_argmax (mem_filter.mpr ⟨ha, hv⟩) h

theorem newest_eq_none_iff : newest vis ver es = none ↔ ∀ a ∈ es, vis a = false := by
  rw [newest, argmax_eq_none, filter_eq_nil_iff]
  simp

theorem exists_newest {a : ε} (ha : a ∈ es) (hv : vis a = true) :
    ∃ e, newest vis ver es = some e ∧ ver a ≤ ver e := by
  cases h : newest vis ver es with
  | none => exact absurd (newest_eq_none_iff.mp h a ha) (by simp [hv])
  | some e => exact ⟨e, rfl, ver_le_of_newest h ha hv⟩

/-- **Characterisation.** With distinct versions, the newest element is the visible element that no
visible element exceeds. -/
theorem newest_eq_some_iff (hd : Distinct vis ver es) :
    newest vis ver es = some e ↔
      e ∈ es ∧ vis e = true ∧ ∀ a ∈ es, vis a = true → ver a ≤ ver e := by
  constructor
  · grind [mem_of_newest, vis_of_newest, ver_le_of_newest]
  · rintro ⟨hmem, hv, hmax⟩
    obtain ⟨f, hf, hle⟩ : ∃ f, newest vis ver es = some f ∧ ver e ≤ ver f := exists_newest hmem hv
    have hfe : ver f ≤ ver e := hmax f (mem_of_newest hf) (vis_of_newest hf)
    rw [hf, hd f (mem_of_newest hf) e hmem (vis_of_newest hf) hv (le_antisymm hfe hle)]

/-- `newest` depends only on the visible elements, as a set. -/
theorem newest_congr (hd : Distinct vis ver es) (h : ∀ a, vis a = true → (a ∈ fs ↔ a ∈ es)) :
    newest vis ver fs = newest vis ver es := by
  have hdf : Distinct vis ver fs := fun a ha b hb hva hvb =>
    hd a ((h a hva).mp ha) b ((h b hvb).mp hb) hva hvb
  cases hes : newest vis ver es with
  | none =>
    grind [newest_eq_none_iff]
  | some e =>
    grind [newest_eq_some_iff]

/-- **Keeping the newest.** Removing elements other than the newest changes nothing. -/
theorem newest_eq_of_keeps (hd : Distinct vis ver es) (hsub : ∀ a ∈ fs, a ∈ es)
    (hkeep : ∀ e, newest vis ver es = some e → e ∈ fs) :
    newest vis ver fs = newest vis ver es := by
  cases hes : newest vis ver es with
  | none =>
    grind [newest_eq_none_iff]
  | some e =>
    rw [newest_eq_some_iff (hd.of_subset hsub)]
    grind [vis_of_newest, ver_le_of_newest]

theorem newest_append_of_invisible (h : newest vis ver es = none) :
    newest vis ver (es ++ fs) = newest vis ver fs := by
  have hnil : es.filter vis = [] := by
    rw [filter_eq_nil_iff]
    intro a ha
    simp [newest_eq_none_iff.mp h a ha]
  rw [newest, newest, filter_append, hnil, nil_append]

/-- **Recency.** The newest of the front wins against a back part all of whose visible elements are
older. -/
theorem newest_append_of_older (hd : Distinct vis ver es) (h : newest vis ver es = some e)
    (hold : ∀ b ∈ fs, vis b = true → ver b < ver e) :
    newest vis ver (es ++ fs) = some e := by
  obtain ⟨f, hf, hle⟩ : ∃ f, newest vis ver (es ++ fs) = some f ∧ ver e ≤ ver f :=
    exists_newest (mem_append_left fs (mem_of_newest h)) (vis_of_newest h)
  rcases mem_append.mp (mem_of_newest hf) with hmem | hmem
  · have hfe := ver_le_of_newest h hmem (vis_of_newest hf)
    rw [hf, hd f hmem e (mem_of_newest h) (vis_of_newest hf) (vis_of_newest h)
      (le_antisymm hfe hle)]
  · grind [vis_of_newest]

/-- **A search from newer to older parts** may stop at the first part in which it finds something. -/
theorem findSome?_newest {ess : List (List ε)} (hd : ∀ es ∈ ess, Distinct vis ver es)
    (hold : ess.Pairwise fun es fs => ∀ a ∈ es, ∀ b ∈ fs, vis a = true → vis b = true →
      ver b < ver a) :
    ess.findSome? (newest vis ver) = newest vis ver ess.flatten := by
  induction ess with
  | nil => rfl
  | cons es ess ih =>
    obtain ⟨hes, hrest⟩ := pairwise_cons.mp hold
    rw [findSome?_cons, flatten_cons]
    cases h : newest vis ver es with
    | none =>
      grind [newest_append_of_invisible]
    | some e =>
      refine (newest_append_of_older (hd es mem_cons_self) h fun b hb hv => ?_).symm
      obtain ⟨fs, hfs, hbfs⟩ := mem_flatten.mp hb
      exact hes fs hfs e (mem_of_newest h) b hbfs (vis_of_newest h) hv

end Newest
