import Mathlib.Data.Prod.Lex

/-! # Comparison functions as linear orders of classes

A three-way comparison `cmp` with `Std.TransCmp` is a total preorder. Here it becomes the **linear order of
its classes**, so that what a program learns by calling `cmp` is an inequality between `cls cmp a` and
`cls cmp b`.

* **`Class cmp`** — the quotient by `cmp a b = .eq`, with its linear order.
* **`Versioned cmp`** — pairs ordered by class ascending and then version *descending*: the order of a
  multi-version store, in which the newest version of a key is met first. -/

namespace KeyOrder

variable {α : Type*} (cmp : α → α → Ordering) [Std.TransCmp cmp] {a b : α}

/-! ## The classes of a comparison -/

/-- Elements that compare equal. -/
def setoid : Setoid α where
  r a b := cmp a b = .eq
  iseqv :=
    { refl := fun _ => Std.ReflCmp.compare_self
      symm := Std.OrientedCmp.eq_symm
      trans := Std.TransCmp.eq_trans }

/-- The **classes** of a comparison: elements that compare equal are identified. -/
def Class : Type _ := Quotient (setoid cmp)

/-- The class of an element. -/
def cls (a : α) : Class cmp := Quotient.mk (setoid cmp) a

theorem isLE_congr {a₁ b₁ a₂ b₂ : α} (ha : cmp a₁ a₂ = .eq) (hb : cmp b₁ b₂ = .eq) :
    (cmp a₁ b₁).isLE = (cmp a₂ b₂).isLE := by
  rw [Std.TransCmp.congr_left ha, Std.TransCmp.congr_right hb]

instance : LE (Class cmp) :=
  ⟨Quotient.lift₂ (fun a b => (cmp a b).isLE = true) fun _ _ _ _ ha hb => by
    rw [isLE_congr cmp ha hb]⟩

theorem cls_le_iff_isLE : cls cmp a ≤ cls cmp b ↔ (cmp a b).isLE = true := Iff.rfl

open Classical in
noncomputable instance : LinearOrder (Class cmp) where
  le_refl := by
    rintro ⟨a⟩
    show (cmp a a).isLE = true
    rw [show cmp a a = .eq from Std.ReflCmp.compare_self]; rfl
  le_trans := by
    rintro ⟨a⟩ ⟨b⟩ ⟨c⟩
    exact Std.TransCmp.isLE_trans
  le_antisymm := by
    rintro ⟨a⟩ ⟨b⟩ hab hba
    exact Quotient.sound (Std.OrientedCmp.isLE_antisymm hab hba)
  le_total := by
    rintro ⟨a⟩ ⟨b⟩
    show (cmp a b).isLE = true ∨ (cmp b a).isLE = true
    rcases h : cmp a b with _ | _ | _
    · exact Or.inl rfl
    · exact Or.inl rfl
    · exact Or.inr (by rw [Std.OrientedCmp.lt_of_gt h]; rfl)
  toDecidableLE := Classical.decRel _

variable {cmp}

/-- Equal keys are one class. -/
theorem cls_eq_iff : cls cmp a = cls cmp b ↔ cmp a b = .eq :=
  ⟨fun h => Quotient.exact h, fun h => Quotient.sound h⟩

theorem cls_lt_iff_gt : cls cmp b < cls cmp a ↔ cmp a b = .gt := by
  rw [← not_le, cls_le_iff_isLE]
  cases cmp a b <;> simp

theorem cls_lt_iff : cls cmp a < cls cmp b ↔ cmp a b = .lt := by
  rw [cls_lt_iff_gt, Std.OrientedCmp.gt_iff_lt]

theorem cls_le_iff : cls cmp a ≤ cls cmp b ↔ cmp a b ≠ .gt := by
  rw [← not_lt, cls_lt_iff_gt]

theorem cls_le_iff_ne_lt : cls cmp b ≤ cls cmp a ↔ cmp a b ≠ .lt := by
  rw [← not_lt, cls_lt_iff]

/-! ## Versioned keys -/

variable (cmp) in
/-- A key class with a version, ordered by class and then by **descending** version. -/
abbrev Versioned : Type _ := Class cmp ×ₗ ℕᵒᵈ

variable (cmp) in
/-- The versioned key of a representative. -/
def versioned (a : α) (version : ℕ) : Versioned cmp := toLex (cls cmp a, OrderDual.toDual version)

/-- Versions of a key come from the newest to the oldest. -/
theorem versioned_lt_iff {m n : ℕ} :
    versioned cmp a m < versioned cmp b n ↔
      cls cmp a < cls cmp b ∨ cls cmp a = cls cmp b ∧ n < m := by
  rw [versioned, versioned, Prod.Lex.toLex_lt_toLex]
  exact Iff.rfl

theorem versioned_le_iff {m n : ℕ} :
    versioned cmp a m ≤ versioned cmp b n ↔
      cls cmp a < cls cmp b ∨ cls cmp a = cls cmp b ∧ n ≤ m := by
  rw [versioned, versioned, Prod.Lex.toLex_le_toLex]
  exact Iff.rfl

theorem versioned_eq_iff {m n : ℕ} :
    versioned cmp a m = versioned cmp b n ↔ cls cmp a = cls cmp b ∧ m = n := by
  simp [versioned]

theorem cls_le_of_versioned_le {m n : ℕ} (h : versioned cmp a m ≤ versioned cmp b n) :
    cls cmp a ≤ cls cmp b := by
  rcases versioned_le_iff.mp h with h | ⟨h, -⟩
  exacts [h.le, h.le]

end KeyOrder
