import Mathlib.Data.List.Nodup
import Mathlib.Logic.Function.Basic

/-! # Hash tables with chains

A table is a function `t : ℕ → List α` from slots to chains. The key of an entry decides its slot.

* **`put`** — replace the entry with the same key in its chain, or append.
* **`Placed`** — every entry is in the slot of its key, and no chain has a key twice.
* **`find?_eq_some`**, **`mem_put`**, **`mem_eraseP`** — the operations in terms of the set of entries.
* **`rebuild`** — a new table for other slots, filled entry by entry. -/

namespace Chains

open List

variable {α κ : Type*} {key : α → κ} {a b : α} {k : κ} {l : List α}

section Chain

variable [DecidableEq κ]

/-- Put an entry into a chain, in the place of the one with its key or at the end. -/
def put (key : α → κ) (a : α) : List α → List α
  | [] => [a]
  | b :: l => if key b = key a then a :: l else b :: put key a l

/-! ## One chain -/

section

variable (hl : (l.map key).Nodup)

include hl

/-- What a chain holds after an insertion. -/
theorem mem_put : b ∈ put key a l ↔ b = a ∨ b ∈ l ∧ key b ≠ key a := by
  induction l with
  | nil => simp [put]
  | cons c l ih =>
    -- the rest of the chain has other keys
    grind [put]

theorem nodup_put : ((put key a l).map key).Nodup := by
  induction l with
  | nil => simp [put]
  | cons c l ih =>
    grind [put, mem_put]

theorem find?_eq_some :
    l.find? (fun b => decide (key b = k)) = some a ↔ a ∈ l ∧ key a = k := by
  induction l with
  | nil => simp
  | cons c l ih =>
    grind

theorem mem_eraseP :
    b ∈ l.eraseP (fun x => decide (key x = k)) ↔ b ∈ l ∧ key b ≠ k := by
  induction l with
  | nil => simp
  | cons c l ih =>
    grind

theorem nodup_eraseP :
    ((l.eraseP fun x => decide (key x = k)).map key).Nodup :=
  hl.sublist (eraseP_sublist.map key)

end

/-- An insertion under a new key makes the chain longer. -/
theorem length_put :
    (put key a l).length =
      l.length + if (l.find? fun b => decide (key b = key a)).isNone then 1 else 0 := by
  induction l with
  | nil => rfl
  | cons c l ih =>
    grind [put]

end Chain

/-! ## Tables -/

variable {slot slot' : κ → ℕ} {t : ℕ → List α}

/-- Every entry is in the slot of its key, and no chain has a key twice. -/
structure Placed (key : α → κ) (slot : κ → ℕ) (t : ℕ → List α) : Prop where
  slot_eq : ∀ i, ∀ a ∈ t i, slot (key a) = i
  nodup : ∀ i, ((t i).map key).Nodup

/-- The entry is in the table. -/
def Has (key : α → κ) (slot : κ → ℕ) (t : ℕ → List α) (a : α) : Prop := a ∈ t (slot (key a))

theorem Placed.update (h : Placed key slot t) {i : ℕ} (hslot : ∀ a ∈ l, slot (key a) = i)
    (hl : (l.map key).Nodup) : Placed key slot (Function.update t i l) where
  slot_eq j a ha := by
    grind [Placed]
  nodup j := by
    grind [Placed]

section Operations

variable [DecidableEq κ]

section

variable (h : Placed key slot t)

include h

/-- A search in the slot of a key finds the entry of the key. -/
theorem Placed.find?_eq_some :
    (t (slot k)).find? (fun b => decide (key b = k)) = some a ↔ Has key slot t a ∧ key a = k := by
  rw [Chains.find?_eq_some (h.nodup _)]
  constructor
  · rintro ⟨ha, rfl⟩
    exact ⟨ha, rfl⟩
  · rintro ⟨ha, rfl⟩
    exact ⟨ha, rfl⟩

theorem Placed.put (a : α) :
    Placed key slot (Function.update t (slot (key a)) (Chains.put key a (t (slot (key a))))) := by
  grind [Placed, nodup_put, mem_put]

/-- What a table holds after an insertion. -/
theorem Placed.has_put :
    Has key slot (Function.update t (slot (key a)) (Chains.put key a (t (slot (key a))))) b ↔
      b = a ∨ Has key slot t b ∧ key b ≠ key a := by
  rw [Has]
  by_cases hslot : slot (key b) = slot (key a)
  · rw [hslot, Function.update_self, mem_put (h.nodup _), ← hslot, Has]
  · rw [Function.update_of_ne hslot]
    constructor
    · exact fun hb => Or.inr ⟨hb, fun heq => hslot (by rw [heq])⟩
    · rintro (rfl | ⟨hb, -⟩)
      · exact absurd rfl hslot
      · exact hb

theorem Placed.eraseP (k : κ) :
    Placed key slot (Function.update t (slot k)
      ((t (slot k)).eraseP fun x => decide (key x = k))) :=
  h.update (fun b hb => h.slot_eq _ b ((mem_eraseP (h.nodup _)).mp hb).1) (nodup_eraseP (h.nodup _))

/-- What a table holds after a removal. -/
theorem Placed.has_eraseP :
    Has key slot (Function.update t (slot k)
        ((t (slot k)).eraseP fun x => decide (key x = k))) b ↔
      Has key slot t b ∧ key b ≠ k := by
  rw [Has]
  by_cases hslot : slot (key b) = slot k
  · rw [hslot, Function.update_self, mem_eraseP (h.nodup _), ← hslot, Has]
  · rw [Function.update_of_ne hslot]
    exact ⟨fun hb => ⟨hb, fun heq => hslot (by rw [heq])⟩, fun hb => hb.1⟩

end

end Operations

/-! ## All entries, and other slots -/

/-- The entries of the slots below `n`. -/
def entries (n : ℕ) (t : ℕ → List α) : List α := (List.range n).flatMap t

theorem Placed.mem_entries (h : Placed key slot t) {n : ℕ} (hn : ∀ k, slot k < n) :
    a ∈ entries n t ↔ Has key slot t a := by
  grind [entries, Has, Placed]

theorem Placed.nodup_entries (h : Placed key slot t) (n : ℕ) :
    ((entries n t).map key).Nodup := by
  induction n with
  | zero => simp [entries]
  | succ n ih =>
    have hsplit : entries (n + 1) t = entries n t ++ t n := by
      simp [entries, range_succ]
    rw [hsplit, map_append]
    refine nodup_append.mpr ⟨ih, h.nodup n, fun x hx y hy hxy => ?_⟩
    obtain ⟨a, ha, rfl⟩ := mem_map.mp hx
    obtain ⟨b, hb, rfl⟩ := mem_map.mp hy
    obtain ⟨i, hi, ha⟩ := mem_flatMap.mp ha
    -- one key has one slot
    grind [Placed]

/-- The number of entries changes by as much as the slot does. -/
theorem length_entries_update {n i : ℕ} (hi : i < n) (t : ℕ → List α) (l : List α) :
    (entries n (Function.update t i l)).length + (t i).length = (entries n t).length + l.length := by
  have hsplit : ∀ (m : ℕ) (u : ℕ → List α),
      (entries (m + 1) u).length = (entries m u).length + (u m).length := fun m u => by
    simp [entries, range_succ]
  induction n with
  | zero => exact absurd hi (Nat.not_lt_zero i)
  | succ n ih =>
    rw [hsplit, hsplit]
    grind [entries, flatMap_congr]

/-- A table for other slots, filled from the front of the chains. -/
def rebuild (key : α → κ) (slot : κ → ℕ) (l : List α) : ℕ → List α :=
  l.foldl (fun t a => Function.update t (slot (key a)) (a :: t (slot (key a)))) fun _ => []

/-- A slot of the rebuilt table has its entries in reverse order. -/
theorem rebuild_eq (l : List α) (i : ℕ) :
    rebuild key slot l i = (l.filter fun a => decide (slot (key a) = i)).reverse := by
  suffices hgen : ∀ t : ℕ → List α,
      l.foldl (fun t a => Function.update t (slot (key a)) (a :: t (slot (key a)))) t i =
        (l.filter fun a => decide (slot (key a) = i)).reverse ++ t i by
    simpa [rebuild] using hgen fun _ => []
  induction l with
  | nil => simp
  | cons a l ih =>
    intro t
    rw [foldl_cons, ih]
    grind

theorem placed_rebuild (hl : (l.map key).Nodup) : Placed key slot (rebuild key slot l) where
  slot_eq i a ha := by
    grind [rebuild_eq]
  nodup i := by
    grind [rebuild_eq, map_reverse, nodup_reverse]

/-- Rebuilding loses nothing and adds nothing. -/
theorem has_rebuild : Has key slot (rebuild key slot l) a ↔ a ∈ l := by
  rw [Has, rebuild_eq, mem_reverse, mem_filter]
  simp

theorem length_entries_rebuild {n : ℕ} (hn : ∀ k, slot k < n) (l : List α) :
    (entries n (rebuild key slot l)).length = l.length := by
  suffices hgen : ∀ t : ℕ → List α,
      (entries n (l.foldl
        (fun t a => Function.update t (slot (key a)) (a :: t (slot (key a)))) t)).length =
        (entries n t).length + l.length by
    have h := hgen fun _ => []
    rw [show (entries n (fun _ => ([] : List α))).length = 0 by simp [entries]] at h
    rw [rebuild]
    omega
  induction l with
  | nil => exact fun t => rfl
  | cons a l ih =>
    grind [length_entries_update]

end Chains
