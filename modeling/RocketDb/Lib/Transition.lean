import Mathlib.Data.Option.Basic
import Mathlib.Logic.Basic

/-! # Runs of a partial step function

A system is given by `step : σ → α → Option σ`: in state `s` the action `a` is refused or leads to one next
state.

* **`run step s as`** — the state after a list of actions, if none is refused.
* **`Along step good s as`** — every action of the run is taken in a state that meets `good`.
* **`run_induction`** — what holds initially and is preserved by every good step holds after every good run.
* **`run_history_induction`** — the same for invariants that look back at the actions.
* **`run_progress`** — the same with no step refused.
* **`run_rel_of_mem`** — the simulation rule, for two systems with the same actions. -/

namespace Transition

variable {σ α : Type*} (step : σ → α → Option σ)

/-- The state after a list of actions. -/
def run (s : σ) : List α → Option σ
  | [] => some s
  | a :: as =>
    match step s a with
    | none => none
    | some s' => run s' as

/-- Every action of the run from `s` is taken in a state that meets `good`. -/
def Along (good : σ → α → Prop) (s : σ) : List α → Prop
  | [] => True
  | a :: as =>
    good s a ∧
      match step s a with
      | none => True
      | some s' => Along good s' as

instance decidableAlong (good : σ → α → Prop) [∀ s a, Decidable (good s a)] :
    ∀ (s : σ) (as : List α), Decidable (Along step good s as)
  | _, [] => isTrue trivial
  | s, a :: as =>
    match h : step s a with
    | none => decidable_of_iff (good s a) (by simp [Along, h])
    | some s' =>
      have := decidableAlong good s' as
      decidable_of_iff (good s a ∧ Along step good s' as) (by simp [Along, h])

variable {step} {as : List α} {good : σ → α → Prop} {s : σ} {Inv : σ → Prop} {τ β : Type*} {f : σ → β}
  {g : τ → β}

theorem run_cons_eq_some {s t : σ} {a : α} :
    run step s (a :: as) = some t ↔ ∃ s', step s a = some s' ∧ run step s' as = some t := by
  grind [run]

theorem run_append {as bs : List α} :
    run step s (as ++ bs) = (run step s as).bind (fun s' => run step s' bs) := by
  induction as generalizing s with
  | nil => rfl
  | cons a as ih =>
    grind [run]

theorem run_concat_eq_some {s t : σ} {a : α} :
    run step s (as ++ [a]) = some t ↔ ∃ s', run step s as = some s' ∧ step s' a = some t := by
  rw [run_append, Option.bind_eq_some_iff]
  refine exists_congr fun s' => and_congr_right fun _ => ?_
  rw [run_cons_eq_some]
  simp [run]

theorem along_append {as bs : List α} :
    Along step good s (as ++ bs) ↔
      Along step good s as ∧ ∀ s', run step s as = some s' → Along step good s' bs := by
  induction as generalizing s with
  | nil => simp [Along, run]
  | cons a as ih =>
    grind [Along, run]

theorem along_of_forall {good : α → Prop} (h : ∀ a ∈ as, good a) :
    Along step (fun _ a => good a) s as := by
  induction as generalizing s with
  | nil => trivial
  | cons a as ih =>
    refine ⟨h a List.mem_cons_self, ?_⟩
    grind

/-- **The invariant rule.** An invariant that every good step preserves holds after every good
run. -/
theorem run_induction (hstep : ∀ s a s', Inv s → good s a → step s a = some s' → Inv s') {s t : σ}
    (hs : Inv s) (hgood : Along step good s as) (hrun : run step s as = some t) : Inv t := by
  induction as generalizing s with
  | nil =>
    cases hrun
    exact hs
  | cons a as ih =>
    obtain ⟨s', hs', hrest⟩ := run_cons_eq_some.mp hrun
    obtain ⟨hga, hgas⟩ := hgood
    grind

/-- **The invariant rule with a history.** The invariant may speak of the actions taken so far. -/
theorem run_history_induction {Inv : List α → σ → Prop}
    (hstep : ∀ as s a s', Inv as s → good s a → step s a = some s' → Inv (as ++ [a]) s') {s t : σ}
    (hs : Inv [] s) (hgood : Along step good s as) (hrun : run step s as = some t) : Inv as t := by
  suffices h : ∀ (bs : List α) (s : σ), Inv bs s → Along step good s as →
      run step s as = some t → Inv (bs ++ as) t from h [] s hs hgood hrun
  clear hs hgood hrun
  induction as with
  | nil =>
    intro bs s hs _ hrun
    cases hrun
    rwa [List.append_nil]
  | cons a as ih =>
    intro bs s hs hgood hrun
    obtain ⟨s', hs', hrest⟩ := run_cons_eq_some.mp hrun
    obtain ⟨hga, hgas⟩ := hgood
    -- the action joins the history
    grind

/-- **The progress rule.** If no good step is refused in a state that meets an invariant, and the
invariant is preserved, a good run goes through. -/
theorem run_progress (hstep : ∀ s a, Inv s → good s a → ∃ s', step s a = some s' ∧ Inv s') (hs : Inv s)
    (hgood : Along step good s as) :
    ∃ t, run step s as = some t ∧ Inv t := by
  induction as generalizing s with
  | nil => exact ⟨s, rfl, hs⟩
  | cons a as ih =>
    obtain ⟨hga, hgas⟩ := hgood
    obtain ⟨s', hs', hinv⟩ := hstep s a hs hga
    rw [hs'] at hgas
    obtain ⟨t, hrun, ht⟩ := ih hinv hgas
    exact ⟨t, run_cons_eq_some.mpr ⟨s', hs', hrun⟩, ht⟩

/-- The invariant rule for a property that every step preserves. -/
theorem run_invariant (hstep : ∀ s a s', Inv s → step s a = some s' → Inv s') {s t : σ} (hs : Inv s)
    (hrun : run step s as = some t) : Inv t := by
  induction as generalizing s with
  | nil =>
    cases hrun
    exact hs
  | cons a as ih =>
    obtain ⟨s', hs', hrest⟩ := run_cons_eq_some.mp hrun
    exact ih (hstep s a s' hs hs') hrest

/-- A step that acts on the image of `f` as another one acts on its source runs as that one does. -/
theorem run_embed {step' : τ → α → Option τ} {f : σ → τ} (hstep : ∀ s a, step' (f s) a = (step s a).map f)
    (s : σ) (as : List α) : run step' (f s) as = (run step s as).map f := by
  induction as generalizing s with
  | nil => rfl
  | cons a as ih =>
    grind [run]

/-- **The simulation rule.** If related states refuse the same actions and step to related states,
their runs are related. The actions may be restricted to those of the run. -/
theorem run_rel_of_mem {τ : Type*} {step' : τ → α → Option τ} {R : σ → τ → Prop}
    (hstep : ∀ s t, ∀ a ∈ as, R s t → Option.Rel R (step s a) (step' t a)) {t : τ} (h : R s t) :
    Option.Rel R (run step s as) (run step' t as) := by
  induction as generalizing s t with
  | nil => exact .some h
  | cons a as ih =>
    have ha := hstep s t a List.mem_cons_self h
    rw [run, run]
    cases hs : step s a <;> cases ht : step' t a <;> rw [hs, ht] at ha <;> cases ha
    · exact .none
    · grind

theorem run_map_eq_of_mem {step' : τ → α → Option τ} {R : σ → τ → Prop}
    (hstep : ∀ s t, ∀ a ∈ as, R s t → Option.Rel R (step s a) (step' t a))
    (hshow : ∀ s t, R s t → f s = g t) {t : τ} (h : R s t) :
    (run step s as).map f = (run step' t as).map g := by
  have hrel := run_rel_of_mem hstep h
  generalize run step s as = x at hrel ⊢
  generalize run step' t as = y at hrel ⊢
  cases hrel with
  | none => rfl
  | some hxy => exact congrArg some (hshow _ _ hxy)

theorem run_map_eq {step' : τ → α → Option τ} {R : σ → τ → Prop}
    (hstep : ∀ s t a, R s t → Option.Rel R (step s a) (step' t a)) (hshow : ∀ s t, R s t → f s = g t)
    {t : τ} (h : R s t) (as : List α) :
    (run step s as).map f = (run step' t as).map g :=
  run_map_eq_of_mem (fun s t a _ => hstep s t a) hshow h

/-- A run that can be evaluated reaches a state in which a decidable property can be evaluated. -/
theorem reaches_of_any {p : σ → Prop} [DecidablePred p]
    (h : (run step s as).any (fun t => decide (p t)) = true) :
    ∃ t, run step s as = some t ∧ p t := by
  simpa [Option.any_eq_true] using h

end Transition
