import Mathlib.Tactic.Common

/-!
# Runs of events

A system that takes an event at a time, if it can. A property of the states
holds throughout a run, or a condition is met by its steps, and one lemma
about a step relates the two.
-/

namespace EventRuns

variable {W E : Type} (step : W → E → Option W)

/-- The property holds in every state of the run; an event that cannot happen
ends it. -/
def Throughout (Good : W → Prop) : W → List E → Prop
  | w, [] => Good w
  | w, e :: es => Good w ∧ ∀ w', step w e = some w' → Throughout Good w' es

/-- Every step of the run meets the condition. -/
def Along (C : W → E → Prop) : W → List E → Prop
  | _, [] => True
  | w, e :: es => ∀ w', step w e = some w' → C w e ∧ Along C w' es

variable {step} {Good Inv : W → Prop} {C : W → E → Prop}

theorem Throughout.good {w : W} {es : List E} (h : Throughout step Good w es) : Good w := by
  cases es with
  | nil => exact h
  | cons e es => exact h.1

/-- **Steps that decide**: where a step that meets the condition keeps an
invariant, and one that does not spoils the property, the property holds
throughout exactly the runs whose steps meet the condition. -/
theorem throughout_iff_along (hgood : ∀ w, Inv w → Good w)
    (hkeep : ∀ w e w', Inv w → step w e = some w' → C w e → Inv w')
    (hspoil : ∀ w e w', Inv w → step w e = some w' → ¬ C w e → ¬ Good w')
    {w : W} (hw : Inv w) {es : List E} :
    Throughout step Good w es ↔ Along step C w es := by
  induction es generalizing w with
  | nil => exact ⟨fun _ => trivial, fun _ => hgood w hw⟩
  | cons e es ih =>
    constructor
    · intro h w' hstep
      have hrest := h.2 w' hstep
      have hC : C w e := by
        by_contra hC
        exact hspoil w e w' hw hstep hC hrest.good
      exact ⟨hC, (ih (hkeep w e w' hw hstep hC)).1 hrest⟩
    · intro h
      refine ⟨hgood w hw, fun w' hstep => ?_⟩
      obtain ⟨hC, hrest⟩ := h w' hstep
      exact (ih (hkeep w e w' hw hstep hC)).2 hrest

/-- **Conditions that say the same** where an invariant holds are met by the
steps of the same runs. -/
theorem along_congr {C' : W → E → Prop} (hkeep : ∀ w e w', Inv w → step w e = some w' → Inv w')
    (hiff : ∀ w e, Inv w → (C w e ↔ C' w e)) {w : W} (hw : Inv w) {es : List E} :
    Along step C w es ↔ Along step C' w es := by
  induction es generalizing w with
  | nil => exact Iff.rfl
  | cons e es ih =>
    refine forall_congr' fun w' => forall_congr' fun hstep => ?_
    rw [hiff w e hw, ih (hkeep w e w' hw hstep)]

/-- What every step keeps, every run does. -/
theorem throughout_of_step (hkeep : ∀ w e w', Good w → step w e = some w' → Good w')
    {w : W} (hw : Good w) (es : List E) : Throughout step Good w es := by
  induction es generalizing w with
  | nil => exact hw
  | cons e es ih => exact ⟨hw, fun w' hstep => ih (hkeep w e w' hw hstep)⟩

end EventRuns
