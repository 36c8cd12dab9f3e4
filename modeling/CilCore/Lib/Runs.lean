/-!
# Runs of a deterministic machine

A machine takes one step for each event. A condition on the state and the event
that comes there may hold at every step of a run; a run whose steps all meet it
keeps what one such step keeps.
-/

namespace Runs

variable {S E : Type} (step : S → E → S)

/-- Where a run leads. -/
def after (s : S) (events : List E) : S := events.foldl step s

/-- A condition on a state and the event that comes there holds at every step of a run. -/
def EveryStep (P : S → E → Prop) : S → List E → Prop
  | _, [] => True
  | s, event :: rest => P s event ∧ EveryStep P (step s event) rest

variable {step} {P Q : S → E → Prop} {I : S → Prop}

instance EveryStep.decidable [∀ s event, Decidable (P s event)] :
    ∀ s events, Decidable (EveryStep step P s events)
  | _, [] => inferInstanceAs (Decidable True)
  | s, event :: rest =>
      have := EveryStep.decidable (step s event) rest
      inferInstanceAs (Decidable (_ ∧ _))

/-- What one step keeps that meets the condition, a run keeps whose steps all meet it. -/
theorem EveryStep.invariant (hstep : ∀ s event, I s → P s event → I (step s event))
    {s : S} {events : List E} (h : EveryStep step P s events) (hs : I s) :
    I (after step s events) := by
  induction events generalizing s with
  | nil => exact hs
  | cons event rest ih => exact ih h.2 (hstep s event hs h.1)

theorem everyStep_append {s : S} {before later : List E} :
    EveryStep step P s (before ++ later) ↔
      EveryStep step P s before ∧ EveryStep step P (after step s before) later := by
  induction before generalizing s with
  | nil => exact ⟨fun h => ⟨trivial, h⟩, fun h => h.2⟩
  | cons event rest ih =>
      simp only [List.cons_append, EveryStep, ih, and_assoc]
      rfl

theorem after_append (s : S) (before later : List E) :
    after step s (before ++ later) = after step (after step s before) later :=
  List.foldl_append

theorem after_concat (s : S) (events : List E) (event : E) :
    after step s (events ++ [event]) = step (after step s events) event :=
  after_append s events [event]

theorem everyStep_concat {s : S} {events : List E} {event : E} :
    EveryStep step P s (events ++ [event]) ↔
      EveryStep step P s events ∧ P (after step s events) event := by
  rw [everyStep_append, EveryStep, EveryStep, and_true]

/-- What every step keeps, a run keeps. -/
theorem invariant_after (hstep : ∀ s event, I s → I (step s event)) {s : S} (hs : I s)
    (events : List E) : I (after step s events) := by
  induction events generalizing s with
  | nil => exact hs
  | cons event rest ih => exact ih (hstep s event hs)

/-- Two conditions that agree on the states of an invariant agree on runs, if a step
that meets the first keeps the invariant. -/
theorem everyStep_congr (hstep : ∀ s event, I s → P s event → I (step s event))
    (hiff : ∀ s event, I s → (P s event ↔ Q s event)) {s : S} (hs : I s) (events : List E) :
    EveryStep step P s events ↔ EveryStep step Q s events := by
  induction events generalizing s with
  | nil => exact Iff.rfl
  | cons event rest ih =>
      constructor
      · intro h
        exact ⟨(hiff s event hs).mp h.1, (ih (hstep s event hs h.1)).mp h.2⟩
      · intro h
        have hfirst := (hiff s event hs).mpr h.1
        exact ⟨hfirst, (ih (hstep s event hs hfirst)).mpr h.2⟩

end Runs
