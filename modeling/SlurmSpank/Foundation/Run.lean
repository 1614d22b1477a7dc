/-! # Runs of a labelled transition relation

A run lists the labels of its steps in order. An invariant is proved from one step
and used for every run; a condition on the steps restricts the runs it is used for.
-/

namespace SlurmSpank.Foundation

universe u v w x

variable {State : Type u} {Label : Type v}

/-- The runs of a step relation from a fixed state, with their labels. -/
inductive Run (step : State → Label → State → Prop) (start : State) :
    List Label → State → Prop
  | start : Run step start [] start
  | extend {labels : List Label} {label : Label} {before after : State}
      (prior : Run step start labels before) (last : step before label after) :
      Run step start (labels ++ [label]) after

namespace Run

variable {step : State → Label → State → Prop} {start : State}

/-- A predicate preserved by every step holds at the end of every run from a state
that has it. -/
theorem invariant (holds : State → Prop)
    (hstep : ∀ before label after, holds before → step before label after → holds after)
    (hstart : holds start) {labels : List Label} {state : State}
    (run : Run step start labels state) : holds state := by
  induction run with
  | start => exact hstart
  | extend prior last ih => exact hstep _ _ _ ih last

/-- A step in front of a run. -/
theorem cons {label : Label} {next state : State} {labels : List Label}
    (first : step start label next) (run : Run step next labels state) :
    Run step start (label :: labels) state := by
  induction run with
  | start => exact .extend .start first
  | extend prior last ih => exact .extend ih last

/-- A run of a stronger relation is a run of a weaker one. -/
theorem mono {other : State → Label → State → Prop}
    (himp : ∀ before label after, step before label after → other before label after)
    {labels : List Label} {state : State} (run : Run step start labels state) :
    Run other start labels state := by
  induction run with
  | start => exact .start
  | extend prior last ih => exact .extend ih (himp _ _ _ last)

/-- A forward simulation carries runs to runs with the mapped labels. -/
theorem simulate {Abstract : Type w} {Event : Type x}
    {spec : Abstract → Event → Abstract → Prop} (related : State → Abstract → Prop)
    (event : Label → Event)
    (hstep : ∀ before label after abstract, related before abstract →
      step before label after → ∃ next, spec abstract (event label) next ∧ related after next)
    {origin : Abstract} (hstart : related start origin)
    {labels : List Label} {state : State} (run : Run step start labels state) :
    ∃ final, Run spec origin (labels.map event) final ∧ related state final := by
  induction run with
  | start => exact ⟨origin, .start, hstart⟩
  | extend prior last ih =>
      obtain ⟨abstract, hrun, hrelated⟩ := ih
      obtain ⟨next, hspec, hnext⟩ := hstep _ _ _ _ hrelated last
      exact ⟨next, by simpa using Run.extend hrun hspec, hnext⟩

end Run

end SlurmSpank.Foundation
