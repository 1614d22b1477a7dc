import Mathlib.Tactic.Common
import SlurmSpank.UseEnv.Session

/-! # Evaluating runs

Runs of the machine on given files are computed with a bound on the number of steps. A run
that is computed is a run.
-/

namespace SlurmSpank.UseEnv

open Foundation Lib

universe u

variable {E : Type u} {w : World E}

namespace Machine

/-- The machine after some steps, each from a machine that has a property. -/
def after (w : World E) (holds : Machine E → Bool) : Nat → Machine E → Option (Machine E)
  | 0, m => some m
  | n + 1, m =>
      match holds m, m.step w with
      | true, .next m' _ => after w holds n m'
      | _, _ => none

/-- The machine after some steps, with the statements that they execute. -/
def stepsFor (w : World E) : Nat → Machine E → Option (List Action × Machine E)
  | 0, m => some ([], m)
  | n + 1, m =>
      match m.step w with
      | .next m' executed =>
          (stepsFor w n m').map fun result => (executed.toList ++ result.1, result.2)
      | _ => none

theorem steps_of_stepsFor {n : Nat} {m m' : Machine E} {actions : List Action}
    (hsteps : m.stepsFor w n = some (actions, m')) : Steps w m actions m' := by
  induction n generalizing m actions with
  | zero =>
      obtain ⟨rfl, rfl⟩ := Prod.mk.inj (Option.some_inj.mp hsteps)
      exact .refl m
  | succ n ih =>
      rw [stepsFor] at hsteps
      split at hsteps
      next next executed hstep =>
        obtain ⟨⟨more, last⟩, hmore, heq⟩ := Option.map_eq_some_iff.mp hsteps
        obtain ⟨rfl, rfl⟩ := Prod.mk.inj heq
        exact .next hstep (ih hmore)
      next => exact absurd hsteps (by simp)

/-- Where the parser stops in the next step, if it does. -/
def stopped (w : World E) (m : Machine E) : Option (Bool × Machine E) :=
  match m.step w with
  | .stop accepted m' => some (accepted, m')
  | _ => none

theorem step_of_stopped {m m' : Machine E} {accepted : Bool}
    (hstopped : m.stopped w = some (accepted, m')) : m.step w = .stop accepted m' := by
  unfold stopped at hstopped
  split at hstopped
  next hstep =>
    obtain ⟨rfl, rfl⟩ := Prod.mk.inj (Option.some_inj.mp hstopped)
    exact hstep
  next => exact absurd hstopped (by simp)

/-- The run of a file, if it ends within the given number of steps. -/
def runFor (w : World E) : Nat → Machine E → Option (List Action × Ending E)
  | 0, _ => none
  | n + 1, m =>
      match m.step w with
      | .next m' executed =>
          (runFor w n m').map fun result => (executed.toList ++ result.1, result.2)
      | .stop accepted m' => some ([], .stop accepted m')
      | .crash => some ([], .crash)

theorem runs_of_runFor {n : Nat} {m : Machine E} {actions : List Action} {ending : Ending E}
    (hrun : m.runFor w n = some (actions, ending)) : Runs w m actions ending := by
  induction n generalizing m actions with
  | zero => exact absurd hrun (by simp [runFor])
  | succ n ih =>
      rw [runFor] at hrun
      split at hrun
      next m' executed hstep =>
        obtain ⟨⟨more, last⟩, hmore, heq⟩ := Option.map_eq_some_iff.mp hrun
        obtain ⟨rfl, rfl⟩ := Prod.mk.inj heq
        exact .next hstep (ih hmore)
      next m' accepted hstep =>
        obtain ⟨rfl, rfl⟩ := Prod.mk.inj (Option.some_inj.mp hrun)
        exact .stop hstep
      next hstep =>
        obtain ⟨rfl, rfl⟩ := Prod.mk.inj (Option.some_inj.mp hrun)
        exact .crash hstep

/-- A run goes on where its first steps have led. -/
theorem Steps.runs {m m' : Machine E} {actions more : List Action} {ending : Ending E}
    (hsteps : Steps w m actions m') (hrun : Runs w m' more ending) :
    Runs w m (actions ++ more) ending := by
  induction hsteps with
  | refl => exact hrun
  | next hstep hrest ih =>
      rw [List.append_assoc]
      exact .next hstep (ih hrun)

theorem Steps.trans {m m' m'' : Machine E} {actions more : List Action}
    (hsteps : Steps w m actions m') (hmore : Steps w m' more m'') :
    Steps w m (actions ++ more) m'' := by
  induction hsteps with
  | refl => exact hmore
  | next hstep hrest ih =>
      rw [List.append_assoc]
      exact .next hstep (ih hmore)

/-- A machine has one run. -/
theorem Runs.unique {m : Machine E} {actions actions' : List Action} {ending ending' : Ending E}
    (hrun : Runs w m actions ending) (hother : Runs w m actions' ending') :
    actions = actions' ∧ ending = ending' := by
  induction hrun generalizing actions' with
  | next hstep hrest ih =>
      cases hother with
      | next hstep' hrest' =>
          obtain ⟨rfl, rfl⟩ := Turn.next.inj (hstep.symm.trans hstep')
          obtain ⟨rfl, rfl⟩ := ih hrest'
          exact ⟨rfl, rfl⟩
      | stop hstep' => exact absurd (hstep.symm.trans hstep') (by simp)
      | crash hstep' => exact absurd (hstep.symm.trans hstep') (by simp)
  | stop hstep =>
      cases hother with
      | next hstep' hrest' => exact absurd (hstep.symm.trans hstep') (by simp)
      | stop hstep' =>
          obtain ⟨rfl, rfl⟩ := Turn.stop.inj (hstep.symm.trans hstep')
          exact ⟨rfl, rfl⟩
      | crash hstep' => exact absurd (hstep.symm.trans hstep') (by simp)
  | crash hstep =>
      cases hother with
      | next hstep' hrest' => exact absurd (hstep.symm.trans hstep') (by simp)
      | stop hstep' => exact absurd (hstep.symm.trans hstep') (by simp)
      | crash hstep' => exact ⟨rfl, rfl⟩

end Machine

namespace Session

variable (allowed : Session E → SessionEvent → Prop)

/-- The steps that are computed from a machine belong to the session that has reached it. -/
theorem exists_run_of_after {s : Session E} {events : List SessionEvent} {m m' : Machine E}
    {holds : Machine E → Bool}
    (hallowed : ∀ m executed, holds m = true → allowed (.reading m) (.read executed))
    (hrun : Run (fun s event s' => SessionStep w s event s' ∧ allowed s event) s events
      (.reading m)) {n : Nat} (hafter : m.after w holds n = some m') :
    ∃ events', Run (fun s event s' => SessionStep w s event s' ∧ allowed s event) s events'
      (.reading m') := by
  induction n generalizing m events with
  | zero =>
      obtain rfl := Option.some_inj.mp hafter
      exact ⟨events, hrun⟩
  | succ n ih =>
      rw [Machine.after] at hafter
      split at hafter
      next next executed hholds hstep =>
        exact ih (hrun.extend ⟨.read hstep, hallowed m _ hholds⟩) hafter
      next => exact absurd hafter (by simp)

/-- The same from the time at which a file is opened. -/
theorem exists_run_of_open {s : Statics E} {path : Text} {m : Machine E}
    {holds : Machine E → Bool}
    (hallowed : ∀ m executed, holds m = true → allowed (.reading m) (.read executed))
    (hopen : allowed (.idle s) (.open path)) {n : Nat}
    (hafter : (s.lexFileInit w.files path).bind (·.after w holds n) = some m) :
    ∃ events, Run (fun s event s' => SessionStep w s event s' ∧ allowed s event) (.idle s) events
      (.reading m) := by
  obtain ⟨first, hfile, hafter⟩ := Option.bind_eq_some_iff.mp hafter
  exact exists_run_of_after allowed hallowed (Run.start.extend ⟨.opened hfile, hopen⟩) hafter

end Session

/-- A job whose files are listed, with an environment that is a list of variables. -/
def jobWorld (files : List (Text × Text)) : World (List (Text × Text)) where
  setting := ⟨false, fun pattern text => pattern = text, fun _ _ => (0, 0)⟩
  ops := listOps
  files path := files.lookup path

end SlurmSpank.UseEnv
