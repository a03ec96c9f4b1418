import Conduit.Core.Transition

/-!
# Refinement between machines

A concrete machine refines an abstract one when a relation between their states
holds at the start and every permitted step of the concrete machine is matched by
a permitted run of the abstract one.  A step the abstract machine does not see is
matched by the empty run, and a step that does several things at once by one
action for each.
-/

namespace Conduit.Transition

variable {State Label Spec Action : Type*}

/-- A forward simulation, with the abstract actions that match each step. -/
structure Simulation (concrete : Machine State Label) (abstract : Machine Spec Action) where
  Rel : State → Spec → Prop
  actions : State → Label → List Action
  init : ∀ state, concrete.Init state → ∃ spec, abstract.Init spec ∧ Rel state spec
  step : ∀ state spec label, concrete.Reachable state → Rel state spec →
    concrete.Allowed state label →
      abstract.AllowedRun spec (actions state label) ∧
        Rel (concrete.step state label) (abstract.run spec (actions state label))

namespace Simulation

variable {concrete : Machine State Label} {abstract : Machine Spec Action}
  (simulation : Simulation concrete abstract)

/-- The abstract actions that match a run. -/
def trace : State → List Label → List Action
  | _, [] => []
  | state, label :: labels =>
      simulation.actions state label ++ trace (concrete.step state label) labels

/-- A run of the concrete machine is a run of the abstract one. -/
theorem run {state : State} {spec : Spec} {labels : List Label}
    (hreach : concrete.Reachable state) (hrel : simulation.Rel state spec)
    (hallowed : concrete.AllowedRun state labels) :
    abstract.AllowedRun spec (simulation.trace state labels) ∧
      simulation.Rel (concrete.run state labels)
        (abstract.run spec (simulation.trace state labels)) := by
  induction labels generalizing state spec with
  | nil => exact ⟨trivial, hrel⟩
  | cons label labels ih =>
      obtain ⟨hfirst, hnext⟩ := simulation.step state spec label hreach hrel hallowed.1
      obtain ⟨hrest, hlast⟩ := ih (hreach.next label hallowed.1) hnext hallowed.2
      rw [trace, Machine.run_append]
      exact ⟨hfirst.append hrest, hlast⟩

/-- What the concrete machine reaches is related to what the abstract one reaches. -/
theorem reachable {state : State} (hreach : concrete.Reachable state) :
    ∃ spec, abstract.Reachable spec ∧ simulation.Rel state spec := by
  induction hreach with
  | start hinit =>
      obtain ⟨spec, hspec, hrel⟩ := simulation.init _ hinit
      exact ⟨spec, .start hspec, hrel⟩
  | next label hbefore hallowed ih =>
      obtain ⟨spec, hspec, hrel⟩ := ih
      obtain ⟨hactions, hnext⟩ := simulation.step _ spec label hbefore hrel hallowed
      exact ⟨_, hspec.run hactions, hnext⟩

end Simulation

end Conduit.Transition
