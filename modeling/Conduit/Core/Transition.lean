import Mathlib.Logic.Relation

/-!
# Guarded transition machines

A machine is a total, executable step function together with the labels its
environment may choose in each state.  Invariants are proved once for every
reachable state from an initial lemma and a step lemma, and a concrete list of
labels replays to a reachable state, so the same step function serves proofs
and counterexamples.
-/

namespace Conduit.Transition

/-- Initial states, permitted labels and the effect of one label. -/
structure Machine (State Label : Type*) where
  Init : State → Prop
  Allowed : State → Label → Prop
  step : State → Label → State

namespace Machine

variable {State Label : Type*} {machine : Machine State Label}

/-- States reached from an initial one through permitted labels. -/
inductive Reachable (machine : Machine State Label) : State → Prop
  | start {state : State} (hinit : machine.Init state) : Reachable machine state
  | next {state : State} (label : Label) (hreach : Reachable machine state)
      (hallowed : machine.Allowed state label) :
      Reachable machine (machine.step state label)

/-- The induction rule for safety: the step lemma may use that the state it
starts from is itself reachable, so invariants can be layered. -/
theorem Reachable.invariant {state : State} (hreach : machine.Reachable state)
    (Inv : State → Prop)
    (hinit : ∀ initial, machine.Init initial → Inv initial)
    (hstep : ∀ before label, machine.Reachable before →
      machine.Allowed before label → Inv before →
        Inv (machine.step before label)) : Inv state := by
  induction hreach with
  | start hstart => exact hinit _ hstart
  | next label hbefore hallowed ih => exact hstep _ label hbefore hallowed ih

/-- The same machine under an environment that promises more. -/
def restrict (machine : Machine State Label)
    (Guard : State → Label → Prop) : Machine State Label where
  Init := machine.Init
  Allowed state label := machine.Allowed state label ∧ Guard state label
  step := machine.step

/-- Replay a list of labels. -/
def run (machine : Machine State Label) (state : State) (labels : List Label) :
    State :=
  labels.foldl machine.step state

/-- Every label of the list is permitted in the state it is replayed in. -/
def AllowedRun (machine : Machine State Label) : State → List Label → Prop
  | _, [] => True
  | state, label :: labels =>
      machine.Allowed state label ∧
        machine.AllowedRun (machine.step state label) labels

theorem Reachable.run {state : State} {labels : List Label}
    (hreach : machine.Reachable state)
    (hallowed : machine.AllowedRun state labels) :
    machine.Reachable (machine.run state labels) := by
  induction labels generalizing state with
  | nil => exact hreach
  | cons label labels ih =>
      exact ih (.next label hreach hallowed.1) hallowed.2

/-- What a step keeps in a reachable state, a run from there keeps. -/
theorem AllowedRun.invariant (Inv : State → Prop)
    (hstep : ∀ before label, machine.Reachable before →
      machine.Allowed before label → Inv before → Inv (machine.step before label))
    {state : State} {labels : List Label} (hrun : machine.AllowedRun state labels)
    (hreach : machine.Reachable state) (hinv : Inv state) : Inv (machine.run state labels) := by
  induction labels generalizing state with
  | nil => exact hinv
  | cons label labels ih =>
      exact ih hrun.2 (hreach.next label hrun.1) (hstep state label hreach hrun.1 hinv)

theorem run_append (state : State) (first second : List Label) :
    machine.run state (first ++ second) = machine.run (machine.run state first) second :=
  List.foldl_append

theorem AllowedRun.append {state : State} {first second : List Label}
    (hfirst : machine.AllowedRun state first)
    (hsecond : machine.AllowedRun (machine.run state first) second) :
    machine.AllowedRun state (first ++ second) := by
  induction first generalizing state with
  | nil => exact hsecond
  | cons label labels ih => exact ⟨hfirst.1, ih hfirst.2 hsecond⟩

/-- Where a step is good exactly when it starts from a good state under `Guard`, a
run ends well exactly when `Guard` held at each of its steps. -/
theorem run_iff_restrict (Good : State → Prop) {Guard : State → Label → Prop}
    (hstep : ∀ before label, machine.Allowed before label →
      (Good (machine.step before label) ↔ Good before ∧ Guard before label))
    {state : State} {labels : List Label} (hallowed : machine.AllowedRun state labels) :
    Good (machine.run state labels) ↔
      Good state ∧ (machine.restrict Guard).AllowedRun state labels := by
  induction labels generalizing state with
  | nil => exact (and_iff_left trivial).symm
  | cons label labels ih =>
      calc Good (machine.run (machine.step state label) labels)
          ↔ Good (machine.step state label) ∧
              (machine.restrict Guard).AllowedRun (machine.step state label) labels :=
            ih hallowed.2
        _ ↔ Good state ∧ (machine.restrict Guard).AllowedRun state (label :: labels) := by
            rw [hstep state label hallowed.1, and_assoc]
            exact and_congr_right' (and_congr_left' (and_iff_right hallowed.1).symm)

/-- A run of mild labels meets `Guard` throughout if an invariant of such runs does. -/
theorem AllowedRun.restrict (Inv : State → Prop) {Mild : Label → Prop}
    {Guard : State → Label → Prop}
    (hkeeps : ∀ before label, Inv before → Mild label →
      Guard before label ∧ Inv (machine.step before label))
    {state : State} {labels : List Label} (hallowed : machine.AllowedRun state labels)
    (hinv : Inv state) (hmild : ∀ label ∈ labels, Mild label) :
    (machine.restrict Guard).AllowedRun state labels := by
  induction labels generalizing state with
  | nil => trivial
  | cons label labels ih =>
      obtain ⟨hhead, htail⟩ := List.forall_mem_cons.mp hmild
      obtain ⟨hguard, hnext⟩ := hkeeps state label hinv hhead
      exact ⟨⟨hallowed.1, hguard⟩, ih hallowed.2 hnext htail⟩

/-- A property holds in every state a run passes through. -/
def Always (machine : Machine State Label) (Good : State → Prop) :
    State → List Label → Prop
  | state, [] => Good state
  | state, label :: labels =>
      Good state ∧ machine.Always Good (machine.step state label) labels

theorem Always.last {Good : State → Prop} {state : State} {labels : List Label}
    (halways : machine.Always Good state labels) : Good (machine.run state labels) := by
  induction labels generalizing state with
  | nil => exact halways
  | cons label labels ih => exact ih halways.2

/-- Where a step from a good state is good exactly under `Guard`, a run is good
throughout exactly when `Guard` held at each of its steps. -/
theorem always_iff_restrict (Good : State → Prop) {Guard : State → Label → Prop}
    (hstep : ∀ before label, machine.Reachable before → machine.Allowed before label →
      Good before → (Good (machine.step before label) ↔ Guard before label))
    {state : State} {labels : List Label} (hreach : machine.Reachable state)
    (hgood : Good state) (hallowed : machine.AllowedRun state labels) :
    machine.Always Good state labels ↔
      (machine.restrict Guard).AllowedRun state labels := by
  induction labels generalizing state with
  | nil => exact iff_of_true hgood trivial
  | cons label labels ih =>
      have hguard := hstep state label hreach hallowed.1 hgood
      have hreach' := hreach.next label hallowed.1
      constructor
      · intro halways
        -- The state after the step is the first one of the rest of the run.
        have hnext : Good (machine.step state label) := by
          cases labels with
          | nil => exact halways.2
          | cons => exact halways.2.1
        exact ⟨⟨hallowed.1, hguard.1 hnext⟩, (ih hreach' hnext hallowed.2).1 halways.2⟩
      · intro hrun
        exact ⟨hgood, (ih hreach' (hguard.2 hrun.1.2) hallowed.2).2 hrun.2⟩

/-- An infinite run from a given state. -/
structure Run (machine : Machine State Label) (start : State) where
  states : Nat → State
  labels : Nat → Label
  zero : states 0 = start
  allowed : ∀ index, machine.Allowed (states index) (labels index)
  next : ∀ index, states (index + 1) = machine.step (states index) (labels index)

theorem Run.reachable {start : State} (run : machine.Run start)
    (hstart : machine.Reachable start) (index : Nat) :
    machine.Reachable (run.states index) := by
  induction index with
  | zero =>
      rw [run.zero]
      exact hstart
  | succ index ih =>
      rw [run.next index]
      exact .next (run.labels index) ih (run.allowed index)

end Machine

/-! ## Numbered parties

A system with a growing number of parties keeps them in a list.  A new party takes the next
number, and a step of one party replaces it and leaves the others where they are. -/

section Parties

variable {Party : Type*} {parties : List Party} {party : Party} {number : Nat}

/-- Once another party has joined, a party is an old one or the new one. -/
theorem party_of_join {joined : Party} (hparty : (parties ++ [joined])[number]? = some party) :
    parties[number]? = some party ∨ number = parties.length ∧ party = joined := by
  have hless := (List.getElem?_eq_some_iff.mp hparty).1
  rw [List.length_append, List.length_singleton] at hless
  by_cases hold : number < parties.length
  · left
    rw [← hparty, List.getElem?_append_left hold]
  · right
    have hnumber : number = parties.length := by omega
    rw [hnumber, List.getElem?_concat_length, Option.some.injEq] at hparty
    exact ⟨hnumber, hparty.symm⟩

theorem party_join (hparty : parties[number]? = some party) (joined : Party) :
    (parties ++ [joined])[number]? = some party := by
  rw [List.getElem?_append_left (List.getElem?_eq_some_iff.mp hparty).1, hparty]

/-- Once a party has moved, a party is that one or another one as it was. -/
theorem party_of_set {mover : Nat} {moved : Party}
    (hparty : (parties.set mover moved)[number]? = some party) :
    number = mover ∧ party = moved ∨ number ≠ mover ∧ parties[number]? = some party := by
  by_cases hnumber : number = mover
  · left
    rw [hnumber, List.getElem?_set_self'] at hparty
    obtain ⟨_, _, hmoved⟩ := Option.map_eq_some_iff.mp hparty
    exact ⟨hnumber, hmoved.symm⟩
  · right
    rw [List.getElem?_set_ne (Ne.symm hnumber)] at hparty
    exact ⟨hnumber, hparty⟩

end Parties

end Conduit.Transition
