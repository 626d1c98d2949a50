import Mathlib.Init

/-! Transition systems driven by labels. A step is a partial function of the
label, so an interleaving of atomic steps is a list of labels. Runs may be
restricted by a condition on the state before each step. -/

set_option autoImplicit false

namespace AempOS.Lib

/-- A labelled transition system with partial steps. -/
structure Machine (State Label : Type) where
  initial : State → Prop
  step : State → Label → Option State

namespace Machine

variable {State Label : Type} (machine : Machine State Label)

/-- States reached by runs all of whose steps meet `guard`, a condition on the
state before the step and on its label. -/
inductive ReachableWhen (guard : State → Label → Prop) : State → Prop where
  | initial {state : State} : machine.initial state → ReachableWhen guard state
  | step {state next : State} {label : Label} :
      ReachableWhen guard state → guard state label →
      machine.step state label = some next → ReachableWhen guard next

/-- States reached by any run. -/
def Reachable (state : State) : Prop :=
  machine.ReachableWhen (fun _ _ => True) state

/-- Perform the labels of a list in order. -/
def run : State → List Label → Option State
  | state, [] => some state
  | state, label :: rest => (machine.step state label).bind fun next => run next rest

/-- Every step of the run along a list of labels meets `guard`. -/
def Meets (guard : State → Label → Prop) : State → List Label → Prop
  | _, [] => True
  | state, label :: rest =>
      guard state label ∧
        match machine.step state label with
        | some next => Meets guard next rest
        | none => True

variable {machine}

theorem ReachableWhen.mono {guard other : State → Label → Prop} {state : State}
    (reached : machine.ReachableWhen guard state)
    (weaker : ∀ state label, guard state label → other state label) :
    machine.ReachableWhen other state := by
  induction reached with
  | initial start => exact .initial start
  | step _ guarded moved ih => exact .step ih (weaker _ _ guarded) moved

theorem ReachableWhen.reachable {guard : State → Label → Prop} {state : State}
    (reached : machine.ReachableWhen guard state) : machine.Reachable state :=
  reached.mono fun _ _ _ => trivial

/-- A property of the initial states that every guarded step keeps holds in
every state of a guarded run. -/
theorem ReachableWhen.invariant {guard : State → Label → Prop} {property : State → Prop}
    (start : ∀ state, machine.initial state → property state)
    (keep : ∀ state label next, property state → guard state label →
      machine.step state label = some next → property next)
    {state : State} (reached : machine.ReachableWhen guard state) : property state := by
  induction reached with
  | initial initial => exact start _ initial
  | step _ guarded moved ih => exact keep _ _ _ ih guarded moved

theorem Reachable.invariant {property : State → Prop}
    (start : ∀ state, machine.initial state → property state)
    (keep : ∀ state label next, property state →
      machine.step state label = some next → property next)
    {state : State} (reached : machine.Reachable state) : property state :=
  ReachableWhen.invariant start
    (fun state label next held _ moved => keep state label next held moved) reached

theorem Reachable.next {state next : State} {label : Label}
    (reached : machine.Reachable state) (moved : machine.step state label = some next) :
    machine.Reachable next :=
  .step reached trivial moved

/-- A replayed list of labels that meets the condition ends in a state of a
guarded run. -/
theorem ReachableWhen.of_run {guard : State → Label → Prop} {labels : List Label} :
    ∀ {state final : State}, machine.ReachableWhen guard state →
      machine.run state labels = some final → machine.Meets guard state labels →
      machine.ReachableWhen guard final := by
  induction labels with
  | nil =>
      intro state final reached ran _
      simp only [run, Option.some.injEq] at ran
      exact ran ▸ reached
  | cons label rest ih =>
      intro state final reached ran meets
      simp only [run, Option.bind_eq_some_iff] at ran
      obtain ⟨next, moved, ran⟩ := ran
      simp only [Meets, moved] at meets
      exact ih (reached.step meets.1 moved) ran meets.2

theorem Reachable.of_run {labels : List Label} {state final : State}
    (reached : machine.Reachable state) (ran : machine.run state labels = some final) :
    machine.Reachable final := by
  refine ReachableWhen.of_run reached ran ?_
  clear reached ran
  induction labels generalizing state with
  | nil => trivial
  | cons label rest ih =>
      refine ⟨trivial, ?_⟩
      cases machine.step state label with
      | none => trivial
      | some next => exact ih

end Machine

end AempOS.Lib
