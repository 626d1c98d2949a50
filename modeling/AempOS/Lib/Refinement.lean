import Mathlib.Data.List.Basic

/-! Components that answer calls. A run is the list of the calls with their replies.
A component refines another one when each of its guarded runs is a run of the other
one too, with the calls under their names there. -/

set_option autoImplicit false

namespace AempOS.Lib

structure Component (State Call Reply : Type) where
  initial : State → Prop
  answers : State → Call → Reply → State → Prop

namespace Component

variable {State Call Reply : Type}

/-- A run from one state to another. Each call meets a condition on the state before. -/
inductive Runs (component : Component State Call Reply) (guard : State → Call → Prop) :
    State → List (Call × Reply) → State → Prop where
  | done (state : State) : Runs component guard state [] state
  | call {state middle last : State} {call : Call} {reply : Reply} {log : List (Call × Reply)} :
      guard state call → component.answers state call reply middle →
      Runs component guard middle log last → Runs component guard state ((call, reply) :: log) last

/-- The condition that every call meets. -/
def always (_ : State) (_ : Call) : Prop := True

theorem Runs.one {component : Component State Call Reply} {guard : State → Call → Prop}
    {start last : State} {call : Call} {reply : Reply} (guarded : guard start call)
    (answered : component.answers start call reply last) :
    component.Runs guard start [(call, reply)] last :=
  .call guarded answered (.done last)

/-- The states at the end of a guarded run from an initial state. -/
def Reaches (component : Component State Call Reply) (guard : State → Call → Prop)
    (log : List (Call × Reply)) (state : State) : Prop :=
  ∃ start, component.initial start ∧ component.Runs guard start log state

end Component

/-- Related states answer alike. -/
structure Simulation {State Other Call Name Reply : Type} (concrete : Component State Call Reply)
    (abstract : Component Other Name Reply) (guard : State → Call → Prop) (named : Call → Name) where
  relates : State → Other → Prop
  starts : ∀ state, concrete.initial state → ∃ other, abstract.initial other ∧ relates state other
  steps : ∀ {state next : State} {other : Other} {call : Call} {reply : Reply},
    relates state other → guard state call → concrete.answers state call reply next →
    ∃ moved, abstract.answers other (named call) reply moved ∧ relates next moved

namespace Simulation

variable {State Other Call Name Reply : Type} {concrete : Component State Call Reply}
  {abstract : Component Other Name Reply} {guard : State → Call → Prop} {named : Call → Name}
  {start last : State} {log : List (Call × Reply)}

/-- The log under the names of the abstract component. -/
def renamed (named : Call → Name) (log : List (Call × Reply)) : List (Name × Reply) :=
  log.map fun entry => (named entry.1, entry.2)

theorem run (simulation : Simulation concrete abstract guard named) {other : Other}
    (related : simulation.relates start other) (runs : concrete.Runs guard start log last) :
    ∃ final, abstract.Runs Component.always other (renamed named log) final ∧
      simulation.relates last final := by
  induction runs generalizing other with
  | done => exact ⟨other, .done other, related⟩
  | call guarded answered _ ih =>
      obtain ⟨moved, answers, kept⟩ := simulation.steps related guarded answered
      obtain ⟨final, rest, ends⟩ := ih kept
      exact ⟨final, .call trivial answers rest, ends⟩

theorem reaches (simulation : Simulation concrete abstract guard named)
    (reached : concrete.Reaches guard log last) :
    ∃ final, abstract.Reaches Component.always (renamed named log) final ∧
      simulation.relates last final := by
  obtain ⟨start, initial, runs⟩ := reached
  obtain ⟨other, begins, related⟩ := simulation.starts start initial
  obtain ⟨final, rest, ends⟩ := simulation.run related runs
  exact ⟨final, ⟨other, begins, rest⟩, ends⟩

/-- What an abstract component keeps in the steps of a guarded run, the concrete one
keeps in the states that are related. -/
theorem keeps (simulation : Simulation concrete abstract guard named) {strict : State → Call → Prop}
    (property : Other → Prop) (stricter : ∀ state call, strict state call → guard state call)
    (keep : ∀ {state other moved call reply}, simulation.relates state other → strict state call →
      abstract.answers other (named call) reply moved → property other → property moved)
    {other : Other} (related : simulation.relates start other) (held : property other)
    (runs : concrete.Runs strict start log last) :
    ∃ final, simulation.relates last final ∧ property final := by
  induction runs generalizing other with
  | done => exact ⟨other, related, held⟩
  | call guarded answered _ ih =>
      obtain ⟨moved, answers, kept⟩ := simulation.steps related (stricter _ _ guarded) answered
      exact ih kept (keep related guarded answers held)

end Simulation

end AempOS.Lib
