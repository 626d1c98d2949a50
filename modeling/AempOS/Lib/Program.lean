import Mathlib.Init

/-! Programs that act on their surroundings through operations: what a program does
next depends on the replies so far. A discipline says which operations are allowed in
which mode; a program that keeps it can be run, alone or in steps among others, by any
handler whose replies are those of the discipline. -/

set_option autoImplicit false

namespace AempOS.Lib

inductive Program (Op : Type) (Reply : Op → Type) (Result : Type) where
  | done (result : Result)
  | act (op : Op) (next : Reply op → Program Op Reply Result)

namespace Program

variable {Op : Type} {Reply : Op → Type} {A B : Type}

def bind : Program Op Reply A → (A → Program Op Reply B) → Program Op Reply B
  | .done result, after => after result
  | .act op next, after => .act op fun reply => (next reply).bind after

instance : Monad (Program Op Reply) where
  pure := .done
  bind := bind

/-- One operation. -/
def perform (op : Op) : Program Op Reply (Reply op) := .act op .done

/-- The whole program, with `none` when the handler has no reply. -/
def run {State : Type} (handler : State → (op : Op) → Option (State × Reply op)) :
    State → Program Op Reply A → Option (State × A)
  | state, .done result => some (state, result)
  | state, .act op next => (handler state op).bind fun (after, reply) => run handler after (next reply)

section

variable {State : Type} {handler : State → (op : Op) → Option (State × Reply op)}

theorem run_perform {state next : State} {op : Op} {reply : Reply op} (handled : handler state op = some (next, reply)) :
    (perform op).run handler state = some (next, reply) := by
  simp only [perform, run, handled]
  rfl

theorem run_bind (program : Program Op Reply A) (after : A → Program Op Reply B) (state : State) :
    (program >>= after).run handler state =
      (program.run handler state).bind fun (next, result) => (after result).run handler next := by
  induction program generalizing state with
  | done result => rfl
  | act op next ih =>
      have split : (act op next >>= after).run handler state =
          (handler state op).bind fun (middle, reply) => (next reply >>= after).run handler middle := rfl
      rw [split]
      simp only [run, ih, Option.bind_assoc]

/-- A part that returns, and what follows. -/
theorem run_then {program : Program Op Reply A} {after : A → Program Op Reply B} {state middle : State} {value : A}
    (ran : program.run handler state = some (middle, value)) :
    (program >>= after).run handler state = (after value).run handler middle := by
  rw [run_bind, ran]
  rfl

end

end Program

/-- The operations that are allowed in a mode, and the mode after a reply. -/
structure Discipline (Mode Op : Type) (Reply : Op → Type) where
  allows : Mode → Op → Prop
  moves : Mode → (op : Op) → Reply op → Mode → Prop

namespace Program

variable {Mode Op State : Type} {Reply : Op → Type} {A B : Type} {discipline : Discipline Mode Op Reply}
  {mode : Mode}

/-- Whatever the replies, the program performs only what is allowed, and ends with
`post`. -/
def Keeps (discipline : Discipline Mode Op Reply) (post : A → Mode → Prop) : Mode → Program Op Reply A → Prop
  | mode, .done result => post result mode
  | mode, .act op next =>
      discipline.allows mode op ∧
        ∀ reply after, discipline.moves mode op reply after → Keeps discipline post after (next reply)

theorem Keeps.bind {program : Program Op Reply A} {after : A → Program Op Reply B} {post : B → Mode → Prop}
    (keeps : program.Keeps discipline (fun result mode => (after result).Keeps discipline post mode) mode) :
    (program >>= after).Keeps discipline post mode := by
  induction program generalizing mode with
  | done result => exact keeps
  | act op next ih => exact ⟨keeps.1, fun reply other moved => ih reply (keeps.2 reply other moved)⟩

theorem Keeps.mono {program : Program Op Reply A} {post other : A → Mode → Prop}
    (keeps : program.Keeps discipline post mode) (weaker : ∀ result mode, post result mode → other result mode) :
    program.Keeps discipline other mode := by
  induction program generalizing mode with
  | done result => exact weaker result mode keeps
  | act op next ih => exact ⟨keeps.1, fun reply after moved => ih reply (keeps.2 reply after moved)⟩

/-- A relation between states and modes that every allowed operation keeps holds at the
end of a run. -/
theorem Keeps.run {handler : State → (op : Op) → Option (State × Reply op)} {relates : State → Mode → Prop}
    (keep : ∀ state mode op next reply, relates state mode → discipline.allows mode op →
      handler state op = some (next, reply) → ∃ after, discipline.moves mode op reply after ∧ relates next after)
    {program : Program Op Reply A} {post : A → Mode → Prop} (keeps : program.Keeps discipline post mode)
    {state final : State} {result : A} (related : relates state mode)
    (ran : program.run handler state = some (final, result)) :
    ∃ last, post result last ∧ relates final last := by
  induction program generalizing mode state with
  | done value =>
      cases ran
      exact ⟨mode, keeps, related⟩
  | act op next ih =>
      obtain ⟨⟨middle, reply⟩, handled, rest⟩ := Option.bind_eq_some_iff.mp ran
      obtain ⟨after, moved, relatedNext⟩ := keep state mode op middle reply related keeps.1 handled
      exact ih reply (keeps.2 reply after moved) relatedNext rest

end Program

end AempOS.Lib
