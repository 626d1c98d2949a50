/-! Computations that may fail and keep a trace of what they did, which a failure
leaves in place. -/

set_option autoImplicit false

namespace AempOS.Lib

structure Traced (Event Value : Type) where
  trace : List Event
  value : Option Value

namespace Traced

variable {Event Value Result : Type}

/-- Do so many events for a value. -/
def emit (events : List Event) (value : Value) : Traced Event Value := ⟨events, some value⟩

def fail : Traced Event Value := ⟨[], none⟩

def andThen (first : Traced Event Value) (next : Value → Traced Event Result) : Traced Event Result :=
  match first.value with
  | none => ⟨first.trace, none⟩
  | some value => ⟨first.trace ++ (next value).trace, (next value).value⟩

instance : Monad (Traced Event) where
  pure := emit []
  bind := andThen

/-- Every event of the trace meets a condition. -/
def All (ok : Event → Prop) (run : Traced Event Value) : Prop := ∀ event ∈ run.trace, ok event

theorem bind_assoc {Last : Type} (first : Traced Event Value) (next : Value → Traced Event Result)
    (last : Result → Traced Event Last) :
    first >>= next >>= last = first >>= fun value => next value >>= last := by
  obtain ⟨trace, value⟩ := first
  cases value with
  | none => rfl
  | some value =>
      cases middle : (next value).value with
      | none => simp only [bind, andThen, middle]
      | some result => simp only [bind, andThen, middle, List.append_assoc]

theorem pure_bind (value : Value) (next : Value → Traced Event Result) :
    (pure value : Traced Event Value) >>= next = next value := rfl

theorem all_fail_bind (ok : Event → Prop) (next : Value → Traced Event Result) :
    (fail >>= next).All ok := by
  intro event member
  cases member

theorem all_emit_bind (ok : Event → Prop) (events : List Event) (value : Value)
    (next : Value → Traced Event Result) :
    (emit events value >>= next).All ok ↔ (∀ event ∈ events, ok event) ∧ (next value).All ok :=
  List.forall_mem_append

theorem all_emit (ok : Event → Prop) (events : List Event) (value : Value) :
    (emit events value).All ok ↔ ∀ event ∈ events, ok event := Iff.rfl

end Traced

end AempOS.Lib
