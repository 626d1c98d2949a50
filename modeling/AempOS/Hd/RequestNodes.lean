import AempOS.Hd.RequestQueue
import AempOS.Lib.LinkedQueue

/-! `hdque` of `kernel/hd.c` down to the links of its nodes. A node is an `RWInfo`
on the stack of the process that waits for it: it may be queued again when it was
taken out, and whatever is left on the stack may stand in it before. -/

set_option autoImplicit false

namespace AempOS.Hd.Nodes

open Lib

/-- What `RWInfo` has beside `next`: pointers. -/
structure Request where
  msg : Nat
  kbuf : Nat
  proc : Nat

/-- `RWInfo` -/
abbrev RWInfo := SCell Request

/-- `HDQueue`, and the memory with the nodes. -/
abbrev HDQueue := LQueue Request

def initHdQueue (hdq : HDQueue) : HDQueue :=
  { hdq with front := none, rear := none }

def inHdQueue (hdq : HDQueue) (p : Nat) : HDQueue :=
  let hdq := hdq.setNext p none
  match hdq.rear with
  | none => { hdq with front := some p, rear := some p }
  | some rear => { hdq.setNext rear (some p) with rear := some p }

/-- The return value, `*p` and the queue. It has no result where it goes through a
null pointer. -/
def outHdQueue (hdq : HDQueue) : Option (Nat × Option Nat × HDQueue) :=
  if hdq.rear = none then some (0, none, hdq)
  else if hdq.front = hdq.rear then
    some (1, hdq.front, { hdq with front := none, rear := none })
  else hdq.front.map fun front => (1, some front, { hdq with front := (hdq.heap front).next })

/-- What happens to the queue and to the nodes that are not in it. -/
inductive QueueEvent where
  | put (p : Nat)
  | take
  | write (p : Nat) (rwinfo : RWInfo)

/-- The queue with the nodes that were put in and those that were handed out, in
the order of the calls. -/
structure QueueRun where
  hdq : HDQueue
  put : List Nat
  taken : List Nat

/-- The nodes that were put in and not yet handed out. -/
def QueueRun.waiting (run : QueueRun) : List Nat :=
  run.put.drop run.taken.length

/-- `*p`, when the return value says that there is one. -/
def handedOut (ret : Nat) (p : Option Nat) : List Nat :=
  if ret = 0 then [] else p.toList

def queueStep (run : QueueRun) : QueueEvent → Option QueueRun
  | .put p =>
      if p ∈ run.waiting then none
      else some { run with hdq := inHdQueue run.hdq p, put := run.put ++ [p] }
  | .take =>
      (outHdQueue run.hdq).map fun (ret, p, hdq) =>
        { run with hdq := hdq, taken := run.taken ++ handedOut ret p }
  | .write p rwinfo =>
      if p ∈ run.waiting then none
      else some { run with hdq := { run.hdq with heap := Function.update run.hdq.heap p rwinfo } }

/-- The runs from `init_hd_queue` on. -/
def queueMachine : Machine QueueRun QueueEvent where
  initial run := ∃ hdq, run = ⟨initHdQueue hdq, [], []⟩
  step := queueStep

/-! ## One call -/

variable {hdq : HDQueue} {cells : List Nat}

theorem inHdQueue_holds (held : hdq.Holds cells) {p : Nat} (fresh : p ∉ cells) :
    (inHdQueue hdq p).Holds (cells ++ [p]) := by
  have rear : (hdq.setNext p none).rear = hdq.rear := rfl
  unfold inHdQueue
  simp only [rear]
  cases last : hdq.rear with
  | none =>
      have empty := held.rear_eq_none_iff.mp last
      subst empty
      exact LQueue.Holds.first p
  | some rear => exact held.append last fresh

theorem outHdQueue_nil (held : hdq.Holds []) : outHdQueue hdq = some (0, none, hdq) := by
  rw [outHdQueue, if_pos (held.rear_eq_none_iff.mpr rfl)]

theorem outHdQueue_cons {p : Nat} (held : hdq.Holds (p :: cells)) :
    ∃ next, outHdQueue hdq = some (1, some p, next) ∧ next.Holds cells := by
  have filled : hdq.rear ≠ none := fun empty => nomatch held.rear_eq_none_iff.mp empty
  have front : hdq.front = some p := held.front_eq
  rw [outHdQueue, if_neg filled]
  by_cases last : hdq.front = hdq.rear
  · rw [if_pos last, front]
    have empty := held.front_eq_rear_iff.mp last
    subst empty
    exact ⟨_, rfl, LQueue.holds_nil _⟩
  · rw [if_neg last, front]
    exact ⟨_, rfl, held.rest fun empty => last (held.front_eq_rear_iff.mpr empty)⟩

/-! ## The list of requests -/

section Lists

variable {Proc : Type} (request : Nat → Hd.Request Proc)

theorem inHdQueue_refines (held : hdq.Holds cells) {p : Nat} (fresh : p ∉ cells) :
    ∃ nodes, (inHdQueue hdq p).Holds nodes ∧
      nodes.map request = Hd.inHdQueue (cells.map request) (request p) := by
  refine ⟨cells ++ [p], inHdQueue_holds held fresh, ?_⟩
  rw [List.map_append]
  rfl

theorem outHdQueue_refines (held : hdq.Holds cells) :
    (Hd.outHdQueue (cells.map request) = none ∧ outHdQueue hdq = some (0, none, hdq)) ∨
      ∃ p next nodes, outHdQueue hdq = some (1, some p, next) ∧ next.Holds nodes ∧
        Hd.outHdQueue (cells.map request) = some (request p, nodes.map request) := by
  cases cells with
  | nil => exact .inl ⟨rfl, outHdQueue_nil held⟩
  | cons p rest =>
      obtain ⟨next, out, held⟩ := outHdQueue_cons held
      exact .inr ⟨p, next, rest, out, held, rfl⟩

end Lists

/-! ## Runs -/

/-- The queue has the nodes that wait, and the others were handed out before
them in the order of their calls. -/
structure InOrder (run : QueueRun) : Prop where
  held : run.hdq.Holds run.waiting
  order : run.put = run.taken ++ run.waiting

theorem InOrder.of_append {hdq : HDQueue} {taken waiting : List Nat} (held : hdq.Holds waiting) :
    InOrder ⟨hdq, taken ++ waiting, taken⟩ := by
  have rest : QueueRun.waiting ⟨hdq, taken ++ waiting, taken⟩ = waiting := List.drop_left
  exact ⟨rest.symm ▸ held, by rw [rest]⟩

theorem InOrder.step {run next : QueueRun} {event : QueueEvent} (ordered : InOrder run)
    (moved : queueStep run event = some next) : InOrder next := by
  obtain ⟨held, order⟩ := ordered
  generalize waits : run.waiting = waiting at held order
  obtain ⟨hdq, put, taken⟩ := run
  simp only at held order
  subst order
  cases event with
  | put p =>
      simp only [queueStep, waits] at moved
      split at moved
      next => cases moved
      next fresh =>
        cases moved
        rw [List.append_assoc]
        exact .of_append (inHdQueue_holds held fresh)
  | take =>
      rw [queueStep] at moved
      cases waiting with
      | nil =>
          rw [outHdQueue_nil held] at moved
          cases moved
          have same : taken ++ handedOut 0 none = taken := List.append_nil _
          change InOrder ⟨hdq, taken ++ [], taken ++ handedOut 0 none⟩
          rw [same]
          exact .of_append held
      | cons p rest =>
          obtain ⟨after, out, held⟩ := outHdQueue_cons held
          rw [out] at moved
          cases moved
          change InOrder ⟨after, taken ++ p :: rest, taken ++ [p]⟩
          rw [List.append_cons]
          exact .of_append held
  | write p rwinfo =>
      simp only [queueStep, waits] at moved
      split at moved
      next => cases moved
      next fresh =>
        cases moved
        refine .of_append (held.outside fun addr member => ?_)
        have apart : addr ≠ p := fun same => fresh (same ▸ member)
        rw [Function.update_of_ne apart]

theorem inOrder_of_reachable {run : QueueRun} (reached : queueMachine.Reachable run) : InOrder run := by
  refine reached.invariant ?_ fun _ _ _ ordered moved => ordered.step moved
  rintro _ ⟨hdq, rfl⟩
  exact @InOrder.of_append (initHdQueue hdq) [] [] (LQueue.holds_nil _)

/-- The nodes are handed out in the order in which they were put in, and
`out_hd_queue` says 0 when there is none left. -/
theorem queueMachine_fifo {run : QueueRun} (reached : queueMachine.Reachable run) :
    run.put = run.taken ++ run.waiting ∧ (run.hdq.rear = none ↔ run.waiting = []) ∧
      ∃ ret p next, outHdQueue run.hdq = some (ret, p, next) ∧ (ret = 0 ↔ run.put = run.taken) ∧
        (ret ≠ 0 → p = run.waiting.head?) := by
  obtain ⟨held, order⟩ := inOrder_of_reachable reached
  refine ⟨order, held.rear_eq_none_iff, ?_⟩
  generalize run.waiting = waiting at held order
  cases waiting with
  | nil =>
      refine ⟨0, none, run.hdq, outHdQueue_nil held, ?_, fun wrong => absurd rfl wrong⟩
      rw [order, List.append_nil]
      exact ⟨fun _ => rfl, fun _ => rfl⟩
  | cons p rest =>
      obtain ⟨next, out, _⟩ := outHdQueue_cons held
      refine ⟨1, some p, next, out, ⟨fun wrong => absurd wrong (by decide), fun same => ?_⟩, fun _ => rfl⟩
      rw [order] at same
      exact absurd (List.self_eq_append_right.mp same.symm) (List.cons_ne_nil _ _)

/-- A link to node 5 is left in every node. -/
def staleRun : QueueRun := ⟨⟨fun _ => ⟨⟨0, 0, 0⟩, some 5⟩, none, none⟩, [], []⟩

theorem staleRun_initial : queueMachine.initial staleRun := ⟨staleRun.hdq, rfl⟩

/-- Node 5 is queued again while node 7 waits. -/
theorem queueMachine_fifo_again :
    ∃ run, queueMachine.run staleRun [.put 5, .put 7, .take, .write 5 ⟨⟨0, 0, 0⟩, some 5⟩, .put 5,
        .take] = some run ∧
      run.put = [5, 7, 5] ∧ run.taken = [5, 7] ∧ run.put = run.taken ++ run.waiting ∧
      (run.hdq.rear = none ↔ run.waiting = []) ∧
      ∃ ret p next, outHdQueue run.hdq = some (ret, p, next) ∧ (ret = 0 ↔ run.put = run.taken) ∧
        (ret ≠ 0 → p = run.waiting.head?) := by
  obtain ⟨run, ran, put, taken⟩ : ∃ run, queueMachine.run staleRun [.put 5, .put 7, .take,
      .write 5 ⟨⟨0, 0, 0⟩, some 5⟩, .put 5, .take] = some run ∧ run.put = [5, 7, 5] ∧
      run.taken = [5, 7] := ⟨_, rfl, rfl, rfl⟩
  exact ⟨run, ran, put, taken, queueMachine_fifo (.of_run (.initial staleRun_initial) ran)⟩

end AempOS.Hd.Nodes
