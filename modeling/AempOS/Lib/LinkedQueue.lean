import AempOS.Lib.SinglyLinked

/-! Queues of linked cells with a pointer to each end. The `next` field of a cell
that is in no queue may hold anything. -/

set_option autoImplicit false

namespace AempOS.Lib

variable {Value : Type}

/-- A cell is linked in behind the last one of a chain. -/
theorem Chain.concat {heap other : SHeap Value} {pointer : Option Nat} {left : List Nat}
    {last addr : Nat} (chain : Chain heap pointer (left ++ [last]))
    (same : ∀ b ∈ left, (other b).next = (heap b).next)
    (linked : (other last).next = some addr) (ends : (other addr).next = none) :
    Chain other pointer (left ++ [last] ++ [addr]) := by
  induction left generalizing pointer with
  | nil =>
      obtain ⟨here, _⟩ := chain
      exact ⟨here, linked, ends⟩
  | cons b rest ih =>
      obtain ⟨here, tail⟩ := chain
      refine ⟨here, ?_⟩
      rw [same b List.mem_cons_self]
      exact ih tail fun c member => same c (List.mem_cons_of_mem _ member)

structure LQueue (Value : Type) where
  heap : SHeap Value
  front : Option Nat
  rear : Option Nat

namespace LQueue

def setNext (queue : LQueue Value) (addr : Nat) (pointer : Option Nat) : LQueue Value :=
  { queue with heap := Function.update queue.heap addr { queue.heap addr with next := pointer } }

/-- The pointers are those of a queue with these cells, front first. -/
structure Holds (queue : LQueue Value) (cells : List Nat) : Prop where
  chain : Chain queue.heap queue.front cells
  distinct : cells.Nodup
  rear : queue.rear = cells.getLast?

variable {queue : LQueue Value} {cells : List Nat}

theorem holds_nil (heap : SHeap Value) : Holds ⟨heap, none, none⟩ [] :=
  ⟨rfl, List.nodup_nil, rfl⟩

theorem Holds.rear_eq_none_iff (held : queue.Holds cells) : queue.rear = none ↔ cells = [] := by
  rw [held.rear, List.getLast?_eq_none_iff]

theorem Holds.front_eq (held : queue.Holds cells) : queue.front = cells.head? := by
  have chain := held.chain
  cases cells with
  | nil => exact chain
  | cons addr rest => exact chain.1

/-- Only the last cell of a queue of distinct cells is its first one as well. -/
theorem Holds.front_eq_rear_iff {addr : Nat} {rest : List Nat} (held : queue.Holds (addr :: rest)) :
    queue.front = queue.rear ↔ rest = [] := by
  rw [held.front_eq, held.rear, List.head?_cons]
  constructor
  · intro same
    cases rest with
    | nil => rfl
    | cons b rest =>
        rw [List.getLast?_cons_cons] at same
        have member : addr ∈ b :: rest := List.mem_of_getLast? same.symm
        exact absurd member (List.nodup_cons.mp held.distinct).1
  · rintro rfl
    rfl

/-- What is written to the cells outside does not matter. -/
theorem Holds.outside (held : queue.Holds cells) {heap : SHeap Value}
    (same : ∀ addr ∈ cells, (heap addr).next = (queue.heap addr).next) :
    Holds { queue with heap := heap } cells :=
  ⟨held.chain.congr same, held.distinct, held.rear⟩

/-- The first cell that is put in. -/
theorem Holds.first (addr : Nat) :
    Holds { queue.setNext addr none with front := some addr, rear := some addr } [addr] := by
  refine ⟨⟨rfl, ?_⟩, by simp, rfl⟩
  simp [setNext, Chain]

/-- A further cell, which the last one is made to point to. -/
theorem Holds.append (held : queue.Holds cells) {last addr : Nat} (rear : queue.rear = some last)
    (fresh : addr ∉ cells) :
    Holds { (queue.setNext addr none).setNext last (some addr) with rear := some addr }
      (cells ++ [addr]) := by
  obtain ⟨left, rfl⟩ : ∃ left, cells = left ++ [last] := by
    rw [held.rear] at rear
    exact List.getLast?_eq_some_iff.mp rear
  have apart : addr ≠ last := fun same => fresh (by simp [same])
  have distinct := held.distinct
  refine ⟨held.chain.concat (fun b member => ?_) ?_ ?_, ?_, ?_⟩
  · have other : b ≠ last := by
      rintro rfl
      exact (List.nodup_append.mp distinct).2.2 b member b (by simp) rfl
    have new : b ≠ addr := by
      rintro rfl
      exact fresh (List.mem_append_left _ member)
    simp only [setNext, Function.update_of_ne other, Function.update_of_ne new]
  · simp [setNext]
  · simp [setNext, apart]
  · rw [List.nodup_append]
    refine ⟨distinct, by simp, fun b member c isNew => ?_⟩
    rw [List.mem_singleton.mp isNew]
    rintro rfl
    exact fresh member
  · exact List.getLast?_concat.symm

/-- The front cell is passed over; its own link stays as it is. -/
theorem Holds.rest {addr : Nat} {rest : List Nat} (held : queue.Holds (addr :: rest))
    (nonempty : rest ≠ []) : Holds { queue with front := (queue.heap addr).next } rest := by
  refine ⟨held.chain.2, (List.nodup_cons.mp held.distinct).2, ?_⟩
  have rear := held.rear
  cases rest with
  | nil => exact absurd rfl nonempty
  | cons b rest =>
      rw [List.getLast?_cons_cons] at rear
      exact rear

end LQueue

end AempOS.Lib
