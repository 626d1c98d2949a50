import Mathlib.Logic.Function.Basic
import Mathlib.Logic.Relation
import Mathlib.Data.List.Basic
import Mathlib.Data.List.Induction

/-! Doubly linked lists in a heap of cells. A null or dangling pointer makes an
access fail. `Segment` says that a stretch of cells is linked both ways; the
lemmas below say what the single stores of a splice do to it. -/

set_option autoImplicit false

namespace AempOS.Lib

structure DCell (Addr Value : Type) where
  value : Value
  prev : Option Addr
  next : Option Addr

abbrev DHeap (Addr Value : Type) := Addr → Option (DCell Addr Value)

namespace DHeap

variable {Addr Value : Type}

/-- Read the cell behind a pointer. -/
def read (heap : DHeap Addr Value) (pointer : Option Addr) : Option (DCell Addr Value) :=
  pointer.bind heap

/-- The loop along the `next` links from a pointer, for a number of steps. -/
def traverse {State : Type} (heap : DHeap Addr Value) (visit : State → Value → State) :
    Nat → Option Addr → State → Option State
  | 0, _, _ => none
  | _ + 1, none, state => some state
  | steps + 1, some addr, state =>
      (heap addr).bind fun cell => traverse heap visit steps cell.next (visit state cell.value)

variable [DecidableEq Addr]

/-- Store a whole cell at an address. -/
def store (heap : DHeap Addr Value) (addr : Addr) (cell : DCell Addr Value) : DHeap Addr Value :=
  Function.update heap addr (some cell)

/-- `pointer->next = target`. -/
def setNext (heap : DHeap Addr Value) (pointer target : Option Addr) : Option (DHeap Addr Value) :=
  pointer.bind fun addr => (heap addr).map fun cell => heap.store addr { cell with next := target }

/-- `pointer->prev = target`. -/
def setPrev (heap : DHeap Addr Value) (pointer target : Option Addr) : Option (DHeap Addr Value) :=
  pointer.bind fun addr => (heap addr).map fun cell => heap.store addr { cell with prev := target }

@[simp] theorem store_self (heap : DHeap Addr Value) (addr : Addr) (cell : DCell Addr Value) :
    heap.store addr cell addr = some cell := by
  simp [store]

theorem store_other (heap : DHeap Addr Value) {addr other : Addr} (cell : DCell Addr Value)
    (apart : other ≠ addr) : heap.store addr cell other = heap other := by
  simp [store, apart]

theorem setNext_some {heap : DHeap Addr Value} {addr : Addr} {cell : DCell Addr Value}
    (found : heap addr = some cell) (target : Option Addr) :
    heap.setNext (some addr) target = some (heap.store addr { cell with next := target }) := by
  simp [setNext, found]

theorem setPrev_some {heap : DHeap Addr Value} {addr : Addr} {cell : DCell Addr Value}
    (found : heap addr = some cell) (target : Option Addr) :
    heap.setPrev (some addr) target = some (heap.store addr { cell with prev := target }) := by
  simp [setPrev, found]

end DHeap

section Ends

variable {Addr Value : Type}

/-- The address of the first cell of a stretch, or what follows an empty one. -/
def firstAddr : List (Addr × Value) → Option Addr → Option Addr
  | [], after => after
  | cell :: _, _ => some cell.1

/-- The address of the last cell of a stretch, or what precedes an empty one. -/
def lastAddr : Option Addr → List (Addr × Value) → Option Addr
  | before, [] => before
  | _, cell :: rest => lastAddr (some cell.1) rest

@[simp] theorem firstAddr_append (left right : List (Addr × Value)) (after : Option Addr) :
    firstAddr (left ++ right) after = firstAddr left (firstAddr right after) := by
  cases left <;> rfl

@[simp] theorem lastAddr_append (before : Option Addr) (left right : List (Addr × Value)) :
    lastAddr before (left ++ right) = lastAddr (lastAddr before left) right := by
  induction left generalizing before with
  | nil => rfl
  | cons cell rest ih => exact ih (some cell.1)

end Ends

variable {Addr Value : Type}

/-- The cells stand at their addresses with their values, linked both ways, with
`before` in front of them and `after` behind them. -/
def Segment (heap : DHeap Addr Value) :
    Option Addr → List (Addr × Value) → Option Addr → Prop
  | _, [], _ => True
  | before, cell :: rest, after =>
      heap cell.1 = some ⟨cell.2, before, firstAddr rest after⟩ ∧
        Segment heap (some cell.1) rest after

namespace Segment

variable {heap other : DHeap Addr Value} {before after : Option Addr}

theorem append_iff {left right : List (Addr × Value)} :
    Segment heap before (left ++ right) after ↔
      Segment heap before left (firstAddr right after) ∧
        Segment heap (lastAddr before left) right after := by
  induction left generalizing before with
  | nil => simp [Segment, lastAddr]
  | cons cell rest ih => simp [Segment, lastAddr, ih, and_assoc]

/-- A stretch reads nothing but its own cells. -/
theorem congr {cells : List (Addr × Value)} (held : Segment heap before cells after)
    (same : ∀ cell ∈ cells, other cell.1 = heap cell.1) : Segment other before cells after := by
  induction cells generalizing before with
  | nil => trivial
  | cons cell rest ih =>
      obtain ⟨found, tail⟩ := held
      refine ⟨(same cell (by simp)).trans found, ih tail ?_⟩
      intro member inRest
      exact same member (List.mem_cons_of_mem _ inRest)

theorem allocated {cells : List (Addr × Value)} (held : Segment heap before cells after)
    {cell : Addr × Value} (member : cell ∈ cells) :
    ∃ found, heap cell.1 = some found ∧ found.value = cell.2 := by
  obtain ⟨left, right, rfl⟩ := List.append_of_mem member
  have tail := (append_iff.mp held).2
  exact ⟨_, tail.1, rfl⟩

section Traversal

variable {State : Type} (visit : State → Value → State)

theorem traverse_eq {cells : List (Addr × Value)} (held : Segment heap before cells none)
    {steps : Nat} (enough : cells.length < steps) (state : State) :
    heap.traverse visit steps (firstAddr cells none) state =
      some ((cells.map Prod.snd).foldl visit state) := by
  induction cells generalizing before steps state with
  | nil =>
      obtain ⟨steps, rfl⟩ := Nat.exists_eq_succ_of_ne_zero (Nat.ne_of_gt enough)
      rfl
  | cons cell rest ih =>
      obtain ⟨steps, rfl⟩ := Nat.exists_eq_succ_of_ne_zero (Nat.ne_of_gt (Nat.zero_lt_of_lt enough))
      obtain ⟨found, tail⟩ := held
      have shorter : rest.length < steps := Nat.lt_of_succ_lt_succ enough
      simp only [firstAddr, DHeap.traverse, found, Option.bind_some]
      exact ih tail shorter (visit state cell.2)

variable {visit}

theorem traverse_some {cells : List (Addr × Value)} (held : Segment heap before cells none)
    {steps : Nat} {state final : State}
    (ran : heap.traverse visit steps (firstAddr cells none) state = some final) :
    final = (cells.map Prod.snd).foldl visit state := by
  induction cells generalizing before steps state with
  | nil =>
      cases steps with
      | zero => cases ran
      | succ steps => cases ran; rfl
  | cons cell rest ih =>
      cases steps with
      | zero => cases ran
      | succ steps =>
          obtain ⟨found, tail⟩ := held
          simp only [firstAddr, DHeap.traverse, found, Option.bind_some] at ran
          exact ih tail ran

end Traversal

variable [DecidableEq Addr]

theorem store_outside {cells : List (Addr × Value)} (held : Segment heap before cells after)
    {addr : Addr} (outside : addr ∉ cells.map Prod.fst) (cell : DCell Addr Value) :
    Segment (heap.store addr cell) before cells after := by
  refine held.congr fun member inside => heap.store_other cell ?_
  rintro rfl
  exact outside (List.mem_map_of_mem inside)

/-- Redirecting the `next` link of the last cell. -/
theorem setNext_last {cells : List (Addr × Value)} (held : Segment heap before cells after)
    (nonempty : cells ≠ []) (distinct : (cells.map Prod.fst).Nodup) (target : Option Addr) :
    ∃ next, heap.setNext (lastAddr before cells) target = some next ∧
      Segment next before cells target ∧ ∀ addr ∉ cells.map Prod.fst, next addr = heap addr := by
  obtain ⟨left, cell, rfl⟩ := (List.eq_nil_or_concat' cells).resolve_left nonempty
  obtain ⟨inner, found, _⟩ := append_iff.mp held
  have apart : cell.1 ∉ left.map Prod.fst := by
    intro member
    simp only [List.map_append, List.nodup_append] at distinct
    exact distinct.2.2 _ member _ (by simp) rfl
  refine ⟨_, by simpa [lastAddr] using DHeap.setNext_some found target,
    append_iff.mpr ⟨inner.store_outside apart _, by simp [firstAddr], trivial⟩, ?_⟩
  intro addr outside
  exact heap.store_other _ (by rintro rfl; simp at outside)

/-- Redirecting the `prev` link of the first cell. -/
theorem setPrev_first {cells : List (Addr × Value)} (held : Segment heap before cells after)
    (nonempty : cells ≠ []) (distinct : (cells.map Prod.fst).Nodup) (target : Option Addr) :
    ∃ next, heap.setPrev (firstAddr cells after) target = some next ∧
      Segment next target cells after ∧ ∀ addr ∉ cells.map Prod.fst, next addr = heap addr := by
  cases cells with
  | nil => exact absurd rfl nonempty
  | cons cell rest =>
      obtain ⟨found, inner⟩ := held
      have apart : cell.1 ∉ rest.map Prod.fst := (List.nodup_cons.mp distinct).1
      refine ⟨_, DHeap.setPrev_some found target, ⟨by simp, inner.store_outside apart _⟩, ?_⟩
      intro addr outside
      exact heap.store_other _ (by rintro rfl; simp at outside)

/-- A node goes between two stretches, the second of which gets a new end. -/
theorem relink {left right : List (Addr × Value)} {middle rightAfter : Option Addr}
    (heldLeft : Segment heap before left after) (heldRight : Segment heap middle right rightAfter)
    (leftSome : left ≠ []) (rightSome : right ≠ [])
    (leftDistinct : (left.map Prod.fst).Nodup) (rightDistinct : (right.map Prod.fst).Nodup)
    (apart : ∀ addr ∈ left.map Prod.fst, addr ∉ right.map Prod.fst) (node target : Option Addr) :
    ∃ first second last,
      heap.setPrev (firstAddr right rightAfter) node = some first ∧
      first.setNext (lastAddr before left) node = some second ∧
      second.setNext (lastAddr node right) target = some last ∧
      Segment last before left node ∧ Segment last node right target ∧
      ∀ addr, addr ∉ left.map Prod.fst → addr ∉ right.map Prod.fst → last addr = heap addr := by
  obtain ⟨first, wroteFirst, rightFirst, sameFirst⟩ :=
    heldRight.setPrev_first rightSome rightDistinct node
  have leftFirst : Segment first before left after :=
    heldLeft.congr fun member inside => sameFirst _ (apart _ (List.mem_map_of_mem inside))
  obtain ⟨second, wroteSecond, leftSecond, sameSecond⟩ :=
    leftFirst.setNext_last leftSome leftDistinct node
  have rightSecond : Segment second node right rightAfter :=
    rightFirst.congr fun member inside =>
      sameSecond _ fun inLeft => apart _ inLeft (List.mem_map_of_mem inside)
  obtain ⟨last, wroteLast, rightLast, sameLast⟩ :=
    rightSecond.setNext_last rightSome rightDistinct target
  have leftLast : Segment last before left node :=
    leftSecond.congr fun member inside => sameLast _ (apart _ (List.mem_map_of_mem inside))
  refine ⟨first, second, last, wroteFirst, wroteSecond, wroteLast, leftLast, rightLast, ?_⟩
  intro addr outLeft outRight
  rw [sameLast _ outRight, sameSecond _ outLeft, sameFirst _ outRight]

end Segment

/-- A queue with these ends consists of these cells, in this order. -/
structure DList (heap : DHeap Addr Value) (front rear : Option Addr)
    (cells : List (Addr × Value)) : Prop where
  front : front = firstAddr cells none
  rear : rear = lastAddr none cells
  linked : Segment heap none cells none

namespace DList

variable {heap other : DHeap Addr Value} {front rear : Option Addr} {cells : List (Addr × Value)}

theorem congr (held : DList heap front rear cells)
    (same : ∀ cell ∈ cells, other cell.1 = heap cell.1) : DList other front rear cells :=
  ⟨held.front, held.rear, held.linked.congr same⟩

theorem store_outside [DecidableEq Addr] (held : DList heap front rear cells) {addr : Addr}
    (outside : addr ∉ cells.map Prod.fst) (cell : DCell Addr Value) :
    DList (heap.store addr cell) front rear cells :=
  ⟨held.front, held.rear, held.linked.store_outside outside cell⟩

section Stores

variable [DecidableEq Addr]

/-- The two stores that take a cell out from between its neighbours. -/
theorem unlink {left right : List (Addr × Value)} {cell : Addr × Value}
    (held : DList heap front rear (left ++ cell :: right)) (leftSome : left ≠ [])
    (rightSome : right ≠ []) (distinct : ((left ++ cell :: right).map Prod.fst).Nodup) :
    heap cell.1 = some ⟨cell.2, lastAddr none left, firstAddr right none⟩ ∧
      ∃ middle, heap.setNext (lastAddr none left) (firstAddr right none) = some middle ∧
        middle cell.1 = heap cell.1 ∧
        ∃ next, middle.setPrev (firstAddr right none) (lastAddr none left) = some next ∧
          next cell.1 = heap cell.1 ∧ DList next front rear (left ++ right) ∧
          ∀ addr ∉ (left ++ cell :: right).map Prod.fst, next addr = heap addr := by
  simp only [List.map_append, List.map_cons, List.nodup_append, List.nodup_cons] at distinct
  obtain ⟨leftDistinct, ⟨notRight, rightDistinct⟩, apart⟩ := distinct
  have notLeft : cell.1 ∉ left.map Prod.fst := fun member => apart _ member _ (by simp) rfl
  have across : ∀ addr ∈ right.map Prod.fst, addr ∉ left.map Prod.fst :=
    fun addr member inLeft => apart _ inLeft _ (List.mem_cons_of_mem _ member) rfl
  obtain ⟨leftPart, found, rightPart⟩ := Segment.append_iff.mp held.linked
  obtain ⟨middle, wrote, leftPart, sameLeft⟩ :=
    leftPart.setNext_last leftSome leftDistinct (firstAddr right none)
  have rightPart : Segment middle (some cell.1) right none :=
    rightPart.congr fun member inside => sameLeft _ (across _ (List.mem_map_of_mem inside))
  obtain ⟨next, wroteBack, rightPart, sameRight⟩ :=
    rightPart.setPrev_first rightSome rightDistinct (lastAddr none left)
  have leftPart : Segment next none left (firstAddr right none) :=
    leftPart.congr fun member inside =>
      sameRight _ fun inRight => across _ inRight (List.mem_map_of_mem inside)
  refine ⟨found, middle, wrote, sameLeft _ notLeft, next, wroteBack,
    (sameRight _ notRight).trans (sameLeft _ notLeft), ⟨?_, ?_, ?_⟩, ?_⟩
  · rw [held.front]
    cases left with
    | nil => exact absurd rfl leftSome
    | cons first rest => rfl
  · rw [held.rear]
    cases right with
    | nil => exact absurd rfl rightSome
    | cons first rest => simp [lastAddr]
  · exact Segment.append_iff.mpr ⟨leftPart, rightPart⟩
  · intro addr outside
    simp only [List.map_append, List.map_cons, List.mem_append, List.mem_cons, not_or] at outside
    rw [sameRight _ outside.2.2, sameLeft _ outside.1]

/-- The store that hangs a prepared cell on at the rear. -/
theorem pushRear {addr : Addr} {value : Value} (held : DList heap front rear cells)
    (nonempty : cells ≠ []) (distinct : (cells.map Prod.fst).Nodup)
    (fresh : addr ∉ cells.map Prod.fst) (prepared : heap addr = some ⟨value, rear, none⟩) :
    ∃ next, heap.setNext rear (some addr) = some next ∧
      DList next front (some addr) (cells ++ [(addr, value)]) ∧
      ∀ other ∉ cells.map Prod.fst, next other = heap other := by
  obtain ⟨next, wrote, linked, same⟩ := held.linked.setNext_last nonempty distinct (some addr)
  refine ⟨next, held.rear ▸ wrote, ⟨?_, ?_, ?_⟩, same⟩
  · rw [held.front]
    cases cells with
    | nil => exact absurd rfl nonempty
    | cons first rest => rfl
  · simp [lastAddr]
  · refine Segment.append_iff.mpr ⟨linked, ?_, trivial⟩
    rw [same addr fresh, prepared, held.rear]
    rfl

end Stores

/-- A traversal sees nothing but the values, and ends when its steps exceed the
cells. -/
theorem traverse_eq {State : Type} (visit : State → Value → State) (held : DList heap front rear cells)
    {steps : Nat} (enough : cells.length < steps) (state : State) :
    heap.traverse visit steps front state = some ((cells.map Prod.snd).foldl visit state) :=
  held.front ▸ held.linked.traverse_eq visit enough state

theorem traverse_some {State : Type} {visit : State → Value → State} (held : DList heap front rear cells)
    {steps : Nat} {state final : State} (ran : heap.traverse visit steps front state = some final) :
    final = (cells.map Prod.snd).foldl visit state :=
  held.linked.traverse_some (held.front ▸ ran)

/-- The address that the `next` link of a cell holds. -/
def nextOf (heap : DHeap Addr Value) (addr : Addr) : Option Addr :=
  (heap addr).bind DCell.next

def prevOf (heap : DHeap Addr Value) (addr : Addr) : Option Addr :=
  (heap addr).bind DCell.prev

theorem prevOf_front (held : DList heap front rear cells) {addr : Addr}
    (isFront : front = some addr) : prevOf heap addr = none := by
  cases cells with
  | nil => simp [held.front, firstAddr] at isFront
  | cons cell rest =>
      have same : cell.1 = addr := by simpa [held.front, firstAddr] using isFront
      simp [prevOf, ← same, held.linked.1]

private theorem lastAddr_eq_some {cells : List (Addr × Value)} {addr : Addr}
    (isLast : lastAddr none cells = some addr) : ∃ left value, cells = left ++ [(addr, value)] := by
  induction cells using List.reverseRecOn with
  | nil => simp [lastAddr] at isLast
  | append_singleton left cell _ =>
      simp only [lastAddr_append, lastAddr, Option.some.injEq] at isLast
      exact ⟨left, cell.2, by simp [← isLast]⟩

private theorem firstAddr_eq_some {cells : List (Addr × Value)} {addr : Addr}
    (isFirst : firstAddr cells none = some addr) : ∃ value right, cells = (addr, value) :: right := by
  cases cells with
  | nil => simp [firstAddr] at isFirst
  | cons cell rest =>
      simp only [firstAddr, Option.some.injEq] at isFirst
      exact ⟨cell.2, rest, by simp [← isFirst]⟩

theorem nextOf_rear (held : DList heap front rear cells) {addr : Addr}
    (isRear : rear = some addr) : nextOf heap addr = none := by
  obtain ⟨left, value, rfl⟩ := lastAddr_eq_some (held.rear ▸ isRear)
  have found := (Segment.append_iff.mp held.linked).2.1
  simp [nextOf, found, firstAddr]

/-- In a list, `next` and `prev` are inverse to each other. -/
theorem nextOf_iff_prevOf (held : DList heap front rear cells) {addr target : Addr}
    (member : addr ∈ cells.map Prod.fst) :
    nextOf heap addr = some target ↔
      target ∈ cells.map Prod.fst ∧ prevOf heap target = some addr := by
  constructor
  · intro linked
    obtain ⟨⟨addr, value⟩, inside, rfl⟩ := List.mem_map.mp member
    obtain ⟨left, right, rfl⟩ := List.append_of_mem inside
    obtain ⟨found, rest⟩ := (Segment.append_iff.mp held.linked).2
    rw [nextOf, found] at linked
    obtain ⟨value', right', rfl⟩ := firstAddr_eq_some linked
    exact ⟨by simp, by simp [prevOf, rest.1]⟩
  · rintro ⟨targetMember, linked⟩
    obtain ⟨⟨target, value⟩, inside, rfl⟩ := List.mem_map.mp targetMember
    obtain ⟨left, right, rfl⟩ := List.append_of_mem inside
    obtain ⟨before, found, _⟩ := Segment.append_iff.mp held.linked
    rw [prevOf, found] at linked
    obtain ⟨left', value', rfl⟩ := lastAddr_eq_some linked
    have previous := (Segment.append_iff.mp before).2.1
    simp [nextOf, previous, firstAddr]

private theorem reaches_last {before : Option Addr} {cell : Addr × Value}
    {rest : List (Addr × Value)} {last : Addr} (held : Segment heap before (cell :: rest) none)
    (isLast : lastAddr (some cell.1) rest = some last) :
    Relation.ReflTransGen (fun addr target => nextOf heap addr = some target) cell.1 last := by
  induction rest generalizing before cell with
  | nil =>
      have same : cell.1 = last := by simpa [lastAddr] using isLast
      exact same ▸ .refl
  | cons second rest ih =>
      refine .head ?_ (ih held.2 isLast)
      simp [nextOf, held.1, firstAddr]

/-- The rear is reached from the front along the `next` links. -/
theorem rear_reachable (held : DList heap front rear cells) {first last : Addr}
    (isFront : front = some first) (isRear : rear = some last) :
    Relation.ReflTransGen (fun addr target => nextOf heap addr = some target) first last := by
  obtain ⟨value, rest, rfl⟩ := firstAddr_eq_some (held.front ▸ isFront)
  exact reaches_last held.linked (held.rear ▸ isRear)

end DList

end AempOS.Lib
