import Mathlib.Data.List.Basic
import Mathlib.Logic.Function.Basic

/-! Singly linked lists in a heap of cells, worked on through pointers to
pointers: a slot is either the variable that holds the list or the `next` field
of a cell. Loops over slots take fuel; a chain with fewer cells than that never
uses it up. -/

set_option autoImplicit false

namespace AempOS.Lib

structure SCell (Value : Type) where
  value : Value
  next : Option Nat

abbrev SHeap (Value : Type) := Nat → SCell Value

/-- The cells that are reached from a pointer, in order. -/
def Chain {Value : Type} (heap : SHeap Value) : Option Nat → List Nat → Prop
  | pointer, [] => pointer = none
  | pointer, addr :: rest => pointer = some addr ∧ Chain heap (heap addr).next rest

/-- Where a pointer to a cell is kept. -/
inductive Slot where
  | head
  | next (addr : Nat)
  deriving DecidableEq

/-- A list variable over the heap of all cells. -/
structure SList (Value : Type) where
  heap : SHeap Value
  head : Option Nat

namespace SList

variable {Value : Type}

def read (list : SList Value) : Slot → Option Nat
  | .head => list.head
  | .next addr => (list.heap addr).next

def store (list : SList Value) : Slot → Option Nat → SList Value
  | .head, pointer => { list with head := pointer }
  | .next addr, pointer =>
      { list with heap := Function.update list.heap addr { list.heap addr with next := pointer } }

/-- Advance a slot along the list until it holds nothing or a cell that passes
the test. -/
def seek (list : SList Value) (test : Value → Bool) : Nat → Slot → Option Slot
  | 0, _ => none
  | fuel + 1, slot =>
      match list.read slot with
      | none => some slot
      | some addr => if test (list.heap addr).value then some slot else seek list test fuel (.next addr)

/-- Take the first cell off. -/
def popFront (list : SList Value) : Option (Nat × SList Value) :=
  list.head.map fun addr =>
    (addr, (list.store .head (list.heap addr).next).store (.next addr) none)

/-- Put a cell in front. -/
def pushFront (list : SList Value) (addr : Nat) : SList Value :=
  (list.store (.next addr) list.head).store .head (some addr)

/-- Walk to the end and put a cell there. -/
def pushRear (list : SList Value) (fuel addr : Nat) : Option (SList Value) :=
  (list.seek (fun _ => false) fuel .head).map fun slot =>
    (list.store (.next addr) none).store slot (some addr)

/-- Take out the first cell that passes the test. The outer `none` is a walk that
does not end. -/
def removeFirst (list : SList Value) (fuel : Nat) (test : Value → Bool) :
    Option (Option (Nat × SList Value)) :=
  (list.seek test fuel .head).map fun slot =>
    (list.read slot).map fun addr =>
      (addr, (list.store slot (list.heap addr).next).store (.next addr) none)

/-! ## Single stores -/

@[simp] theorem read_store_self (list : SList Value) (slot : Slot) (pointer : Option Nat) :
    (list.store slot pointer).read slot = pointer := by
  cases slot <;> simp [store, read]

theorem read_store_other (list : SList Value) {slot other : Slot} (pointer : Option Nat)
    (apart : other ≠ slot) : (list.store slot pointer).read other = list.read other := by
  cases slot with
  | head =>
      cases other with
      | head => exact absurd rfl apart
      | next addr => rfl
  | next addr =>
      cases other with
      | head => rfl
      | next b =>
          have differ : b ≠ addr := fun same => apart (by rw [same])
          simp [store, read, differ]

@[simp] theorem store_value (list : SList Value) (slot : Slot) (pointer : Option Nat) (addr : Nat) :
    ((list.store slot pointer).heap addr).value = (list.heap addr).value := by
  cases slot with
  | head => rfl
  | next b =>
      by_cases same : addr = b
      · simp [store, same]
      · simp [store, same]

theorem store_heap_other (list : SList Value) {slot : Slot} (pointer : Option Nat) {addr : Nat}
    (apart : slot ≠ .next addr) : (list.store slot pointer).heap addr = list.heap addr := by
  cases slot with
  | head => rfl
  | next b =>
      have differ : addr ≠ b := fun same => apart (by rw [same])
      simp [store, differ]

end SList

/-! ## Chains -/

section

variable {Value : Type} {heap other : SHeap Value}

/-- A chain reads the links of its own cells only. -/
theorem Chain.congr {pointer : Option Nat} {cells : List Nat} (chain : Chain heap pointer cells)
    (same : ∀ addr ∈ cells, (other addr).next = (heap addr).next) : Chain other pointer cells := by
  induction cells generalizing pointer with
  | nil => exact chain
  | cons addr rest ih =>
      obtain ⟨here, tail⟩ := chain
      refine ⟨here, ?_⟩
      rw [same addr (by simp)]
      exact ih tail fun b member => same b (List.mem_cons_of_mem _ member)

/-- The slot behind the cells of a list. -/
def lastSlot : Slot → List Nat → Slot
  | slot, [] => slot
  | _, addr :: rest => lastSlot (.next addr) rest

theorem lastSlot_cases (slot : Slot) (cells : List Nat) :
    lastSlot slot cells = slot ∨ ∃ addr ∈ cells, lastSlot slot cells = .next addr := by
  induction cells generalizing slot with
  | nil => exact .inl rfl
  | cons addr rest ih =>
      rcases ih (.next addr) with same | ⟨b, member, same⟩
      · exact .inr ⟨addr, by simp, same⟩
      · exact .inr ⟨b, List.mem_cons_of_mem _ member, same⟩

@[simp] theorem lastSlot_concat (slot : Slot) (cells : List Nat) (addr : Nat) :
    lastSlot slot (cells ++ [addr]) = .next addr := by
  induction cells generalizing slot with
  | nil => rfl
  | cons b rest ih => exact ih (.next b)

theorem lastSlot_ne {cells : List Nat} {addr : Nat} (outside : addr ∉ cells) :
    lastSlot .head cells ≠ .next addr := by
  intro same
  rcases lastSlot_cases .head cells with isHead | ⟨b, member, isNext⟩
  · cases isHead.symm.trans same
  · cases isNext.symm.trans same
    exact outside member

/-- The end of a chain, seen from the slot in front of it. -/
theorem Chain.read_lastSlot {list : SList Value} {slot : Slot} {left right : List Nat}
    (chain : Chain list.heap (list.read slot) (left ++ right)) :
    Chain list.heap (list.read (lastSlot slot left)) right := by
  induction left generalizing slot with
  | nil => exact chain
  | cons addr rest ih =>
      have tail : Chain list.heap (list.read (.next addr)) (rest ++ right) := chain.2
      exact ih tail

theorem Chain.seek {list : SList Value} {test : Value → Bool} {slot : Slot} {left right : List Nat}
    {fuel : Nat} (chain : Chain list.heap (list.read slot) (left ++ right))
    (skipped : ∀ addr ∈ left, test (list.heap addr).value = false)
    (stops : ∀ addr ∈ right.head?, test (list.heap addr).value = true) (enough : left.length < fuel) :
    list.seek test fuel slot = some (lastSlot slot left) := by
  induction left generalizing slot fuel with
  | nil =>
      obtain ⟨fuel, rfl⟩ := Nat.exists_eq_add_of_lt enough
      cases right with
      | nil =>
          have empty : list.read slot = none := chain
          simp [SList.seek, empty, lastSlot]
      | cons addr rest =>
          have here : list.read slot = some addr := chain.1
          simp [SList.seek, here, stops addr rfl, lastSlot]
  | cons addr rest ih =>
      rw [List.length_cons] at enough
      obtain ⟨fuel, rfl⟩ : ∃ less, fuel = less + 1 := ⟨fuel - 1, by omega⟩
      have here : list.read slot = some addr := chain.1
      have tail : Chain list.heap (list.read (.next addr)) (rest ++ right) := chain.2
      simp only [SList.seek, here, skipped addr (by simp), Bool.false_eq_true, if_false]
      exact ih tail (fun b member => skipped b (List.mem_cons_of_mem _ member)) (by omega)

/-- A store behind the cells of `left` replaces what followed them. -/
theorem Chain.store {list : SList Value} {slot : Slot} {left right added : List Nat}
    {pointer : Option Nat} (chain : Chain list.heap (list.read slot) (left ++ right))
    (distinct : left.Nodup) (outside : ∀ addr, slot = .next addr → addr ∉ left)
    (follow : Chain (list.store (lastSlot slot left) pointer).heap pointer added) :
    Chain (list.store (lastSlot slot left) pointer).heap
      ((list.store (lastSlot slot left) pointer).read slot) (left ++ added) := by
  induction left generalizing slot with
  | nil =>
      rw [lastSlot, SList.read_store_self]
      exact follow
  | cons addr rest ih =>
      have here : list.read slot = some addr := chain.1
      have tail : Chain list.heap (list.read (.next addr)) (rest ++ right) := chain.2
      obtain ⟨notRest, distinctRest⟩ := List.nodup_cons.mp distinct
      have apart : slot ≠ lastSlot (.next addr) rest := by
        intro same
        rcases lastSlot_cases (.next addr) rest with isFirst | ⟨b, member, isLater⟩
        · exact outside addr (same.trans isFirst) (by simp)
        · exact outside b (same.trans isLater) (List.mem_cons_of_mem _ member)
      refine ⟨(list.read_store_other pointer apart).trans here, ?_⟩
      refine ih tail distinctRest (fun b isNext => ?_) follow
      cases isNext
      exact notRest

end

/-- Writing a cell commutes with a store to another one. -/
theorem SList.store_update {Value : Type} (list : SList Value) {slot : Slot} (pointer : Option Nat)
    {addr : Nat} (cell : SCell Value) (apart : slot ≠ .next addr) :
    (⟨Function.update (list.store slot pointer).heap addr cell, (list.store slot pointer).head⟩ :
      SList Value) = SList.store ⟨Function.update list.heap addr cell, list.head⟩ slot pointer := by
  cases slot with
  | head => rfl
  | next b =>
      have differ : b ≠ addr := fun same => apart (by rw [same])
      simp only [store, Function.update_of_ne differ, SList.mk.injEq, and_true]
      exact Function.update_comm differ _ _ _

/-- A new cell is linked behind the cells of a chain. -/
theorem Chain.extend {Value : Type} {list : SList Value} {cells : List Nat} {addr : Nat} (value : Value)
    (chain : Chain list.heap list.head cells) (distinct : cells.Nodup) (outside : addr ∉ cells) :
    Chain (Function.update (list.store (lastSlot .head cells) (some addr)).heap addr ⟨value, none⟩)
      (list.store (lastSlot .head cells) (some addr)).head (cells ++ [addr]) := by
  have apart := lastSlot_ne outside
  let written : SList Value := ⟨Function.update list.heap addr ⟨value, none⟩, list.head⟩
  have commutes := list.store_update (some addr) ⟨value, none⟩ apart
  have whole : Chain written.heap (written.read .head) (cells ++ []) := by
    rw [List.append_nil]
    refine chain.congr fun b member => ?_
    have differ : b ≠ addr := fun same => outside (same ▸ member)
    simp only [written, Function.update_of_ne differ]
  have follow : Chain (written.store (lastSlot .head cells) (some addr)).heap (some addr) [addr] := by
    refine ⟨rfl, ?_⟩
    rw [SList.store_heap_other _ _ apart]
    simp [written, Chain]
  have stored := whole.store distinct (by simp) follow
  have heapEq := congrArg SList.heap commutes
  have headEq := congrArg SList.head commutes
  simp only at heapEq headEq
  rw [heapEq, headEq]
  exact stored

/-! ## The operations -/

namespace SList

variable {Value : Type} (list : SList Value) {cells : List Nat}

/-- Nothing but the links of the named cells differs. -/
structure SameBut (before after : SHeap Value) (cells : List Nat) : Prop where
  values : ∀ addr, (after addr).value = (before addr).value
  others : ∀ addr, addr ∉ cells → after addr = before addr

theorem popFront_nil (chain : Chain list.heap list.head []) : list.popFront = none := by
  have empty : list.head = none := chain
  simp [popFront, empty]

theorem popFront_cons {addr : Nat} (chain : Chain list.heap list.head (addr :: cells))
    (fresh : addr ∉ cells) :
    ∃ rest, list.popFront = some (addr, rest) ∧ Chain rest.heap rest.head cells ∧
      SameBut list.heap rest.heap [addr] := by
  obtain ⟨here, tail⟩ := chain
  refine ⟨(list.store .head (list.heap addr).next).store (.next addr) none, by simp [popFront, here],
    ?_, ?_, ?_⟩
  · refine tail.congr fun b member => ?_
    have apart : b ≠ addr := fun same => fresh (same ▸ member)
    rw [store_heap_other _ _ (by simpa using apart.symm)]
    rfl
  · intro b
    simp
  · intro b outside
    rw [store_heap_other _ _ (by simpa [eq_comm] using outside)]
    rfl

theorem pushFront_spec {addr : Nat} (chain : Chain list.heap list.head cells) (fresh : addr ∉ cells) :
    Chain (list.pushFront addr).heap (list.pushFront addr).head (addr :: cells) ∧
      SameBut list.heap (list.pushFront addr).heap [addr] := by
  refine ⟨⟨rfl, ?_⟩, fun b => ?_, fun b outside => ?_⟩
  · have link : ((list.pushFront addr).heap addr).next = list.head := by simp [pushFront, store]
    rw [link]
    refine chain.congr fun b member => ?_
    have apart : b ≠ addr := fun same => fresh (same ▸ member)
    simp [pushFront, store, apart]
  · simp [pushFront]
  · have apart : b ≠ addr := by simpa using outside
    simp [pushFront, store, apart]

theorem pushRear_spec {fuel addr : Nat} (chain : Chain list.heap list.head cells)
    (distinct : cells.Nodup) (fresh : addr ∉ cells) (enough : cells.length < fuel) :
    ∃ longer, list.pushRear fuel addr = some longer ∧
      Chain longer.heap longer.head (cells ++ [addr]) ∧
      SameBut list.heap longer.heap (addr :: cells) := by
  have whole : Chain list.heap (list.read .head) (cells ++ []) := by simpa [read] using chain
  have found : list.seek (fun _ => false) fuel .head = some (lastSlot .head cells) :=
    whole.seek (fun _ _ => rfl) (by simp) enough
  refine ⟨_, by rw [pushRear, found, Option.map_some], ?_, fun b => by simp, fun b outside => ?_⟩
  · have cut : Chain (list.store (.next addr) none).heap
        ((list.store (.next addr) none).read .head) (cells ++ []) := by
      refine whole.congr fun b member => ?_
      have apart : b ≠ addr := fun same => fresh (same ▸ by simpa using member)
      rw [store_heap_other _ _ (by simpa using apart.symm)]
    refine cut.store distinct (by simp) ⟨rfl, ?_⟩
    have link := read_store_other (list.store (.next addr) none) (some addr) (lastSlot_ne fresh).symm
    rw [read_store_self] at link
    exact link
  · simp only [List.mem_cons, not_or] at outside
    rw [store_heap_other _ _ (lastSlot_ne outside.2),
      store_heap_other _ _ (by simpa using (Ne.symm outside.1))]

theorem removeFirst_none {fuel : Nat} (test : Value → Bool) (chain : Chain list.heap list.head cells)
    (absent : ∀ addr ∈ cells, test (list.heap addr).value = false) (enough : cells.length < fuel) :
    list.removeFirst fuel test = some none := by
  have whole : Chain list.heap (list.read .head) (cells ++ []) := by simpa [read] using chain
  have found := whole.seek absent (by simp) enough
  have empty : list.read (lastSlot .head cells) = none := whole.read_lastSlot
  rw [removeFirst, found, Option.map_some, empty]
  rfl

theorem removeFirst_some {fuel addr : Nat} (test : Value → Bool) {left right : List Nat}
    (chain : Chain list.heap list.head (left ++ addr :: right)) (distinct : (left ++ addr :: right).Nodup)
    (skipped : ∀ b ∈ left, test (list.heap b).value = false) (passes : test (list.heap addr).value = true)
    (enough : left.length < fuel) :
    ∃ rest, list.removeFirst fuel test = some (some (addr, rest)) ∧
      Chain rest.heap rest.head (left ++ right) ∧ SameBut list.heap rest.heap (left ++ addr :: right) := by
  have whole : Chain list.heap (list.read .head) (left ++ addr :: right) := chain
  obtain ⟨distinctLeft, distinctRight, across⟩ := List.nodup_append.mp distinct
  have notLeft : addr ∉ left := fun member => across addr member addr (by simp) rfl
  have notRight := (List.nodup_cons.mp distinctRight).1
  have found := whole.seek skipped (by simpa using passes) enough
  obtain ⟨here, tail⟩ := whole.read_lastSlot
  refine ⟨(list.store (lastSlot .head left) (list.heap addr).next).store (.next addr) none, ?_, ?_, ?_, ?_⟩
  · rw [removeFirst, found, Option.map_some, here]
    rfl
  · have linked : Chain (list.store (lastSlot .head left) (list.heap addr).next).heap
        ((list.store (lastSlot .head left) (list.heap addr).next).read .head) (left ++ right) := by
      refine whole.store distinctLeft (by simp) (tail.congr fun b member => ?_)
      have notLeftB : b ∉ left := fun inLeft => across b inLeft b (List.mem_cons_of_mem _ member) rfl
      rw [store_heap_other _ _ (lastSlot_ne notLeftB)]
    refine linked.congr fun b member => ?_
    have apart : b ≠ addr := by
      rintro rfl
      exact (List.mem_append.mp member).elim notLeft notRight
    rw [store_heap_other _ _ (by simpa using apart.symm)]
  · intro b
    simp
  · intro b outside
    simp only [List.mem_append, List.mem_cons, not_or] at outside
    rw [store_heap_other _ _ (by simpa using (Ne.symm outside.2.1)),
      store_heap_other _ _ (lastSlot_ne outside.1)]

end SList

/-! ## Other values in the same cells -/

section

variable {A B : Type} (change : A → B)

def SCell.map (cell : SCell A) : SCell B := ⟨change cell.value, cell.next⟩

def mapHeap (heap : SHeap A) : SHeap B := fun addr => (heap addr).map change

def SList.map (list : SList A) : SList B := ⟨mapHeap change list.heap, list.head⟩

theorem mapHeap_update (heap : SHeap A) (addr : Nat) (cell : SCell A) :
    mapHeap change (Function.update heap addr cell) =
      Function.update (mapHeap change heap) addr (cell.map change) := by
  funext other
  by_cases same : other = addr
  · subst same
    simp [mapHeap]
  · simp [mapHeap, same]

namespace SList

theorem map_read (list : SList A) (slot : Slot) : (list.map change).read slot = list.read slot := by
  cases slot <;> rfl

theorem map_store (list : SList A) (slot : Slot) (pointer : Option Nat) :
    (list.store slot pointer).map change = (list.map change).store slot pointer := by
  cases slot with
  | head => rfl
  | next addr => simp [store, map, mapHeap_update, SCell.map, mapHeap]

theorem map_seek (list : SList A) (test : B → Bool) (fuel : Nat) (slot : Slot) :
    (list.map change).seek test fuel slot = list.seek (fun value => test (change value)) fuel slot := by
  induction fuel generalizing slot with
  | zero => rfl
  | succ fuel ih =>
      unfold seek
      rw [map_read]
      cases list.read slot with
      | none => rfl
      | some addr =>
          simp only [ih]
          rfl

theorem map_popFront (list : SList A) :
    (list.map change).popFront = list.popFront.map fun (addr, rest) => (addr, rest.map change) := by
  unfold popFront
  rw [Option.map_map]
  congr 1
  funext addr
  simp only [Function.comp_apply, map_store]
  rfl

theorem map_pushFront (list : SList A) (addr : Nat) :
    (list.pushFront addr).map change = (list.map change).pushFront addr := by
  unfold pushFront
  rw [map_store, map_store]
  rfl

theorem map_pushRear (list : SList A) (fuel addr : Nat) :
    (list.map change).pushRear fuel addr = (list.pushRear fuel addr).map (SList.map change) := by
  unfold pushRear
  rw [map_seek, Option.map_map]
  congr 1
  funext slot
  simp only [Function.comp_apply, map_store]

theorem map_removeFirst (list : SList A) (fuel : Nat) (test : B → Bool) :
    (list.map change).removeFirst fuel test =
      (list.removeFirst fuel fun value => test (change value)).map
        (Option.map fun (addr, rest) => (addr, rest.map change)) := by
  unfold removeFirst
  rw [map_seek, Option.map_map]
  congr 1
  funext slot
  simp only [Function.comp_apply, map_read, Option.map_map]
  congr 1
  funext addr
  simp only [Function.comp_apply, map_store]
  rfl

end SList

end

end AempOS.Lib
