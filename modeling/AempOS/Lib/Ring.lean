import Mathlib.Data.List.Range
import Mathlib.Logic.Function.Basic

/-! Ring buffers: a queue in an array, between two cursors that go back to the start
of the array at its end. -/

set_option autoImplicit false

namespace AempOS.Lib.Ring

variable {Item : Type} {capacity tail count : Nat}

/-- A cursor moves by one cell. -/
def advance (capacity cursor : Nat) : Nat := if cursor + 1 = capacity then 0 else cursor + 1

/-- The queue: `count` cells from `tail` on. -/
def items (cells : Nat → Item) (capacity tail count : Nat) : List Item :=
  (List.range count).map fun i => cells ((tail + i) % capacity)

theorem advance_lt {cursor : Nat} (inside : cursor < capacity) : advance capacity cursor < capacity := by
  unfold advance
  split <;> omega

theorem advance_mod {cursor : Nat} (inside : cursor < capacity) :
    advance capacity cursor = (cursor + 1) % capacity := by
  unfold advance
  split
  next last => rw [last, Nat.mod_self]
  next inner => rw [Nat.mod_eq_of_lt (by omega)]

/-- Behind the last item, one item further. -/
theorem advance_end (positive : 0 < capacity) :
    advance capacity ((tail + count) % capacity) = (tail + (count + 1)) % capacity := by
  rw [advance_mod (Nat.mod_lt _ positive), Nat.mod_add_mod, Nat.add_assoc]

/-- Behind the last item, after the first one was taken. -/
theorem end_advance (inside : tail < capacity) :
    (tail + (count + 1)) % capacity = (advance capacity tail + count) % capacity := by
  rw [advance_mod inside, Nat.mod_add_mod, Nat.add_assoc, Nat.add_comm 1 count]

theorem place_ne {i j : Nat} (before : i < j) (short : j < capacity) :
    (tail + i) % capacity ≠ (tail + j) % capacity := by
  intro same
  have divides : capacity ∣ (tail + j) - (tail + i) :=
    Nat.dvd_of_mod_eq_zero (Nat.sub_mod_eq_zero_of_mod_eq same.symm)
  have := Nat.le_of_dvd (by omega) divides
  omega

@[simp] theorem length_items (cells : Nat → Item) : (items cells capacity tail count).length = count := by
  simp [items]

/-- An item goes into the free cell behind the last one. -/
theorem items_push (cells : Nat → Item) (item : Item) (room : count < capacity) :
    items (Function.update cells ((tail + count) % capacity) item) capacity tail (count + 1) =
      items cells capacity tail count ++ [item] := by
  rw [items, List.range_succ, List.map_append, List.map_singleton, Function.update_self]
  congr 1
  apply List.map_congr_left
  intro i inside
  exact Function.update_of_ne (place_ne (List.mem_range.mp inside) room) _ _

theorem items_pop (cells : Nat → Item) (inside : tail < capacity) :
    items cells capacity tail (count + 1) = cells tail :: items cells capacity (advance capacity tail) count := by
  rw [items, List.range_succ_eq_map, List.map_cons, Nat.add_zero, Nat.mod_eq_of_lt inside, List.map_map]
  congr 1
  apply List.map_congr_left
  intro i _
  exact congrArg cells (end_advance inside)

end AempOS.Lib.Ring
