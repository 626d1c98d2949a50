import Mathlib.Data.List.InsertIdx
import Mathlib.Logic.Function.Basic

/-! Tables kept in the first cells of an array. The loops that close or open a
gap by moving the cells behind it one place do to the list of the cells what
`eraseIdx` and `insertIdx` do. -/

set_option autoImplicit false

namespace AempOS.Lib

variable {Item : Type}

/-- The first `count` cells. -/
def cells (array : Nat → Item) (count : Nat) : List Item :=
  (List.range count).map array

/-- `for (; i < stop; i++) array[i] = array[i+1];` with `steps` rounds to go. -/
def shiftDown (array : Nat → Item) (i : Nat) : Nat → Nat → Item
  | 0 => array
  | steps + 1 => shiftDown (Function.update array i (array (i + 1))) (i + 1) steps

/-- `for (j = i + steps; j > i; j--) array[j] = array[j-1];` -/
def shiftUp (array : Nat → Item) (i : Nat) : Nat → Nat → Item
  | 0 => array
  | steps + 1 => shiftUp (Function.update array (i + steps + 1) (array (i + steps))) i steps

variable {array : Nat → Item} {count : Nat}

@[simp] theorem cells_length (array : Nat → Item) (count : Nat) :
    (cells array count).length = count := by
  simp [cells]

theorem cells_getElem? (array : Nat → Item) (count i : Nat) :
    (cells array count)[i]? = if i < count then some (array i) else none := by
  unfold cells
  split
  next inside => simp [inside]
  next outside => simp [outside]

theorem mem_cells {item : Item} : item ∈ cells array count ↔ ∃ i < count, array i = item := by
  simp [cells]

/-- Two tables that agree cell by cell are the same list. -/
theorem cells_eq_iff {list : List Item} (length : list.length = count) :
    cells array count = list ↔ ∀ i < count, list[i]? = some (array i) := by
  constructor
  · rintro rfl i inside
    rw [cells_getElem?, if_pos inside]
  · intro agree
    refine List.ext_getElem? fun i => ?_
    by_cases inside : i < count
    · rw [agree i inside, cells_getElem?, if_pos inside]
    · rw [cells_getElem?, if_neg inside, List.getElem?_eq_none (by omega)]

theorem cells_update (array : Nat → Item) (count i : Nat) (item : Item) :
    cells (Function.update array i item) count = (cells array count).set i item := by
  rw [cells_eq_iff (by simp)]
  intro j inside
  by_cases same : j = i
  · subst same
    simp [inside]
  · rw [List.getElem?_set_ne (Ne.symm same), Function.update_of_ne same, cells_getElem?,
      if_pos inside]

theorem shiftDown_apply (array : Nat → Item) (i steps j : Nat) :
    shiftDown array i steps j = if i ≤ j ∧ j < i + steps then array (j + 1) else array j := by
  induction steps generalizing array i with
  | zero =>
      have none : ¬(i ≤ j ∧ j < i + 0) := by omega
      simp only [shiftDown, if_neg none]
  | succ steps ih =>
      rw [shiftDown, ih]
      by_cases same : j = i
      · subst same
        simp
      · by_cases behind : i + 1 ≤ j ∧ j < i + 1 + steps
        · have notThis : j + 1 ≠ i := by omega
          have wide : i ≤ j ∧ j < i + (steps + 1) := by omega
          rw [if_pos behind, if_pos wide, Function.update_of_ne notThis]
        · have narrow : ¬(i ≤ j ∧ j < i + (steps + 1)) := by omega
          rw [if_neg behind, if_neg narrow, Function.update_of_ne same]

theorem shiftUp_apply (array : Nat → Item) (i steps j : Nat) :
    shiftUp array i steps j = if i < j ∧ j ≤ i + steps then array (j - 1) else array j := by
  induction steps generalizing array with
  | zero =>
      have none : ¬(i < j ∧ j ≤ i + 0) := by omega
      simp only [shiftUp, if_neg none]
  | succ steps ih =>
      rw [shiftUp, ih]
      by_cases last : j = i + steps + 1
      · subst last
        have inside : i < i + steps + 1 ∧ i + steps + 1 ≤ i + (steps + 1) := by omega
        simp [inside]
      · by_cases inside : i < j ∧ j ≤ i + steps
        · have wide : i < j ∧ j ≤ i + (steps + 1) := by omega
          have apart : j - 1 ≠ i + steps + 1 := by omega
          rw [if_pos inside, if_pos wide, Function.update_of_ne apart]
        · have narrow : ¬(i < j ∧ j ≤ i + (steps + 1)) := by omega
          rw [if_neg inside, if_neg narrow, Function.update_of_ne last]

/-- Closing the gap at a cell. -/
theorem cells_shiftDown (array : Nat → Item) {i : Nat} (inside : i < count) :
    cells (shiftDown array i (count - 1 - i)) (count - 1) = (cells array count).eraseIdx i := by
  rw [cells_eq_iff (by simp [List.length_eraseIdx, inside])]
  intro j below
  rw [List.getElem?_eraseIdx, shiftDown_apply, cells_getElem?, cells_getElem?]
  by_cases before : j < i
  · have small : j < count := by omega
    have apart : ¬(i ≤ j ∧ j < i + (count - 1 - i)) := by omega
    simp only [if_pos before, if_pos small, if_neg apart]
  · have small : j + 1 < count := by omega
    have moved : i ≤ j ∧ j < i + (count - 1 - i) := by omega
    simp only [if_neg before, if_pos small, if_pos moved]

/-- Opening a gap before a cell and filling it. -/
theorem cells_shiftUp (array : Nat → Item) {i : Nat} (inside : i ≤ count) (item : Item) :
    cells (Function.update (shiftUp array i (count - i)) i item) (count + 1) =
      (cells array count).insertIdx i item := by
  rw [cells_eq_iff (by simp [List.length_insertIdx, inside])]
  intro j below
  rw [List.getElem?_insertIdx]
  by_cases same : j = i
  · subst same
    simp [inside]
  · rw [Function.update_of_ne same, shiftUp_apply]
    by_cases before : j < i
    · have small : j < count := by omega
      have apart : ¬(i < j ∧ j ≤ i + (count - i)) := by omega
      simp only [if_pos before, cells_getElem?, if_pos small, if_neg apart]
    · have small : j - 1 < count := by omega
      have moved : i < j ∧ j ≤ i + (count - i) := by omega
      simp only [if_neg before, if_neg same, cells_getElem?, if_pos small, if_pos moved]

theorem insertIdx_length (left right : List Item) (item : Item) :
    (left ++ right).insertIdx left.length item = left ++ item :: right := by
  induction left with
  | nil => simp
  | cons first rest ih => simp [ih]

/-- The cells around one of them. -/
theorem cells_around {i : Nat} (inside : i < count) :
    ∃ left right, cells array count = left ++ array i :: right ∧ left.length = i := by
  have present : i < (cells array count).length := by simpa using inside
  have found : (cells array count)[i] = array i := by
    simp [cells]
  refine ⟨(cells array count).take i, (cells array count).drop (i + 1), ?_, ?_⟩
  · rw [← found, ← List.drop_eq_getElem_cons present, List.take_append_drop]
  · rw [List.length_take, cells_length]
    omega

/-- A search through the cells that finds one. -/
theorem find_cells_some (test : Item → Bool) {i : Nat}
    (found : ((List.range count).find? fun i => test (array i)) = some i) :
    ∃ left right, cells array count = left ++ array i :: right ∧ left.length = i ∧
      test (array i) ∧ ∀ item ∈ left, test item = false := by
  rw [List.find?_range_eq_some] at found
  obtain ⟨passes, inside, earlier⟩ := found
  obtain ⟨left, right, whole, position⟩ := cells_around (List.mem_range.mp inside)
  refine ⟨left, right, whole, position, passes, fun item member => ?_⟩
  obtain ⟨j, below, isItem⟩ := List.mem_iff_getElem.mp member
  have small : j < i := position ▸ below
  have same : (cells array count)[j]? = some item := by
    rw [whole, List.getElem?_append_left below, List.getElem?_eq_getElem below, isItem]
  rw [cells_getElem?, if_pos (Nat.lt_trans small (List.mem_range.mp inside))] at same
  cases same
  simpa using earlier j small

theorem find_cells_none (test : Item → Bool)
    (found : ((List.range count).find? fun i => test (array i)) = none) :
    ∀ item ∈ cells array count, test item = false := by
  intro item member
  obtain ⟨i, inside, rfl⟩ := mem_cells.mp member
  simpa using List.find?_eq_none.mp found i (List.mem_range.mpr inside)

/-- The first item of a list that passes a test stands at one place only. -/
theorem first_unique {Item : Type} {test : Item → Prop} {left other right tail : List Item}
    {item found : Item} (same : left ++ item :: right = other ++ found :: tail)
    (earlier : ∀ x ∈ left, ¬test x) (before : ∀ x ∈ other, ¬test x) (passes : test item)
    (also : test found) : left = other ∧ item = found ∧ right = tail := by
  induction left generalizing other with
  | nil =>
      cases other with
      | nil => simpa using same
      | cons x other =>
          have sameHead : item = x := (List.cons.inj same).1
          exact absurd (sameHead ▸ passes) (before x (by simp))
  | cons y left ih =>
      cases other with
      | nil =>
          have sameHead : y = found := (List.cons.inj same).1
          exact absurd (sameHead ▸ also) (earlier y (by simp))
      | cons x other =>
          obtain ⟨rfl, sameTail⟩ := List.cons.inj same
          obtain ⟨rfl, rest⟩ := ih sameTail (fun z member => earlier z (List.mem_cons_of_mem _ member))
            fun z member => before z (List.mem_cons_of_mem _ member)
          exact ⟨rfl, rest⟩

end AempOS.Lib
