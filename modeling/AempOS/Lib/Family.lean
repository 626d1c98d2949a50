import Mathlib.Data.List.FinRange
import Mathlib.Data.List.Nodup
import Mathlib.Data.List.Pairwise
import Mathlib.Logic.Function.Basic

/-! Families of lists over finitely many places, such as the queues of several
processors. `contents` joins the lists of a family; replacing the list of one
place leaves what the other places hold. -/

set_option autoImplicit false

namespace AempOS.Lib

variable {Item : Type} {size : Nat}

/-- Everything that the lists of a family hold. -/
def contents (family : Fin size → List Item) : List Item :=
  (List.finRange size).flatMap family

theorem mem_contents {family : Fin size → List Item} {item : Item} :
    item ∈ contents family ↔ ∃ place, item ∈ family place := by
  simp [contents]

private theorem flatMap_update_outside {places : List (Fin size)} {place : Fin size}
    (outside : place ∉ places) (family : Fin size → List Item) (list : List Item) :
    places.flatMap (Function.update family place list) = places.flatMap family := by
  refine List.flatMap_congr fun other member => ?_
  have apart : other ≠ place := by rintro rfl; exact outside member
  simp [apart]

/-- What the other places hold, seen from one place. -/
theorem contents_update_perm (family : Fin size → List Item) (place : Fin size) :
    ∃ others, ∀ list, (contents (Function.update family place list)).Perm (list ++ others) := by
  obtain ⟨left, right, places⟩ := List.append_of_mem (List.mem_finRange place)
  have distinct : (left ++ place :: right).Nodup := places ▸ List.nodup_finRange size
  simp only [List.nodup_append, List.nodup_cons] at distinct
  obtain ⟨_, ⟨notRight, _⟩, apart⟩ := distinct
  have notLeft : place ∉ left := fun member => apart _ member _ (by simp) rfl
  refine ⟨left.flatMap family ++ right.flatMap family, fun list => ?_⟩
  simp only [contents, places, List.flatMap_append, List.flatMap_cons, Function.update_self,
    flatMap_update_outside notLeft, flatMap_update_outside notRight]
  rw [← List.append_assoc, ← List.append_assoc]
  exact List.perm_append_comm.append_right _

/-- Replacing one list by a rearrangement of it with some items more. -/
theorem contents_update (family : Fin size → List Item) {place : Fin size}
    {list added : List Item} (same : list.Perm (added ++ family place)) :
    (contents (Function.update family place list)).Perm (added ++ contents family) := by
  obtain ⟨others, exact⟩ := contents_update_perm family place
  have whole : (contents family).Perm (family place ++ others) := by
    simpa using exact (family place)
  calc contents (Function.update family place list)
      |>.Perm (list ++ others) := exact list
    _ |>.Perm (added ++ family place ++ others) := same.append_right others
    _ |>.Perm (added ++ contents family) := by
        rw [List.append_assoc]
        exact whole.symm.append_left added

/-- Distinct contents: an item stands in one list only. -/
theorem place_unique (family : Fin size → List Item) (distinct : (contents family).Nodup)
    {left right : Fin size} {item : Item} (inLeft : item ∈ family left)
    (inRight : item ∈ family right) : left = right := by
  by_contra apart
  have symm : Std.Symm (Function.onFun List.Disjoint family) :=
    ⟨fun _ _ disjoint _ inRight inLeft => disjoint inLeft inRight⟩
  have disjoint := (List.nodup_flatMap.mp distinct).2.forall
    (List.mem_finRange left) (List.mem_finRange right) apart
  exact disjoint inLeft inRight

/-- Distinct contents: an item stands only once in its list. -/
theorem place_nodup (family : Fin size → List Item) (distinct : (contents family).Nodup)
    (place : Fin size) : (family place).Nodup :=
  (List.nodup_flatMap.mp distinct).1 place (List.mem_finRange place)

theorem contents_map {Value : Type} (family : Fin size → List Item) (value : Item → Value) :
    (contents family).map value = contents fun place => (family place).map value := by
  simp [contents, List.map_flatMap]

end AempOS.Lib
