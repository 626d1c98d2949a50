import Mathlib.Data.Fintype.Card
import Mathlib.Data.Finset.Card

/-! Counting the members of a finite type that are in a given local state, and
how the count moves when one member changes its local state. -/

set_option autoImplicit false

namespace AempOS.Lib

variable {Member Local : Type} [Fintype Member]

/-- How many members are in a local state that `selects` accepts. -/
def population (selects : Local → Bool) (place : Member → Local) : Nat :=
  (Finset.univ.filter fun member => selects (place member) = true).card

/-- Changing one member takes its old state out of the count and puts its new
state in. -/
theorem population_update [DecidableEq Member] (selects : Local → Bool) (place : Member → Local)
    (member : Member) (value : Local) :
    population selects (Function.update place member value) +
        (if selects (place member) then 1 else 0) =
      population selects place + (if selects value then 1 else 0) := by
  have split (other : Member → Local) : population selects other =
      ((Finset.univ.erase member).filter fun m => selects (other m) = true).card +
        (if selects (other member) then 1 else 0) := by
    unfold population
    rw [← Finset.insert_erase (Finset.mem_univ member), Finset.filter_insert]
    by_cases chosen : selects (other member) = true
    · simp [chosen]
    · simp [chosen]
  have rest : ((Finset.univ.erase member).filter
        fun m => selects (Function.update place member value m) = true) =
      ((Finset.univ.erase member).filter fun m => selects (place m) = true) := by
    apply Finset.filter_congr
    intro m inside
    rw [Function.update_of_ne (Finset.ne_of_mem_erase inside)]
  rw [split (Function.update place member value), split place, rest, Function.update_self]
  omega

theorem population_pos {selects : Local → Bool} {place : Member → Local} {member : Member}
    (chosen : selects (place member) = true) : 0 < population selects place :=
  Finset.card_pos.mpr ⟨member, by simp [chosen]⟩

theorem population_eq_zero {selects : Local → Bool} {place : Member → Local} :
    population selects place = 0 ↔ ∀ member, selects (place member) = false := by
  simp [population, Finset.filter_eq_empty_iff]

theorem population_le_one {selects : Local → Bool} {place : Member → Local}
    (bound : population selects place ≤ 1) {left right : Member}
    (leftChosen : selects (place left) = true) (rightChosen : selects (place right) = true) :
    left = right :=
  Finset.card_le_one.mp bound left (by simp [leftChosen]) right (by simp [rightChosen])

theorem population_le_card (selects : Local → Bool) (place : Member → Local) :
    population selects place ≤ Fintype.card Member :=
  Finset.card_le_univ _

end AempOS.Lib
