import Mathlib.Data.BitVec
import Mathlib.Tactic.Common

/-! Memory as bytes at addresses of a fixed width that wrap round, with
little-endian words and runs of cells. -/

set_option autoImplicit false

namespace AempOS.Lib

abbrev FlatMemory (width : Nat) := BitVec width → BitVec 8

namespace FlatMemory

variable {width : Nat}

def half (memory : FlatMemory width) (a : BitVec width) : BitVec 16 := memory (a + 1) ++ memory a

def word (memory : FlatMemory width) (a : BitVec width) : BitVec 32 :=
  memory.half (a + 2) ++ memory.half a

end FlatMemory

/-- The addresses of so many cells from one on. -/
def addressRun {width : Nat} (a : BitVec width) (count : Nat) : List (BitVec width) :=
  (List.range count).map fun i => a + BitVec.ofNat width i

/-- A run of cells below a limit does not wrap round. -/
theorem addressRun_below {width limit : Nat} (small : limit < 2 ^ width) (a : BitVec width) (count : Nat) :
    (∀ c ∈ addressRun a count, c.toNat < limit) ↔ count = 0 ∨ a.toNat + count ≤ limit := by
  constructor
  · intro below
    by_contra past
    have first : a.toNat < limit := by
      have zero := below (a + BitVec.ofNat width 0)
        (List.mem_map_of_mem (List.mem_range.mpr (by omega)))
      simpa using zero
    -- The cell at the limit itself is one of them.
    have last := below (a + BitVec.ofNat width (limit - a.toNat))
      (List.mem_map_of_mem (List.mem_range.mpr (by omega)))
    rw [BitVec.toNat_add, BitVec.toNat_ofNat, Nat.mod_eq_of_lt (by omega : limit - a.toNat < 2 ^ width),
      Nat.mod_eq_of_lt (by omega)] at last
    omega
  · intro fits c member
    obtain ⟨i, inside, rfl⟩ := List.mem_map.mp member
    have round := List.mem_range.mp inside
    rw [BitVec.toNat_add, BitVec.toNat_ofNat]
    have wrapless := Nat.mod_le (a.toNat + i % 2 ^ width) (2 ^ width)
    have index := Nat.mod_le i (2 ^ width)
    omega

end AempOS.Lib
