import Mathlib.Data.BitVec

/-! Multiplication and division on the halves of a 16-bit accumulator and on
register pairs. A division whose quotient does not fit has no result: the
processor raises an exception. -/

set_option autoImplicit false

namespace AempOS.Lib

/-- `mul src` with a word: the high and the low word of the product. -/
def mulWord (ax src : BitVec 16) : BitVec 16 × BitVec 16 :=
  (BitVec.ofNat 16 (ax.toNat * src.toNat / 65536), BitVec.ofNat 16 (ax.toNat * src.toNat))

/-- `div src` with a word: the quotient and the remainder. -/
def divWord (dx ax src : BitVec 16) : Option (BitVec 16 × BitVec 16) :=
  let dividend := dx.toNat * 65536 + ax.toNat
  if src = 0 ∨ 65536 ≤ dividend / src.toNat then none
  else some (BitVec.ofNat 16 (dividend / src.toNat), BitVec.ofNat 16 (dividend % src.toNat))

/-- `mul src` with a byte: the product in `ax`. -/
def mulByte (al src : BitVec 8) : BitVec 16 :=
  BitVec.ofNat 16 (al.toNat * src.toNat)

/-- `div src` with a byte: the quotient in `al` and the remainder in `ah`. -/
def divByte (ax : BitVec 16) (src : BitVec 8) : Option (BitVec 8 × BitVec 8) :=
  if src = 0 ∨ 256 ≤ ax.toNat / src.toNat then none
  else some (BitVec.ofNat 8 (ax.toNat / src.toNat), BitVec.ofNat 8 (ax.toNat % src.toNat))

theorem mulWord_value (ax src : BitVec 16) :
    (mulWord ax src).1.toNat * 65536 + (mulWord ax src).2.toNat = ax.toNat * src.toNat := by
  have bound : ax.toNat * src.toNat < 65536 * 65536 :=
    Nat.mul_lt_mul_of_lt_of_lt ax.isLt src.isLt
  simp only [mulWord, BitVec.toNat_ofNat]
  omega

theorem divWord_eq {dx ax src : BitVec 16} {dividend : Nat}
    (value : dx.toNat * 65536 + ax.toNat = dividend) (divisor : 0 < src.toNat)
    (fits : dividend / src.toNat < 65536) :
    ∃ quotient rest, divWord dx ax src = some (quotient, rest) ∧
      quotient.toNat = dividend / src.toNat ∧ rest.toNat = dividend % src.toNat := by
  have nonzero : src ≠ 0 := by
    rintro rfl
    exact absurd divisor (by decide)
  have below := Nat.mod_lt dividend divisor
  have small := src.isLt
  refine ⟨BitVec.ofNat 16 (dividend / src.toNat), BitVec.ofNat 16 (dividend % src.toNat), ?_, ?_, ?_⟩
  · unfold divWord
    simp only [value]
    rw [if_neg (by simp only [nonzero, false_or]; omega)]
  · rw [BitVec.toNat_ofNat, Nat.mod_eq_of_lt fits]
  · rw [BitVec.toNat_ofNat, Nat.mod_eq_of_lt (by omega)]

theorem divByte_eq {ax : BitVec 16} {src : BitVec 8} (divisor : 0 < src.toNat)
    (fits : ax.toNat / src.toNat < 256) :
    ∃ al ah, divByte ax src = some (al, ah) ∧ al.toNat = ax.toNat / src.toNat ∧
      ah.toNat = ax.toNat % src.toNat := by
  have nonzero : src ≠ 0 := by
    rintro rfl
    exact absurd divisor (by decide)
  have below := Nat.mod_lt ax.toNat divisor
  have small := src.isLt
  refine ⟨BitVec.ofNat 8 (ax.toNat / src.toNat), BitVec.ofNat 8 (ax.toNat % src.toNat), ?_, ?_, ?_⟩
  · rw [divByte, if_neg (by simp only [nonzero, false_or]; omega)]
  · rw [BitVec.toNat_ofNat, Nat.mod_eq_of_lt fits]
  · rw [BitVec.toNat_ofNat, Nat.mod_eq_of_lt (by omega)]

theorem divByte_isSome_iff {ax : BitVec 16} {src : BitVec 8} (divisor : 0 < src.toNat) :
    (divByte ax src).isSome = true ↔ ax.toNat / src.toNat < 256 := by
  have nonzero : src ≠ 0 := by
    rintro rfl
    exact absurd divisor (by decide)
  unfold divByte
  split
  next refused =>
    have large := refused.resolve_left nonzero
    simp only [Option.isSome_none, Bool.false_eq_true, false_iff]
    omega
  next within =>
    rw [not_or] at within
    simp only [Option.isSome_some, true_iff]
    omega

end AempOS.Lib
