import Mathlib.Data.List.GetD
import Mathlib.Logic.Function.Basic
import Mathlib.Tactic.IntervalCases

/-! Buffers of bytes: little-endian words of 32 bits, strings with a terminator,
and the bits of a buffer counted through its bytes. -/

set_option autoImplicit false

namespace AempOS.Lib

abbrev Byte := BitVec 8

abbrev Buffer := Nat → Byte

/-- The word whose first byte is at `off`. -/
def word32 (buf : Buffer) (off : Nat) : Nat :=
  (buf off).toNat + 256 * (buf (off + 1)).toNat + 65536 * (buf (off + 2)).toNat +
    16777216 * (buf (off + 3)).toNat

def setWord32 (buf : Buffer) (off value : Nat) : Buffer := fun o =>
  if off ≤ o ∧ o < off + 4 then BitVec.ofNat 8 (value / 256 ^ (o - off)) else buf o

/-- `strcpy`: the characters and the terminator; what is behind stays. -/
def copyString (buf : Buffer) (off : Nat) (text : List Byte) : Buffer := fun o =>
  if off ≤ o ∧ o < off + text.length + 1 then text.getD (o - off) 0 else buf o

/-- `memset(buf + off, 0, count)`. -/
def clearBytes (buf : Buffer) (off count : Nat) : Buffer := fun o =>
  if off ≤ o ∧ o < off + count then 0 else buf o

/-- `memcpy(buf + off, data, bytes)`. -/
def overlay (buf : Buffer) (off : Nat) (data : List Byte) : Buffer := fun o =>
  if off ≤ o then data.getD (o - off) (buf o) else buf o

/-- `memcpy(buf + at', src + off, bytes)`. -/
def copyBytes (buf : Buffer) (at' : Nat) (src : Buffer) (off bytes : Nat) : Buffer := fun o =>
  if at' ≤ o ∧ o < at' + bytes then src (off + (o - at')) else buf o

/-- Bit `n` of the buffer; the low bit of a byte comes first. -/
def bitAt (buf : Buffer) (n : Nat) : Bool :=
  (buf (n / 8)).getLsbD (n % 8)

/-- `for (; k < 8; k++) { byte |= 1 << k; if (--left == 0) break; }` with
`rounds` values of `k` to go. -/
def setBits : Nat → Byte → Nat → Nat → Byte × Nat
  | 0, byte, _, left => (byte, left)
  | rounds + 1, byte, k, left =>
      if left - 1 = 0 then (byte ||| BitVec.twoPow 8 k, 0)
      else setBits rounds (byte ||| BitVec.twoPow 8 k) (k + 1) (left - 1)

/-- `for (; k < 8 && left; k++, left--) byte &= ~(1 << k);` -/
def clearBits : Nat → Byte → Nat → Nat → Byte × Nat
  | 0, byte, _, left => (byte, left)
  | rounds + 1, byte, k, left =>
      if left = 0 then (byte, 0)
      else clearBits rounds (byte &&& ~~~BitVec.twoPow 8 k) (k + 1) (left - 1)

/-- `for (k = 0; (byte >> k) & 1; k++) {}` on a byte that is not `0xFF`. -/
def skipOnes (byte : Byte) : Nat → Nat → Nat
  | 0, k => k
  | rounds + 1, k => if byte.getLsbD k then skipOnes byte rounds (k + 1) else k

section Words

variable {buf other : Buffer} {off at' value : Nat}

theorem word32_congr (same : ∀ o, off ≤ o → o < off + 4 → buf o = other o) :
    word32 buf off = word32 other off := by
  unfold word32
  rw [same off (by omega) (by omega), same (off + 1) (by omega) (by omega),
    same (off + 2) (by omega) (by omega), same (off + 3) (by omega) (by omega)]

theorem word32_lt (buf : Buffer) (off : Nat) : word32 buf off < 4294967296 := by
  unfold word32
  have := (buf off).isLt
  have := (buf (off + 1)).isLt
  have := (buf (off + 2)).isLt
  have := (buf (off + 3)).isLt
  omega

@[simp] theorem word32_zero (off : Nat) : word32 (fun _ => 0) off = 0 := rfl

/-- Storing the word that is there changes nothing. -/
theorem setWord32_word32 (buf : Buffer) (off : Nat) : setWord32 buf off (word32 buf off) = buf := by
  funext o
  unfold setWord32
  split
  next inside =>
    obtain ⟨shift, rfl⟩ : ∃ shift, o = off + shift := ⟨o - off, by omega⟩
    have small : shift < 4 := by omega
    have first := (buf off).isLt
    have second := (buf (off + 1)).isLt
    have third := (buf (off + 2)).isLt
    have fourth := (buf (off + 3)).isLt
    rw [Nat.add_sub_cancel_left]
    apply BitVec.eq_of_toNat_eq
    rw [BitVec.toNat_ofNat]
    unfold word32
    interval_cases shift
    · simp only [Nat.add_zero, Nat.pow_zero, Nat.div_one]
      omega
    · omega
    · omega
    · omega
  next => rfl

/-- The first byte of a word that is 0. -/
theorem word32_eq_zero (zero : word32 buf off = 0) : buf off = 0 := by
  unfold word32 at zero
  have byte : (buf off).toNat = 0 := by omega
  exact BitVec.eq_of_toNat_eq byte

theorem setWord32_outside {o : Nat} (outside : o < off ∨ off + 4 ≤ o) :
    setWord32 buf off value o = buf o := by
  unfold setWord32
  rw [if_neg (by omega)]

theorem word32_setWord32 (buf : Buffer) (off : Nat) (small : value < 4294967296) :
    word32 (setWord32 buf off value) off = value := by
  have byte (i : Nat) (inside : i < 4) :
      (setWord32 buf off value (off + i)).toNat = value / 256 ^ i % 256 := by
    unfold setWord32
    rw [if_pos (by omega), Nat.add_sub_cancel_left, BitVec.toNat_ofNat]
  have first := byte 0 (by omega)
  have second := byte 1 (by omega)
  have third := byte 2 (by omega)
  have fourth := byte 3 (by omega)
  unfold word32
  rw [second, third, fourth]
  simp only [Nat.add_zero] at first
  rw [first]
  omega

theorem word32_setWord32_apart (apart : off + 4 ≤ at' ∨ at' + 4 ≤ off) :
    word32 (setWord32 buf off value) at' = word32 buf at' :=
  word32_congr fun _ _ _ => setWord32_outside (by omega)

end Words

section Strings

variable {buf : Buffer} {off o : Nat} {text : List Byte}

theorem copyString_outside (outside : o < off ∨ off + text.length + 1 ≤ o) :
    copyString buf off text o = buf o := by
  unfold copyString
  rw [if_neg (by omega)]

theorem copyString_inside {i : Nat} (inside : i ≤ text.length) :
    copyString buf off text (off + i) = text.getD i 0 := by
  unfold copyString
  rw [if_pos (by omega), Nat.add_sub_cancel_left]

theorem clearBytes_outside {count : Nat} (outside : o < off ∨ off + count ≤ o) :
    clearBytes buf off count o = buf o := by
  unfold clearBytes
  rw [if_neg (by omega)]

theorem clearBytes_inside {count : Nat} (low : off ≤ o) (high : o < off + count) :
    clearBytes buf off count o = 0 := by
  unfold clearBytes
  rw [if_pos (by omega)]

/-- The bytes that are put in, and those around them. -/
theorem overlay_apply (buf : Buffer) (off : Nat) (data : List Byte) (o : Nat) :
    overlay buf off data o =
      if off ≤ o ∧ o < off + data.length then data.getD (o - off) 0 else buf o := by
  unfold overlay
  by_cases inside : off ≤ o ∧ o < off + data.length
  · have within : o - off < data.length := by omega
    rw [if_pos inside, if_pos inside.1, List.getD_eq_getElem _ _ within, List.getD_eq_getElem _ _ within]
  · rw [if_neg inside]
    split
    next low => exact List.getD_eq_default _ _ (by omega)
    next => rfl

@[simp] theorem overlay_nil (buf : Buffer) (off : Nat) : overlay buf off [] = buf := by
  funext o
  unfold overlay
  split
  next => rfl
  next => rfl

end Strings

section Bits

theorem byte_full_iff (byte : Byte) : byte = 0xFF ↔ ∀ k < 8, byte.getLsbD k = true := by
  constructor
  · rintro rfl k inside
    interval_cases k <;> rfl
  · intro ones
    apply BitVec.eq_of_getLsbD_eq
    intro k inside
    rw [ones k inside]
    interval_cases k <;> rfl

private theorem twoPow_bit {k m : Nat} (inside : m < 8) :
    (BitVec.twoPow 8 k).getLsbD m = decide (m = k) := by
  rw [BitVec.getLsbD_twoPow, ← Bool.decide_and, decide_eq_decide]
  omega

theorem setBits_left (rounds k left : Nat) (byte : Byte) :
    (setBits rounds byte k left).2 = left - rounds := by
  induction rounds generalizing byte k left with
  | zero => rfl
  | succ rounds ih =>
      rw [setBits]
      split
      next last => simp only; omega
      next => rw [ih]; omega

theorem setBits_bit {rounds k left m : Nat} (byte : Byte) (some : 0 < left) (inside : m < 8) :
    (setBits rounds byte k left).1.getLsbD m =
      (byte.getLsbD m || decide (k ≤ m ∧ m < k + min rounds left)) := by
  induction rounds generalizing byte k left with
  | zero =>
      have none : ¬(k ≤ m ∧ m < k + min 0 left) := by omega
      rw [setBits, decide_eq_false none, Bool.or_false]
  | succ rounds ih =>
      have here : (byte ||| BitVec.twoPow 8 k).getLsbD m = (byte.getLsbD m || decide (m = k)) := by
        rw [BitVec.getLsbD_or, twoPow_bit inside]
      rw [setBits]
      split
      next last =>
        rw [here]
        congr 1
        rw [decide_eq_decide]
        omega
      next more =>
        rw [ih _ (by omega), here, Bool.or_assoc]
        congr 1
        rw [← Bool.decide_or, decide_eq_decide]
        omega

theorem clearBits_left (rounds k left : Nat) (byte : Byte) :
    (clearBits rounds byte k left).2 = left - rounds := by
  induction rounds generalizing byte k left with
  | zero => rfl
  | succ rounds ih =>
      rw [clearBits]
      split
      next empty => simp only; omega
      next => rw [ih]; omega

theorem clearBits_bit {rounds k left m : Nat} (byte : Byte) (inside : m < 8) :
    (clearBits rounds byte k left).1.getLsbD m =
      (byte.getLsbD m && !decide (k ≤ m ∧ m < k + min rounds left)) := by
  induction rounds generalizing byte k left with
  | zero =>
      have none : ¬(k ≤ m ∧ m < k + min 0 left) := by omega
      rw [clearBits, decide_eq_false none, Bool.not_false, Bool.and_true]
  | succ rounds ih =>
      have here : (byte &&& ~~~BitVec.twoPow 8 k).getLsbD m =
          (byte.getLsbD m && !decide (m = k)) := by
        rw [BitVec.getLsbD_and, BitVec.getLsbD_not, twoPow_bit inside, decide_eq_true inside,
          Bool.true_and]
      rw [clearBits]
      split
      next empty =>
        have none : ¬(k ≤ m ∧ m < k + min (rounds + 1) left) := by omega
        rw [decide_eq_false none, Bool.not_false, Bool.and_true]
      next more =>
        rw [ih, here, Bool.and_assoc]
        congr 1
        rw [← Bool.not_or]
        congr 1
        rw [← Bool.decide_or, decide_eq_decide]
        omega

/-- The loop stops at the lowest clear bit when there is one ahead. -/
theorem skipOnes_spec (byte : Byte) {rounds k clear : Nat} (low : k ≤ clear)
    (high : clear < k + rounds) (zero : byte.getLsbD clear = false) :
    k ≤ skipOnes byte rounds k ∧ skipOnes byte rounds k ≤ clear ∧
      byte.getLsbD (skipOnes byte rounds k) = false ∧
      ∀ m, k ≤ m → m < skipOnes byte rounds k → byte.getLsbD m = true := by
  induction rounds generalizing k with
  | zero => omega
  | succ rounds ih =>
      rw [skipOnes]
      split
      next one =>
        have further : k ≠ clear := by
          rintro rfl
          rw [zero] at one
          cases one
        obtain ⟨above, below, stops, ones⟩ := ih (k := k + 1) (by omega) (by omega)
        refine ⟨by omega, below, stops, fun m least before => ?_⟩
        rcases Nat.eq_or_lt_of_le least with rfl | later
        · exact one
        · exact ones m later before
      next stop => exact ⟨Nat.le_refl _, low, by simpa using stop, fun m _ _ => by omega⟩

/-- Replacing one byte of a buffer changes the bits of that byte alone. -/
theorem bitAt_update (buf : Buffer) (j n : Nat) (byte : Byte) :
    bitAt (Function.update buf j byte) n =
      if n / 8 = j then byte.getLsbD (n % 8) else bitAt buf n := by
  unfold bitAt
  split
  next same => rw [same, Function.update_self]
  next other => rw [Function.update_of_ne other]

end Bits

end AempOS.Lib
