import AempOS.Boot.Floppy

/-! `GetFATEntry` of `boot/loader.asm`: the 12-bit entries of the FAT, two of them
in three bytes. -/

set_option autoImplicit false

namespace AempOS.Boot

open Lib

/-- The entry of cluster `ax` comes to `ax`. Two sectors are read, as an entry may
start in the last byte of the first. -/
def getFatEntry (bios : Bios) (cpu : Cpu) : Option Cpu := do
  let (dx, ax) := mulWord cpu.ax 3
  let (ax, dx) ← divWord dx ax 2
  let bOdd : Byte := if dx = 0 then 0 else 1
  let (ax, offset) ← divWord 0 ax bpbBytsPerSec
  -- `offset` is on the stack while `ReadSector` works on `dx`
  let read ← readSector bios
    { cpu with
      ax := ax + sectorNoOfFat1
      bx := 0
      cx := setCl cpu.cx 2
      dx := offset
      es := baseOfKernelFile - 0x100 }
  let word := read.word (read.bx + offset)
  let ax := if bOdd = 1 then word >>> 4 else word
  some { read with ax := ax &&& 0x0FFF, bx := cpu.bx, dx := offset, es := cpu.es }

/-- Byte `i` of the first FAT. -/
def fatByte (floppy : Floppy) (i : Nat) : Byte :=
  floppy (1 + i / 512) (i % 512)

/-- The entries as FAT12 packs them. -/
def fatEntry (floppy : Floppy) (n : Nat) : Nat :=
  let word := (fatByte floppy (3 * n / 2)).toNat + 256 * (fatByte floppy (3 * n / 2 + 1)).toNat
  if n % 2 = 0 then word % 4096 else word / 16

theorem low12_toNat (word : BitVec 16) : (word &&& 0x0FFF).toNat = word.toNat % 4096 := by
  rw [BitVec.toNat_and]
  exact Nat.and_two_pow_sub_one_eq_mod _ 12

/-- The byte after byte `i` of consecutive sectors. -/
private theorem next_byte (i : Nat) :
    1 + i / 512 + (i % 512 + 1) / 512 = 1 + (i + 1) / 512 ∧ (i % 512 + 1) % 512 = (i + 1) % 512 := by
  omega

/-- The word that starts in the first of two sectors of the FAT that were read. -/
theorem word_read {floppy : Floppy} {read : Cpu} {i : Nat} {offset : BitVec 16} (start : read.bx = 0)
    (place : offset.toNat = i % 512)
    (bytes : ∀ k < 1024, read.memory (linear read.es 0 + k) = floppy (1 + i / 512 + k / 512) (k % 512)) :
    (read.word (read.bx + offset)).toNat =
      (fatByte floppy i).toNat + 256 * (fatByte floppy (i + 1)).toNat := by
  have here : linear read.es (read.bx + offset) = linear read.es 0 + i % 512 := by
    unfold linear
    rw [start]
    bv_omega
  have next : linear read.es (read.bx + offset + 1) = linear read.es 0 + (i % 512 + 1) := by
    unfold linear
    rw [start]
    bv_omega
  obtain ⟨sect, off⟩ := next_byte i
  unfold Cpu.word Cpu.byte fatByte
  rw [append_toNat, here, next, bytes _ (by omega), bytes _ (by omega), sect, off,
    Nat.div_eq_of_lt (by omega : i % 512 < 512), Nat.mod_mod, Nat.add_zero]

/-- The entry in a word, by the remainder of `ax * 3 / 2`. -/
theorem entry_toNat {n : Nat} {parity word : BitVec 16} (isParity : parity.toNat = n * 3 % 2) :
    ((if (if parity = 0 then (0 : Byte) else 1) = 1 then word >>> 4 else word) &&& 0x0FFF).toNat =
      if n % 2 = 0 then word.toNat % 4096 else word.toNat / 16 := by
  have nothing : (0 : BitVec 16).toNat = 0 := rfl
  rw [low12_toNat]
  by_cases even : n % 2 = 0
  · have zero : parity = 0 := BitVec.eq_of_toNat_eq (isParity.trans (by omega))
    rw [if_pos even, if_pos zero, if_neg (by decide)]
  · have one : parity ≠ 0 := by
      rintro rfl
      omega
    have small := word.isLt
    rw [if_neg even, if_neg one, if_pos rfl, BitVec.toNat_ushiftRight, Nat.shiftRight_eq_div_pow]
    omega

/-- Every entry of the FAT is decoded, also one that lies in two sectors, and `bx`
and `es` are as before. -/
theorem getFatEntry_spec {bios : Bios} {floppy : Floppy} (delivers : Delivers bios floppy) (cpu : Cpu)
    (inside : 3 * cpu.ax.toNat / 2 + 1 < fatSz * 512) :
    ∃ next, getFatEntry bios cpu = some next ∧ next.ax.toNat = fatEntry floppy cpu.ax.toNat ∧
      next.bx = cpu.bx ∧ next.es = cpu.es := by
  unfold fatSz at inside
  have three : (3 : BitVec 16).toNat = 3 := rfl
  have two : (2 : BitVec 16).toNat = 2 := rfl
  have count : (2 : BitVec 8).toNat = 2 := rfl
  have size : bpbBytsPerSec.toNat = 512 := rfl
  have product := mulWord_value cpu.ax 3
  rw [three] at product
  obtain ⟨half, parity, halved, halfValue, parityValue⟩ :=
    @divWord_eq _ _ 2 _ product (by decide) (by rw [two]; omega)
  rw [two] at halfValue parityValue
  have start : (0 : BitVec 16).toNat * 65536 + half.toNat = half.toNat := Nat.zero_add _
  obtain ⟨sector, offset, divided, sectorValue, offsetValue⟩ :=
    @divWord_eq _ _ bpbBytsPerSec _ start (by decide) (by rw [size]; omega)
  rw [size] at sectorValue offsetValue
  have first : (sector + sectorNoOfFat1).toNat = 1 + half.toNat / 512 := by
    unfold sectorNoOfFat1
    bv_omega
  obtain ⟨read, ran, base, segment, bytes, _⟩ := readSector_delivers delivers
    { cpu with
      ax := sector + sectorNoOfFat1
      bx := 0
      cx := setCl cpu.cx 2
      dx := offset
      es := baseOfKernelFile - 0x100 }
    (by simp only [first]; omega) (by simp only [first, setCl_low, count]; omega)
  simp only [setCl_low, first, count] at bytes base segment
  have place : half.toNat = 3 * cpu.ax.toNat / 2 := by omega
  rw [← segment] at bytes
  have word := word_read base offsetValue bytes
  unfold getFatEntry
  simp only [halved, divided, ran, Option.bind_eq_bind, Option.bind_some, Option.some.injEq,
    exists_eq_left']
  refine ⟨?_, trivial, trivial⟩
  rw [entry_toNat parityValue, word, place]
  rfl

/-- A floppy with a byte of its own number in every place. -/
def countingFloppy : Floppy := fun sector i => BitVec.ofNat 8 (sector * 512 + i)

/-- Entry 341 has its low nibble in the last byte of the first sector. -/
theorem getFatEntry_straddling :
    ∃ next, getFatEntry (floppyBios countingFloppy) ⟨341, 7, 0, 0, 0x900, fun _ => 0⟩ = some next ∧
      next.ax.toNat = fatEntry countingFloppy 341 ∧ next.bx = 7 ∧ next.es = 0x900 :=
  getFatEntry_spec (floppyBios_delivers countingFloppy) ⟨341, 7, 0, 0, 0x900, fun _ => 0⟩ (by decide)

end AempOS.Boot
