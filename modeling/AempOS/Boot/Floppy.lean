import AempOS.Lib.Bytes
import AempOS.Lib.Registers

/-! The floppy of `boot/loader.asm`: the geometry of `fat12hdr.inc` and `ReadSector`,
on 16-bit registers and a memory of linear addresses. What `int 13h` reads is the
BIOS's; its retries until success are left out. -/

set_option autoImplicit false

namespace AempOS.Boot

open Lib

def bpbBytsPerSec : BitVec 16 := 512

def bpbSecPerTrk : BitVec 8 := 18

def bsDrvNum : BitVec 8 := 0

/-- `RootDirSectors` -/
def rootDirSectors : Nat := 14

/-- `FATSz` -/
def fatSz : Nat := 9

def sectorNoOfRootDirectory : BitVec 16 := 19

def sectorNoOfFat1 : BitVec 16 := 1

def baseOfKernelFile : BitVec 16 := 0x6000

/-- A floppy: its sectors by number. -/
abbrev Floppy := Nat → Buffer

/-- `int 13h` with `ah = 2`: the bytes that come to `es:bx` for a cylinder, a first
sector, a head and a number of sectors. -/
abbrev Bios := BitVec 8 → BitVec 8 → BitVec 8 → BitVec 8 → Buffer

/-- The BIOS delivers sectors of one track one after the other. -/
def Delivers (bios : Bios) (floppy : Floppy) : Prop :=
  ∀ cylinder sector head count : BitVec 8, 1 ≤ sector.toNat →
    sector.toNat - 1 + count.toNat ≤ 18 → head.toNat < 2 → ∀ i < 512 * count.toNat,
      bios cylinder sector head count i =
        floppy ((cylinder.toNat * 2 + head.toNat) * 18 + (sector.toNat - 1) + i / 512) (i % 512)

/-- A BIOS that reads this floppy. -/
def floppyBios (floppy : Floppy) : Bios := fun cylinder sector head _ i =>
  floppy ((cylinder.toNat * 2 + head.toNat) * 18 + (sector.toNat - 1) + i / 512) (i % 512)

theorem floppyBios_delivers (floppy : Floppy) : Delivers (floppyBios floppy) floppy :=
  fun _ _ _ _ _ _ _ _ _ => rfl

/-- The registers that are used, and the memory. -/
structure Cpu where
  ax : BitVec 16
  bx : BitVec 16
  cx : BitVec 16
  dx : BitVec 16
  es : BitVec 16
  memory : Nat → Byte

def linear (segment offset : BitVec 16) : Nat :=
  segment.toNat * 16 + offset.toNat

/-- `mov cl, value` -/
def setCl (cx : BitVec 16) (value : BitVec 8) : BitVec 16 :=
  cx.extractLsb' 8 8 ++ value

/-- `byte [es:offset]` -/
def Cpu.byte (cpu : Cpu) (offset : BitVec 16) : Byte :=
  cpu.memory (linear cpu.es offset)

/-- `word [es:offset]` -/
def Cpu.word (cpu : Cpu) (offset : BitVec 16) : BitVec 16 :=
  cpu.byte (offset + 1) ++ cpu.byte offset

/-- Read `cl` sectors from sector `ax` on to `es:bx`. It has no result when the
division overflows. -/
def readSector (bios : Bios) (cpu : Cpu) : Option Cpu :=
  let count : BitVec 8 := cpu.cx.setWidth 8
  (divByte cpu.ax bpbSecPerTrk).map fun (al, ah) =>
    let cl := ah + 1
    let dh := al &&& 1
    let ch := al >>> 1
    { cpu with
      ax := count.setWidth 16
      cx := ch ++ cl
      dx := dh ++ bsDrvNum
      memory := fun a =>
        if linear cpu.es cpu.bx ≤ a ∧ a < linear cpu.es cpu.bx + 512 * count.toNat then
          bios ch cl dh count (a - linear cpu.es cpu.bx)
        else cpu.memory a }

theorem append_toNat (high low : Byte) : (high ++ low : BitVec 16).toNat = low.toNat + 256 * high.toNat := by
  rw [BitVec.toNat_append, ← Nat.shiftLeft_add_eq_or_of_lt low.isLt, Nat.shiftLeft_eq]
  omega

theorem setCl_low (cx : BitVec 16) (value : BitVec 8) : (setCl cx value).setWidth 8 = value := by
  apply BitVec.eq_of_toNat_eq
  rw [BitVec.toNat_setWidth, setCl, append_toNat]
  have small := value.isLt
  omega

/-- The cylinder, the head and the sector in the track are those of the sector
that was asked for, as long as the sectors lie in one track. -/
theorem readSector_delivers {bios : Bios} {floppy : Floppy} (delivers : Delivers bios floppy) (cpu : Cpu)
    (low : cpu.ax.toNat < 18 * 256)
    (track : cpu.ax.toNat % 18 + (cpu.cx.setWidth 8).toNat ≤ 18) :
    ∃ next, readSector bios cpu = some next ∧ next.bx = cpu.bx ∧ next.es = cpu.es ∧
      (∀ i < 512 * (cpu.cx.setWidth 8).toNat, next.memory (linear cpu.es cpu.bx + i) =
        floppy (cpu.ax.toNat + i / 512) (i % 512)) ∧
      ∀ a, a < linear cpu.es cpu.bx ∨
        linear cpu.es cpu.bx + 512 * (cpu.cx.setWidth 8).toNat ≤ a → next.memory a = cpu.memory a := by
  have perTrk : bpbSecPerTrk.toNat = 18 := rfl
  obtain ⟨al, ah, divided, quotient, rest⟩ :=
    @divByte_eq cpu.ax bpbSecPerTrk (by decide) (by rw [perTrk]; omega)
  rw [perTrk] at quotient rest
  have sector : (ah + 1).toNat = cpu.ax.toNat % 18 + 1 := by bv_omega
  have head : (al &&& 1).toNat = cpu.ax.toNat / 18 % 2 := by
    rw [BitVec.toNat_and, ← quotient]
    exact Nat.and_one_is_mod _
  have cylinder : (al >>> 1).toNat = cpu.ax.toNat / 18 / 2 := by
    rw [BitVec.toNat_ushiftRight, ← quotient]
    rfl
  simp only [readSector, divided, Option.map_some, Option.some.injEq, exists_eq_left']
  refine ⟨trivial, trivial, fun i inside => ?_, fun a outside => ?_⟩
  · have located : (cpu.ax.toNat / 18 / 2 * 2 + cpu.ax.toNat / 18 % 2) * 18 +
        (cpu.ax.toNat % 18 + 1 - 1) = cpu.ax.toNat := by omega
    have delivered := delivers (al >>> 1) (ah + 1) (al &&& 1) (cpu.cx.setWidth 8)
      (by rw [sector]; omega) (by rw [sector]; omega) (by rw [head]; omega) i inside
    rw [sector, head, cylinder, located] at delivered
    rw [if_pos (by omega), Nat.add_sub_cancel_left]
    exact delivered
  · rw [if_neg (by omega)]

end AempOS.Boot
