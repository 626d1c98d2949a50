import AempOS.Fs.DiskProperties
import AempOS.Hd.Rdwt

/-! From a sector number of the file system to the registers of the drive: the macros
`RD_SECT`, `WR_SECT`, `RD_SECT_SCHED` and `WR_SECT_SCHED` of `fs_misc.h`, `rw_sector`
and `rw_sector_sched` of `kernel/fs.c`, and the command of the driver. -/

set_option autoImplicit false

namespace AempOS.Hd.Rdwt

open Lib

/-- `DEV_WRITE` of `enum msgtype`. -/
def devWrite : BitVec 32 := 1004

/-- `MINOR` -/
def minor (dev : BitVec 32) : BitVec 32 := dev &&& 0xFF

/-- The type of the expression for a sector number. Its product with `SECTOR_SIZE`,
which is an `int`, has the same type. -/
inductive SectType where
  | int
  | u32

/-- `(sect_nr) * SECTOR_SIZE` as an argument of type `u64`. -/
def toU64 (type : SectType) (product : BitVec 32) : BitVec 64 :=
  match type with
  | .int => product.signExtend 64
  | .u32 => product.setWidth 64

def rwSector (ioType dev : BitVec 32) (pos : BitVec 64) (bytes procNr : BitVec 32) (buf : Linear) :
    Message where
  type := ioType
  device := minor dev
  position := pos
  cnt := bytes
  procNr := procNr
  buf := buf

/-- `pos` is an `int` here, and widened to `POSITION`. -/
def rwSectorSched (ioType dev pos bytes procNr : BitVec 32) (buf : Linear) : Message where
  type := ioType
  device := minor dev
  position := pos.signExtend 64
  cnt := bytes
  procNr := procNr
  buf := buf

/-- The four macros, the first two with the type of their sector number; the others
convert it to `int`. -/
inductive SectMacro where
  | rdSect (type : SectType)
  | wrSect (type : SectType)
  | rdSectSched
  | wrSectSched

/-- The request that comes to the driver. -/
def SectMacro.message (sectMacro : SectMacro) (dev sectNr procNr : BitVec 32) (fsbuf : Linear) : Message :=
  match sectMacro with
  | .rdSect type => rwSector devRead dev (toU64 type (sectNr * 512)) 512 procNr fsbuf
  | .wrSect type => rwSector devWrite dev (toU64 type (sectNr * 512)) 512 procNr fsbuf
  | .rdSectSched => rwSectorSched devRead dev (sectNr * 512) 512 procNr fsbuf
  | .wrSectSched => rwSectorSched devWrite dev (sectNr * 512) 512 procNr fsbuf

/-- The base of the partition of a minor device number, as the driver looks it up. -/
def partBase (hdInfo : BitVec 32 → HdInfo) (device : BitVec 32) : BitVec 32 :=
  if device.slt 9 then (hdInfo (drvOfDev device)).primary device
  else (hdInfo (drvOfDev device)).logical ((device - 0x10).srem 64)

/-- The sector that the registers of a command name: 28 bits. -/
def HdCmd.lba (cmd : HdCmd) : Nat :=
  cmd.lbaLow.toNat + 256 * cmd.lbaMid.toNat + 65536 * cmd.lbaHigh.toNat + 16777216 * (cmd.device.toNat % 16)

/-! ## The registers -/

theorem hdCmd_device (hdInfo : BitVec 32 → HdInfo) (msg : Message) :
    (hdCmd hdInfo msg).device.toNat % 16 = (sectNr hdInfo msg).toNat / 16777216 % 16 := by
  have low : (hdCmd hdInfo msg).device.setWidth 4 = (sectNr hdInfo msg >>> 24).setWidth 4 := by
    apply BitVec.eq_of_getLsbD_eq
    intro i inside
    unfold hdCmd
    simp only [BitVec.getLsbD_setWidth, BitVec.getLsbD_or, BitVec.getLsbD_and, BitVec.getLsbD_shiftLeft]
    interval_cases i <;> simp
  have value := congrArg BitVec.toNat low
  rw [BitVec.toNat_setWidth, BitVec.toNat_setWidth, BitVec.toNat_ushiftRight,
    Nat.shiftRight_eq_div_pow] at value
  exact value

theorem hdCmd_lba (hdInfo : BitVec 32 → HdInfo) (msg : Message) :
    (hdCmd hdInfo msg).lba = (sectNr hdInfo msg).toNat % 2 ^ 28 := by
  have low : (hdCmd hdInfo msg).lbaLow.toNat = (sectNr hdInfo msg).toNat % 256 :=
    BitVec.toNat_setWidth _ _
  have mid : (hdCmd hdInfo msg).lbaMid.toNat = (sectNr hdInfo msg).toNat / 256 % 256 := by
    rw [hdCmd, BitVec.toNat_setWidth, BitVec.toNat_ushiftRight, Nat.shiftRight_eq_div_pow]
  have high : (hdCmd hdInfo msg).lbaHigh.toNat = (sectNr hdInfo msg).toNat / 65536 % 256 := by
    rw [hdCmd, BitVec.toNat_setWidth, BitVec.toNat_ushiftRight, Nat.shiftRight_eq_div_pow]
  unfold HdCmd.lba
  rw [low, mid, high, hdCmd_device]
  omega

/-- The driver shifts the position back and adds the base. -/
theorem sectNr_toNat (hdInfo : BitVec 32 → HdInfo) (msg : Message) :
    (sectNr hdInfo msg).toNat = (msg.position.toNat / 512 + (partBase hdInfo msg.device).toNat) % 2 ^ 32 := by
  have base : sectNr hdInfo msg = (msg.position >>> 9).setWidth 32 + partBase hdInfo msg.device := rfl
  rw [base, BitVec.toNat_add, BitVec.toNat_setWidth, BitVec.toNat_ushiftRight, Nat.shiftRight_eq_div_pow]
  omega

/-! ## The position -/

theorem signExtend_toNat (x : BitVec 32) :
    (x.signExtend 64).toNat = if x.toNat < 2 ^ 31 then x.toNat else x.toNat + (2 ^ 64 - 2 ^ 32) := by
  have small := x.isLt
  rw [BitVec.toNat_signExtend, BitVec.toNat_setWidth, Nat.mod_eq_of_lt (by omega)]
  by_cases positive : x.toNat < 2 ^ 31
  · rw [if_pos positive, BitVec.msb_eq_false_iff_two_mul_lt.mpr (by omega)]
    rfl
  · rw [if_neg positive, BitVec.msb_eq_true_iff_two_mul_ge.mpr (by omega)]
    rfl

/-- The product goes through an `int`. -/
def SectMacro.Signed : SectMacro → Prop
  | .rdSect .u32 => False
  | .wrSect .u32 => False
  | _ => True

theorem message_signed {sectMacro : SectMacro} (signed : sectMacro.Signed) (dev sectNr procNr : BitVec 32)
    (fsbuf : Linear) :
    (sectMacro.message dev sectNr procNr fsbuf).position = (sectNr * 512).signExtend 64 := by
  cases sectMacro with
  | rdSect type =>
      cases type with
      | int => rfl
      | u32 => exact signed.elim
  | wrSect type =>
      cases type with
      | int => rfl
      | u32 => exact signed.elim
  | rdSectSched => rfl
  | wrSectSched => rfl

theorem message_unsigned {sectMacro : SectMacro} (unsigned : ¬sectMacro.Signed)
    (dev sectNr procNr : BitVec 32) (fsbuf : Linear) :
    (sectMacro.message dev sectNr procNr fsbuf).position = (sectNr * 512).setWidth 64 := by
  cases sectMacro with
  | rdSect type =>
      cases type with
      | int => exact absurd trivial unsigned
      | u32 => rfl
  | wrSect type =>
      cases type with
      | int => exact absurd trivial unsigned
      | u32 => rfl
  | rdSectSched => exact absurd trivial unsigned
  | wrSectSched => exact absurd trivial unsigned

theorem message_device (sectMacro : SectMacro) (dev sectNr procNr : BitVec 32) (fsbuf : Linear) :
    (sectMacro.message dev sectNr procNr fsbuf).device = minor dev := by
  cases sectMacro <;> rfl

/-- The requests of the file system model go to the sector of the drive that it names, with
the first sector of the partition added. -/
theorem lba_hdSector {sectMacro : SectMacro} (signed : sectMacro.Signed) (hdInfo : BitVec 32 → HdInfo)
    (dev sectNr procNr : BitVec 32) (fsbuf : Linear) :
    (hdCmd hdInfo (sectMacro.message dev sectNr procNr fsbuf)).lba =
      ((partBase hdInfo (minor dev)).toNat + Fs.hdSector sectNr.toNat) % Fs.lbaSectors := by
  have product : (sectNr * 512).toNat = sectNr.toNat * 512 % 2 ^ 32 := BitVec.toNat_mul _ _
  rw [hdCmd_lba, sectNr_toNat, message_device, message_signed signed, signExtend_toNat, product]
  unfold Fs.hdSector Fs.lbaSectors Fs.sectorSize
  simp only
  split
  next => omega
  next => omega

/-- A position below 2 GB, or, where the product is not signed, below 4 GB. Of a signed
product that is negative the registers keep 28 bits, and these are those of the last
sectors that they can name. -/
def SectorFits (sectMacro : SectMacro) (sectNr : Nat) : Prop :=
  sectNr < 2 ^ 22 ∨ (sectMacro.Signed ∧ 2 ^ 28 - 2 ^ 22 ≤ sectNr) ∨ (¬sectMacro.Signed ∧ sectNr < 2 ^ 23)

/-- The sectors that the drive is asked for. -/
theorem lba_exact_iff (sectMacro : SectMacro) (hdInfo : BitVec 32 → HdInfo) (dev sectNr procNr : BitVec 32)
    (fsbuf : Linear) (inside : (partBase hdInfo (minor dev)).toNat + sectNr.toNat < 2 ^ 28) :
    (hdCmd hdInfo (sectMacro.message dev sectNr procNr fsbuf)).lba =
        (partBase hdInfo (minor dev)).toNat + sectNr.toNat ↔ SectorFits sectMacro sectNr.toNat := by
  have product : (sectNr * 512).toNat = sectNr.toNat * 512 % 2 ^ 32 := BitVec.toNat_mul _ _
  rw [hdCmd_lba, sectNr_toNat, message_device]
  unfold SectorFits
  by_cases signed : sectMacro.Signed
  · rw [message_signed signed, signExtend_toNat, product]
    simp only [signed, true_and, not_true_eq_false, false_and, or_false]
    split
    next => omega
    next => omega
  · rw [message_unsigned signed, BitVec.toNat_setWidth, product]
    simp only [signed, false_and, not_false_eq_true, true_and, false_or]
    omega

/-- One partition, at the first sector. -/
def onePartition : BitVec 32 → HdInfo := fun _ => ⟨fun _ => 0, fun _ => 0⟩

theorem lba_exact_last :
    (hdCmd onePartition (SectMacro.rdSectSched.message 0x320 4194303 1 0)).lba = 4194303 :=
  (lba_exact_iff .rdSectSched onePartition 0x320 4194303 1 0 (by decide)).mpr (.inl (by decide))

/-- The first sector behind 2 GB: the position is negative. -/
theorem lba_wrong :
    (partBase onePartition (minor 0x320)).toNat + (4194304 : BitVec 32).toNat < 2 ^ 28 ∧
      (hdCmd onePartition (SectMacro.rdSectSched.message 0x320 4194304 1 0)).lba ≠ 4194304 := by
  decide

end AempOS.Hd.Rdwt
