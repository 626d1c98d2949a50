import AempOS.Lib.Bytes

/-! `get_part_table` and `partition` of `kernel/hd.c`: the walk over the master table
of a drive and over the boot records of its extended partitions, with `hd_info`,
which it fills, and `hdbuf`. The drive delivers the sector that it is asked for. -/

set_option autoImplicit false

namespace AempOS.Hd.Partition

open Lib

def nrPartPerDrive : Nat := 4

def nrSubPerPart : Nat := 16

def nrPrimPerDrive : Nat := nrPartPerDrive + 1

/-- `NO_PART` -/
def noPart : Byte := 0x00

/-- `EXT_PART` -/
def extPart : Byte := 0x05

/-- `PARTITION_TABLE_OFFSET` -/
def partitionTableOffset : Nat := 0x1BE

/-- The fields of `struct part_ent` that are read. -/
structure PartEnt where
  sysId : Byte
  startSect : BitVec 32
  nrSects : BitVec 32

/-- `struct part_info` -/
structure PartInfo where
  base : BitVec 32
  size : BitVec 32
  deriving DecidableEq

/-- `struct hd_info`, without `open_cnt`. -/
structure HdInfo where
  primary : Nat → PartInfo
  logical : Nat → PartInfo

/-- The sectors of the drives. The registers have 28 bits for the number. -/
abbrev Image := Nat → BitVec 28 → Buffer

/-- `hd_info` and `hdbuf` -/
structure Driver where
  hdInfo : Nat → HdInfo
  hdbuf : Buffer

def Driver.setPrimary (driver : Driver) (drive devNr : Nat) (info : PartInfo) : Driver :=
  let hdi := driver.hdInfo drive
  { driver with
    hdInfo := Function.update driver.hdInfo drive
      { hdi with primary := Function.update hdi.primary devNr info } }

def Driver.setLogical (driver : Driver) (drive devNr : Nat) (info : PartInfo) : Driver :=
  let hdi := driver.hdInfo drive
  { driver with
    hdInfo := Function.update driver.hdInfo drive
      { hdi with logical := Function.update hdi.logical devNr info } }

/-- Entry `i` of the table in a boot sector. -/
def partEnt (sector : Buffer) (i : Nat) : PartEnt :=
  let off := partitionTableOffset + 16 * i
  { sysId := sector (off + 4)
    startSect := BitVec.ofNat 32 (word32 sector (off + 8))
    nrSects := BitVec.ofNat 32 (word32 sector (off + 12)) }

/-- The table that is copied to `entry`, and the driver with the sector in `hdbuf`. -/
def getPartTable (image : Image) (drive : Nat) (sectNr : BitVec 32) (driver : Driver) :
    (Nat → PartEnt) × Driver :=
  let hdbuf := image drive (sectNr.setWidth 28)
  (partEnt hdbuf, { driver with hdbuf := hdbuf })

/-- `DRV_OF_DEV` -/
def drvOfDev (dev : Nat) : Nat :=
  if dev ≤ 9 then dev / nrPrimPerDrive else (dev - 0x10) / 64

/-- The loop of `P_EXTENDED` with so many rounds to go. -/
def extendedLoop (image : Image) (drive : Nat) (extStartSect : BitVec 32) (nr1stSub : Nat) :
    Nat → Nat → BitVec 32 → Driver → Driver
  | 0, _, _, driver => driver
  | rounds + 1, i, s, driver =>
      let devNr := nr1stSub + i
      let (partTbl, driver) := getPartTable image drive s driver
      let driver := driver.setLogical drive devNr ⟨s + (partTbl 0).startSect, (partTbl 0).nrSects⟩
      if (partTbl 1).sysId = noPart then driver
      else
        extendedLoop image drive extStartSect nr1stSub rounds (i + 1)
          (extStartSect + (partTbl 1).startSect) driver

/-- `partition(device, P_EXTENDED)` -/
def partitionExtended (image : Image) (device : Nat) (driver : Driver) : Driver :=
  let drive := drvOfDev device
  let j := device % nrPrimPerDrive
  let extStartSect := ((driver.hdInfo drive).primary j).base
  extendedLoop image drive extStartSect ((j - 1) * nrSubPerPart) nrSubPerPart 0 extStartSect driver

/-- The loop of `P_PRIMARY` over the entries of the table, which is its own: the calls
in it read theirs. -/
def primaryLoop (image : Image) (device : Nat) (partTbl : Nat → PartEnt) : Nat → Nat → Driver → Driver
  | 0, _, driver => driver
  | rounds + 1, i, driver =>
      if (partTbl i).sysId = noPart then primaryLoop image device partTbl rounds (i + 1) driver
      else
        let devNr := i + 1
        let driver := driver.setPrimary (drvOfDev device) devNr ⟨(partTbl i).startSect, (partTbl i).nrSects⟩
        let driver :=
          if (partTbl i).sysId = extPart then partitionExtended image (device + devNr) driver else driver
        primaryLoop image device partTbl rounds (i + 1) driver

/-- `partition(device, P_PRIMARY)`. The table is read from sector `drive`. -/
def partitionPrimary (image : Image) (device : Nat) (driver : Driver) : Driver :=
  let drive := drvOfDev device
  let (partTbl, driver) := getPartTable image drive (BitVec.ofNat 32 drive) driver
  primaryLoop image device partTbl nrPartPerDrive 0 driver

/-- `P_PRIMARY` -/
def pPrimary : Nat := 0

/-- `P_EXTENDED` -/
def pExtended : Nat := 1

def partition (image : Image) (device style : Nat) (driver : Driver) : Driver :=
  if style = pPrimary then partitionPrimary image device driver
  else if style = pExtended then partitionExtended image device driver
  else driver

end AempOS.Hd.Partition
