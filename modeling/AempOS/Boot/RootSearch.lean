import AempOS.Boot.Floppy
import AempOS.Lib.Scan

/-! The searches of `boot/loader.asm` for the five files in the root directory. The
loader loads each file before it looks for the next one. That may leave anything in
the registers and in the memory, but for the variables of the searches. -/

set_option autoImplicit false

namespace AempOS.Boot

open Lib

/-- The eleven characters that a directory entry starts with. -/
def fileName (text : String) : List Byte :=
  text.toList.map fun c => BitVec.ofNat 8 c.toNat

def kernelFileName : List Byte := fileName "KERNEL  BIN"

/-- `EchoFileName` -/
def echoFileName : List Byte := fileName "INIT    BIN"

def init1FileName : List Byte := fileName "INIT1   BIN"

def init2FileName : List Byte := fileName "INIT2   BIN"

def init3FileName : List Byte := fileName "INIT3   BIN"

def baseOfEchoFile : BitVec 16 := 0x07E0

def baseOfInit1File : BitVec 16 := 0x08E0

def baseOfInit2File : BitVec 16 := 0x09E0

def baseOfInit3File : BitVec 16 := 0x0AE0

/-- `LABEL_CMP_FILENAME`: whether all characters are equal, and `di` behind them
or at the first that is not. -/
def cmpFilename (cpu : Cpu) : BitVec 16 → List Byte → Bool × BitVec 16
  | di, [] => (true, di)
  | di, al :: rest => if al = cpu.byte di then cmpFilename cpu (di + 1) rest else (false, di)

/-- `LABEL_SEARCH_FOR_KERNELBIN` with `dx` entries of the sector to go: `di` at
`LABEL_FILENAME_FOUND`. -/
def searchSector (cpu : Cpu) (name : List Byte) : Nat → BitVec 16 → Option (BitVec 16)
  | 0, _ => none
  | dx + 1, di =>
      match cmpFilename cpu di name with
      | (true, di) => some di
      | (false, di) => searchSector cpu name dx ((di &&& 0xFFE0) + 0x20)

/-- The machine at `LABEL_FILENAME_FOUND`, with `wSectorNo` and
`wRootDirSizeForLoop`. -/
structure Found where
  cpu : Cpu
  di : BitVec 16
  wSectorNo : BitVec 16
  wRootDirSizeForLoop : Nat

/-- `LABEL_SEARCH_IN_ROOT_DIR_BEGIN`. At `LABEL_NO_KERNELBIN` the loader stays, and
there is no result. -/
def searchRootDir (bios : Bios) (base : BitVec 16) (name : List Byte) :
    Nat → BitVec 16 → Cpu → Option Found
  | 0, _, _ => none
  | wRootDirSizeForLoop + 1, wSectorNo, cpu => do
      let cpu ← readSector bios
        { cpu with ax := wSectorNo, bx := 0, cx := setCl cpu.cx 1, es := base }
      match searchSector cpu name 0x10 0 with
      | some di => some ⟨cpu, di, wSectorNo, wRootDirSizeForLoop⟩
      | none => searchRootDir bios base name wRootDirSizeForLoop (wSectorNo + 1) cpu

/-- A search from `mov word [wSectorNo], SectorNoOfRootDirectory` on. -/
def search (bios : Bios) (base : BitVec 16) (name : List Byte) (wRootDirSizeForLoop : Nat) (cpu : Cpu) :
    Option Found :=
  searchRootDir bios base name wRootDirSizeForLoop sectorNoOfRootDirectory cpu

def searchKernel (bios : Bios) : Nat → Cpu → Option Found :=
  search bios baseOfKernelFile kernelFileName

def searchEcho (bios : Bios) : Nat → Cpu → Option Found :=
  search bios baseOfEchoFile echoFileName

def searchInit1 (bios : Bios) : Nat → Cpu → Option Found :=
  search bios baseOfInit1File init1FileName

def searchInit2 (bios : Bios) : Nat → Cpu → Option Found :=
  search bios baseOfInit2File init2FileName

def searchInit3 (bios : Bios) : Nat → Cpu → Option Found :=
  search bios baseOfInit3File init3FileName

/-- One search after the other, with the load of a file in between. Each starts with
the `wRootDirSizeForLoop` that the one before has left, for only `wSectorNo` is set
again. -/
def searchAll (load : Found → Cpu) : List (Nat → Cpu → Option Found) → Nat → Cpu → Option (List Found)
  | [], _, _ => some []
  | next :: rest, wRootDirSizeForLoop, cpu => do
      let found ← next wRootDirSizeForLoop cpu
      let later ← searchAll load rest found.wRootDirSizeForLoop (load found)
      some (found :: later)

def loaderSearches (bios : Bios) (load : Found → Cpu) (cpu : Cpu) : Option (List Found) :=
  searchAll load [searchKernel bios, searchEcho bios, searchInit1 bios, searchInit2 bios, searchInit3 bios]
    rootDirSectors cpu

end AempOS.Boot
