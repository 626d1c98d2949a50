import AempOS.Boot.FatEntry
import AempOS.Boot.RootSearchProperties

/-! `LABEL_FILENAME_FOUND` and `LABEL_GOON_LOADING_FILE` of `boot/loader.asm`: the
clusters of a file are read one after the other. The dots on the screen are left out. -/

set_option autoImplicit false

namespace AempOS.Boot

open Lib

/-- `DeltaSectorNo` -/
def deltaSectorNo : BitVec 16 := 17

/-- One round from `LABEL_GOON_LOADING_FILE` on, for the sector in `ax` and its cluster on
the stack, with the cluster of the next round. Only the load of the kernel is `far`: it
goes to the next segment when `bx` wraps. -/
def loadSector (bios : Bios) (far : Bool) (cluster : BitVec 16) (cpu : Cpu) :
    Option (Cpu × Option (BitVec 16)) := do
  let read ← readSector bios { cpu with cx := setCl cpu.cx 1 }
  let entry ← getFatEntry bios { read with ax := cluster }
  if entry.ax = 0x0FFF then some (entry, none)
  else
    let bx := entry.bx + bpbBytsPerSec
    let carry := decide (65536 ≤ entry.bx.toNat + bpbBytsPerSec.toNat)
    some ({ entry with
      ax := entry.ax + 14 + deltaSectorNo
      dx := 14
      bx := bx
      es := if far && carry then entry.es + 0x1000 else entry.es }, some entry.ax)

/-- The rounds to `LABEL_FILE_LOADED`, if these are enough. -/
def loadRounds (bios : Bios) (far : Bool) : Nat → BitVec 16 → Cpu → Option Cpu
  | 0, _, _ => none
  | rounds + 1, cluster, cpu =>
      match loadSector bios far cluster cpu with
      | none => none
      | some (cpu, none) => some cpu
      | some (cpu, some cluster) => loadRounds bios far rounds cluster cpu

/-- `LABEL_FILENAME_FOUND`: the first cluster, and the registers for the first round. -/
def startLoad (base : BitVec 16) (found : Found) : BitVec 16 × Cpu :=
  let di := (found.di &&& 0xFFF0) + 0x1A
  let cluster := found.cpu.word di
  (cluster, { found.cpu with
    ax := cluster + 14 + deltaSectorNo
    bx := 0
    cx := cluster + 14 + deltaSectorNo
    es := base })

/-- One file, from the search on. -/
def loadFile (bios : Bios) (far : Bool) (base : BitVec 16) (name : List Byte)
    (rounds wRootDirSizeForLoop : Nat) (cpu : Cpu) : Option (Cpu × Nat) := do
  let found ← search bios base name wRootDirSizeForLoop cpu
  let (cluster, cpu) := startLoad base found
  let cpu ← loadRounds bios far rounds cluster cpu
  some (cpu, found.wRootDirSizeForLoop)

structure LoaderFile where
  base : BitVec 16
  name : List Byte
  far : Bool

def loadFiles (bios : Bios) (rounds : Nat) : List LoaderFile → Nat → Cpu → Option Cpu
  | [], _, cpu => some cpu
  | file :: rest, wRootDirSizeForLoop, cpu => do
      let (cpu, wRootDirSizeForLoop) ←
        loadFile bios file.far file.base file.name rounds wRootDirSizeForLoop cpu
      loadFiles bios rounds rest wRootDirSizeForLoop cpu

def loaderFilesToLoad : List LoaderFile :=
  [⟨baseOfKernelFile, kernelFileName, true⟩, ⟨baseOfEchoFile, echoFileName, false⟩,
    ⟨baseOfInit1File, init1FileName, false⟩, ⟨baseOfInit2File, init2FileName, false⟩,
    ⟨baseOfInit3File, init3FileName, false⟩]

/-- The real-mode part of the loader, up to the last `KillMotor`. -/
def loaderLoads (bios : Bios) (rounds : Nat) (cpu : Cpu) : Option Cpu :=
  loadFiles bios rounds loaderFilesToLoad rootDirSectors cpu

end AempOS.Boot
