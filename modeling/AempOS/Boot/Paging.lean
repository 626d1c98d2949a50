import AempOS.Boot.FileLoadProperties
import AempOS.Memory.PageTable

/-! `DispMemInfo`, `SetupPaging` and `InitKernel` of `boot/loader.asm`, on the bytes of
physical memory. The sizes that are shown on the screen are left out. -/

set_option autoImplicit false

namespace AempOS.Boot

open Lib Memory

def pageDirBase : Nat := 0x200000

def pageTblBase : Nat := 0x201000

def pageTblNumAddr : Nat := 0x500

/-- `PG_P | PG_USU | PG_RWW` -/
def entryAttr : Nat := pgP + pgUsu + pgRww

/-- An address range descriptor of the BIOS. -/
structure ArdStruct where
  dwBaseAddrLow : BitVec 32
  dwBaseAddrHigh : BitVec 32
  dwLengthLow : BitVec 32
  dwLengthHigh : BitVec 32
  dwType : BitVec 32

/-- The memory size after one descriptor. -/
def ArdStruct.count (dwMemSize : BitVec 32) (ard : ArdStruct) : BitVec 32 :=
  if ard.dwType = 1 then
    let stop := ard.dwBaseAddrLow + ard.dwLengthLow
    if stop < dwMemSize then dwMemSize else stop
  else dwMemSize

/-- `DispMemInfo`, with at least one descriptor. -/
def dispMemInfo (memChkBuf : List ArdStruct) : BitVec 32 :=
  memChkBuf.foldl ArdStruct.count 0

/-- The rounds of `loop` for a counter. -/
def loopRounds (ecx : Nat) : Nat := if ecx = 0 then 4294967296 else ecx

/-- `stosd`, then 4096 to `eax`, so many times. -/
def storeEntries : Nat → Nat → Nat → Buffer → Buffer
  | 0, _, _, memory => memory
  | rounds + 1, edi, eax, memory =>
      storeEntries rounds ((edi + 4) % 4294967296) ((eax + 4096) % 4294967296)
        (setWord32 memory edi eax)

/-- The number of page tables, for 4 MiB each. -/
def pageTables (dwMemSize : BitVec 32) : Nat :=
  let quotient := dwMemSize.toNat / 0x400000
  if dwMemSize.toNat % 0x400000 = 0 then quotient else quotient + 1

def setupPaging (dwMemSize : BitVec 32) (memory : Buffer) : Buffer :=
  let ecx := pageTables dwMemSize
  let memory := setWord32 memory pageTblNumAddr ecx
  let memory := storeEntries (loopRounds ecx) pageDirBase (pageTblBase + entryAttr) memory
  let memory := storeEntries (loopRounds ecx) (pageDirBase + 3072)
    ((ecx * 4096 + (pageTblBase + entryAttr)) % 4294967296) memory
  let memory := storeEntries (loopRounds (ecx * 1024)) pageTblBase entryAttr memory
  storeEntries (loopRounds (ecx * 1024)) ((ecx * 1024 * 4 + pageTblBase) % 4294967296) entryAttr memory

/-- Where the processor finds a linear address, with `cr3` at `PageDirBase`. -/
def translate (memory : Buffer) (lin : Nat) : Option Nat :=
  let pde := word32 memory (pageDirBase + 4 * pdeIndex lin)
  if Present pde then
    let pte := word32 memory (pageBase pde + 4 * pteIndex lin)
    if Present pte then some (pageBase pte + lin % 4096) else none
  else none

def readLin (memory : Buffer) (lin : Nat) : Option Byte :=
  (translate memory lin).map memory

def halfLin (memory : Buffer) (lin : Nat) : Option Nat := do
  let first ← readLin memory lin
  let second ← readLin memory ((lin + 1) % 4294967296)
  some (first.toNat + 256 * second.toNat)

def wordLin (memory : Buffer) (lin : Nat) : Option Nat := do
  let low ← halfLin memory lin
  let high ← halfLin memory ((lin + 2) % 4294967296)
  some (low + 65536 * high)

def baseOfKernelFilePhyAddr : Nat := 0x60000

end AempOS.Boot
