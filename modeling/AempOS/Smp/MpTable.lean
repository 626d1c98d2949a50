import AempOS.Lib.FlatMemory

/-! The search for the processors in `kernel/mp.c`. The firmware leaves a
configuration table in memory: a header of 44 bytes and, up to the length that the
header gives, entries that each start with a byte for their type. Pointers are
words of 32 bits. The scan keeps what it read of the entries and what it stored to
`cpulist`. -/

set_option autoImplicit false

namespace AempOS.Smp

open Lib

abbrev Addr := BitVec 32

abbrev Memory := FlatMemory 32

/-- `NCPU`: the elements of `cpulist`. -/
def nCpu : Nat := 4

def mpProc : BitVec 8 := 0x00

def mpBus : BitVec 8 := 0x01

def mpIoApic : BitVec 8 := 0x02

def mpIoIntr : BitVec 8 := 0x03

def mpLIntr : BitVec 8 := 0x04

/-- `sizeof(struct mp)`. -/
def mpSize : Nat := 16

/-- `sizeof(struct mpconf)`. -/
def mpConfSize : Addr := 44

/-- `sizeof(struct mpproc)`. -/
def mpProcSize : Addr := 20

/-- `sizeof(struct mpioapic)`. -/
def mpIoApicSize : Addr := 8

/-! ## The table -/

/-- `sum`: a running `int` of which the low byte is returned. -/
def sum (memory : Memory) (addr : Addr) (len : Nat) : BitVec 8 :=
  BitVec.ofNat 8 ((List.range len).map fun i => (memory (addr + BitVec.ofNat 32 i)).toNat).sum

/-- `memcmp` with a constant string. -/
def memcmp (memory : Memory) : Addr → List (BitVec 8) → Int
  | _, [] => 0
  | s, byte :: rest =>
      if memory s ≠ byte then (memory s).toNat - byte.toNat else memcmp memory (s + 1) rest

/-- `"_MP_"`. -/
def mpSignature : List (BitVec 8) := [0x5F, 0x4D, 0x50, 0x5F]

/-- `"PCMP"`. -/
def confSignature : List (BitVec 8) := [0x50, 0x43, 0x4D, 0x50]

/-- The loop of `mpsearch1`, with the rounds that are left. -/
def searchFrom (memory : Memory) (e : Addr) : Nat → Addr → Option Addr
  | 0, _ => none
  | rounds + 1, p =>
      if p < e then
        if memcmp memory p mpSignature = 0 ∧ sum memory p mpSize = 0 then some p
        else searchFrom memory e rounds (p + BitVec.ofNat 32 mpSize)
      else none

def mpsearch1 (memory : Memory) (a : Addr) (len : Nat) : Option Addr :=
  searchFrom memory (a + BitVec.ofNat 32 len) (len / mpSize) a

/-- `mpsearch`: the extended BIOS area, or the end of the base memory where there
is none, and then the BIOS. -/
def mpsearch (memory : Memory) : Option Addr :=
  let ebda := (memory.half 0x40E).setWidth 32 <<< 4
  let found :=
    if ebda ≠ 0 then mpsearch1 memory ebda 1024
    else mpsearch1 memory ((memory.half 0x413).setWidth 32 * 1024 - 1024) 1024
  found <|> mpsearch1 memory 0xF0000 0x10000

def confLength (memory : Memory) (conf : Addr) : Nat := (memory.half (conf + 4)).toNat

def confVersion (memory : Memory) (conf : Addr) : BitVec 8 := memory (conf + 6)

def confLapicAddr (memory : Memory) (conf : Addr) : Addr := memory.word (conf + 36)

/-- `mpconfig`. -/
def mpconfig (memory : Memory) : Option Addr := do
  let mp ← mpsearch memory
  let conf := memory.word (mp + 4)
  if conf = 0 then none
  else if memcmp memory conf confSignature ≠ 0 then none
  else if confVersion memory conf ≠ 1 ∧ confVersion memory conf ≠ 4 then none
  else if sum memory conf (confLength memory conf) ≠ 0 then none
  else some conf

/-- A configuration table that `mpconfig` accepts. -/
structure MpTable where
  memory : Memory
  conf : Addr
  accepted : mpconfig memory = some conf

/-! ## The scan -/

/-- The variables of `mpinit`, `p` among them. `read` has the addresses of the
entry bytes it read, and `stored` the stores `cpulist[index].id = id`. -/
structure MpScan where
  p : Addr
  cpunumber : Nat
  ismp : Bool
  lapic : Addr
  ioapicid : BitVec 8
  read : List Addr
  stored : List (Nat × Nat)

/-- The `switch` of the loop. -/
def mpEntry (memory : Memory) (scan : MpScan) : MpScan :=
  let type := memory scan.p
  let scan := { scan with read := scan.read ++ [scan.p] }
  if type = mpProc then
    { scan with
      stored := scan.stored ++ [(scan.cpunumber, scan.cpunumber)]
      cpunumber := scan.cpunumber + 1
      p := scan.p + mpProcSize }
  else if type = mpIoApic then
    { scan with
      ioapicid := memory (scan.p + 1)
      read := scan.read ++ [scan.p + 1]
      p := scan.p + mpIoApicSize }
  else if type = mpBus ∨ type = mpIoIntr ∨ type = mpLIntr then
    { scan with p := scan.p + 8 }
  else { scan with ismp := false }

/-- The loop over the entries: no result without fuel. -/
def mpEntries (memory : Memory) (e : Addr) : Nat → MpScan → Option MpScan
  | 0, _ => none
  | fuel + 1, scan =>
      if scan.p < e then mpEntries memory e fuel (mpEntry memory scan) else some scan

/-- What is behind the loop. -/
def finishScan (scan : MpScan) : MpScan :=
  if scan.ismp then scan else { scan with cpunumber := 1, lapic := 0, ioapicid := 0 }

/-- The globals as the kernel starts. -/
def startScan : MpScan := ⟨0, 0, false, 0, 0, [], []⟩

def mpinit (fuel : Nat) (memory : Memory) : Option MpScan :=
  match mpconfig memory with
  | none => some startScan
  | some conf =>
      let scan := { startScan with
        ismp := true, lapic := confLapicAddr memory conf, p := conf + mpConfSize }
      (mpEntries memory (conf + BitVec.ofNat 32 (confLength memory conf)) fuel scan).map finishScan

end AempOS.Smp
