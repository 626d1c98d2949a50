import AempOS.Hd.Interrupt
import AempOS.Lib.Bytes

/-! `hd_rdwt` and `hd_rdwt_real` of `kernel/hd.c` with the bytes that they move:
from the data port through `hdbuf` to the caller's buffer, or back. The drive is
what it answers to a command. `Interrupt` has the flag that `interrupt_wait` spins
on; here a wait returns if the drive raises an interrupt for the sector. -/

set_option autoImplicit false

namespace AempOS.Hd.Rdwt

open Lib

/-- A linear address. -/
abbrev Linear := BitVec 32

/-- The fields of a `MESSAGE` that the driver reads. -/
structure Message where
  type : BitVec 32
  device : BitVec 32
  position : BitVec 64
  cnt : BitVec 32
  procNr : BitVec 32
  buf : Linear

/-- `DEV_READ` of `enum msgtype`. -/
def devRead : BitVec 32 := 1003

/-- `struct hd_info`: the first sectors of the partitions of a drive. -/
structure HdInfo where
  primary : BitVec 32 → BitVec 32
  logical : BitVec 32 → BitVec 32

/-- `DRV_OF_DEV` -/
def drvOfDev (dev : BitVec 32) : BitVec 32 :=
  if dev.sle 9 then dev.sdiv 5 else (dev - 0x10).sdiv 64

/-- `sect_nr`: the sector of the position, behind the base of its partition. -/
def sectNr (hdInfo : BitVec 32 → HdInfo) (msg : Message) : BitVec 32 :=
  let drive := drvOfDev msg.device
  let logidx := (msg.device - 0x10).srem 64
  (msg.position >>> 9).setWidth 32 +
    if msg.device.slt 9 then (hdInfo drive).primary msg.device else (hdInfo drive).logical logidx

/-- `struct hd_cmd` -/
structure HdCmd where
  features : BitVec 8
  count : BitVec 8
  lbaLow : BitVec 8
  lbaMid : BitVec 8
  lbaHigh : BitVec 8
  device : BitVec 8
  command : BitVec 8

/-- The command of a request, `ATA_READ` or `ATA_WRITE`. -/
def hdCmd (hdInfo : BitVec 32 → HdInfo) (msg : Message) : HdCmd :=
  let sectNr := sectNr hdInfo msg
  { features := 0
    count := cmdCount msg.cnt
    lbaLow := sectNr.setWidth 8
    lbaMid := (sectNr >>> 8).setWidth 8
    lbaHigh := (sectNr >>> 16).setWidth 8
    device := (1 <<< 6 ||| drvOfDev msg.device <<< 4 ||| sectNr >>> 24 &&& 0xF ||| 0xA0).setWidth 8
    command := if msg.type = devRead then 0x20 else 0x30 }

/-- What the drive does after a command: the sectors that it puts on the data port,
and the sectors that it raises an interrupt for. -/
structure Drive where
  sector : Nat → Buffer
  raises : Nat → Bool

/-- The drive raises an interrupt for each sector of the command. -/
def Drive.Serves (drive : Drive) (cmd : HdCmd) : Prop :=
  ∀ i < sectorsOf cmd.count, drive.raises i = true

/-- The loop: the memory that `la` points into, `hdbuf`, the locals, the sectors
that went through the data port and the bytes of those that were written. `touched`
has the addresses behind `la` that `phys_copy` has read or written, first first. -/
structure LoopState where
  memory : Linear → Byte
  hdbuf : Buffer
  bytesLeft : BitVec 32
  la : Linear
  moved : Nat
  sent : List Byte
  touched : List Linear

/-- The addresses of `bytes` bytes from `la` on. -/
def addresses (la : Linear) (bytes : Nat) : List Linear :=
  (List.range bytes).map fun i => la + BitVec.ofNat 32 i

/-- `min(SECTOR_SIZE, bytes_left)`, on signed integers. -/
def sectorMin (bytesLeft : BitVec 32) : BitVec 32 :=
  if (512 : BitVec 32).slt bytesLeft then 512 else bytesLeft

/-- `phys_copy(la, hdbuf, bytes)`: `memcpy` counts its size down to 0. -/
def LoopState.copyOut (state : LoopState) (bytes : BitVec 32) : LoopState :=
  { state with
    memory := fun a =>
      if (a - state.la).toNat < bytes.toNat then state.hdbuf (a - state.la).toNat else state.memory a
    touched := state.touched ++ addresses state.la bytes.toNat }

/-- `phys_copy(hdbuf, la, bytes)` -/
def LoopState.copyIn (state : LoopState) (bytes : BitVec 32) : LoopState :=
  { state with
    hdbuf := copyBytes state.hdbuf 0 (fun i => state.memory (state.la + BitVec.ofNat 32 i)) 0 bytes.toNat
    touched := state.touched ++ addresses state.la bytes.toNat }

/-- `port_read(REG_DATA, hdbuf, SECTOR_SIZE)` -/
def LoopState.portRead (state : LoopState) (drive : Drive) : LoopState :=
  { state with hdbuf := copyBytes state.hdbuf 0 (drive.sector state.moved) 0 512 }

/-- `port_write(REG_DATA, hdbuf, SECTOR_SIZE)` -/
def LoopState.portWrite (state : LoopState) : LoopState :=
  { state with sent := state.sent ++ (List.range 512).map state.hdbuf }

/-- `bytes_left -= SECTOR_SIZE; la += SECTOR_SIZE;` -/
def LoopState.advance (state : LoopState) : LoopState :=
  { state with
    bytesLeft := state.bytesLeft - 512
    la := state.la + 512
    moved := state.moved + 1 }

/-- One round of the loop. It gives `none` where the wait does not return. -/
def LoopState.round (state : LoopState) (drive : Drive) (type : BitVec 32) : Option LoopState :=
  let bytes := sectorMin state.bytesLeft
  if drive.raises state.moved then
    some (if type = devRead then ((state.portRead drive).copyOut bytes).advance
      else (state.copyIn bytes).portWrite.advance)
  else none

/-- `while (bytes_left)`, for a number of rounds. -/
def rdwtLoop (drive : Drive) (type : BitVec 32) : Nat → LoopState → Option LoopState
  | 0, _ => none
  | rounds + 1, state =>
      if state.bytesLeft = 0 then some state
      else (state.round drive type).bind (rdwtLoop drive type rounds)

/-- What both functions find: the memory, `hdbuf`, `hd_info`, the drive, and what
`va2la` reads, the flag and the segment bases of the processes. -/
structure Env where
  kernelInitial : Bool
  memory : Linear → Byte
  hdbuf : Buffer
  hdInfo : BitVec 32 → HdInfo
  drive : HdCmd → Drive
  segBase : BitVec 32 → Linear

def Env.start (env : Env) (msg : Message) (la : Linear) : LoopState where
  memory := env.memory
  hdbuf := env.hdbuf
  bytesLeft := msg.cnt
  la := la
  moved := 0
  sent := []
  touched := []

/-- The command, and the loop after it. -/
def Env.rdwt (env : Env) (msg : Message) (la : Linear) (rounds : Nat) : Option LoopState :=
  rdwtLoop (env.drive (hdCmd env.hdInfo msg)) msg.type rounds (env.start msg la)

def Env.va2la (env : Env) (pid : BitVec 32) (va : Linear) : Linear :=
  if env.kernelInitial then va else env.segBase pid + va

def Env.hdRdwt (env : Env) (msg : Message) (rounds : Nat) : Option LoopState :=
  env.rdwt msg (env.va2la msg.procNr msg.buf) rounds

/-- `hd_rdwt_real`, on the message and the `kbuf` of an `RWInfo`. -/
def Env.hdRdwtReal (env : Env) (msg : Message) (kbuf : Linear) (rounds : Nat) : Option LoopState :=
  env.rdwt msg kbuf rounds

end AempOS.Hd.Rdwt
