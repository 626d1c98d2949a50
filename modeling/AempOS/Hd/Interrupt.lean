import AempOS.Lib.Transition
import Mathlib.Data.List.Basic

/-! The driver of `kernel/hd.c` and the interrupts of the drive. `interrupt_wait`
spins until `hd_int_waiting_flag` is clear and sets it behind itself; the handler
of the interrupt clears it. A call is `hd_cmd_out` and then, for each sector, a
wait and a transfer through the data port. The polls of the status register and
what stands in the sectors are left out. -/

set_option autoImplicit false

namespace AempOS.Hd

open Lib

/-- `cmd.count` of a request of `CNT` bytes, as a byte. -/
def cmdCount (cnt : BitVec 32) : BitVec 8 :=
  ((cnt + 512 - 1).sdiv 512).setWidth 8

/-- How many sectors the drive transfers: a count of 0 stands for 256. -/
def sectorsOf (count : BitVec 8) : Nat :=
  if count = 0 then 256 else count.toNat

/-- What the driver asks of the drive: the direction, the sectors of the command,
and the bytes that its loop counts down. -/
structure Transfer where
  write : Bool
  sectors : Nat
  bytes : BitVec 32

/-- `hd_rdwt` and `hd_rdwt_real` -/
def hdRdwt (write : Bool) (cnt : BitVec 32) : Transfer :=
  { write := write
    sectors := sectorsOf (cmdCount cnt)
    bytes := cnt }

/-- `get_part_table`: one sector, one wait and one read. -/
def getPartTable : Transfer :=
  { write := false
    sectors := sectorsOf 1
    bytes := 512 }

/-- `hd_identify`: `ATA_IDENTIFY` gives one sector whatever `cmd.count` is. -/
def hdIdentify : Transfer :=
  { write := false
    sectors := 1
    bytes := 512 }

inductive Call where
  | hdIdentify
  | getPartTable
  | hdRdwt (write : Bool) (cnt : BitVec 32)
  | hdRdwtReal (write : Bool) (cnt : BitVec 32)

def Call.transfer : Call → Transfer
  | .hdIdentify => Hd.hdIdentify
  | .getPartTable => Hd.getPartTable
  | .hdRdwt write cnt => Hd.hdRdwt write cnt
  | .hdRdwtReal write cnt => Hd.hdRdwt write cnt

/-- Where the driver is: in no call, at `interrupt_wait`, or at `port_read` or
`port_write`; with `bytes_left`. -/
inductive Stage where
  | free
  | waiting (write : Bool) (left : BitVec 32)
  | moving (write : Bool) (left : BitVec 32)
  deriving DecidableEq

/-- The head of the loop `while (bytes_left)`. -/
def Stage.head (write : Bool) (left : BitVec 32) : Stage :=
  if left = 0 then .free else if write then .moving write left else .waiting write left

/-- Driver and drive. `call` counts the commands and `moved` the sectors that went
through the data port since the last one. The interrupts that the drive will raise
are `owed`, each with its command and its sector; `passes` counts how often
`interrupt_wait` has returned. -/
structure DriverState where
  flag : Bool
  stage : Stage
  writing : Bool
  call : Nat
  moved : Nat
  owed : List (Nat × Nat)
  handled : List (Nat × Nat)
  passes : Nat

inductive DriverAction where
  | start (call : Call)
  | pass
  | move
  | interrupt

def DriverState.start (state : DriverState) (transfer : Transfer) : DriverState :=
  { state with
    stage := .head transfer.write transfer.bytes
    writing := transfer.write
    call := state.call + 1
    moved := 0
    owed := state.owed ++ (List.range transfer.sectors).map (state.call + 1, ·) }

/-- The data of a sector to read is ready after the sectors before it were taken,
and a written sector is done after it was given. -/
def DriverState.Ready (state : DriverState) (irq : Nat × Nat) : Prop :=
  irq.1 = state.call → if state.writing then irq.2 < state.moved else irq.2 ≤ state.moved

instance (state : DriverState) (irq : Nat × Nat) : Decidable (state.Ready irq) :=
  inferInstanceAs (Decidable (irq.1 = state.call →
    if state.writing then irq.2 < state.moved else irq.2 ≤ state.moved))

def driverStep (state : DriverState) : DriverAction → Option DriverState
  | .start call => if state.stage = .free then some (state.start call.transfer) else none
  | .pass =>
      match state.stage, state.flag with
      | .waiting write left, false =>
          some { state with
            flag := true
            passes := state.passes + 1
            stage := if write then .head write (left - 512) else .moving write left }
      | _, _ => none
  | .move =>
      match state.stage with
      | .moving write left =>
          some { state with
            moved := state.moved + 1
            stage := if write then .waiting write left else .head write (left - 512) }
      | _ => none
  | .interrupt =>
      match state.owed with
      | irq :: owed =>
          if state.Ready irq then
            some { state with flag := false, owed := owed, handled := irq :: state.handled }
          else none
      | [] => none

/-- At kernel start: `hd_int_waiting_flag` is a static that nothing initialises. -/
def driverStart : DriverState where
  flag := false
  stage := .free
  writing := false
  call := 0
  moved := 0
  owed := []
  handled := []
  passes := 0

def driverSystem : Machine DriverState DriverAction where
  initial state := state = driverStart
  step := driverStep

end AempOS.Hd
