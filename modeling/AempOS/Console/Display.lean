import AempOS.Lib.Bytes
import AempOS.Lib.Registers
import AempOS.Lib.Transition

/-! `disp_str` and `disp_color_str` of `lib/kliba.asm`: characters with their colour
go to the text memory that `gs` has, and `disp_pos` says where the next one goes. -/

set_option autoImplicit false

namespace AempOS.Console

open Lib

inductive Routine where
  | dispStr
  | dispColorStr
  deriving DecidableEq

/-- A call under way: `ah`, and the string from `esi` on. -/
structure Call where
  routine : Routine
  ah : Byte
  info : List Byte

/-- `disp_pos`, `edi`, the call and the words that were stored at `gs`, the last one
first. -/
structure DisplayState where
  dispPos : BitVec 32
  edi : BitVec 32
  call : Option Call
  stored : List (BitVec 32 × BitVec 16)

/-- The code behind `cmp al, 0Ah`. It has no result when the division overflows. -/
def newline (edi : BitVec 32) : Option (BitVec 32) :=
  (divByte (edi.setWidth 16) 160).map fun (al, _) =>
    let eax : BitVec 32 := al.setWidth 32 + 1
    (eax &&& 0xFFFF0000) ||| (mulByte (eax.setWidth 8) 160).setWidth 32

/-- `cmp edi, 1F40h`, which only `disp_str` has. -/
def wrap : Routine → BitVec 32 → BitVec 32
  | .dispStr, edi => if edi = 0x1F40 then 0x0FA0 else edi
  | .dispColorStr, edi => edi

/-- One round of the loop, on a character that is not the last. -/
def putChar (console : DisplayState) (call : Call) (al : Byte) (rest : List Byte) : Option DisplayState :=
  if al = 0x0A then
    (newline console.edi).map fun edi =>
      { console with edi := edi, call := some { call with info := rest } }
  else
    let edi := wrap call.routine console.edi
    some
      { console with
        edi := edi + 2
        call := some { call with info := rest }
        stored := (edi, call.ah ++ al) :: console.stored }

/-- `mov [disp_pos], edi` and `ret` -/
def finish (console : DisplayState) : DisplayState :=
  { console with dispPos := console.edi, call := none }

def begin (console : DisplayState) (routine : Routine) (ah : Byte) (info : List Byte) : DisplayState :=
  { console with edi := console.dispPos, call := some ⟨routine, ah, info⟩ }

inductive ConsoleEvent where
  | dispStr (info : List Byte)
  | dispColorStr (info : List Byte) (color : BitVec 32)
  | lodsb

def consoleStep (console : DisplayState) : ConsoleEvent → Option DisplayState
  | .dispStr info => if console.call.isSome then none else some (begin console .dispStr 0x0F info)
  | .dispColorStr info color =>
      if console.call.isSome then none
      else some (begin console .dispColorStr (color.setWidth 8) info)
  | .lodsb =>
      match console.call with
      | none => none
      | some call =>
          match call.info with
          | [] => some (finish console)
          | al :: rest => if al = 0 then some (finish console) else putChar console call al rest

/-- The calls from `disp_pos = 0` on, a character at a time. -/
def consoleMachine : Machine DisplayState ConsoleEvent where
  initial console := console.dispPos = 0 ∧ console.call = none ∧ console.stored = []
  step := consoleStep

end AempOS.Console
