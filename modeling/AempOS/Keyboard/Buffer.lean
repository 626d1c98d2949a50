import AempOS.Lib.Bytes
import AempOS.Lib.Ring
import AempOS.Lib.Transition

/-! The input buffer of `kernel/keyboard.c`: the interrupt handler puts scan codes in
and `get_byte_from_kbuf` takes them out. `char` and `u8` hold the same bytes. -/

set_option autoImplicit false

namespace AempOS.Keyboard

open Lib

/-- `KB_IN_BYTES`. -/
def kbInBytes : Nat := 32

/-- `KB_INPUT`. The pointers are offsets in `buf`. -/
structure KbInput where
  pHead : Nat
  pTail : Nat
  count : Int
  buf : Nat → Byte

/-- What `init_keyboard` leaves in `kb_in`. -/
def initKbIn (buf : Nat → Byte) : KbInput where
  pHead := 0
  pTail := 0
  count := 0
  buf := buf

/-- `keyboard_handler`, where `scanCode` is what `in_byte` reads. -/
def keyboardHandler (kbIn : KbInput) (scanCode : Byte) : KbInput :=
  if kbIn.count < kbInBytes then
    { kbIn with
      buf := Function.update kbIn.buf kbIn.pHead scanCode
      pHead := Ring.advance kbInBytes kbIn.pHead
      count := kbIn.count + 1 }
  else kbIn

/-- `get_byte_from_kbuf`, with `none` while it waits for the next byte. -/
def getByteFromKbuf (kbIn : KbInput) : Option (KbInput × Byte) :=
  if kbIn.count ≤ 0 then none
  else
    some ({ kbIn with
      pTail := Ring.advance kbInBytes kbIn.pTail
      count := kbIn.count - 1 }, kbIn.buf kbIn.pTail)

/-- The buffer with what went in and out so far. For a byte that was dropped, `dropped`
has the `count` at its arrival. -/
structure BufferState where
  kbIn : KbInput
  accepted : List Byte
  returned : List Byte
  dropped : List Int

inductive BufferAction where
  | handler (scanCode : Byte)
  | getByte
  deriving DecidableEq

def BufferState.handler (state : BufferState) (scanCode : Byte) : BufferState :=
  let kbIn := keyboardHandler state.kbIn scanCode
  if kbIn.count = state.kbIn.count then { state with kbIn, dropped := state.kbIn.count :: state.dropped }
  else { state with kbIn, accepted := state.accepted ++ [scanCode] }

def BufferState.getByte (state : BufferState) : Option (BufferState × Byte) :=
  (getByteFromKbuf state.kbIn).map fun (kbIn, scanCode) =>
    ({ state with kbIn, returned := state.returned ++ [scanCode] }, scanCode)

def BufferState.step (state : BufferState) : BufferAction → Option BufferState
  | .handler scanCode => some (state.handler scanCode)
  | .getByte => state.getByte.map Prod.fst

def startBuffer (buf : Nat → Byte) : BufferState where
  kbIn := initKbIn buf
  accepted := []
  returned := []
  dropped := []

/-- Interrupts and reads in any order. -/
def bufferSystem : Machine BufferState BufferAction where
  initial state := ∃ buf, state = startBuffer buf
  step := BufferState.step

end AempOS.Keyboard
