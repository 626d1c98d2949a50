import AempOS.Keyboard.Buffer
import AempOS.Keyboard.Keymap
import AempOS.Lib.Program

/-! `keyboard_read` of `kernel/keyboard.c`, as a program that takes bytes from the
buffer and hands keys to `in_process`, and its interleaving with the interrupts. -/

set_option autoImplicit false

namespace AempOS.Keyboard

open Lib

inductive KeyOp where
  | getByte
  | inProcess (key : Nat)

def KeyOp.Reply : KeyOp → Type
  | .getByte => Byte
  | .inProcess _ => Unit

abbrev KeyProgram := Program KeyOp KeyOp.Reply

/-- The globals that say which modifiers are down. `code_with_E0` and `column` are set
anew in each call. -/
structure Modifiers where
  shiftL : Bool
  shiftR : Bool
  altL : Bool
  altR : Bool
  ctrlL : Bool
  ctrlR : Bool
  deriving DecidableEq

/-- What `init_keyboard` sets. -/
def initModifiers : Modifiers where
  shiftL := false
  shiftR := false
  altL := false
  altR := false
  ctrlL := false
  ctrlR := false

def getByte : KeyProgram Byte := .perform KeyOp.getByte

def inProcess (key : Nat) : KeyProgram Unit := .perform (KeyOp.inProcess key)

/-- Take bytes as long as they are the expected ones. -/
def expectBytes : List Byte → KeyProgram Bool
  | [] => pure true
  | expected :: rest => do
      let scanCode ← getByte
      if scanCode ≠ expected then pure false else expectBytes rest

/-- The `switch` over the modifiers. -/
def setModifier (mods : Modifiers) (key : Nat) (make : Bool) : Modifiers :=
  if key = shiftL then { mods with shiftL := make }
  else if key = shiftR then { mods with shiftR := make }
  else if key = ctrlL then { mods with ctrlL := make }
  else if key = ctrlR then { mods with ctrlR := make }
  else if key = altL then { mods with altL := make }
  else if key = altR then { mods with altL := make }
  else mods

/-- `key |= held ? flag : 0` for each modifier. -/
def withFlags (mods : Modifiers) (key : Nat) : Nat :=
  let key := key ||| if mods.shiftL then flagShiftL else 0
  let key := key ||| if mods.shiftR then flagShiftR else 0
  let key := key ||| if mods.ctrlL then flagCtrlL else 0
  let key := key ||| if mods.ctrlR then flagCtrlR else 0
  let key := key ||| if mods.altL then flagAltL else 0
  key ||| if mods.altR then flagAltR else 0

/-- `keymap[(scan_code & 0x7F) * MAP_COLS + column]`. -/
def keyAt (scanCode : Byte) (column : Nat) : Nat :=
  keymap.getD ((scanCode &&& 0x7F).toNat * mapCols + column) 0

/-- The column for a key without `0xE0`. -/
def shiftColumn (mods : Modifiers) : Nat := if mods.shiftL || mods.shiftR then 1 else 0

/-- The end of `keyboard_read`, for a key that is neither `PAUSEBREAK` nor
`PRINTSCREEN`. -/
def readKey (mods : Modifiers) (scanCode : Byte) (codeWithE0 : Bool) : KeyProgram Modifiers := do
  let make := decide (scanCode &&& 0x80 = 0)
  let column := if codeWithE0 then 2 else shiftColumn mods
  let key := keyAt scanCode column
  let mods := setModifier mods key make
  if make then inProcess (withFlags mods key)
  pure mods

/-- `keyboard_read`, with a byte in the buffer. -/
def keyboardRead (mods : Modifiers) : KeyProgram Modifiers := do
  let scanCode ← getByte
  if scanCode = 0xE1 then
    let isPausebreak ← expectBytes [0x1D, 0x45, 0xE1, 0x9D, 0xC5]
    if isPausebreak then pure mods else readKey mods scanCode false
  else if scanCode = 0xE0 then
    let scanCode ← getByte
    let isPrintscreen ←
      if scanCode = 0x2A then expectBytes [0xE0, 0x37]
      else if scanCode = 0xB7 then expectBytes [0xE0, 0xAA]
      else pure false
    if isPrintscreen then pure mods else readKey mods scanCode true
  else readKey mods scanCode false

/-- The buffer and its reader. `reader` is what is left of a call of `keyboard_read`, and
`calls` has the arguments of `in_process` so far. -/
structure KeyboardState where
  buffer : BufferState
  mods : Modifiers
  reader : Option (KeyProgram Modifiers)
  calls : List Nat

inductive KeyboardAction where
  | handler (scanCode : Byte)
  /-- The next step of the reader. -/
  | read

/-- The next step of the reader: it calls `keyboard_read`, which returns at once when the
buffer is empty, or goes on in it. -/
def KeyboardState.read (state : KeyboardState) : Option KeyboardState :=
  match state.reader with
  | none =>
      if state.buffer.kbIn.count > 0 then some { state with reader := some (keyboardRead state.mods) }
      else some state
  | some (.done mods) => some { state with mods, reader := none }
  | some (.act .getByte next) =>
      state.buffer.getByte.map fun (buffer, scanCode) => { state with buffer, reader := some (next scanCode) }
  | some (.act (.inProcess key) next) =>
      some { state with calls := state.calls ++ [key], reader := some (next ()) }

def KeyboardState.step (state : KeyboardState) : KeyboardAction → Option KeyboardState
  | .handler scanCode => some { state with buffer := state.buffer.handler scanCode }
  | .read => state.read

def startKeyboard (buf : Nat → Byte) : KeyboardState where
  buffer := startBuffer buf
  mods := initModifiers
  reader := none
  calls := []

def keyboardSystem : Machine KeyboardState KeyboardAction where
  initial state := ∃ buf, state = startKeyboard buf
  step := KeyboardState.step

/-! ## What a keyboard sends -/

/-- The keys, by their scan codes. -/
inductive Key where
  | plain (code : Fin 128)
  | extended (code : Fin 128)
  | printScreen
  | pause
  deriving DecidableEq

/-- No code of a key begins the codes of another one. -/
def Key.Proper : Key → Prop
  | .plain code => code ≠ 0x60 ∧ code ≠ 0x61
  | .extended code => code ≠ 0x2A ∧ code ≠ 0x37
  | .printScreen => True
  | .pause => True

instance : (key : Key) → Decidable key.Proper
  | .plain _ => inferInstanceAs (Decidable (_ ∧ _))
  | .extended _ => inferInstanceAs (Decidable (_ ∧ _))
  | .printScreen => inferInstanceAs (Decidable True)
  | .pause => inferInstanceAs (Decidable True)

inductive KeyEvent where
  | press (key : Key)
  | release (key : Key)
  deriving DecidableEq

def KeyEvent.key : KeyEvent → Key
  | .press key => key
  | .release key => key

def KeyEvent.isPress : KeyEvent → Bool
  | .press _ => true
  | .release _ => false

def makeCode (code : Fin 128) : Byte := BitVec.ofNat 8 code

def breakCode (code : Fin 128) : Byte := makeCode code ||| 0x80

/-- The codes of set 1. `Pause` sends none at its release. -/
def scanCodes : KeyEvent → List Byte
  | .press (.plain code) => [makeCode code]
  | .release (.plain code) => [breakCode code]
  | .press (.extended code) => [0xE0, makeCode code]
  | .release (.extended code) => [0xE0, breakCode code]
  | .press .printScreen => [0xE0, 0x2A, 0xE0, 0x37]
  | .release .printScreen => [0xE0, 0xB7, 0xE0, 0xAA]
  | .press .pause => [0xE1, 0x1D, 0x45, 0xE1, 0x9D, 0xC5]
  | .release .pause => []

/-! ## What should be heard of it -/

def leftShift : Key := .plain 0x2A

def rightShift : Key := .plain 0x36

def leftCtrl : Key := .plain 0x1D

def rightCtrl : Key := .extended 0x1D

def leftAlt : Key := .plain 0x38

def rightAlt : Key := .extended 0x38

/-- The last event of one of the keys was a press. -/
def lastPressed (among : Key → Bool) (events : List KeyEvent) : Bool :=
  events.foldl (fun down event => if among event.key then event.isPress else down) false

def held (key : Key) (events : List KeyEvent) : Bool := lastPressed (fun other => decide (other = key)) events

/-- The modifiers that are held down. -/
def heldModifiers (events : List KeyEvent) : Modifiers where
  shiftL := held leftShift events
  shiftR := held rightShift events
  altL := held leftAlt events
  altR := held rightAlt events
  ctrlL := held leftCtrl events
  ctrlR := held rightCtrl events

/-- The entry of the table for a key, if it is one that is handed on. -/
def keymapEntry (column : Nat) : Key → Option Nat
  | .plain code => some (keyAt (makeCode code) column)
  | .extended code => some (keyAt (makeCode code) 2)
  | .printScreen => none
  | .pause => none

/-- What is handed on at an event, the last of some events: at a press, the entry with
the flags of the modifiers that are held down. -/
def typedAt (modifiers : List KeyEvent → Modifiers) (events : List KeyEvent) : KeyEvent → Option Nat
  | .press key =>
      let mods := modifiers events
      (keymapEntry (shiftColumn mods) key).map (withFlags mods)
  | .release _ => none

/-- What is handed on at the events behind others. -/
def typedFrom (modifiers : List KeyEvent → Modifiers) (before : List KeyEvent) : List KeyEvent → List Nat
  | [] => []
  | event :: rest =>
      (typedAt modifiers (before ++ [event]) event).toList ++ typedFrom modifiers (before ++ [event]) rest

/-- What should be handed on at a sequence of events. -/
def typed (events : List KeyEvent) : List Nat := typedFrom heldModifiers [] events

/-- The right Alt key is never held at the press of a key, and the left one only if no
release of the right one came in since its press. -/
def AltsApart (events : List KeyEvent) : Prop :=
  ∀ before key after, events = before ++ .press key :: after → key ≠ .printScreen → key ≠ .pause →
    held rightAlt (before ++ [.press key]) = false ∧
      (held leftAlt (before ++ [.press key]) = true →
        lastPressed (fun other => decide (other = leftAlt ∨ other = rightAlt)) (before ++ [.press key]) = true)

end AempOS.Keyboard
