import AempOS.Keyboard.BufferProperties
import AempOS.Keyboard.Read
import Mathlib.Data.Nat.Bitwise

/-! What `keyboard_read` makes of the scan codes of a keyboard. Its six flags are those of
the modifiers that are held, but for the Alt keys: both of them set and clear the flag of
the left one. -/

set_option autoImplicit false

namespace AempOS.Keyboard

open Lib

/-! ## Reading -/

/-- A reader that finds these bytes hands on these keys, and then it has read all of
them and is in no call. -/
inductive Decodes : Option (KeyProgram Modifiers) → Modifiers → List Byte → List Nat → Prop where
  | idle {mods : Modifiers} : Decodes none mods [] []
  | call {mods : Modifiers} {byte : Byte} {bytes : List Byte} {keys : List Nat} :
      Decodes (some (keyboardRead mods)) mods (byte :: bytes) keys → Decodes none mods (byte :: bytes) keys
  | take {mods : Modifiers} {next : Byte → KeyProgram Modifiers} {byte : Byte} {bytes : List Byte} {keys : List Nat} :
      Decodes (some (next byte)) mods bytes keys → Decodes (some (.act .getByte next)) mods (byte :: bytes) keys
  | hand {mods : Modifiers} {key : Nat} {next : Unit → KeyProgram Modifiers} {bytes : List Byte} {keys : List Nat} :
      Decodes (some (next ())) mods bytes keys →
        Decodes (some (.act (.inProcess key) next)) mods bytes (key :: keys)
  | done {mods after : Modifiers} {bytes : List Byte} {keys : List Nat} :
      Decodes none after bytes keys → Decodes (some (.done after)) mods bytes keys

/-- Whatever the bytes that are yet to come, the reader goes on as if it had found all of
them at once. -/
structure Follows (state : KeyboardState) : Prop where
  holds : Holds state.buffer
  keys : ∀ rest keys, Decodes none initModifiers (state.buffer.accepted ++ rest) keys →
    ∃ left, keys = state.calls ++ left ∧ Decodes state.reader state.mods (state.buffer.unread ++ rest) left

theorem startKeyboard_follows (buf : Nat → Byte) : Follows (startKeyboard buf) where
  holds := startBuffer_holds buf
  keys _ keys decodes := ⟨keys, rfl, decodes⟩

theorem Follows.handler {state : KeyboardState} (held : Follows state) (scanCode : Byte) :
    Follows { state with buffer := state.buffer.handler scanCode } := by
  refine ⟨held.holds.handler scanCode, fun rest keys decodes => ?_⟩
  have isAccepted := held.holds.unread.1
  have afterAccepted := (held.holds.handler scanCode).unread.1
  obtain ⟨same, dropped | accepted⟩ := handler_ends state.buffer scanCode
  all_goals rw [same] at afterAccepted
  · rw [dropped, isAccepted] at afterAccepted
    rw [dropped] at decodes
    rw [← List.append_cancel_left afterAccepted]
    exact held.keys rest keys decodes
  · rw [accepted, isAccepted, List.append_assoc] at afterAccepted
    rw [← List.append_cancel_left afterAccepted, List.append_assoc]
    rw [accepted, List.append_assoc] at decodes
    exact held.keys ([scanCode] ++ rest) keys decodes

theorem Follows.read {state next : KeyboardState} (held : Follows state) (moved : state.read = some next) :
    Follows next := by
  obtain ⟨isAccepted, isCount⟩ := held.holds.unread
  unfold KeyboardState.read at moved
  split at moved
  next idle =>
      split at moved
      next some =>
          cases moved
          refine ⟨held.holds, fun rest keys decodes => ?_⟩
          obtain ⟨left, isKeys, follows⟩ := held.keys rest keys decodes
          refine ⟨left, isKeys, ?_⟩
          rw [idle] at follows
          cases unread : state.buffer.unread with
          | nil =>
              rw [unread] at isCount
              simp only [List.length_nil] at isCount
              omega
          | cons byte bytes =>
              rw [unread] at follows
              cases follows with
              | call follows => exact follows
      next =>
          cases moved
          exact held
  next mods isDone =>
      cases moved
      refine ⟨held.holds, fun rest keys decodes => ?_⟩
      obtain ⟨left, isKeys, follows⟩ := held.keys rest keys decodes
      rw [isDone] at follows
      cases follows with
      | done follows => exact ⟨left, isKeys, follows⟩
  next continue' waits =>
      obtain ⟨⟨buffer, scanCode⟩, taken, rfl⟩ := Option.map_eq_some_iff.mp moved
      obtain ⟨afterHolds, accepted, isUnread⟩ := held.holds.getByte taken
      refine ⟨afterHolds, fun rest keys decodes => ?_⟩
      simp only [accepted] at decodes
      obtain ⟨left, isKeys, follows⟩ := held.keys rest keys decodes
      rw [waits, isUnread] at follows
      cases follows with
      | take follows => exact ⟨left, isKeys, follows⟩
  next key continue' hands =>
      cases moved
      refine ⟨held.holds, fun rest keys decodes => ?_⟩
      obtain ⟨left, isKeys, follows⟩ := held.keys rest keys decodes
      rw [hands] at follows
      cases follows with
      | @hand _ _ _ _ later follows => exact ⟨later, by rw [isKeys, List.append_assoc]; rfl, follows⟩

theorem reachable_follows {state : KeyboardState} (reached : keyboardSystem.Reachable state) : Follows state := by
  have start : ∀ state, keyboardSystem.initial state → Follows state := by
    rintro state ⟨buf, rfl⟩
    exact startKeyboard_follows buf
  refine reached.invariant start fun state action next held moved => ?_
  cases action with
  | handler scanCode =>
      cases moved
      exact held.handler scanCode
  | read => exact held.read moved

/-- Everything that came in was read, and the reader is in no call. -/
def KeyboardState.AllRead (state : KeyboardState) : Prop := state.reader = none ∧ state.buffer.kbIn.count = 0

/-- What the reader handed on is what the bytes stand for. -/
theorem Follows.calls {state : KeyboardState} {keys : List Nat} (held : Follows state) (read : state.AllRead)
    (decodes : Decodes none initModifiers state.buffer.accepted keys) : state.calls = keys := by
  rw [← List.append_nil state.buffer.accepted] at decodes
  obtain ⟨left, rfl, follows⟩ := held.keys [] keys decodes
  have empty : state.buffer.unread = [] := by
    have isCount := held.holds.unread.2
    rw [read.2] at isCount
    exact List.length_eq_zero_iff.mp (by omega)
  rw [read.1, empty] at follows
  cases follows with
  | idle => rw [List.append_nil]

/-- A reader that finds all bytes of its calls in the buffer reads them. -/
theorem Decodes.finishes {reader : Option (KeyProgram Modifiers)} {mods : Modifiers} {bytes : List Byte}
    {left : List Nat} (decodes : Decodes reader mods bytes left) {state : KeyboardState} (held : Follows state)
    (isReader : state.reader = reader) (isMods : state.mods = mods) (isUnread : state.buffer.unread = bytes) :
    ∃ reads final, keyboardSystem.run state (List.replicate reads .read) = some final ∧ final.AllRead := by
  have again : ∀ {state next : KeyboardState}, state.read = some next →
      (∃ reads final, keyboardSystem.run next (List.replicate reads .read) = some final ∧ final.AllRead) →
      ∃ reads final, keyboardSystem.run state (List.replicate reads .read) = some final ∧ final.AllRead := by
    rintro state next moved ⟨reads, final, ran, read⟩
    refine ⟨reads + 1, final, ?_, read⟩
    rw [List.replicate_succ, Machine.run]
    simp only [keyboardSystem, KeyboardState.step, moved]
    exact ran
  induction decodes generalizing state with
  | idle =>
      have isCount := held.holds.unread.2
      rw [isUnread] at isCount
      exact ⟨0, state, rfl, isReader, isCount⟩
  | @call mods byte bytes keys _ ih =>
      have isCount := held.holds.unread.2
      rw [isUnread, List.length_cons] at isCount
      have notEmpty : state.buffer.kbIn.count > 0 := by omega
      have moved : state.read = some { state with reader := some (keyboardRead mods) } := by
        simp only [KeyboardState.read, isReader, isMods, if_pos notEmpty]
      exact again moved (ih (held.read moved) rfl isMods isUnread)
  | @take mods next byte bytes keys _ ih =>
      obtain ⟨buffer, taken, afterUnread⟩ := held.holds.take isUnread
      have moved : state.read = some { state with buffer, reader := some (next byte) } := by
        simp only [KeyboardState.read, isReader, taken, Option.map_some]
      exact again moved (ih (held.read moved) rfl isMods afterUnread)
  | @hand mods key next bytes keys _ ih =>
      have moved : state.read = some { state with calls := state.calls ++ [key], reader := some (next ()) } := by
        simp only [KeyboardState.read, isReader]
      exact again moved (ih (held.read moved) rfl isMods isUnread)
  | @done mods after bytes keys _ ih =>
      have moved : state.read = some { state with mods := after, reader := none } := by
        simp only [KeyboardState.read, isReader]
      exact again moved (ih (held.read moved) rfl rfl isUnread)

/-! ## The table -/

/-- Where the keys of the modifiers are. -/
private def modifierPlaces : List (Nat × Nat) :=
  [(ctrlL, 87), (ctrlL, 88), (ctrlR, 89), (shiftL, 126), (shiftL, 127), (shiftR, 162), (shiftR, 163),
    (altL, 168), (altL, 169), (altR, 170)]

private theorem keymap_modifiers : (keymap.zipIdx.filter fun entry =>
    entry.1 ∈ [shiftL, shiftR, ctrlL, ctrlR, altL, altR]) = modifierPlaces := by
  decide +kernel

private theorem keymap_small : ∀ key ∈ keymap, key < 512 := by
  decide +kernel

private theorem code_bits : ∀ code : Fin 128, (makeCode code &&& 0x80 = 0 ∧ breakCode code &&& 0x80 ≠ 0) ∧
    (makeCode code &&& 0x7F).toNat = code ∧ breakCode code &&& 0x7F = makeCode code &&& 0x7F := by
  decide +kernel

private theorem keyAt_eq_iff {key : Nat} (modifier : key ∈ [shiftL, shiftR, ctrlL, ctrlR, altL, altR])
    (code : Fin 128) (column : Nat) :
    keyAt (makeCode code) column = key ↔ (key, code * mapCols + column) ∈ modifierPlaces := by
  have nonzero : key ≠ 0 := by
    rintro rfl
    exact absurd modifier (by decide)
  rw [keyAt, (code_bits code).2.1, ← keymap_modifiers, List.mem_filter, List.mem_zipIdx_iff_getElem?,
    List.getD_eq_getElem?_getD]
  simp only [modifier, decide_true, and_true]
  cases keymap[code * mapCols + column]? with
  | none => simpa using nonzero.symm
  | some entry => simp

private theorem keyAt_plain (code : Fin 128) (column : Nat) (plain : column < 2) :
    (keyAt (makeCode code) column = shiftL ↔ code = 0x2A) ∧ (keyAt (makeCode code) column = shiftR ↔ code = 0x36) ∧
      (keyAt (makeCode code) column = ctrlL ↔ code = 0x1D) ∧ keyAt (makeCode code) column ≠ ctrlR ∧
      (keyAt (makeCode code) column = altL ↔ code = 0x38) ∧ keyAt (makeCode code) column ≠ altR := by
  rw [ne_eq, ne_eq, keyAt_eq_iff (by decide), keyAt_eq_iff (by decide), keyAt_eq_iff (by decide),
    keyAt_eq_iff (by decide), keyAt_eq_iff (by decide), keyAt_eq_iff (by decide)]
  simp [modifierPlaces, mapCols, Fin.ext_iff]
  omega

private theorem keyAt_extended (code : Fin 128) :
    keyAt (makeCode code) 2 ≠ shiftL ∧ keyAt (makeCode code) 2 ≠ shiftR ∧ keyAt (makeCode code) 2 ≠ ctrlL ∧
      (keyAt (makeCode code) 2 = ctrlR ↔ code = 0x1D) ∧ keyAt (makeCode code) 2 ≠ altL ∧
      (keyAt (makeCode code) 2 = altR ↔ code = 0x38) := by
  rw [ne_eq, ne_eq, ne_eq, ne_eq, keyAt_eq_iff (by decide), keyAt_eq_iff (by decide), keyAt_eq_iff (by decide),
    keyAt_eq_iff (by decide), keyAt_eq_iff (by decide), keyAt_eq_iff (by decide)]
  simp [modifierPlaces, mapCols, Fin.ext_iff]
  omega

private theorem keyAt_small (scanCode : Byte) (column : Nat) : keyAt scanCode column < 512 := by
  rw [keyAt, List.getD_eq_getElem?_getD]
  cases entry : keymap[(scanCode &&& 0x7F).toNat * mapCols + column]? with
  | none => simp
  | some key => exact keymap_small key (List.mem_of_getElem? entry)

/-- The Shift keys are the same in both columns. -/
private theorem keyAt_shift (column : Nat) (plain : column < 2) : keyAt (makeCode 0x2A) column = shiftL ∧
    keyAt (makeCode 0x36) column = shiftR :=
  ⟨(keyAt_plain 0x2A column plain).1.mpr rfl, (keyAt_plain 0x36 column plain).2.1.mpr rfl⟩

private theorem keyAt_breakCode (code : Fin 128) (column : Nat) :
    keyAt (breakCode code) column = keyAt (makeCode code) column := by
  rw [keyAt, (code_bits code).2.2, keyAt]

private theorem code_plain : ∀ code : Fin 128, code ≠ 0x60 → code ≠ 0x61 →
    (makeCode code ≠ 0xE1 ∧ makeCode code ≠ 0xE0) ∧ breakCode code ≠ 0xE1 ∧ breakCode code ≠ 0xE0 := by
  decide +kernel

private theorem code_extended : ∀ code : Fin 128, code ≠ 0x2A → code ≠ 0x37 →
    (makeCode code ≠ 0x2A ∧ makeCode code ≠ 0xB7) ∧ breakCode code ≠ 0x2A ∧ breakCode code ≠ 0xB7 := by
  decide +kernel

/-! ## Modifiers -/

def altKeys (key : Key) : Bool := decide (key = leftAlt ∨ key = rightAlt)

/-- The flags that `keyboard_read` has after some events. -/
def heardModifiers (events : List KeyEvent) : Modifiers :=
  { heldModifiers events with
    altL := lastPressed altKeys events
    altR := false }

/-- What `setModifier` does, by the key that is pressed or released. -/
def modified (mods : Modifiers) (key : Key) (down : Bool) : Modifiers :=
  if key = leftShift then { mods with shiftL := down }
  else if key = rightShift then { mods with shiftR := down }
  else if key = leftCtrl then { mods with ctrlL := down }
  else if key = rightCtrl then { mods with ctrlR := down }
  else if key = leftAlt then { mods with altL := down }
  else if key = rightAlt then { mods with altL := down }
  else mods

theorem shiftColumn_lt (mods : Modifiers) : shiftColumn mods < 2 := by
  unfold shiftColumn
  split <;> decide

theorem setModifier_plain (mods other : Modifiers) (code : Fin 128) (down : Bool) :
    setModifier mods (keyAt (makeCode code) (shiftColumn other)) down = modified mods (.plain code) down := by
  obtain ⟨shiftLeft, shiftRight, ctrlLeft, notCtrl, altLeft, notAlt⟩ := keyAt_plain code _ (shiftColumn_lt other)
  simp [setModifier, modified, shiftLeft, shiftRight, ctrlLeft, notCtrl, altLeft, notAlt, leftShift, rightShift,
    leftCtrl, rightCtrl, leftAlt, rightAlt]

theorem setModifier_extended (mods : Modifiers) (code : Fin 128) (down : Bool) :
    setModifier mods (keyAt (makeCode code) 2) down = modified mods (.extended code) down := by
  obtain ⟨notLeft, notRight, notCtrl, ctrlRight, notAlt, altRight⟩ := keyAt_extended code
  simp [setModifier, modified, notLeft, notRight, notCtrl, ctrlRight, notAlt, altRight, leftShift, rightShift,
    leftCtrl, rightCtrl, leftAlt, rightAlt]

theorem lastPressed_concat (among : Key → Bool) (events : List KeyEvent) (event : KeyEvent) :
    lastPressed among (events ++ [event]) = if among event.key then event.isPress else lastPressed among events := by
  simp [lastPressed]

theorem heardModifiers_concat (events : List KeyEvent) (event : KeyEvent) :
    heardModifiers (events ++ [event]) = modified (heardModifiers events) event.key event.isPress := by
  simp only [heardModifiers, heldModifiers, held, lastPressed_concat, modified, altKeys]
  generalize event.key = key
  by_cases isShiftL : key = leftShift
  · simp [isShiftL, leftShift, rightShift, leftCtrl, rightCtrl, leftAlt, rightAlt]
  by_cases isShiftR : key = rightShift
  · simp [isShiftR, leftShift, rightShift, leftCtrl, rightCtrl, leftAlt, rightAlt]
  by_cases isCtrlL : key = leftCtrl
  · simp [isCtrlL, leftShift, rightShift, leftCtrl, rightCtrl, leftAlt, rightAlt]
  by_cases isCtrlR : key = rightCtrl
  · simp [isCtrlR, leftShift, rightShift, leftCtrl, rightCtrl, leftAlt, rightAlt]
  by_cases isAltL : key = leftAlt
  · simp [isAltL, leftShift, rightShift, leftCtrl, rightCtrl, leftAlt, rightAlt]
  by_cases isAltR : key = rightAlt
  · simp [isAltR, leftShift, rightShift, leftCtrl, rightCtrl, leftAlt, rightAlt]
  simp [isShiftL, isShiftR, isCtrlL, isCtrlR, isAltL, isAltR]

/-! ## The codes of an event -/

theorem decodes_make {mods other : Modifiers} {scanCode : Byte} {codeWithE0 : Bool} {column : Nat}
    {bytes : List Byte} {keys : List Nat} (isColumn : (if codeWithE0 then 2 else shiftColumn mods) = column)
    (make : scanCode &&& 0x80 = 0)
    (rest : Decodes none (setModifier mods (keyAt scanCode column) true) bytes keys) :
    Decodes (some (readKey mods scanCode codeWithE0)) other bytes
      (withFlags (setModifier mods (keyAt scanCode column) true) (keyAt scanCode column) :: keys) := by
  unfold readKey
  simp only [isColumn, make, decide_true, if_true]
  exact .hand (.done rest)

theorem decodes_break {mods other : Modifiers} {scanCode : Byte} {codeWithE0 : Bool} {column : Nat}
    {bytes : List Byte} {keys : List Nat} (isColumn : (if codeWithE0 then 2 else shiftColumn mods) = column)
    (isBreak : scanCode &&& 0x80 ≠ 0)
    (rest : Decodes none (setModifier mods (keyAt scanCode column) false) bytes keys) :
    Decodes (some (readKey mods scanCode codeWithE0)) other bytes keys := by
  unfold readKey
  simp only [isColumn, isBreak, decide_false]
  exact .done rest

theorem decodes_plain {mods : Modifiers} {scanCode : Byte} {bytes : List Byte} {keys : List Nat}
    (notPause : scanCode ≠ 0xE1) (notExtended : scanCode ≠ 0xE0)
    (rest : Decodes (some (readKey mods scanCode false)) mods bytes keys) :
    Decodes none mods (scanCode :: bytes) keys := by
  refine .call (.take ?_)
  show Decodes (some (if scanCode = 0xE1 then _ else if scanCode = 0xE0 then _ else readKey mods scanCode false)) _ _ _
  rw [if_neg notPause, if_neg notExtended]
  exact rest

theorem decodes_extended {mods : Modifiers} {scanCode : Byte} {bytes : List Byte} {keys : List Nat}
    (notPress : scanCode ≠ 0x2A) (notRelease : scanCode ≠ 0xB7)
    (rest : Decodes (some (readKey mods scanCode true)) mods bytes keys) :
    Decodes none mods (0xE0 :: scanCode :: bytes) keys := by
  refine .call (.take (.take ?_))
  show Decodes (some (if scanCode = 0x2A then _ else if scanCode = 0xB7 then _ else _)) _ _ _
  rw [if_neg notPress, if_neg notRelease]
  exact rest

/-- A Shift key has the same entry in both columns, and every other key leaves Shift as
it is. -/
theorem keyAt_modified (mods : Modifiers) (code : Fin 128) (down : Bool) :
    keyAt (makeCode code) (shiftColumn (modified mods (.plain code) down)) =
      keyAt (makeCode code) (shiftColumn mods) := by
  have first := shiftColumn_lt (modified mods (.plain code) down)
  have second := shiftColumn_lt mods
  by_cases isLeft : code = 0x2A
  · subst isLeft
    rw [(keyAt_shift _ first).1, (keyAt_shift _ second).1]
  by_cases isRight : code = 0x36
  · subst isRight
    rw [(keyAt_shift _ first).2, (keyAt_shift _ second).2]
  have same : shiftColumn (modified mods (.plain code) down) = shiftColumn mods := by
    simp only [modified, leftShift, rightShift, Key.plain.injEq, isLeft, isRight, if_false]
    (repeat' split) <;> rfl
  rw [same]

/-- `keyboard_read` on the codes of an event. -/
theorem decodes_event {before : List KeyEvent} {event : KeyEvent} {bytes : List Byte} {keys : List Nat}
    (proper : event.key.Proper) (rest : Decodes none (heardModifiers (before ++ [event])) bytes keys) :
    Decodes none (heardModifiers before) (scanCodes event ++ bytes)
      ((typedAt heardModifiers (before ++ [event]) event).toList ++ keys) := by
  have after := heardModifiers_concat before event
  generalize heardModifiers before = mods at after ⊢
  cases event with
  | press key =>
      simp only [typedAt]
      rw [after] at rest ⊢
      cases key with
      | plain code =>
          obtain ⟨notPause, notExtended⟩ := (code_plain code proper.1 proper.2).1
          have set := setModifier_plain mods mods code true
          refine decodes_plain notPause notExtended ?_
          have column : (if false then 2 else shiftColumn mods) = shiftColumn mods := rfl
          have read : Decodes (some (readKey mods (makeCode code) false)) mods bytes _ :=
            decodes_make column (code_bits code).1.1 (set.symm ▸ rest)
          rw [set] at read
          simp only [keymapEntry, KeyEvent.key, KeyEvent.isPress, keyAt_modified]
          exact read
      | extended code =>
          obtain ⟨notPress, notRelease⟩ := (code_extended code proper.1 proper.2).1
          have set := setModifier_extended mods code true
          refine decodes_extended notPress notRelease ?_
          have column : (if true then 2 else shiftColumn mods) = 2 := rfl
          have read : Decodes (some (readKey mods (makeCode code) true)) mods bytes _ :=
            decodes_make column (code_bits code).1.1 (set.symm ▸ rest)
          rw [set] at read
          exact read
      | printScreen => exact .call (.take (.take (.take (.take (.done rest)))))
      | pause => exact .call (.take (.take (.take (.take (.take (.take (.done rest)))))))
  | release key =>
      rw [after] at rest
      cases key with
      | plain code =>
          obtain ⟨notPause, notExtended⟩ := (code_plain code proper.1 proper.2).2
          refine decodes_plain notPause notExtended (decodes_break rfl (code_bits code).1.2 ?_)
          rw [keyAt_breakCode]
          exact (setModifier_plain mods mods code false).symm ▸ rest
      | extended code =>
          obtain ⟨notPress, notRelease⟩ := (code_extended code proper.1 proper.2).2
          refine decodes_extended notPress notRelease (decodes_break rfl (code_bits code).1.2 ?_)
          rw [keyAt_breakCode]
          exact (setModifier_extended mods code false).symm ▸ rest
      | printScreen => exact .call (.take (.take (.take (.take (.done rest)))))
      | pause => exact rest

/-- What `keyboard_read` hands on at a sequence of events. -/
theorem decodes_events {before events : List KeyEvent} (proper : ∀ event ∈ events, event.key.Proper) :
    Decodes none (heardModifiers before) (events.flatMap scanCodes) (typedFrom heardModifiers before events) := by
  induction events generalizing before with
  | nil => exact .idle
  | cons event rest ih =>
      rw [List.flatMap_cons, typedFrom]
      exact decodes_event (proper event List.mem_cons_self)
        (ih fun other member => proper other (List.mem_cons_of_mem _ member))

/-! ## What is heard and what is typed -/

/-- Keys leave the bits of the flags free. -/
theorem withFlags_bits (mods : Modifiers) {key : Nat} (small : key < 512) :
    (withFlags mods key).testBit 13 = mods.altL ∧ (withFlags mods key).testBit 14 = mods.altR := by
  have noFlag : ∀ bit, 9 ≤ bit → key.testBit bit = false := fun bit high =>
    Nat.testBit_lt_two_pow (Nat.lt_of_lt_of_le small (Nat.pow_le_pow_right (show 0 < 2 by decide) high))
  have flagBit : ∀ (down : Bool) (flag bit : Nat), (if down then flag else 0).testBit bit = (down && flag.testBit bit) := by
    intro down flag bit
    cases down <;> simp
  have others : ∀ flag ∈ [flagShiftL, flagShiftR, flagCtrlL, flagCtrlR],
      flag.testBit 13 = false ∧ flag.testBit 14 = false := by decide
  have altBits : flagAltL.testBit 13 = true ∧ flagAltL.testBit 14 = false ∧ flagAltR.testBit 13 = false ∧
      flagAltR.testBit 14 = true := by decide
  constructor
  · simp only [withFlags, Nat.testBit_or, flagBit, noFlag 13 (by decide), altBits,
      (others flagShiftL (by decide)).1, (others flagShiftR (by decide)).1, (others flagCtrlL (by decide)).1,
      (others flagCtrlR (by decide)).1]
    simp
  · simp only [withFlags, Nat.testBit_or, flagBit, noFlag 14 (by decide), altBits,
      (others flagShiftL (by decide)).2, (others flagShiftR (by decide)).2, (others flagCtrlL (by decide)).2,
      (others flagCtrlR (by decide)).2]
    simp

theorem keymapEntry_small {column key : Nat} {pressed : Key}
    (entry : keymapEntry column pressed = some key) : key < 512 := by
  cases pressed with
  | plain code =>
      cases entry
      exact keyAt_small _ column
  | extended code =>
      cases entry
      exact keyAt_small _ 2
  | printScreen => cases entry
  | pause => cases entry

/-- At a press, the right key is handed on if both Alt flags are right. -/
theorem typedAt_press (events : List KeyEvent) (key : Key) :
    typedAt heldModifiers events (.press key) = typedAt heardModifiers events (.press key) ↔
      (key ≠ .printScreen → key ≠ .pause → held rightAlt events = false ∧
        held leftAlt events = lastPressed altKeys events) := by
  have column : shiftColumn (heldModifiers events) = shiftColumn (heardModifiers events) := rfl
  simp only [typedAt, column]
  generalize isColumn : shiftColumn (heardModifiers events) = column
  cases entry : keymapEntry column key with
  | none =>
      cases key <;> simp_all [keymapEntry]
  | some found =>
      have small := keymapEntry_small entry
      have ordinary : key ≠ .printScreen ∧ key ≠ .pause := by
        constructor <;> rintro rfl <;> cases entry
      simp only [Option.map_some, Option.some.injEq, ne_eq, ordinary, not_false_eq_true, true_imp_iff]
      constructor
      · intro same
        have left := (withFlags_bits (heldModifiers events) small).1
        have right := (withFlags_bits (heldModifiers events) small).2
        rw [same] at left right
        rw [(withFlags_bits _ small).1] at left
        rw [(withFlags_bits _ small).2] at right
        exact ⟨right.symm, left.symm⟩
      · rintro ⟨right, left⟩
        have same : heldModifiers events = heardModifiers events := by
          simp only [heardModifiers, heldModifiers, right, left]
        rw [same]

/-- While the right Alt key is up, the last Alt event was a press only if the left one is
down. -/
theorem held_of_lastPressed {events : List KeyEvent} (up : held rightAlt events = false)
    (pressed : lastPressed altKeys events = true) : held leftAlt events = true := by
  induction events using List.reverseRecOn with
  | nil => cases pressed
  | append_singleton before event ih =>
      simp only [held, lastPressed_concat, altKeys, decide_eq_true_eq] at up pressed ih ⊢
      by_cases isLeft : event.key = leftAlt
      · rw [if_pos (.inl isLeft)] at pressed
        rwa [if_pos isLeft]
      · by_cases isRight : event.key = rightAlt
        · rw [if_pos (.inr isRight)] at pressed
          rw [if_pos isRight, pressed] at up
          cases up
        · rw [if_neg (by simp [isLeft, isRight])] at pressed
          rw [if_neg isRight] at up
          rw [if_neg isLeft]
          exact ih up pressed

/-- The presses behind some events find the Alt keys as in `AltsApart`. -/
def AltsApartFrom (before events : List KeyEvent) : Prop :=
  ∀ middle key after, events = middle ++ .press key :: after → key ≠ .printScreen → key ≠ .pause →
    held rightAlt (before ++ middle ++ [.press key]) = false ∧
      (held leftAlt (before ++ middle ++ [.press key]) = true →
        lastPressed altKeys (before ++ middle ++ [.press key]) = true)

theorem altsApart_iff {events : List KeyEvent} :
    (held rightAlt events = false ∧ (held leftAlt events = true → lastPressed altKeys events = true)) ↔
      held rightAlt events = false ∧ held leftAlt events = lastPressed altKeys events := by
  constructor
  · rintro ⟨up, implies⟩
    refine ⟨up, Bool.eq_iff_iff.mpr ⟨implies, held_of_lastPressed up⟩⟩
  · rintro ⟨up, same⟩
    exact ⟨up, fun down => same ▸ down⟩

theorem altsApartFrom_cons (before : List KeyEvent) (event : KeyEvent) (rest : List KeyEvent) :
    AltsApartFrom before (event :: rest) ↔
      typedAt heldModifiers (before ++ [event]) event = typedAt heardModifiers (before ++ [event]) event ∧
        AltsApartFrom (before ++ [event]) rest := by
  constructor
  · intro apart
    refine ⟨?_, fun middle key after whole notPrint notPause => ?_⟩
    · cases event with
      | press key =>
          refine (typedAt_press _ key).mpr fun notPrint notPause => altsApart_iff.mp ?_
          simpa using apart [] key rest rfl notPrint notPause
      | release key => rfl
    · simpa using apart (event :: middle) key after (by rw [whole]; rfl) notPrint notPause
  · rintro ⟨same, apart⟩ middle key after whole notPrint notPause
    cases middle with
    | nil =>
        obtain ⟨rfl, _⟩ := List.cons.inj whole
        rw [List.append_nil]
        exact altsApart_iff.mpr ((typedAt_press _ key).mp same notPrint notPause)
    | cons first middle =>
        obtain ⟨rfl, tail⟩ := List.cons.inj whole
        simpa using apart middle key after tail notPrint notPause

theorem typed_eq_heard (before events : List KeyEvent) :
    typedFrom heldModifiers before events = typedFrom heardModifiers before events ↔ AltsApartFrom before events := by
  induction events generalizing before with
  | nil =>
      refine ⟨fun _ middle key after wrong => ?_, fun _ => rfl⟩
      cases middle <;> cases wrong
  | cons event rest ih =>
      rw [altsApartFrom_cons, ← ih, typedFrom, typedFrom]
      have lengths : (typedAt heldModifiers (before ++ [event]) event).toList.length =
          (typedAt heardModifiers (before ++ [event]) event).toList.length := by
        have column : shiftColumn (heldModifiers (before ++ [event])) = shiftColumn (heardModifiers (before ++ [event])) := rfl
        cases event with
        | press key =>
            simp only [typedAt, column]
            cases keymapEntry (shiftColumn (heardModifiers (before ++ [.press key]))) key <;> rfl
        | release key => rfl
      constructor
      · intro same
        obtain ⟨first, others⟩ := List.append_inj same lengths
        refine ⟨?_, others⟩
        cases isHeld : typedAt heldModifiers (before ++ [event]) event <;>
          cases isHeard : typedAt heardModifiers (before ++ [event]) event <;> simp_all
      · rintro ⟨first, others⟩
        rw [first, others]

/-! ## Keyboard and reader -/

/-- When the codes of any events have come in, reading ends; and what has been handed on
when all of them are read is what was typed if and only if the Alt keys were apart. -/
theorem keyboardRead_decodes {state : KeyboardState} {events : List KeyEvent}
    (reached : keyboardSystem.Reachable state) (proper : ∀ event ∈ events, event.key.Proper)
    (arrived : state.buffer.accepted = events.flatMap scanCodes) :
    (∃ reads final, keyboardSystem.run state (List.replicate reads .read) = some final ∧ final.AllRead) ∧
      (state.AllRead → (state.calls = typed events ↔ AltsApart events)) := by
  have follows := reachable_follows reached
  have decodes : Decodes none initModifiers state.buffer.accepted (typedFrom heardModifiers [] events) := by
    rw [arrived]
    have start : heardModifiers [] = initModifiers := rfl
    exact start ▸ decodes_events proper
  constructor
  · rw [← List.append_nil state.buffer.accepted] at decodes
    obtain ⟨left, _, remaining⟩ := follows.keys [] _ decodes
    rw [List.append_nil] at remaining
    exact remaining.finishes follows rfl rfl rfl
  · intro read
    rw [follows.calls read decodes, eq_comm]
    have apart := typed_eq_heard [] events
    simp only [AltsApartFrom, List.nil_append] at apart
    exact apart

/-- The bytes of some events, each read at once. -/
def feed (events : List KeyEvent) : List KeyboardAction :=
  events.flatMap fun event =>
    (scanCodes event).map KeyboardAction.handler ++ List.replicate (2 * (scanCodes event).length + 2) .read

/-- Left Shift and `A`, where nothing is wrong. -/
theorem keyboardRead_decodes_shift :
    ∃ state, keyboardSystem.run (startKeyboard fun _ => 0) (feed [.press leftShift, .press (.plain 0x1E)]) = some state ∧
      state.AllRead ∧ state.calls = [0x308, 0x241] ∧ AltsApart [.press leftShift, .press (.plain 0x1E)] := by
  have start : keyboardSystem.Reachable (startKeyboard fun _ => 0) := .initial ⟨_, rfl⟩
  obtain ⟨state, ran, read, calls, arrived⟩ : ∃ state,
      keyboardSystem.run (startKeyboard fun _ => 0) (feed [.press leftShift, .press (.plain 0x1E)]) = some state ∧
        state.AllRead ∧ state.calls = [0x308, 0x241] ∧ state.buffer.accepted = [0x2A, 0x1E] :=
    ⟨_, rfl, ⟨rfl, rfl⟩, rfl, rfl⟩
  refine ⟨state, ran, read, calls, ?_⟩
  have proper : ∀ event ∈ [KeyEvent.press leftShift, .press (.plain 0x1E)], event.key.Proper := by decide
  refine ((keyboardRead_decodes (start.of_run ran) proper (by rw [arrived]; rfl)).2 read).mp ?_
  rw [calls]
  rfl

/-- `Tab` with the right Alt key is handed on with the flag of the left one. -/
theorem keyboardRead_confuses_alt :
    ∃ state, keyboardSystem.run (startKeyboard fun _ => 0) (feed [.press rightAlt, .press (.plain 0x0F)]) = some state ∧
      state.AllRead ∧ state.buffer.accepted = [.press rightAlt, .press (.plain 0x0F)].flatMap scanCodes ∧
      state.calls = [altR + flagAltL, tab + flagAltL] ∧
      state.calls ≠ typed [.press rightAlt, .press (.plain 0x0F)] := by
  obtain ⟨state, ran, read, arrived, calls, typed⟩ : ∃ state,
      keyboardSystem.run (startKeyboard fun _ => 0) (feed [.press rightAlt, .press (.plain 0x0F)]) = some state ∧
        state.AllRead ∧ state.buffer.accepted = [.press rightAlt, .press (.plain 0x0F)].flatMap scanCodes ∧
        state.calls = [altR + flagAltL, tab + flagAltL] ∧
        typed [.press rightAlt, .press (.plain 0x0F)] = [altR + flagAltR, tab + flagAltR] :=
    ⟨_, rfl, ⟨rfl, rfl⟩, rfl, rfl, rfl⟩
  refine ⟨state, ran, read, arrived, calls, ?_⟩
  rw [calls, typed]
  decide

end AempOS.Keyboard
