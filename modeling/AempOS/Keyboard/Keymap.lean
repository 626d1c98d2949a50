import Mathlib.Init

/-! The keys of `include/keyboard.h` and the table of `include/keymap.h` from scan codes
to keys. -/

set_option autoImplicit false

namespace AempOS.Keyboard

/-- `MAP_COLS`. -/
def mapCols : Nat := 3

abbrev flagExt : Nat := 0x0100

def flagShiftL : Nat := 0x0200

def flagShiftR : Nat := 0x0400

def flagCtrlL : Nat := 0x0800

def flagCtrlR : Nat := 0x1000

def flagAltL : Nat := 0x2000

def flagAltR : Nat := 0x4000

/-! ## Keys -/

abbrev esc : Nat := 0x01 + flagExt
abbrev tab : Nat := 0x02 + flagExt
abbrev enter : Nat := 0x03 + flagExt
abbrev backspace : Nat := 0x04 + flagExt
abbrev guiL : Nat := 0x05 + flagExt
abbrev guiR : Nat := 0x06 + flagExt
abbrev apps : Nat := 0x07 + flagExt
abbrev shiftL : Nat := 0x08 + flagExt
abbrev shiftR : Nat := 0x09 + flagExt
abbrev ctrlL : Nat := 0x0A + flagExt
abbrev ctrlR : Nat := 0x0B + flagExt
abbrev altL : Nat := 0x0C + flagExt
abbrev altR : Nat := 0x0D + flagExt
abbrev capsLock : Nat := 0x0E + flagExt
abbrev numLock : Nat := 0x0F + flagExt
abbrev scrollLock : Nat := 0x10 + flagExt
abbrev f1 : Nat := 0x11 + flagExt
abbrev f2 : Nat := 0x12 + flagExt
abbrev f3 : Nat := 0x13 + flagExt
abbrev f4 : Nat := 0x14 + flagExt
abbrev f5 : Nat := 0x15 + flagExt
abbrev f6 : Nat := 0x16 + flagExt
abbrev f7 : Nat := 0x17 + flagExt
abbrev f8 : Nat := 0x18 + flagExt
abbrev f9 : Nat := 0x19 + flagExt
abbrev f10 : Nat := 0x1A + flagExt
abbrev f11 : Nat := 0x1B + flagExt
abbrev f12 : Nat := 0x1C + flagExt
abbrev printscreen : Nat := 0x1D + flagExt
abbrev pausebreak : Nat := 0x1E + flagExt
abbrev insert : Nat := 0x1F + flagExt
abbrev delete : Nat := 0x20 + flagExt
abbrev home : Nat := 0x21 + flagExt
abbrev endKey : Nat := 0x22 + flagExt
abbrev pageup : Nat := 0x23 + flagExt
abbrev pagedown : Nat := 0x24 + flagExt
abbrev up : Nat := 0x25 + flagExt
abbrev down : Nat := 0x26 + flagExt
abbrev left : Nat := 0x27 + flagExt
abbrev right : Nat := 0x28 + flagExt
abbrev padSlash : Nat := 0x2C + flagExt
abbrev padMinus : Nat := 0x2E + flagExt
abbrev padPlus : Nat := 0x2F + flagExt
abbrev padEnter : Nat := 0x30 + flagExt
abbrev padDot : Nat := 0x31 + flagExt
abbrev pad0 : Nat := 0x32 + flagExt
abbrev pad1 : Nat := 0x33 + flagExt
abbrev pad2 : Nat := 0x34 + flagExt
abbrev pad3 : Nat := 0x35 + flagExt
abbrev pad4 : Nat := 0x36 + flagExt
abbrev pad5 : Nat := 0x37 + flagExt
abbrev pad6 : Nat := 0x38 + flagExt
abbrev pad7 : Nat := 0x39 + flagExt
abbrev pad8 : Nat := 0x3A + flagExt
abbrev pad9 : Nat := 0x3B + flagExt
abbrev padUp : Nat := pad8
abbrev padDown : Nat := pad2
abbrev padLeft : Nat := pad4
abbrev padRight : Nat := pad6
abbrev padHome : Nat := pad7
abbrev padEnd : Nat := pad1
abbrev padPageup : Nat := pad9
abbrev padPagedown : Nat := pad3
abbrev padIns : Nat := pad0
abbrev padMid : Nat := pad5

/-! ## Scan codes -/

/-- For each scan code the keys without and with shift, and behind `0xE0`. -/
def keymap : List Nat := [
  0, 0, 0,
  esc, esc, 0,
  '1'.toNat, '!'.toNat, 0,
  '2'.toNat, '@'.toNat, 0,
  '3'.toNat, '#'.toNat, 0,
  '4'.toNat, '$'.toNat, 0,
  '5'.toNat, '%'.toNat, 0,
  '6'.toNat, '^'.toNat, 0,
  '7'.toNat, '&'.toNat, 0,
  '8'.toNat, '*'.toNat, 0,
  '9'.toNat, '('.toNat, 0,
  '0'.toNat, ')'.toNat, 0,
  '-'.toNat, '_'.toNat, 0,
  '='.toNat, '+'.toNat, 0,
  backspace, backspace, 0,
  tab, tab, 0,
  'q'.toNat, 'Q'.toNat, 0,
  'w'.toNat, 'W'.toNat, 0,
  'e'.toNat, 'E'.toNat, 0,
  'r'.toNat, 'R'.toNat, 0,
  't'.toNat, 'T'.toNat, 0,
  'y'.toNat, 'Y'.toNat, 0,
  'u'.toNat, 'U'.toNat, 0,
  'i'.toNat, 'I'.toNat, 0,
  'o'.toNat, 'O'.toNat, 0,
  'p'.toNat, 'P'.toNat, 0,
  '['.toNat, 123, 0,
  ']'.toNat, 125, 0,
  enter, enter, padEnter,
  ctrlL, ctrlL, ctrlR,
  'a'.toNat, 'A'.toNat, 0,
  's'.toNat, 'S'.toNat, 0,
  'd'.toNat, 'D'.toNat, 0,
  'f'.toNat, 'F'.toNat, 0,
  'g'.toNat, 'G'.toNat, 0,
  'h'.toNat, 'H'.toNat, 0,
  'j'.toNat, 'J'.toNat, 0,
  'k'.toNat, 'K'.toNat, 0,
  'l'.toNat, 'L'.toNat, 0,
  ';'.toNat, ':'.toNat, 0,
  39, 34, 0,
  96, '~'.toNat, 0,
  shiftL, shiftL, 0,
  92, '|'.toNat, 0,
  'z'.toNat, 'Z'.toNat, 0,
  'x'.toNat, 'X'.toNat, 0,
  'c'.toNat, 'C'.toNat, 0,
  'v'.toNat, 'V'.toNat, 0,
  'b'.toNat, 'B'.toNat, 0,
  'n'.toNat, 'N'.toNat, 0,
  'm'.toNat, 'M'.toNat, 0,
  ','.toNat, '<'.toNat, 0,
  '.'.toNat, '>'.toNat, 0,
  '/'.toNat, '?'.toNat, padSlash,
  shiftR, shiftR, 0,
  '*'.toNat, '*'.toNat, 0,
  altL, altL, altR,
  ' '.toNat, ' '.toNat, 0,
  capsLock, capsLock, 0,
  f1, f1, 0,
  f2, f2, 0,
  f3, f3, 0,
  f4, f4, 0,
  f5, f5, 0,
  f6, f6, 0,
  f7, f7, 0,
  f8, f8, 0,
  f9, f9, 0,
  f10, f10, 0,
  numLock, numLock, 0,
  scrollLock, scrollLock, 0,
  padHome, '7'.toNat, home,
  padUp, '8'.toNat, up,
  padPageup, '9'.toNat, pageup,
  padMinus, '-'.toNat, 0,
  padLeft, '4'.toNat, left,
  padMid, '5'.toNat, 0,
  padRight, '6'.toNat, right,
  padPlus, '+'.toNat, 0,
  padEnd, '1'.toNat, endKey,
  padDown, '2'.toNat, down,
  padPagedown, '3'.toNat, pagedown,
  padIns, '0'.toNat, insert,
  padDot, '.'.toNat, delete,
  0, 0, 0,
  0, 0, 0,
  0, 0, 0,
  f11, f11, 0,
  f12, f12, 0,
  0, 0, 0,
  0, 0, 0,
  0, 0, guiL,
  0, 0, guiR,
  0, 0, apps,
  0, 0, 0, 0, 0, 0, 0, 0, 0, 0, 0, 0,
  0, 0, 0, 0, 0, 0, 0, 0, 0, 0, 0, 0,
  0, 0, 0, 0, 0, 0, 0, 0, 0, 0, 0, 0,
  0, 0, 0, 0, 0, 0, 0, 0, 0, 0, 0, 0,
  0, 0, 0, 0, 0, 0, 0, 0, 0, 0, 0, 0,
  0, 0, 0, 0, 0, 0, 0, 0, 0, 0, 0, 0,
  0, 0, 0, 0, 0, 0, 0, 0, 0, 0, 0, 0,
  0, 0, 0, 0, 0, 0, 0, 0, 0, 0, 0, 0,
  0, 0, 0,
  0, 0, 0
]

end AempOS.Keyboard
