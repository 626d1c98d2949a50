import AempOS.Lib.Refinement
import Mathlib.Data.List.TakeDrop
import Mathlib.Logic.Function.Basic

/-! A store of named files. Files hold lists of data and have numbers, names find
files, and owners have handles with a position in a file. Files come and go by name;
a file that is in use is not removed, and one whose removal was refused stays in use. -/

set_option autoImplicit false

namespace AempOS.Lib

structure Handle (Mode : Type) where
  file : Nat
  pos : Nat
  mode : Mode

/-- `kept n` is how many refused removals keep file `n` in use. -/
structure FileStore (Name Datum Mode : Type) where
  find : Name → Option Nat
  content : Nat → Option (List Datum)
  handle : Nat → Nat → Option (Handle Mode)
  kept : Nat → Nat

/-- What a new position is counted from. -/
inductive Origin where
  | start
  | here
  | finish

/-- The position that is meant, in a file of that size. -/
def Origin.target (pos size : Nat) (off : Int) : Origin → Int
  | .start => off
  | .here => pos + off
  | .finish => size + off

/-- Calls of owners on their handles. A name may not be one. -/
inductive StoreCall (Name Datum Mode : Type) where
  | create (owner : Nat) (name : Option Name) (mode : Mode)
  | open (owner : Nat) (name : Option Name) (mode : Mode)
  | close (owner slot : Nat)
  | read (owner slot count : Nat)
  | write (owner slot : Nat) (data : List Datum)
  | seek (owner slot : Nat) (off : Int) (origin : Option Origin)
  | unlink (name : Option Name)

/-- The result of a call, and the data that it brings. -/
structure StoreReply (Datum : Type) where
  ret : Int
  data : List Datum

/-- A text after data were written over it from a position on. -/
def splice {Datum : Type} (text data : List Datum) (pos : Nat) : List Datum :=
  text.take pos ++ data ++ text.drop (pos + data.length)

section Splice

variable {Datum : Type} {text data : List Datum} {pos : Nat}

theorem splice_getElem? (inside : pos ≤ text.length) (i : Nat) :
    (splice text data pos)[i]? =
      if i < pos then text[i]? else if i < pos + data.length then data[i - pos]? else text[i]? := by
  have first : (text.take pos).length = pos := by simp [inside]
  have second : (text.take pos ++ data).length = pos + data.length := by simp [inside]
  unfold splice
  by_cases late : pos + data.length ≤ i
  · rw [List.getElem?_append_right (by omega), second, List.getElem?_drop, if_neg (by omega),
      if_neg (by omega), Nat.add_sub_cancel' late]
  · rw [List.getElem?_append_left (by omega)]
    by_cases early : i < pos
    · rw [List.getElem?_append_left (by omega), List.getElem?_take_of_lt early, if_pos early]
    · rw [List.getElem?_append_right (by omega), first, if_neg early, if_pos (by omega)]

/-- The data are where they were put. -/
theorem splice_data (inside : pos ≤ text.length) :
    ((splice text data pos).drop pos).take data.length = data := by
  apply List.ext_getElem?
  intro i
  by_cases within : i < data.length
  · rw [List.getElem?_take_of_lt within, List.getElem?_drop, splice_getElem? inside,
      if_neg (by omega), if_pos (by omega), Nat.add_sub_cancel_left]
  · rw [List.getElem?_eq_none (by simp; omega), List.getElem?_eq_none (by omega)]

end Splice

namespace FileStore

variable {Name Datum Mode : Type} [DecidableEq Name]

def setHandle (store : FileStore Name Datum Mode) (owner slot : Nat)
    (handle : Option (Handle Mode)) : FileStore Name Datum Mode :=
  { store with
    handle := Function.update store.handle owner (Function.update (store.handle owner) slot handle) }

def setContent (store : FileStore Name Datum Mode) (n : Nat) (text : Option (List Datum)) :
    FileStore Name Datum Mode :=
  { store with content := Function.update store.content n text }

def setName (store : FileStore Name Datum Mode) (name : Name) (file : Option Nat) :
    FileStore Name Datum Mode :=
  { store with find := Function.update store.find name file }

/-- A handle is on the file, or its removal was refused. -/
def InUse (store : FileStore Name Datum Mode) (n : Nat) : Prop :=
  store.kept n ≠ 0 ∨ ∃ owner slot handle, store.handle owner slot = some handle ∧ handle.file = n

inductive Answers : FileStore Name Datum Mode → StoreCall Name Datum Mode → StoreReply Datum →
    FileStore Name Datum Mode → Prop where
  | createRefused {store} {owner : Nat} {sought : Option Name} {mode : Mode} :
      (∀ name, sought = some name → store.find name ≠ none) →
      Answers store (.create owner sought mode) ⟨-1, []⟩ store
  | created {store} {owner slot n : Nat} {name : Name} {mode : Mode} :
      store.find name = none → store.content n = none → ¬store.InUse n →
      store.handle owner slot = none →
      Answers store (.create owner (some name) mode) ⟨slot, []⟩
        (((store.setName name (some n)).setContent n (some [])).setHandle owner slot
          (some ⟨n, 0, mode⟩))
  | openRefused {store} {owner : Nat} {sought : Option Name} {mode : Mode} :
      (∀ name, sought = some name → store.find name = none) →
      Answers store (.open owner sought mode) ⟨-1, []⟩ store
  | opened {store} {owner slot n : Nat} {name : Name} {mode : Mode} :
      store.find name = some n → store.handle owner slot = none →
      Answers store (.open owner (some name) mode) ⟨slot, []⟩
        (store.setHandle owner slot (some ⟨n, 0, mode⟩))
  | closed {store} {owner slot : Nat} {handle : Handle Mode} :
      store.handle owner slot = some handle →
      Answers store (.close owner slot) ⟨0, []⟩ (store.setHandle owner slot none)
  | read {store} {owner slot count : Nat} {handle : Handle Mode} {text : List Datum} :
      store.handle owner slot = some handle → store.content handle.file = some text →
      handle.pos + count ≤ text.length →
      Answers store (.read owner slot count) ⟨count, (text.drop handle.pos).take count⟩
        (store.setHandle owner slot (some { handle with pos := handle.pos + count }))
  | written {store} {owner slot : Nat} {data : List Datum} {handle : Handle Mode}
      {text : List Datum} :
      store.handle owner slot = some handle → store.content handle.file = some text →
      handle.pos ≤ text.length →
      Answers store (.write owner slot data) ⟨data.length, []⟩
        ((store.setContent handle.file (some (splice text data handle.pos))).setHandle owner slot
          (some { handle with pos := handle.pos + data.length }))
  | seeked {store} {owner slot pos : Nat} {off : Int} {origin : Origin} {handle : Handle Mode}
      {text : List Datum} :
      store.handle owner slot = some handle → store.content handle.file = some text →
      origin.target handle.pos text.length off = pos → pos ≤ text.length →
      Answers store (.seek owner slot off (some origin)) ⟨pos, []⟩
        (store.setHandle owner slot (some { handle with pos := pos }))
  | seekRefused {store} {owner slot : Nat} {off : Int} {sought : Option Origin}
      {handle : Handle Mode} {text : List Datum} :
      store.handle owner slot = some handle → store.content handle.file = some text →
      (∀ origin pos, sought = some origin → origin.target handle.pos text.length off = (pos : Nat) →
        text.length < pos) →
      Answers store (.seek owner slot off sought) ⟨-1, []⟩ store
  | unlinkMissed {store} {sought : Option Name} :
      (∀ name, sought = some name → store.find name = none) →
      Answers store (.unlink sought) ⟨-1, []⟩ store
  | unlinkRefused {store} {name : Name} {n : Nat} :
      store.find name = some n → (store.content n = none ∨ store.InUse n) →
      Answers store (.unlink (some name)) ⟨-1, []⟩
        { store with kept := Function.update store.kept n (store.kept n + 1) }
  | unlinked {store} {name : Name} {n : Nat} {text : List Datum} :
      store.find name = some n → store.content n = some text → ¬store.InUse n →
      Answers store (.unlink (some name)) ⟨0, []⟩ ((store.setName name none).setContent n none)

/-- The store that begins with these names. -/
def startingWith (names : Name → Option Nat) :
    Component (FileStore Name Datum Mode) (StoreCall Name Datum Mode) (StoreReply Datum) where
  initial store := store = ⟨names, fun _ => none, fun _ _ => none, fun _ => 0⟩
  answers := Answers

section Contents

variable {store moved : FileStore Name Datum Mode} {call : StoreCall Name Datum Mode}
  {reply : StoreReply Datum} {owner slot count n pos : Nat} {mode : Mode} {text data : List Datum}

/-- The call neither writes to a file nor removes it. -/
def Spares (store : FileStore Name Datum Mode) (n : Nat) : StoreCall Name Datum Mode → Prop
  | .write owner slot _ => ∀ handle, store.handle owner slot = some handle → handle.file ≠ n
  | .unlink sought => ∀ name, sought = some name → store.find name ≠ some n
  | _ => True

theorem Answers.spared (answered : Answers store call reply moved) (spares : store.Spares n call)
    (held : store.content n = some text) : moved.content n = some text := by
  cases answered with
  | created _ absent =>
      refine (Function.update_of_ne ?_ _ _).trans held
      rintro rfl
      rw [held] at absent
      cases absent
  | written behind =>
      have other := spares _ behind
      exact (Function.update_of_ne other.symm _ _).trans held
  | unlinked known =>
      refine (Function.update_of_ne ?_ _ _).trans held
      rintro rfl
      exact spares _ rfl known
  | createRefused => exact held
  | openRefused => exact held
  | opened => exact held
  | closed => exact held
  | read => exact held
  | seeked => exact held
  | seekRefused => exact held
  | unlinkMissed => exact held
  | unlinkRefused => exact held

/-- Data that were written are in the file. -/
theorem Answers.stored (answered : Answers store (.write owner slot data) reply moved)
    (behind : store.handle owner slot = some ⟨n, pos, mode⟩) :
    ∃ text, moved.content n = some text ∧ pos + data.length ≤ text.length ∧
      (text.drop pos).take data.length = data := by
  cases answered with
  | @written _ _ _ _ text known _ inside =>
      rw [behind] at known
      cases known
      have inside : pos ≤ text.length := inside
      refine ⟨_, Function.update_self _ _ _, ?_, splice_data inside⟩
      simp only [splice, List.length_append, List.length_take, List.length_drop]
      omega

theorem Answers.brought (answered : Answers store (.read owner slot count) reply moved)
    (behind : store.handle owner slot = some ⟨n, pos, mode⟩) (held : store.content n = some text) :
    reply = ⟨count, (text.drop pos).take count⟩ := by
  cases answered with
  | read known content =>
      rw [behind] at known
      cases known
      rw [held] at content
      cases content
      rfl

end Contents

end FileStore

end AempOS.Lib
