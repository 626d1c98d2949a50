import Mathlib.Logic.Function.Basic
import Mathlib.Data.List.Basic

/-! Stacks of words that grow downwards. Memory is seen as a map from the address
of a word to the word, and the words of a stack lie four bytes apart. -/

set_option autoImplicit false

namespace AempOS.Lib

/-- The words of a list lie one after the other from an address upwards. -/
def Stored (memory : Nat → Nat) : Nat → List Nat → Prop
  | _, [] => True
  | address, word :: rest => memory address = word ∧ Stored memory (address + 4) rest

/-- Memory after the words of a list were pushed in order. -/
def pushed (memory : Nat → Nat) (top : Nat) : List Nat → Nat → Nat
  | [] => memory
  | word :: rest => pushed (Function.update memory (top - 4) word) (top - 4) rest

/-- Memory after a list was copied to an address. -/
def written (memory : Nat → Nat) (address : Nat) : List Nat → Nat → Nat
  | [] => memory
  | word :: rest => Function.update (written memory (address + 4) rest) address word

/-- The words of a range of memory. -/
def fetched (memory : Nat → Nat) (address : Nat) : Nat → List Nat
  | 0 => []
  | count + 1 => memory address :: fetched memory (address + 4) count

/-- Two memories agree from `low` up to `high`. -/
def AgreeOn (memory other : Nat → Nat) (low high : Nat) : Prop :=
  ∀ address, low ≤ address → address < high → other address = memory address

variable {memory other third : Nat → Nat} {address low high word : Nat} {words : List Nat}

theorem AgreeOn.refl (memory : Nat → Nat) (low high : Nat) : AgreeOn memory memory low high :=
  fun _ _ _ => rfl

theorem AgreeOn.trans (first : AgreeOn memory other low high)
    (second : AgreeOn other third low high) : AgreeOn memory third low high :=
  fun address above below => (second address above below).trans (first address above below)

theorem AgreeOn.within (agree : AgreeOn memory other low high) {inner outer : Nat}
    (above : low ≤ inner) (below : outer ≤ high) : AgreeOn memory other inner outer :=
  fun address from_ until_ =>
    agree address (Nat.le_trans above from_) (Nat.lt_of_lt_of_le until_ below)

@[simp] theorem stored_nil : Stored memory address [] := trivial

@[simp] theorem stored_cons {rest : List Nat} :
    Stored memory address (word :: rest) ↔
      memory address = word ∧ Stored memory (address + 4) rest :=
  Iff.rfl

theorem stored_append {first rest : List Nat} :
    Stored memory address (first ++ rest) ↔
      Stored memory address first ∧ Stored memory (address + 4 * first.length) rest := by
  induction first generalizing address with
  | nil => simp
  | cons word tail ih =>
      simp only [List.cons_append, stored_cons, ih, and_assoc, List.length_cons]
      rw [show address + 4 + 4 * tail.length = address + 4 * (tail.length + 1) by omega]

/-- A list lies where it lay as long as its own words are left alone. -/
theorem Stored.agree (stored : Stored memory address words)
    (agree : AgreeOn memory other address (address + 4 * words.length)) :
    Stored other address words := by
  induction words generalizing address with
  | nil => trivial
  | cons word rest ih =>
      simp only [List.length_cons] at agree
      refine ⟨(agree address (Nat.le_refl _) (by omega)).trans stored.1, ih stored.2 ?_⟩
      exact agree.within (by omega) (by omega)

theorem pushed_above (memory : Nat → Nat) (words : List Nat) {top : Nat}
    (above : top ≤ address) (room : 4 * words.length ≤ top) :
    pushed memory top words address = memory address := by
  induction words generalizing memory top with
  | nil => rfl
  | cons word rest ih =>
      simp only [List.length_cons] at room
      rw [pushed, ih _ (by omega) (by omega), Function.update_of_ne (by omega)]

theorem pushed_below (memory : Nat → Nat) (words : List Nat) {top : Nat}
    (below : address + 4 * words.length < top) :
    pushed memory top words address = memory address := by
  induction words generalizing memory top with
  | nil => rfl
  | cons word rest ih =>
      simp only [List.length_cons] at below
      rw [pushed, ih _ (by omega), Function.update_of_ne (by omega)]

theorem pushed_outside (memory : Nat → Nat) (words : List Nat) {top : Nat}
    (outside : top ≤ address ∨ address + 4 * words.length < top)
    (room : 4 * words.length ≤ top) : pushed memory top words address = memory address := by
  cases outside with
  | inl above => exact pushed_above memory words above room
  | inr below => exact pushed_below memory words below

theorem pushed_agree (memory : Nat → Nat) (words : List Nat) {top : Nat}
    (outside : top ≤ low ∨ high + 4 * words.length ≤ top) (room : 4 * words.length ≤ top) :
    AgreeOn memory (pushed memory top words) low high := by
  intro address above below
  apply pushed_outside _ _ _ room
  omega

theorem pushed_append (memory : Nat → Nat) (first rest : List Nat) (top : Nat) :
    pushed memory top (first ++ rest) =
      pushed (pushed memory top first) (top - 4 * first.length) rest := by
  induction first generalizing memory top with
  | nil => rfl
  | cons word tail ih =>
      simp only [List.cons_append, pushed, ih, List.length_cons]
      rw [show top - 4 - 4 * tail.length = top - 4 * (tail.length + 1) by omega]

/-- The words pushed lie on the stack in the opposite order. -/
theorem pushed_stored (memory : Nat → Nat) (words : List Nat) {top : Nat}
    (room : 4 * words.length ≤ top) :
    Stored (pushed memory top words) (top - 4 * words.length) words.reverse := by
  induction words generalizing memory top with
  | nil => trivial
  | cons word rest ih =>
      simp only [List.length_cons] at room
      simp only [pushed, List.reverse_cons, List.length_cons]
      rw [stored_append]
      have place : top - 4 * (rest.length + 1) = top - 4 - 4 * rest.length := by omega
      rw [place]
      refine ⟨ih _ (by omega), ?_⟩
      simp only [List.length_reverse, stored_cons, stored_nil, and_true]
      rw [show top - 4 - 4 * rest.length + 4 * rest.length = top - 4 by omega,
        pushed_above _ _ (Nat.le_refl _) (by omega), Function.update_self]

theorem written_outside (memory : Nat → Nat) (words : List Nat) {start : Nat}
    (outside : address < start ∨ start + 4 * words.length ≤ address) :
    written memory start words address = memory address := by
  induction words generalizing start with
  | nil => rfl
  | cons word rest ih =>
      simp only [List.length_cons] at outside
      rw [written, Function.update_of_ne (by omega), ih (by omega)]

theorem written_stored (memory : Nat → Nat) (words : List Nat) (start : Nat) :
    Stored (written memory start words) start words := by
  induction words generalizing start with
  | nil => trivial
  | cons word rest ih =>
      refine ⟨Function.update_self .., (ih (start + 4)).agree ?_⟩
      intro address above _
      exact Function.update_of_ne (by omega) ..

theorem fetched_eq (stored : Stored memory address words) :
    fetched memory address words.length = words := by
  induction words generalizing address with
  | nil => rfl
  | cons word rest ih =>
      obtain ⟨here, behind⟩ := stored
      simp only [List.length_cons, fetched, here, ih behind]

theorem stored_get (stored : Stored memory address words) (i : Nat) (inside : i < words.length) :
    memory (address + 4 * i) = words[i] := by
  induction words generalizing address i with
  | nil => simp at inside
  | cons first rest ih =>
      cases i with
      | zero => exact stored.1
      | succ i =>
          have behind := ih stored.2 i (by simpa using inside)
          rw [show address + 4 * (i + 1) = address + 4 + 4 * i by omega, behind]
          rfl

/-- Storing into one word of a list. -/
theorem Stored.update (stored : Stored memory address words) (i : Nat) (word : Nat) :
    Stored (Function.update memory (address + 4 * i) word) address (words.set i word) := by
  induction words generalizing address i with
  | nil => trivial
  | cons first rest ih =>
      obtain ⟨here, behind⟩ := stored
      cases i with
      | zero =>
          refine ⟨Function.update_self .., behind.agree ?_⟩
          intro other above _
          exact Function.update_of_ne (by omega) ..
      | succ i =>
          refine ⟨?_, ?_⟩
          · rw [Function.update_of_ne (by omega)]
            exact here
          · rw [show address + 4 * (i + 1) = address + 4 + 4 * i by omega]
            exact ih behind i

end AempOS.Lib
