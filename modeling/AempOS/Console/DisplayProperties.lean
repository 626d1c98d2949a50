import AempOS.Console.Display
import Mathlib.Tactic.IntervalCases

/-! The positions stay on the screen as long as the only character that is met right
behind it is one that `disp_str` stores after its wrap. -/

set_option autoImplicit false

namespace AempOS.Console

open Lib

/-- Behind the screen only `disp_str` goes on, and not with a new line. -/
def CharFits (console : DisplayState) : ConsoleEvent → Prop
  | .lodsb => ∀ call al rest, console.call = some call → call.info = al :: rest → al ≠ 0 →
      console.edi = 0x1F40 → call.routine = .dispStr ∧ al ≠ 0x0A
  | _ => True

/-- A position on the screen, or right behind it. -/
def OnScreen (pos : BitVec 32) : Prop :=
  pos.toNat % 2 = 0 ∧ pos.toNat ≤ 0x1F40

/-- The cells that were written are cells of the screen, and so is `disp_pos`
between calls; the next division does not overflow. -/
structure StaysOnScreen (console : DisplayState) : Prop where
  cells : ∀ cell ∈ console.stored, cell.1.toNat % 2 = 0 ∧ cell.1.toNat < 0x1F40
  between : console.call = none → console.dispPos.toNat ≤ 0x1F40
  divides : (newline console.edi).isSome = true ∨ console.call = none

/-! ## One character -/

theorem newline_isSome {edi : BitVec 32} (inside : edi.toNat ≤ 0x1F40) : (newline edi).isSome = true := by
  have divisor : (160 : BitVec 8).toNat = 160 := rfl
  unfold newline
  rw [Option.isSome_map, divByte_isSome_iff (by decide), divisor, BitVec.toNat_setWidth]
  omega

private theorem highWord_zero {eax : BitVec 32} (small : eax.toNat < 2 ^ 16) :
    eax &&& 0xFFFF0000 = 0#32 := by
  apply BitVec.eq_of_getLsbD_eq
  intro i inside
  rw [BitVec.getLsbD_and, BitVec.getLsbD_zero]
  by_cases low : i < 16
  · have mask : (0xFFFF0000 : BitVec 32).getLsbD i = false := by
      interval_cases i <;> rfl
    rw [mask, Bool.and_false]
  · have clear : eax.getLsbD i = false := by
      apply Nat.testBit_lt_two_pow
      exact Nat.lt_of_lt_of_le small (Nat.pow_le_pow_right (by decide) (by omega))
    rw [clear, Bool.false_and]

/-- The start of the next line. -/
theorem newline_eq {edi : BitVec 32} (inside : edi.toNat < 0x1F40) :
    ∃ next, newline edi = some next ∧ next.toNat = (edi.toNat / 160 + 1) * 160 := by
  have divisor : (160 : BitVec 8).toNat = 160 := rfl
  have ax : (edi.setWidth 16).toNat = edi.toNat := by
    rw [BitVec.toNat_setWidth]
    omega
  obtain ⟨al, ah, divided, quotient, _⟩ :=
    @divByte_eq (edi.setWidth 16) 160 (by decide) (by rw [ax, divisor]; omega)
  rw [ax, divisor] at quotient
  have eax : (al.setWidth 32 + 1 : BitVec 32).toNat = edi.toNat / 160 + 1 := by
    rw [BitVec.toNat_add, BitVec.toNat_setWidth, quotient]
    have one : (1 : BitVec 32).toNat = 1 := rfl
    omega
  have line : ((al.setWidth 32 + 1 : BitVec 32).setWidth 8).toNat = edi.toNat / 160 + 1 := by
    rw [BitVec.toNat_setWidth, eax]
    omega
  simp only [newline, divided, Option.map_some, Option.some.injEq, exists_eq_left']
  rw [highWord_zero (by omega), BitVec.zero_or, BitVec.toNat_setWidth, mulByte, BitVec.toNat_ofNat, line,
    divisor, Nat.mod_eq_of_lt (by omega), Nat.mod_eq_of_lt (by omega)]

theorem wrap_onScreen {routine : Routine} {edi : BitVec 32} (here : OnScreen edi)
    (fits : edi = 0x1F40 → routine = .dispStr) :
    (wrap routine edi).toNat % 2 = 0 ∧ (wrap routine edi).toNat < 0x1F40 := by
  obtain ⟨even, inside⟩ := here
  by_cases behind : edi = 0x1F40
  · rw [fits behind, wrap, if_pos behind]
    decide
  · have apart : edi.toNat ≠ 0x1F40 := fun same => behind (BitVec.eq_of_toNat_eq same)
    have same : wrap routine edi = edi := by
      cases routine with
      | dispStr => rw [wrap, if_neg behind]
      | dispColorStr => rfl
    rw [same]
    exact ⟨even, by omega⟩

/-- The position is on the screen while a call runs, and `disp_pos` between calls. -/
structure Steady (console : DisplayState) : Prop where
  cells : ∀ cell ∈ console.stored, cell.1.toNat % 2 = 0 ∧ cell.1.toNat < 0x1F40
  running : console.call ≠ none → OnScreen console.edi
  between : console.call = none → OnScreen console.dispPos

theorem Steady.finish {console : DisplayState} (steady : Steady console) (runs : console.call ≠ none) :
    Steady (finish console) :=
  ⟨steady.cells, fun wrong => absurd rfl wrong, fun _ => steady.running runs⟩

theorem Steady.begin {console : DisplayState} (steady : Steady console) (idle : console.call = none)
    (routine : Routine) (ah : Byte) (info : List Byte) : Steady (begin console routine ah info) :=
  ⟨steady.cells, fun _ => steady.between idle, fun wrong => nomatch wrong⟩

theorem Steady.putChar {console next : DisplayState} {call : Call} {al : Byte} {rest : List Byte}
    (steady : Steady console) (runs : console.call = some call)
    (fits : console.edi = 0x1F40 → call.routine = .dispStr ∧ al ≠ 0x0A)
    (moved : putChar console call al rest = some next) : Steady next := by
  have here := steady.running (by rw [runs]; exact Option.some_ne_none _)
  unfold Console.putChar at moved
  split at moved
  next line =>
    have before : console.edi.toNat < 0x1F40 := by
      have apart : console.edi.toNat ≠ 0x1F40 := fun same =>
        (fits (BitVec.eq_of_toNat_eq same)).2 line
      have inside := here.2
      omega
    obtain ⟨edi, jumped, value⟩ := newline_eq before
    rw [jumped] at moved
    cases moved
    exact ⟨steady.cells, fun _ => ⟨by simp only [value]; omega, by simp only [value]; omega⟩,
      fun wrong => nomatch wrong⟩
  next other =>
    cases moved
    obtain ⟨even, inside⟩ := wrap_onScreen here fun behind => (fits behind).1
    refine ⟨fun cell member => ?_, fun _ => ⟨?_, ?_⟩, fun wrong => nomatch wrong⟩
    · rcases List.mem_cons.mp member with rfl | earlier
      · exact ⟨even, inside⟩
      · exact steady.cells cell earlier
    · simp only
      bv_omega
    · simp only
      bv_omega

theorem Steady.step {console next : DisplayState} {event : ConsoleEvent} (steady : Steady console)
    (fits : CharFits console event) (moved : consoleStep console event = some next) : Steady next := by
  cases event with
  | dispStr info =>
      rw [consoleStep] at moved
      split at moved
      next => cases moved
      next idle =>
        cases moved
        exact steady.begin (by simpa using idle) _ _ _
  | dispColorStr info color =>
      rw [consoleStep] at moved
      split at moved
      next => cases moved
      next idle =>
        cases moved
        exact steady.begin (by simpa using idle) _ _ _
  | lodsb =>
      rw [consoleStep] at moved
      cases runs : console.call with
      | none =>
          rw [runs] at moved
          cases moved
      | some call =>
          have running : console.call ≠ none := by
            rw [runs]
            exact Option.some_ne_none _
          rw [runs] at moved
          cases text : call.info with
          | nil =>
              simp only [text] at moved
              cases moved
              exact steady.finish running
          | cons al rest =>
              simp only [text] at moved
              split at moved
              next =>
                cases moved
                exact steady.finish running
              next more => exact steady.putChar runs (fits call al rest runs text more) moved

/-- Any other character that is met right behind the screen leads further off it. -/
theorem putChar_behind {console next : DisplayState} {call : Call} {al : Byte} {rest : List Byte}
    (behind : console.edi = 0x1F40) (other : ¬(call.routine = .dispStr ∧ al ≠ 0x0A))
    (moved : putChar console call al rest = some next) : 0x1F40 < next.edi.toNat := by
  unfold putChar at moved
  rw [behind] at moved
  split at moved
  next =>
    have jumped : newline 0x1F40 = some 8160 := by decide
    rw [jumped] at moved
    cases moved
    exact (by decide : 0x1F40 < (8160 : BitVec 32).toNat)
  next character =>
    have routine : call.routine = .dispColorStr := by
      cases kind : call.routine with
      | dispStr => exact absurd ⟨kind, character⟩ other
      | dispColorStr => rfl
    rw [routine] at moved
    cases moved
    exact (by decide : 0x1F40 < (0x1F40 + 2 : BitVec 32).toNat)

/-- In every run whose characters fit, no cell outside the screen is written. -/
theorem staysOnScreen_of_fits {console : DisplayState}
    (reached : consoleMachine.ReachableWhen CharFits console) : StaysOnScreen console := by
  have steady : Steady console := by
    refine reached.invariant ?_ fun _ _ _ steady fits moved => steady.step fits moved
    rintro start ⟨pos, idle, empty⟩
    refine ⟨fun cell member => ?_, fun wrong => absurd idle wrong, fun _ => ?_⟩
    · rw [empty] at member
      cases member
    · rw [pos]
      exact ⟨rfl, Nat.zero_le _⟩
  refine ⟨steady.cells, fun idle => (steady.between idle).2, ?_⟩
  by_cases idle : console.call = none
  · exact .inr idle
  · exact .inl (newline_isSome (steady.running idle).2)

def freshConsole : DisplayState := ⟨0, 0, none, []⟩

theorem freshConsole_initial : consoleMachine.initial freshConsole :=
  ⟨rfl, rfl, rfl⟩

/-- A letter and a new line. -/
theorem staysOnScreen_of_fits_letter :
    ∃ console, consoleMachine.run freshConsole
        [.dispStr [0x41, 0x0A], .lodsb, .lodsb, .lodsb] = some console ∧
      console.dispPos = 160 ∧ StaysOnScreen console := by
  obtain ⟨console, ran, pos⟩ : ∃ console, consoleMachine.run freshConsole
      [.dispStr [0x41, 0x0A], .lodsb, .lodsb, .lodsb] = some console ∧ console.dispPos = 160 :=
    ⟨_, rfl, rfl⟩
  have meets : consoleMachine.Meets CharFits freshConsole
      [.dispStr [0x41, 0x0A], .lodsb, .lodsb, .lodsb] :=
    ⟨trivial, fun _ _ _ _ _ _ behind => absurd behind (by decide),
      fun _ _ _ _ _ _ behind => absurd behind (by decide),
      fun _ _ _ _ _ _ behind => absurd behind (by decide), trivial⟩
  exact ⟨console, ran, pos, staysOnScreen_of_fits (.of_run (.initial freshConsole_initial) ran meets)⟩

/-- After fifty new lines `disp_color_str` writes behind the screen. -/
theorem dispColorStr_behind :
    ∃ console, consoleMachine.Reachable console ∧ ¬StaysOnScreen console := by
  obtain ⟨console, ran, cell⟩ : ∃ console, consoleMachine.run freshConsole
      (.dispColorStr (List.replicate 50 0x0A ++ [0x41]) 0x0C :: List.replicate 51 .lodsb) = some console ∧
      console.stored = [(0x1F40, 0x0C41)] := ⟨_, rfl, rfl⟩
  refine ⟨console, .of_run (.initial freshConsole_initial) ran, fun stays => ?_⟩
  have inside := (stays.cells (0x1F40, 0x0C41) (by rw [cell]; exact List.mem_singleton_self _)).2
  exact absurd inside (by decide)

end AempOS.Console
