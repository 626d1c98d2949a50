import AempOS.Task.Exec

/-! Several `sys_exec` calls at a time. They have one position in the file, which a call
sets right before it reads; the images themselves do not change. -/

set_option autoImplicit false

namespace AempOS.Task

open Lib Memory

/-- A `sys_exec` under way on a CPU, and what it has read, the latest first. -/
structure ExecCall where
  cpu : Nat
  todo : ExecProgram Int
  bytes : List (List Byte)

/-- The next step of a call, with the position in the file, when `lin_mapping_phy`
returns `mapped`. -/
def ExecCall.step (memory : Buffer) (position : Nat) (call : ExecCall) (mapped : Int) : Option (Nat × ExecCall) :=
  match call.todo with
  | .done _ => none
  | .act .fakeOpen next => some (0, { call with todo := next () })
  | .act (.fakeSeek pos) next => some (pos, { call with todo := next () })
  | .act (.fakeRead size) next =>
      let data := bytesAt memory (addrLin call.cpu position) size
      some (add32 position size, { call with todo := next data, bytes := data :: call.bytes })
  | .act (.linMapping _ _) next => some (position, { call with todo := next mapped })
  | .act (.store _ _) next => some (position, { call with todo := next () })
  | .act (.updatePcb _) next => some (position, { call with todo := next () })
  | .act .overrun _ => none

def ExecCall.Starts (call : ExecCall) : Prop := (∃ path, call.todo = Exec.sysExec path) ∧ call.bytes = []

/-- One call that runs alone. -/
def loneExec (memory : Buffer) : Machine (Nat × ExecCall) Int where
  initial state := state.2.Starts
  step state mapped := state.2.step memory state.1 mapped

/-- The position, and the calls under way. -/
structure Execs (Id : Type) where
  position : Nat
  calls : Id → ExecCall

/-- Any number of calls, one step at a time. -/
def execSystem (Id : Type) [DecidableEq Id] (memory : Buffer) : Machine (Execs Id) (Id × Int) where
  initial state := ∀ i, (state.calls i).Starts
  step state label := ((state.calls label.1).step memory state.position label.2).map fun (position, call) =>
    ⟨position, Function.update state.calls label.1 call⟩

/-- The call has just set the position for a read. -/
def ExecCall.AtRead (call : ExecCall) : Prop := ∃ size next, call.todo = .act (.fakeRead size) next

/-- The next step of the call leaves the position as it is. -/
def ExecCall.StaysAt (position : Nat) (call : ExecCall) : Prop :=
  match call.todo with
  | .act .fakeOpen _ => position = 0
  | .act (.fakeSeek pos) _ => position = pos
  | .act (.fakeRead size) _ => position = add32 position size
  | _ => True

variable {Id : Type}

/-- A call does not move the position while another is about to read. -/
def Undisturbed (state : Execs Id) (label : Id × Int) : Prop :=
  ∀ i, i ≠ label.1 → (state.calls i).AtRead → (state.calls label.1).StaysAt state.position

/-- What `lin_mapping_phy` returned in the steps of a call. -/
def answersOf [DecidableEq Id] (i : Id) (labels : List (Id × Int)) : List Int :=
  (labels.filter fun label => label.1 = i).map Prod.snd

/-! ## Reads follow seeks -/

/-- The mode is the position that was set for the next read. -/
def seekFirst : Discipline (Option Nat) ExecOp ExecOp.Reply where
  allows mode op := mode ≠ none ↔ ∃ size, op = .fakeRead size
  moves _ op _ after :=
    match op with
    | .fakeSeek pos => after = some pos
    | _ => after = none

/-- Every read comes right after a seek. -/
def SeeksFirst {A : Type} (program : ExecProgram A) : Prop :=
  program.Keeps seekFirst (fun _ mode => mode = none) none

namespace SeeksFirst

variable {A B : Type}

theorem pure (result : A) : SeeksFirst (Pure.pure result : ExecProgram A) := rfl

theorem bind {program : ExecProgram A} {after : A → ExecProgram B} (first : SeeksFirst program)
    (second : ∀ result, SeeksFirst (after result)) : SeeksFirst (program >>= after) := by
  refine Program.Keeps.bind (first.mono fun result mode isNone => ?_)
  subst isNone
  exact second result

theorem readAt (offset size : Nat) : SeeksFirst (Exec.readAt offset size) := by
  refine ⟨⟨fun wrong => absurd rfl wrong, fun ⟨_, wrong⟩ => by cases wrong⟩, fun _ mode sought => ?_⟩
  have sought : mode = some offset := sought
  subst sought
  exact ⟨⟨fun _ => ⟨size, rfl⟩, fun _ => Option.some_ne_none offset⟩, fun _ _ isNone => isNone⟩

theorem perform {op : ExecOp} (notRead : ∀ size, op ≠ .fakeRead size) (notSeek : ∀ pos, op ≠ .fakeSeek pos) :
    SeeksFirst (Program.perform op : ExecProgram (ExecOp.Reply op)) := by
  refine ⟨⟨fun wrong => absurd rfl wrong, fun ⟨size, wrong⟩ => absurd wrong (notRead size)⟩, fun _ mode moved => ?_⟩
  cases op with
  | fakeSeek pos => exact absurd rfl (notSeek pos)
  | fakeOpen => exact moved
  | fakeRead size => exact moved
  | linMapping lin attr => exact moved
  | store lin byte => exact moved
  | updatePcb change => exact moved
  | overrun => exact moved

theorem overrun : SeeksFirst (Exec.overrun : ExecProgram A) :=
  ⟨⟨fun wrong => absurd rfl wrong, fun ⟨_, wrong⟩ => by cases wrong⟩, fun reply => reply.elim⟩

theorem linMapping (lin attr : Nat) : SeeksFirst (Exec.linMapping lin attr) :=
  perform (fun _ wrong => by cases wrong) fun _ wrong => by cases wrong

theorem store (lin : Nat) (byte : Byte) : SeeksFirst (Exec.store lin byte) :=
  perform (fun _ wrong => by cases wrong) fun _ wrong => by cases wrong

theorem updatePcb (change : Pcb → Pcb) : SeeksFirst (Exec.updatePcb change) :=
  perform (fun _ wrong => by cases wrong) fun _ wrong => by cases wrong

theorem fakeOpen : SeeksFirst Exec.fakeOpen :=
  perform (fun _ wrong => by cases wrong) fun _ wrong => by cases wrong

theorem readPhdrs (ehdr : Exec.Ehdr) (rounds i : Nat) : SeeksFirst (Exec.readPhdrs ehdr rounds i) := by
  induction rounds generalizing i with
  | zero => exact pure []
  | succ rounds ih =>
      refine bind ((readAt _ _).bind fun _ => pure _) fun phdr => ?_
      split
      next => exact overrun
      next => exact (ih (i + 1)).bind fun _ => pure _

theorem readShdrs (ehdr : Exec.Ehdr) (rounds i : Nat) : SeeksFirst (Exec.readShdrs ehdr rounds i) := by
  induction rounds generalizing i with
  | zero => exact pure ()
  | succ rounds ih =>
      refine bind ((readAt _ _).bind fun _ => pure _) fun _ => ?_
      split
      next => exact overrun
      next => exact ih (i + 1)

theorem readElf : SeeksFirst Exec.readElf := by
  refine bind ((readAt _ _).bind fun _ => pure _) fun ehdr => ?_
  refine bind (readPhdrs ehdr _ _) fun phdrs => ?_
  exact bind (readShdrs ehdr _ _) fun _ => pure _

theorem elfcpy (attr fileLimit rounds lin fileOffset : Nat) :
    SeeksFirst (Exec.elfcpy attr fileLimit rounds lin fileOffset) := by
  induction rounds generalizing lin fileOffset with
  | zero => exact pure ()
  | succ rounds ih =>
      refine bind (linMapping lin attr) fun _ => ?_
      have rest := ih (lin + 1) (add32 fileOffset 1)
      simp only
      split
      next => exact bind (readAt _ _) fun ch => bind (store _ _) fun _ => rest
      next => exact bind (store _ _) fun _ => rest

theorem loadSegments (phdrs : List Exec.Phdr) : SeeksFirst (Exec.loadSegments phdrs) := by
  induction phdrs with
  | nil => exact pure 0
  | cons phdr rest ih =>
      unfold Exec.loadSegments
      split
      next => exact pure 0
      next =>
          split
          next => exact bind (elfcpy _ _ _ _ _) fun _ => bind (updatePcb _) fun _ => ih
          next =>
              split
              next => exact bind (elfcpy _ _ _ _ _) fun _ => bind (updatePcb _) fun _ => ih
              next => exact pure (-1)

theorem execLoad (ehdr : Exec.Ehdr) (phdrs : List Exec.Phdr) : SeeksFirst (Exec.execLoad ehdr phdrs) := by
  unfold Exec.execLoad
  split
  next => exact pure (-1)
  next => exact loadSegments phdrs

theorem mapStack (lins : List Nat) : SeeksFirst (Exec.mapStack lins) := by
  induction lins with
  | nil => exact pure 0
  | cons lin rest ih =>
      refine bind (linMapping _ _) fun result => ?_
      split
      next => exact pure (-1)
      next => exact ih

theorem sysExec (path : Option String) : SeeksFirst (Exec.sysExec path) := by
  cases path with
  | none => exact pure (-1)
  | some path =>
      refine bind fakeOpen fun _ => bind readElf fun (ehdr, phdrs) => bind (execLoad ehdr phdrs) fun loaded => ?_
      split
      next => exact pure (-1)
      next =>
          split
          next => exact overrun
          next => exact bind (updatePcb _) fun _ => bind (updatePcb _) fun _ => mapStack _

end SeeksFirst

/-! ## Runs -/

variable {memory : Buffer} {position lone after : Nat} {call next : ExecCall} {mapped : Int}

/-- A call among others and the same call alone are at the same place in the file when
it matters. -/
def InStep (position lone : Nat) (call : ExecCall) : Prop :=
  ∃ mode, call.todo.Keeps seekFirst (fun _ mode => mode = none) mode ∧
    ∀ pos, mode = some pos → position = pos ∧ lone = pos

theorem ExecCall.Starts.inStep (starts : call.Starts) (position lone : Nat) : InStep position lone call := by
  obtain ⟨⟨path, todo⟩, _⟩ := starts
  refine ⟨none, ?_, fun pos wrong => by cases wrong⟩
  rw [todo]
  exact SeeksFirst.sysExec path

theorem InStep.step (inStep : InStep position lone call) (moved : call.step memory position mapped = some (after, next)) :
    ∃ loneAfter, call.step memory lone mapped = some (loneAfter, next) ∧ InStep after loneAfter next := by
  obtain ⟨mode, keeps, same⟩ := inStep
  obtain ⟨cpu, todo, bytes⟩ := call
  cases todo with
  | done result => cases moved
  | act op rest =>
      obtain ⟨allowed, keeps⟩ := keeps
      cases op with
      | fakeOpen =>
          cases moved
          exact ⟨_, rfl, none, keeps () none rfl, fun pos wrong => by cases wrong⟩
      | fakeSeek sought =>
          cases moved
          exact ⟨_, rfl, some _, keeps () (some _) rfl, fun pos isPos => ⟨Option.some.inj isPos, Option.some.inj isPos⟩⟩
      | fakeRead size =>
          obtain ⟨pos, isMode⟩ := Option.ne_none_iff_exists'.mp (allowed.mpr ⟨size, rfl⟩)
          obtain ⟨rfl, rfl⟩ := same pos isMode
          exact ⟨_, moved, none, by cases moved; exact keeps _ none rfl, fun pos wrong => by cases wrong⟩
      | linMapping lin attr =>
          cases moved
          exact ⟨_, rfl, none, keeps mapped none rfl, fun pos wrong => by cases wrong⟩
      | store lin byte =>
          cases moved
          exact ⟨_, rfl, none, keeps () none rfl, fun pos wrong => by cases wrong⟩
      | updatePcb change =>
          cases moved
          exact ⟨_, rfl, none, keeps () none rfl, fun pos wrong => by cases wrong⟩
      | overrun => cases moved

/-- A step of another call that leaves the position when it matters. -/
theorem InStep.other (inStep : InStep position lone call) (stays : call.AtRead → after = position) :
    InStep after lone call := by
  obtain ⟨mode, keeps, same⟩ := inStep
  obtain ⟨cpu, todo, bytes⟩ := call
  refine ⟨mode, keeps, fun pos isMode => ?_⟩
  have some : mode ≠ none := by
    rw [isMode]
    exact Option.some_ne_none pos
  have atRead : ExecCall.AtRead ⟨cpu, todo, bytes⟩ := by
    cases todo with
    | done result => exact absurd keeps some
    | act op rest =>
        obtain ⟨size, rfl⟩ := keeps.1.mp some
        exact ⟨size, rest, rfl⟩
  rw [stays atRead]
  exact same pos isMode

theorem ExecCall.StaysAt.step (stays : call.StaysAt position)
    (moved : call.step memory position mapped = some (after, next)) : after = position := by
  obtain ⟨cpu, todo, bytes⟩ := call
  cases todo with
  | done result => cases moved
  | act op rest =>
      cases op with
      | overrun => cases moved
      | fakeOpen => cases moved; exact stays.symm
      | fakeSeek sought => cases moved; exact stays.symm
      | fakeRead size => cases moved; exact stays.symm
      | linMapping lin attr => cases moved; rfl
      | store lin byte => cases moved; rfl
      | updatePcb change => cases moved; rfl

variable [DecidableEq Id] {labels : List (Id × Int)} {state final : Execs Id}

theorem InStep.run {i : Id} (inStep : InStep state.position lone (state.calls i))
    (ran : (execSystem Id memory).run state labels = some final)
    (meets : (execSystem Id memory).Meets Undisturbed state labels) :
    ∃ place, (loneExec memory).run (lone, state.calls i) (answersOf i labels) = some (place, final.calls i) := by
  induction labels generalizing state lone with
  | nil =>
      cases ran
      exact ⟨lone, rfl⟩
  | cons label rest ih =>
      obtain ⟨mid, moved, ran⟩ := Option.bind_eq_some_iff.mp ran
      simp only [Machine.Meets, moved] at meets
      obtain ⟨⟨after, next⟩, stepped, rfl⟩ := Option.map_eq_some_iff.mp moved
      by_cases own : label.1 = i
      · subst own
        obtain ⟨loneAfter, same, inStepNext⟩ := inStep.step stepped
        have isNext : (Function.update state.calls label.1 next) label.1 = next := Function.update_self _ _ _
        rw [← isNext] at inStepNext
        obtain ⟨place, ranAlone⟩ := ih inStepNext ran meets.2
        refine ⟨place, ?_⟩
        have answers : answersOf label.1 (label :: rest) = label.2 :: answersOf label.1 rest := by
          simp [answersOf]
        rw [answers]
        exact Option.bind_eq_some_iff.mpr ⟨(loneAfter, next), same, by rw [← isNext]; exact ranAlone⟩
      · have kept : (Function.update state.calls label.1 next) i = state.calls i :=
          Function.update_of_ne (Ne.symm own) _ _
        have inStepNext : InStep after lone (Function.update state.calls label.1 next i) := by
          rw [kept]
          exact inStep.other fun atRead => (meets.1 i (Ne.symm own) atRead).step stepped
        obtain ⟨place, ranAlone⟩ := ih inStepNext ran meets.2
        refine ⟨place, ?_⟩
        have answers : answersOf i (label :: rest) = answersOf i rest := by simp [answersOf, own]
        rw [answers, ← kept]
        exact ranAlone

/-- As long as no call moves the position between a seek and the read after it of
another, every call does and reads what it does and reads when it runs alone. -/
theorem execs_apart (start : (execSystem Id memory).initial state)
    (ran : (execSystem Id memory).run state labels = some final)
    (meets : (execSystem Id memory).Meets Undisturbed state labels) (i : Id) (position : Nat) :
    ∃ place, (loneExec memory).run (position, state.calls i) (answersOf i labels) = some (place, final.calls i) :=
  ((start i).inStep state.position position).run ran meets

/-! ## Two calls -/

/-- Two calls on the first two CPUs. -/
def twoExecs : Execs Bool := ⟨0, fun i => ⟨if i then 1 else 0, Exec.sysExec (some "init"), []⟩⟩

theorem twoExecs_initial (memory : Buffer) : (execSystem Bool memory).initial twoExecs :=
  fun _ => ⟨⟨some "init", rfl⟩, rfl⟩

/-- The image of zeros has no program headers. -/
theorem execs_apart_headers :
    ∃ final, (execSystem Bool fun _ => 0).run twoExecs
        [(false, 0), (false, 0), (false, 0), (true, 0), (true, 0), (true, 0)] = some final ∧
      ∀ i position, ∃ place, (loneExec fun _ => 0).run (position, twoExecs.calls i) [0, 0, 0] =
        some (place, final.calls i) := by
  have ran : (execSystem Bool fun _ => 0).run twoExecs
      [(false, 0), (false, 0), (false, 0), (true, 0), (true, 0), (true, 0)] = some _ := rfl
  have meets : (execSystem Bool fun _ => 0).Meets Undisturbed twoExecs
      [(false, 0), (false, 0), (false, 0), (true, 0), (true, 0), (true, 0)] := by
    refine ⟨?_, ?_, ?_, ?_, ?_, ?_, trivial⟩
    all_goals
      rintro i other ⟨size, next, atRead⟩
      cases i with
      | false => first | exact absurd rfl other | cases atRead
      | true => first | exact absurd rfl other | cases atRead
  refine ⟨_, ran, fun i position => ?_⟩
  have apart := execs_apart (twoExecs_initial _) ran meets i position
  cases i with
  | false => exact apart
  | true => exact apart

/-- The second call reads its header between the seek and the read of the first. -/
theorem execs_mix :
    ∃ (memory : Buffer) (labels : List (Bool × Int)) (final : Execs Bool),
      (execSystem Bool memory).initial twoExecs ∧ (execSystem Bool memory).run twoExecs labels = some final ∧
      ∀ place, (loneExec memory).run (twoExecs.position, twoExecs.calls false) (answersOf false labels) ≠
        some (place, final.calls false) := by
  have ran : (execSystem Bool fun addr => BitVec.ofNat 8 addr).run twoExecs
      [(false, 0), (false, 0), (true, 0), (true, 0), (true, 0), (false, 0)] = some _ := rfl
  refine ⟨_, _, _, twoExecs_initial _, ran, fun place alone => ?_⟩
  have first : ∀ {left : Nat × ExecCall} {call : ExecCall}, some left = some (place, call) →
      (left.2.bytes.headD []).headD 0 = (call.bytes.headD []).headD 0 := by
    rintro left call same
    rw [Option.some.inj same]
  exact absurd (first alone) (by decide)

end AempOS.Task
