import AempOS.Ipc.Arguments

/-! Where the system calls with a buffer reach. The first level is covered: a slot
below the limit or a pointer into the kernel ends the call, and once a slot is above
the limit the next one is. The pointer inside a message structure is not looked at,
and of no range more than the first byte. -/

set_option autoImplicit false

namespace AempOS.Ipc

open Lib
open Memory (kernelLinBase)

/-- Below the kernel. -/
def UserByte (a : Linear) : Prop := a.toNat < kernelLinBase

/-- So many bytes from an address on are below the kernel. -/
def UserRange (a : Linear) (count : Nat) : Prop := count = 0 ∨ a.toNat + count ≤ kernelLinBase

/-- The call touches only user memory for its caller. -/
def BufferCall.TouchesOnlyUser (call : BufferCall) (caller : Caller) (visits : List Visit) : Prop :=
  (call.run caller visits).All UserByte

namespace Caller

/-- The address of the first argument. -/
def firstSlot (caller : Caller) : Linear := caller.esp + 4

/-- The argument of a number, as it lies on the stack. -/
def slot (caller : Caller) (n : Nat) : BitVec 32 :=
  caller.memory.word (caller.esp + 4 * BitVec.ofNat 32 n + 4)

/-- `*(ptr + 1)` of a message structure. -/
def structBuffer (caller : Caller) : Linear := caller.memory.word (caller.slot 1 + 4)

end Caller

/-! ## What the sections find -/

/-- A section of `msg_queue_push_node` finds an idle node. -/
def MsgState.IdleNode (state : MsgState) (msqid : Int) : Prop :=
  ∃ opened mqp node, state.openQueue msqid = some opened ∧ opened.queues msqid.toNat = some mqp ∧
    mqp.idle = some node

/-- A section of `msg_queue_pop_node` finds a message of the type. -/
def MsgState.FirstMessage (state : MsgState) (msqid type : Int) (data : MsgData) : Prop :=
  ∃ opened mqp ptr use, state.openQueue msqid = some opened ∧ opened.queues msqid.toNat = some mqp ∧
    popUseNode ⟨opened.nodes, mqp.use⟩ (opened.fresh + 1) type = some (some (ptr, use)) ∧
    (use.heap ptr).value = data

/-- A section of `box_push_node` finds an idle node. -/
def BoxState.IdleNode (state : BoxState) (infos : Infos) (pid : Int) : Prop :=
  ¬OutOfRange pid ∧ ∃ bp node, state.boxes (infos.mailbox pid.toNat) = some bp ∧ bp.idle = some node

/-- A section of `box_pop_node` by `proc` finds a letter of the sender. -/
def BoxState.FirstLetter (state : BoxState) (infos : Infos) (proc : Nat) (pid : Int) (data : BoxData) :
    Prop :=
  ¬OutOfRange pid ∧ ∃ bp ptr use, state.boxes (infos.mailbox proc) = some bp ∧
    Box.popUseNode ⟨state.nodes, bp.use⟩ (state.fresh + 1) pid = some (some (ptr, use)) ∧
    (use.heap ptr).value = data

/-- The bytes that the sections of the call copy are below the kernel. -/
def BufferCall.CopiesBelow (caller : Caller) (visits : List Visit) : BufferCall → Prop
  | .msgsnd => ∀ visit ∈ visits, visit.msgs.IdleNode (caller.slot 0).toInt →
      UserRange caller.structBuffer (min (loopBound (caller.slot 2)) msgmax)
  | .msgrcv => ∀ visit ∈ visits, ∀ data,
      visit.msgs.FirstMessage (caller.slot 0).toInt (caller.slot 3).toInt data →
      UserRange caller.structBuffer (min (loopBound (caller.slot 2)) data.size)
  | .boxsnd => ∀ entry ∈ pushPids (caller.slot 0).toInt visits,
      entry.2.boxes.IdleNode entry.2.infos entry.1 →
      UserRange (caller.slot 1) (min (loopBound (caller.slot 2)) boxmax)
  | .boxrcv => ∀ visit ∈ visits, ∀ data,
      visit.boxes.FirstLetter visit.infos caller.proc (caller.slot 0).toInt data →
      UserRange (caller.slot 1) (min (loopBound (caller.slot 2)) data.size)

/-- How many arguments the call has. -/
def BufferCall.arguments : BufferCall → Nat
  | .msgsnd => 4
  | .msgrcv => 5
  | .boxsnd => 4
  | .boxrcv => 4

/-- How far the call reads from its pointer before the copy. -/
def BufferCall.structBytes : BufferCall → Nat
  | .msgsnd => 8
  | .msgrcv => 8
  | .boxsnd => 0
  | .boxrcv => 0

/-- The first slot is below the limit of the stack; or the slots up to the pointer are
below the kernel and the pointer is not; or the slots, the structure and the copies all
are. -/
def BufferCall.StaysBelow (call : BufferCall) (caller : Caller) (visits : List Visit) : Prop :=
  caller.firstSlot < caller.stackLinLimit ∨
  UserRange caller.firstSlot 8 ∧ ((caller.slot 1).toNat ≥ kernelLinBase ∨
    UserRange caller.firstSlot (4 * call.arguments) ∧ UserRange (caller.slot 1) call.structBytes ∧
      call.CopiesBelow caller visits)

theorem addressRun_user (a : Linear) (count : Nat) :
    (∀ c ∈ addressRun a count, UserByte c) ↔ UserRange a count :=
  addressRun_below (by decide) a count

theorem userRange_copies {a : Linear} {Found : Prop} {count most : Nat} (some' : Found → count = most)
    (none' : ¬Found → count = 0) : UserRange a count ↔ (Found → UserRange a most) := by
  by_cases found : Found
  · rw [some' found]
    exact ⟨fun range _ => range, fun range => range found⟩
  · rw [none' found]
    exact ⟨fun _ found' => absurd found' found, fun _ => .inl rfl⟩

/-! ## Arguments -/

theorem slot_address {caller : Caller} {n : Nat} (inside : caller.firstSlot.toNat + 4 * n < 4294967296) :
    (caller.esp + 4 * BitVec.ofNat 32 n + 4).toNat = caller.firstSlot.toNat + 4 * n := by
  have first : caller.esp + 4 * BitVec.ofNat 32 n + 4 = caller.firstSlot + 4 * BitVec.ofNat 32 n := by
    unfold Caller.firstSlot
    ac_rfl
  have four : (4 : BitVec 32).toNat = 4 := rfl
  rw [first]
  simp only [BitVec.toNat_add, BitVec.toNat_mul, BitVec.toNat_ofNat, four]
  omega

/-- An argument whose slot is below the limit of the stack. -/
theorem argint_fails {caller : Caller} (below : caller.firstSlot < caller.stackLinLimit) :
    argint caller 0 = .fail := by
  have first : caller.esp + 4 * BitVec.ofNat 32 0 + 4 = caller.firstSlot := by
    simp [Caller.firstSlot]
  rw [argint, first]
  exact if_pos below

/-- The slots behind one that is above the limit are, too, as far as the kernel. -/
theorem all_argint {Value : Type} {caller : Caller} {n : Nat}
    (reached : ¬caller.firstSlot < caller.stackLinLimit) (before : UserRange caller.firstSlot (4 * n))
    (next : BitVec 32 → Traced Linear Value) :
    (argint caller n >>= next).All UserByte ↔
      UserRange caller.firstSlot (4 * (n + 1)) ∧ (next (caller.slot n)).All UserByte := by
  have inside : caller.firstSlot.toNat + 4 * n < 4294967296 := by
    have word := caller.firstSlot.isLt
    unfold UserRange kernelLinBase at before
    omega
  have address := slot_address inside
  have above : ¬caller.esp + 4 * BitVec.ofNat 32 n + 4 < caller.stackLinLimit := by
    rw [BitVec.lt_def] at reached ⊢
    omega
  have fetched : argint caller n =
      .emit (addressRun (caller.esp + 4 * BitVec.ofNat 32 n + 4) 4) (caller.slot n) := if_neg above
  rw [fetched, Traced.all_emit_bind, addressRun_user]
  unfold UserRange
  rw [address]
  exact and_congr_left fun _ => by omega

theorem all_argptr {Value : Type} {caller : Caller} {n : Nat}
    (reached : ¬caller.firstSlot < caller.stackLinLimit) (before : UserRange caller.firstSlot (4 * n))
    (next : Linear → Traced Linear Value) :
    (argptr caller n >>= next).All UserByte ↔
      UserRange caller.firstSlot (4 * (n + 1)) ∧
        ((caller.slot n).toNat ≥ kernelLinBase ∨ (next (caller.slot n)).All UserByte) := by
  rw [argptr, Traced.bind_assoc, all_argint reached before]
  refine and_congr_right fun _ => ?_
  by_cases kernel : (caller.slot n).toNat ≥ kernelLinBase
  · rw [if_pos kernel]
    exact ⟨fun _ => .inl kernel, fun _ => Traced.all_fail_bind _ _⟩
  · rw [if_neg kernel, Traced.pure_bind]
    exact ⟨.inr, fun user => user.resolve_left kernel⟩

theorem all_load {Value : Type} {caller : Caller} (ptr : Linear) (next : BitVec 32 → Traced Linear Value) :
    (load caller ptr >>= next).All UserByte ↔
      UserRange ptr 4 ∧ (next (caller.memory.word ptr)).All UserByte := by
  rw [load, Traced.all_emit_bind, addressRun_user]

/-- Two arguments behind ones that were read. -/
theorem all_twoArgs {Value : Type} {caller : Caller} {n : Nat}
    (reached : ¬caller.firstSlot < caller.stackLinLimit) (before : UserRange caller.firstSlot (4 * n))
    (next : BitVec 32 → BitVec 32 → Traced Linear Value) :
    (argint caller n >>= fun first => argint caller (n + 1) >>= next first).All UserByte ↔
      UserRange caller.firstSlot (4 * (n + 2)) ∧
        (next (caller.slot n) (caller.slot (n + 1))).All UserByte := by
  have grows : UserRange caller.firstSlot (4 * (n + 2)) → UserRange caller.firstSlot (4 * (n + 1)) := by
    unfold UserRange
    omega
  rw [all_argint reached before]
  constructor
  · rintro ⟨one, rest⟩
    exact (all_argint reached one (next (caller.slot n))).mp rest
  · rintro ⟨two, rest⟩
    exact ⟨grows two, (all_argint reached (grows two) (next (caller.slot n))).mpr ⟨two, rest⟩⟩

/-- A call whose second argument is a pointer. -/
theorem all_pointerCall {Value : Type} {caller : Caller} {next : BitVec 32 → Linear → Traced Linear Value}
    {Rest : Prop}
    (rest : ¬caller.firstSlot < caller.stackLinLimit → UserRange caller.firstSlot (4 * 2) →
      UserByte (caller.slot 1) → ((next (caller.slot 0) (caller.slot 1)).All UserByte ↔ Rest)) :
    (argint caller 0 >>= fun id => argptr caller 1 >>= next id).All UserByte ↔
      caller.firstSlot < caller.stackLinLimit ∨
        UserRange caller.firstSlot 8 ∧ ((caller.slot 1).toNat ≥ kernelLinBase ∨ Rest) := by
  by_cases below : caller.firstSlot < caller.stackLinLimit
  · rw [argint_fails below]
    exact ⟨fun _ => .inl below, fun _ => Traced.all_fail_bind _ _⟩
  · rw [all_argint below (.inl rfl), or_iff_right below]
    have grows : UserRange caller.firstSlot 8 → UserRange caller.firstSlot (4 * (0 + 1)) := by
      unfold UserRange
      omega
    have inner (two : UserRange caller.firstSlot 8) :
        ((caller.slot 1).toNat ≥ kernelLinBase ∨ (next (caller.slot 0) (caller.slot 1)).All UserByte) ↔
          ((caller.slot 1).toNat ≥ kernelLinBase ∨ Rest) := by
      by_cases kernel : (caller.slot 1).toNat ≥ kernelLinBase
      · exact ⟨fun _ => .inl kernel, fun _ => .inl kernel⟩
      · exact or_congr_right (rest below two (Nat.lt_of_not_ge kernel))
    constructor
    · rintro ⟨one, pointer⟩
      obtain ⟨two, user⟩ := (all_argptr below one (next (caller.slot 0))).mp pointer
      exact ⟨two, (inner two).mp user⟩
    · rintro ⟨two, user⟩
      exact ⟨grows two, (all_argptr below (grows two) (next (caller.slot 0))).mpr ⟨two, (inner two).mpr user⟩⟩

/-- The second word of a structure that starts below the kernel. -/
theorem userRange_second {ptr : Linear} (user : UserByte ptr) : UserRange (ptr + 4) 4 ↔ UserRange ptr 8 := by
  have four : (4 : BitVec 32).toNat = 4 := rfl
  unfold UserByte kernelLinBase at user
  unfold UserRange kernelLinBase
  rw [BitVec.toNat_add, four]
  omega

/-! ## Copies -/

theorem MsgData.messageSize_eq_min (data : MsgData) (size : Nat) : data.messageSize size = min size data.size := by
  unfold messageSize
  split <;> omega

theorem BoxData.messageSize_eq_min (data : BoxData) (size : Nat) : data.messageSize size = min size data.size := by
  unfold messageSize
  split <;> omega

theorem MsgState.pushCopies_range (state : MsgState) (msqid : Int) (size : Nat) (buffer : Linear) :
    UserRange buffer (state.pushCopies msqid size) ↔
      (state.IdleNode msqid → UserRange buffer (min size msgmax)) := by
  apply userRange_copies
  · rintro ⟨opened, mqp, node, opens, queue, idle⟩
    simp only [pushCopies, opens, queue, idle, popNode, SList.popFront, Option.map_some]
  · intro missing
    unfold pushCopies
    cases opens : state.openQueue msqid with
    | none => rfl
    | some opened =>
        cases queue : opened.queues msqid.toNat with
        | none => simp only [queue]
        | some mqp =>
            cases idle : mqp.idle with
            | none => simp only [queue, idle, popNode, SList.popFront, Option.map_none]
            | some node => exact absurd ⟨opened, mqp, node, opens, queue, idle⟩ missing

theorem MsgState.popCopies_range (state : MsgState) (msqid : Int) (size : Nat) (type : Int)
    (buffer : Linear) : UserRange buffer (state.popCopies msqid size type) ↔
      ∀ data, state.FirstMessage msqid type data → UserRange buffer (min size data.size) := by
  constructor
  · rintro range data ⟨opened, mqp, ptr, use, opens, queue, popped, rfl⟩
    simpa only [popCopies, opens, queue, popped, MsgData.messageSize_eq_min] using range
  · intro ranges
    unfold popCopies
    cases opens : state.openQueue msqid with
    | none => exact .inl rfl
    | some opened =>
        cases queue : opened.queues msqid.toNat with
        | none =>
            simp only [queue]
            exact .inl rfl
        | some mqp =>
            simp only [queue]
            split
            · next ptr use popped =>
              rw [MsgData.messageSize_eq_min]
              exact ranges _ ⟨opened, mqp, ptr, use, opens, queue, popped, rfl⟩
            · exact .inl rfl

theorem BoxState.pushCopies_range (infos : Infos) (state : BoxState) (pid : Int) (size : Nat)
    (buffer : Linear) : UserRange buffer (state.pushCopies infos pid size) ↔
      (state.IdleNode infos pid → UserRange buffer (min size boxmax)) := by
  apply userRange_copies
  · rintro ⟨inRange, bp, node, box, idle⟩
    simp only [pushCopies, if_neg inRange, box, idle, Box.popNode, SList.popFront, Option.map_some]
  · intro missing
    unfold pushCopies
    split
    · rfl
    · next inRange =>
      cases box : state.boxes (infos.mailbox pid.toNat) with
      | none => rfl
      | some bp =>
          cases idle : bp.idle with
          | none => simp only [idle, Box.popNode, SList.popFront, Option.map_none]
          | some node => exact absurd ⟨inRange, bp, node, box, idle⟩ missing

theorem BoxState.popCopies_range (infos : Infos) (state : BoxState) (proc : Nat) (pid : Int) (size : Nat)
    (buffer : Linear) : UserRange buffer (state.popCopies infos proc pid size) ↔
      ∀ data, state.FirstLetter infos proc pid data → UserRange buffer (min size data.size) := by
  constructor
  · rintro range data ⟨inRange, bp, ptr, use, box, popped, rfl⟩
    simpa only [popCopies, if_neg inRange, box, popped, BoxData.messageSize_eq_min] using range
  · intro ranges
    unfold popCopies
    split
    · exact .inl rfl
    · next inRange =>
      cases box : state.boxes (infos.mailbox proc) with
      | none => exact .inl rfl
      | some bp =>
          simp only []
          split
          · next ptr use popped =>
            rw [BoxData.messageSize_eq_min]
            exact ranges _ ⟨inRange, bp, ptr, use, box, popped, rfl⟩
          · exact .inl rfl

/-! The counts are those of the sections: a push reads no other bytes of its buffer,
and a pop delivers so many. -/

theorem copied_congr {size most : Nat} {buffer other : Nat → UInt8}
    (same : ∀ i < min size most, buffer i = other i) (old : Nat → UInt8) (i : Nat) :
    (if i < size ∧ i < most then buffer i else old i) = if i < size ∧ i < most then other i else old i := by
  split
  next read => exact same i (Nat.lt_min.mpr read)
  next => rfl

theorem fillNode_congr {size : Nat} {buffer other : Nat → UInt8}
    (same : ∀ i < min size msgmax, buffer i = other i) (heap : SHeap MsgData) (node : Nat) (type : Int) :
    fillNode heap node size type buffer = fillNode heap node size type other := by
  simp only [fillNode, copied_congr same]

theorem MsgState.runSection_push_congr (state : MsgState) (pid : Nat) (msqid : Int) (size : Nat)
    (type flag : Int) {buffer other : Nat → UInt8}
    (same : ∀ i < state.pushCopies msqid size, buffer i = other i) :
    state.runSection pid buffer (.push msqid size type flag) =
      state.runSection pid other (.push msqid size type flag) := by
  cases opens : state.openQueue msqid with
  | none => simp only [runSection, opens]
  | some opened =>
      cases queue : opened.queues msqid.toNat with
      | none => simp only [runSection, opens, pushOpen, queue, Option.bind_eq_bind, Option.bind_none]
      | some mqp =>
          cases popped : popNode ⟨opened.nodes, mqp.idle⟩ with
          | none =>
              simp only [runSection, opens, pushOpen, queue, popped, Option.bind_eq_bind, Option.bind_some]
          | some front =>
              simp only [pushCopies, opens, queue, popped] at same
              simp only [runSection, opens, pushOpen, queue, fillNode_congr same]

theorem MsgState.runSection_pop_bytes {state next : MsgState} {pid : Nat} {msqid : Int} {size : Nat}
    {type flag value : Int} {buffer : Nat → UInt8} {bytes : List UInt8}
    (popped : state.runSection pid buffer (.pop msqid size type flag) = some (next, .returned value bytes)) :
    bytes.length = state.popCopies msqid size type := by
  cases opens : state.openQueue msqid with
  | none =>
      simp only [runSection, opens, fault, Option.some.injEq, Prod.mk.injEq, Outcome.returned.injEq] at popped
      simp only [popCopies, opens, ← popped.2.2, List.length_nil]
  | some opened =>
      simp only [runSection, opens, popOpen, Option.bind_eq_bind] at popped
      obtain ⟨mqp, queue, found⟩ := Option.bind_eq_some_iff.mp popped
      obtain ⟨front, taken, delivered⟩ := Option.bind_eq_some_iff.mp found
      simp only [popCopies, opens, queue, taken]
      cases front with
      | none =>
          by_cases nowait : flag = ipcNowait
          · rw [if_pos nowait] at delivered
            cases delivered
            rfl
          · rw [if_neg nowait] at delivered
            cases delivered
      | some front =>
          cases delivered
          simp only [MsgData.deliver, List.length_map, List.length_range]

theorem Box.fillNode_congr {size : Nat} {buffer other : Nat → UInt8}
    (same : ∀ i < min size boxmax, buffer i = other i) (heap : SHeap BoxData) (node : Nat) (pid : Int) :
    Box.fillNode heap node size pid buffer = Box.fillNode heap node size pid other := by
  simp only [Box.fillNode, copied_congr same]

theorem BoxState.boxPushNode_congr (infos : Infos) (state : BoxState) (proc : Nat) (pid : Int) (size : Nat)
    (flag : Int) {buffer other : Nat → UInt8}
    (same : ∀ i < state.pushCopies infos pid size, buffer i = other i) :
    state.boxPushNode infos proc pid size flag buffer = state.boxPushNode infos proc pid size flag other := by
  unfold boxPushNode
  by_cases outside : OutOfRange pid
  · simp only [if_pos outside]
  · simp only [if_neg outside]
    cases box : state.boxes (infos.mailbox pid.toNat) with
    | none => rfl
    | some bp =>
        cases popped : Box.popNode ⟨state.nodes, bp.idle⟩ with
        | none => simp only [popped]
        | some front =>
            simp only [pushCopies, if_neg outside, box, popped] at same
            simp only [Box.fillNode_congr same]

theorem BoxState.boxPopNode_bytes {infos : Infos} {state next : BoxState} {proc : Nat} {pid : Int} {size : Nat}
    {flag value : Int} {bytes : List UInt8}
    (popped : state.boxPopNode infos proc pid size flag = some (next, .returned value bytes)) :
    bytes.length = state.popCopies infos proc pid size := by
  unfold boxPopNode at popped
  by_cases outside : OutOfRange pid
  · rw [if_pos outside] at popped
    cases popped
    exact (if_pos outside).symm
  · rw [if_neg outside] at popped
    simp only [popCopies, if_neg outside]
    cases box : state.boxes (infos.mailbox proc) with
    | none =>
        simp only [box] at popped
        cases popped
        rfl
    | some bp =>
        simp only [box] at popped
        obtain ⟨front, taken, delivered⟩ := Option.bind_eq_some_iff.mp popped
        simp only [taken]
        cases front with
        | none =>
            by_cases nowait : flag = ipcNowait
            · rw [if_pos nowait] at delivered
              cases delivered
              rfl
            · rw [if_neg nowait] at delivered
              cases delivered
        | some front =>
            cases delivered
            simp only [BoxData.deliver, List.length_map, List.length_range]

/-- The copies of one section for each entry of a list. -/
theorem all_copies {Section : Type} (entries : List Section) (buffer : Linear) (copies : Section → Nat) :
    (Traced.emit (entries.flatMap fun entry => addressRun buffer (copies entry)) ()).All UserByte ↔
      ∀ entry ∈ entries, UserRange buffer (copies entry) := by
  rw [Traced.all_emit, List.forall_mem_flatMap]
  exact forall₂_congr fun entry _ => addressRun_user buffer (copies entry)

/-- The calls touch only user memory exactly where they stay below the kernel. -/
theorem touchesOnlyUser_iff (call : BufferCall) (caller : Caller) (visits : List Visit) :
    call.TouchesOnlyUser caller visits ↔ call.StaysBelow caller visits := by
  cases call with
  | msgsnd =>
      refine all_pointerCall fun reached two user => ?_
      have first : UserRange (caller.slot 1) 8 → UserRange (caller.slot 1) 4 := by
        unfold UserRange
        omega
      rw [all_twoArgs reached two, all_load, all_load, all_copies, userRange_second user,
        ← and_assoc (a := UserRange (caller.slot 1) 4), and_iff_right_of_imp first]
      refine and_congr_right fun _ => and_congr_right fun _ => ?_
      exact forall₂_congr fun visit _ => visit.msgs.pushCopies_range _ _ _
  | msgrcv =>
      refine all_pointerCall fun reached two user => ?_
      have grows : UserRange caller.firstSlot (4 * 5) → UserRange caller.firstSlot (4 * 4) := by
        unfold UserRange
        omega
      have copies : (∀ visit ∈ visits, UserRange caller.structBuffer (visit.msgs.popCopies
          (caller.slot 0).toInt (loopBound (caller.slot 2)) (caller.slot 3).toInt)) ↔
          BufferCall.CopiesBelow caller visits .msgrcv :=
        forall₂_congr fun visit _ => visit.msgs.popCopies_range _ _ _ _
      rw [all_twoArgs reached two]
      constructor
      · rintro ⟨four, rest⟩
        obtain ⟨five, loaded⟩ := (all_argint reached four _).mp rest
        rw [all_load, all_copies, userRange_second user] at loaded
        exact ⟨five, loaded.1, copies.mp loaded.2⟩
      · rintro ⟨five, structure', below⟩
        refine ⟨grows five, (all_argint reached (grows five) _).mpr ⟨five, ?_⟩⟩
        rw [all_load, all_copies, userRange_second user]
        exact ⟨structure', copies.mpr below⟩
  | boxsnd =>
      refine all_pointerCall fun reached two user => ?_
      rw [all_twoArgs reached two, all_copies]
      refine and_congr_right fun _ => (Iff.trans ?_ (and_iff_right (.inl rfl)).symm)
      exact forall₂_congr fun entry _ => entry.2.boxes.pushCopies_range entry.2.infos _ _ _
  | boxrcv =>
      refine all_pointerCall fun reached two user => ?_
      rw [all_twoArgs reached two, all_copies]
      refine and_congr_right fun _ => (Iff.trans ?_ (and_iff_right (.inl rfl)).symm)
      exact forall₂_congr fun visit _ => visit.boxes.popCopies_range visit.infos _ _ _ _

/-! A message whose structure lies on the stack and whose buffer is the first byte of
the kernel, sent to the queue that was allocated last. -/

def kernelBufferCaller : Caller where
  esp := 0xBFFFEF00
  stackLinLimit := 0xBFFFAFFC
  memory := fun a =>
    ([(0xBFFFEF04, 9), (0xBFFFEF08, 0x20), (0xBFFFEF09, 0xEF), (0xBFFFEF0A, 0xFF), (0xBFFFEF0B, 0xBF),
      (0xBFFFEF0C, 1), (0xBFFFEF20, 1), (0xBFFFEF27, 0xC0)].lookup a).getD 0
  proc := 5

def firstQueueVisit : Visit where
  msgs := (MsgState.allocMsgQueue
    ⟨fun _ => ⟨⟨0, 0, fun _ => 0⟩, none⟩, 0, fun _ => -1, fun _ => 0, fun _ => none,
      fun _ => ⟨.ready, 0, 0, 0⟩, fun _ => none⟩ 7).1
  boxes := ⟨fun _ => ⟨⟨0, 0, fun _ => 0⟩, none⟩, 0, fun _ => none, fun _ => ⟨.ready, 0, 0, 0⟩, fun _ => none⟩
  infos := fun _ => ⟨.process, 0, 0, 0, fun _ => 0, 0, fun _ => 0, false, false⟩

theorem msgsnd_reads_kernel : ¬BufferCall.msgsnd.TouchesOnlyUser kernelBufferCaller [firstQueueVisit] := by
  intro user
  have kernel : (0xC0000000 : Linear) ∈ (sysMsgsnd kernelBufferCaller [firstQueueVisit]).trace := by
    decide +kernel
  exact absurd (user _ kernel) (by unfold UserByte kernelLinBase; decide)

end AempOS.Ipc
