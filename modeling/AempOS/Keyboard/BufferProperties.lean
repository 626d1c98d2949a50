import AempOS.Keyboard.Buffer

/-! The buffer is a bounded queue: what was accepted and not returned yet stands in it
in order. -/

set_option autoImplicit false

namespace AempOS.Keyboard

open Lib

/-- The buffer holds what was accepted behind what was returned. -/
structure Holds (state : BufferState) : Prop where
  tailInside : state.kbIn.pTail < kbInBytes
  bounded : ∃ count ≤ kbInBytes, state.kbIn.count = (count : Int) ∧
    state.kbIn.pHead = (state.kbIn.pTail + count) % kbInBytes ∧
    state.accepted = state.returned ++ Ring.items state.kbIn.buf kbInBytes state.kbIn.pTail count
  full : ∀ count ∈ state.dropped, count = (kbInBytes : Int)

theorem startBuffer_holds (buf : Nat → Byte) : Holds (startBuffer buf) where
  tailInside := show 0 < kbInBytes by decide
  bounded := ⟨0, Nat.zero_le _, rfl, rfl, rfl⟩
  full := by simp [startBuffer]

theorem handler_cases {kbIn : KbInput} {count : Nat} (isCount : kbIn.count = (count : Int)) (bounded : count ≤ kbInBytes)
    (scanCode : Byte) :
    count = kbInBytes ∧ keyboardHandler kbIn scanCode = kbIn ∨
      count < kbInBytes ∧ keyboardHandler kbIn scanCode = { kbIn with
        buf := Function.update kbIn.buf kbIn.pHead scanCode
        pHead := Ring.advance kbInBytes kbIn.pHead
        count := (count + 1 : Nat) } := by
  unfold keyboardHandler
  by_cases room : kbIn.count < kbInBytes
  · rw [if_pos room]
    refine .inr ⟨by omega, ?_⟩
    rw [isCount]
    rfl
  · rw [if_neg room]
    exact .inl ⟨by omega, rfl⟩

theorem Holds.handler {state : BufferState} (held : Holds state) (scanCode : Byte) : Holds (state.handler scanCode) := by
  obtain ⟨tailInside, ⟨count, bounded, isCount, isHead, queue⟩, full⟩ := held
  unfold BufferState.handler
  rcases handler_cases isCount bounded scanCode with ⟨isFull, same⟩ | ⟨room, stored⟩
  · simp only [same, if_true]
    refine ⟨tailInside, ⟨count, bounded, isCount, isHead, queue⟩, fun other member => ?_⟩
    rcases List.mem_cons.mp member with rfl | before
    · rw [isCount, isFull]
    · exact full other before
  · have grown : ((count + 1 : Nat) : Int) ≠ state.kbIn.count := by omega
    simp only [stored, grown, if_false]
    refine ⟨tailInside, ⟨count + 1, room, rfl, ?_, ?_⟩, full⟩
    · rw [isHead]
      exact Ring.advance_end (by decide)
    · rw [isHead, Ring.items_push _ _ room, queue, List.append_assoc]

theorem handler_ends (state : BufferState) (scanCode : Byte) :
    (state.handler scanCode).returned = state.returned ∧
      ((state.handler scanCode).accepted = state.accepted ∨
        (state.handler scanCode).accepted = state.accepted ++ [scanCode]) := by
  simp only [BufferState.handler]
  split
  · exact ⟨rfl, .inl rfl⟩
  · exact ⟨rfl, .inr rfl⟩

/-- What was accepted and not returned yet. -/
def BufferState.unread (state : BufferState) : List Byte := state.accepted.drop state.returned.length

theorem Holds.unread {state : BufferState} (held : Holds state) :
    state.accepted = state.returned ++ state.unread ∧ state.kbIn.count = state.unread.length := by
  obtain ⟨_, ⟨count, _, isCount, _, queue⟩, _⟩ := held
  have isUnread : state.unread = Ring.items state.kbIn.buf kbInBytes state.kbIn.pTail count := by
    rw [BufferState.unread, queue, List.drop_left]
  rw [isUnread, Ring.length_items]
  exact ⟨queue, isCount⟩

theorem Holds.getByte {state next : BufferState} {scanCode : Byte} (held : Holds state)
    (moved : state.getByte = some (next, scanCode)) :
    Holds next ∧ next.accepted = state.accepted ∧ state.unread = scanCode :: next.unread := by
  obtain ⟨tailInside, ⟨count, bounded, isCount, isHead, queue⟩, full⟩ := held
  unfold BufferState.getByte getByteFromKbuf at moved
  split at moved
  next => cases moved
  next some =>
      cases moved
      obtain ⟨rest, rfl⟩ : ∃ rest, count = rest + 1 := ⟨count - 1, by omega⟩
      rw [Ring.items_pop _ tailInside] at queue
      refine ⟨⟨Ring.advance_lt tailInside, ⟨rest, by omega, ?_, ?_, ?_⟩, full⟩, rfl, ?_⟩
      · simp only [isCount]
        omega
      · exact isHead.trans (Ring.end_advance tailInside)
      · rw [queue, List.append_assoc]
        rfl
      · simp [BufferState.unread, queue, List.drop_append]

/-- The next byte that is there is taken. -/
theorem Holds.take {state : BufferState} {scanCode : Byte} {bytes : List Byte} (held : Holds state)
    (isUnread : state.unread = scanCode :: bytes) :
    ∃ next, state.getByte = some (next, scanCode) ∧ next.unread = bytes := by
  have isCount := held.unread.2
  rw [isUnread, List.length_cons] at isCount
  obtain ⟨⟨next, other⟩, taken⟩ : ∃ result, state.getByte = some result := by
    simp [BufferState.getByte, getByteFromKbuf, show ¬state.kbIn.count ≤ 0 by omega]
  obtain ⟨_, _, unread⟩ := held.getByte taken
  obtain ⟨rfl, rfl⟩ := List.cons.inj (isUnread.symm.trans unread)
  exact ⟨next, taken, rfl⟩

theorem step_holds {state next : BufferState} {action : BufferAction} (held : Holds state)
    (moved : state.step action = some next) : Holds next := by
  cases action with
  | handler scanCode =>
      cases moved
      exact held.handler scanCode
  | getByte =>
      obtain ⟨⟨after, scanCode⟩, taken, rfl⟩ := Option.map_eq_some_iff.mp moved
      exact (held.getByte taken).1

theorem reachable_holds {state : BufferState} (reached : bufferSystem.Reachable state) : Holds state := by
  have start : ∀ state, bufferSystem.initial state → Holds state := by
    rintro state ⟨buf, rfl⟩
    exact startBuffer_holds buf
  exact reached.invariant start fun state action next held moved => step_holds held moved

/-- For any interleaving of interrupts and reads the buffer is a queue of at most
`KB_IN_BYTES` bytes that drops a byte only when it is full. -/
theorem buffer_is_queue {state : BufferState} (reached : bufferSystem.Reachable state) :
    state.returned <+: state.accepted ∧
      (∀ count ∈ state.dropped, count = (kbInBytes : Int)) ∧
      state.kbIn.count = state.accepted.length - state.returned.length ∧
      0 ≤ state.kbIn.count ∧ state.kbIn.count ≤ kbInBytes ∧
      state.kbIn.pTail < kbInBytes ∧ state.kbIn.pHead < kbInBytes ∧
      (state.kbIn.pHead : Int) = (state.kbIn.pTail + state.kbIn.count) % kbInBytes := by
  obtain ⟨tailInside, ⟨count, bounded, isCount, isHead, queue⟩, full⟩ := reachable_holds reached
  refine ⟨⟨_, queue.symm⟩, full, ?_, by omega, by omega, tailInside, ?_, ?_⟩
  · rw [queue, List.length_append, Ring.length_items, isCount]
    omega
  · rw [isHead]
    exact Nat.mod_lt _ (by decide)
  · rw [isCount, isHead]
    norm_cast

/-- Two bytes come in and one goes out. -/
theorem buffer_is_queue_two :
    ∃ state, bufferSystem.run (startBuffer fun _ => 0) [.handler 0x1E, .handler 0x9E, .getByte] = some state ∧
      state.accepted = [0x1E, 0x9E] ∧ state.returned = [0x1E] ∧ state.returned <+: state.accepted := by
  have start : bufferSystem.Reachable (startBuffer fun _ => 0) := .initial ⟨_, rfl⟩
  obtain ⟨state, ran⟩ : ∃ state,
      bufferSystem.run (startBuffer fun _ => 0) [.handler 0x1E, .handler 0x9E, .getByte] = some state := ⟨_, rfl⟩
  have queue := buffer_is_queue (start.of_run ran)
  cases ran
  exact ⟨_, rfl, rfl, rfl, queue.1⟩

end AempOS.Keyboard
