import AempOS.Hd.Interrupt

/-! Each wait uses up one interrupt, so the driver never reads a sector before its
interrupt, once it is in step. The flag is clear at kernel start, so the first wait
of all does not wait; whether the driver starts in step depends on that one. -/

set_option autoImplicit false

namespace AempOS.Hd

open Lib

/-- The first `interrupt_wait` since kernel start is not passed before an interrupt
has come, and no request is of 0 bytes (the drive takes that for 256 sectors). -/
def StartsInStep (state : DriverState) : DriverAction → Prop
  | .start call => call.transfer.bytes ≠ 0
  | .pass => state.passes = 0 → state.handled ≠ []
  | .move => True
  | .interrupt => True

/-- After `rounds` rounds of the loop. -/
def Transfer.left (transfer : Transfer) (rounds : Nat) : BitVec 32 :=
  transfer.bytes - BitVec.ofNat 32 (512 * rounds)

/-- The sectors of the command are those of the loop. -/
structure Matching (transfer : Transfer) : Prop where
  some : 0 < transfer.sectors
  rounds : ∀ rounds, transfer.left rounds = 0 → transfer.sectors ≤ rounds

private theorem cmdCount_rounds : ∀ rounds : Fin 256, rounds.val ≠ 0 →
    sectorsOf (cmdCount (BitVec.ofNat 32 (512 * rounds.val))) = rounds.val := by
  decide +kernel

private theorem sectorsOf_bounds (count : BitVec 8) : 0 < sectorsOf count ∧ sectorsOf count ≤ 256 := by
  unfold sectorsOf
  split
  next => omega
  next nonzero =>
    have small := count.isLt
    have positive : count.toNat ≠ 0 := fun zero => nonzero (BitVec.eq_of_toNat_eq zero)
    omega

theorem hdRdwt_matching {write : Bool} {cnt : BitVec 32} (nonzero : cnt ≠ 0) :
    Matching (hdRdwt write cnt) := by
  obtain ⟨positive, small⟩ := sectorsOf_bounds (cmdCount cnt)
  refine ⟨positive, fun rounds done => ?_⟩
  show sectorsOf (cmdCount cnt) ≤ rounds
  by_contra early
  have same : cnt = BitVec.ofNat 32 (512 * rounds) := by
    have zero : cnt - BitVec.ofNat 32 (512 * rounds) = 0 := done
    generalize BitVec.ofNat 32 (512 * rounds) = moved at zero ⊢
    bv_omega
  have some : rounds ≠ 0 := by
    rintro rfl
    exact nonzero same
  have exact' := cmdCount_rounds ⟨rounds, by omega⟩ some
  rw [← same] at exact'
  exact early (Nat.le_of_eq exact')

theorem single_matching : Matching ⟨false, 1, 512⟩ := by
  refine ⟨Nat.one_pos, fun rounds done => ?_⟩
  cases rounds with
  | zero => exact absurd done (by decide)
  | succ rounds => exact Nat.le_add_left 1 rounds

theorem Call.matching (call : Call) (nonzero : call.transfer.bytes ≠ 0) : Matching call.transfer := by
  cases call with
  | hdIdentify => exact single_matching
  | getPartTable => exact single_matching
  | hdRdwt write cnt => exact hdRdwt_matching nonzero
  | hdRdwtReal write cnt => exact hdRdwt_matching nonzero

/-- Inside a call: `passed` waits and `raised` interrupts since its command. Reads
wait before they move a sector, writes after it. -/
structure Busy (state : DriverState) (transfer : Transfer) (passed raised : Nat) : Prop where
  matching : Matching transfer
  reads : transfer.write = false →
    state.stage = .waiting false (transfer.left passed) ∧ state.moved = passed ∨
      state.stage = .moving false (transfer.left state.moved) ∧ state.moved + 1 = passed
  writes : transfer.write = true →
    state.stage = .moving true (transfer.left passed) ∧ state.moved = passed ∨
      state.stage = .waiting true (transfer.left passed) ∧ state.moved = passed + 1
  bound : raised ≤ transfer.sectors
  owed : state.owed = ((List.range transfer.sectors).drop raised).map (state.call, ·)
  handled : ∀ i < raised, (state.call, i) ∈ state.handled
  behind : state.passes ≠ 0 → passed ≤ raised ∧ (state.flag = false → passed < raised)
  first : state.passes = 0 → state.flag = false ∧ passed = 0 ∧ (state.handled ≠ [] → 0 < raised)

/-- Between two calls. -/
structure Rest (state : DriverState) : Prop where
  free : state.stage = .free
  owed : state.owed = []
  behind : state.passes ≠ 0 → state.flag = true
  first : state.passes = 0 → state.flag = false ∧ state.handled = []

/-- The driver is in step with the drive. -/
def InStep (state : DriverState) : Prop :=
  Rest state ∨ ∃ transfer passed raised, Busy state transfer passed raised

section Steps

variable {state : DriverState} {transfer : Transfer} {passed raised : Nat}

theorem Transfer.left_succ (transfer : Transfer) (rounds : Nat) :
    transfer.left rounds - 512 = transfer.left (rounds + 1) := by
  unfold Transfer.left
  rw [Nat.mul_succ, BitVec.ofNat_add]
  generalize BitVec.ofNat 32 (512 * rounds) = moved
  bv_omega

theorem Transfer.left_zero (transfer : Transfer) : transfer.left 0 = transfer.bytes := by
  unfold Transfer.left
  simp

theorem Rest.start (rest : Rest state) {call : Call} (nonzero : call.transfer.bytes ≠ 0) :
    Busy (state.start call.transfer) call.transfer 0 0 := by
  have stage : (state.start call.transfer).stage =
      if call.transfer.write then .moving call.transfer.write (call.transfer.left 0)
      else .waiting call.transfer.write (call.transfer.left 0) := by
    simp only [DriverState.start, Stage.head, if_neg nonzero, Transfer.left_zero]
  refine ⟨call.matching nonzero, fun reads => .inl ⟨?_, rfl⟩, fun writes => .inl ⟨?_, rfl⟩,
    Nat.zero_le _, ?_, fun i wrong => absurd wrong (Nat.not_lt_zero i), fun later => ?_, fun none => ?_⟩
  · rw [stage, reads]
    rfl
  · rw [stage, writes]
    rfl
  · simp only [DriverState.start, rest.owed, List.nil_append, List.drop_zero]
  · refine ⟨Nat.le_refl 0, fun clear => ?_⟩
    rw [DriverState.start] at clear
    simp only [rest.behind later] at clear
    cases clear
  · obtain ⟨clear, nothing⟩ := rest.first none
    exact ⟨clear, rfl, fun something => absurd nothing something⟩

/-- All waits of a call have passed: then all its interrupts have come. -/
theorem Busy.over (busy : Busy state transfer passed raised) (later : state.passes ≠ 0)
    (done : transfer.left passed = 0) : raised = transfer.sectors ∧ state.flag = true := by
  obtain ⟨most, used⟩ := busy.behind later
  have rounds := busy.matching.rounds passed done
  have bound := busy.bound
  refine ⟨by omega, ?_⟩
  cases clear : state.flag with
  | true => rfl
  | false =>
      have fewer := used clear
      omega

/-- A wait is passed after an interrupt that no wait has used yet. -/
theorem Busy.unused (busy : Busy state transfer passed raised) (allowed : StartsInStep state .pass)
    (clear : state.flag = false) : passed < raised := by
  by_cases none : state.passes = 0
  · obtain ⟨_, zero, some⟩ := busy.first none
    have one := some (allowed none)
    omega
  · exact (busy.behind none).2 clear

theorem owed_over (call sectors : Nat) {raised : Nat} (all : sectors ≤ raised) :
    ((List.range sectors).drop raised).map (call, ·) = [] := by
  rw [List.drop_eq_nil_of_le (by rw [List.length_range]; exact all), List.map_nil]

theorem Busy.pass (busy : Busy state transfer passed raised) (allowed : StartsInStep state .pass)
    {next : DriverState} (moved : driverStep state .pass = some next) : InStep next := by
  simp only [driverStep] at moved
  split at moved
  next write left stage clear =>
    have unused := busy.unused allowed clear
    cases moved
    have owed := busy.owed
    cases writes : transfer.write with
    | false =>
        rcases busy.reads writes with ⟨here, count⟩ | ⟨wrong, _⟩
        · rw [stage] at here
          cases here
          refine .inr ⟨transfer, passed + 1, raised, busy.matching, fun _ => .inr ⟨?_, ?_⟩,
            fun wrong => ?_, busy.bound, owed, busy.handled, fun _ => ⟨unused, fun wrong => ?_⟩,
            fun wrong => ?_⟩
          · simp only [Bool.false_eq_true, if_false, count]
          · simp only [count]
          · rw [writes] at wrong
            cases wrong
          · cases wrong
          · cases wrong
        · rw [stage] at wrong
          cases wrong
    | true =>
        rcases busy.writes writes with ⟨wrong, _⟩ | ⟨here, count⟩
        · rw [stage] at wrong
          cases wrong
        · rw [stage] at here
          cases here
          simp only [if_true, Transfer.left_succ]
          by_cases done : transfer.left (passed + 1) = 0
          · have rounds := busy.matching.rounds (passed + 1) done
            refine .inl ⟨?_, ?_, fun _ => rfl, fun wrong => ?_⟩
            · simp only [Stage.head, if_pos done]
            · rw [owed]
              exact owed_over _ _ (by omega)
            · cases wrong
          · refine .inr ⟨transfer, passed + 1, raised, busy.matching, fun wrong => ?_,
              fun _ => .inl ⟨?_, count⟩, busy.bound, owed, busy.handled,
              fun _ => ⟨unused, fun wrong => ?_⟩, fun wrong => ?_⟩
            · rw [writes] at wrong
              cases wrong
            · simp only [Stage.head, if_neg done, if_true]
            · cases wrong
            · cases wrong
  next => cases moved

theorem Busy.move (busy : Busy state transfer passed raised) {next : DriverState}
    (moved : driverStep state .move = some next) : InStep next := by
  simp only [driverStep] at moved
  split at moved
  next write left stage =>
    cases moved
    cases writes : transfer.write with
    | false =>
        rcases busy.reads writes with ⟨wrong, _⟩ | ⟨here, count⟩
        · rw [stage] at wrong
          cases wrong
        · rw [stage] at here
          cases here
          have later : state.passes ≠ 0 := by
            intro none
            have zero := (busy.first none).2.1
            omega
          simp only [Bool.false_eq_true, if_false, Transfer.left_succ, count]
          by_cases done : transfer.left passed = 0
          · obtain ⟨all, set⟩ := busy.over later done
            refine .inl ⟨?_, ?_, fun _ => set, fun none => absurd none later⟩
            · simp only [Stage.head, if_pos done]
            · rw [busy.owed]
              exact owed_over _ _ (Nat.le_of_eq all.symm)
          · refine .inr ⟨transfer, passed, raised, busy.matching, fun _ => .inl ⟨?_, rfl⟩,
              fun wrong => ?_, busy.bound, busy.owed, busy.handled, busy.behind, busy.first⟩
            · simp only [Stage.head, if_neg done, Bool.false_eq_true, if_false]
            · rw [writes] at wrong
              cases wrong
    | true =>
        rcases busy.writes writes with ⟨here, count⟩ | ⟨wrong, _⟩
        · rw [stage] at here
          cases here
          refine .inr ⟨transfer, passed, raised, busy.matching, fun wrong => ?_,
            fun _ => .inr ⟨rfl, by simp only [count]⟩, busy.bound, busy.owed, busy.handled, busy.behind,
            busy.first⟩
          rw [writes] at wrong
          cases wrong
        · rw [stage] at wrong
          cases wrong
  next => cases moved

/-- The next interrupt of a call is that of the next sector. -/
theorem Busy.interrupt (busy : Busy state transfer passed raised) {next : DriverState}
    (moved : driverStep state .interrupt = some next) : InStep next := by
  have owed := busy.owed
  simp only [driverStep] at moved
  split at moved
  next irq rest waiting =>
    split at moved
    next =>
      cases moved
      have more : raised < transfer.sectors := by
        by_contra all
        rw [owed_over state.call _ (by omega), waiting] at owed
        cases owed
      rw [waiting, List.drop_eq_getElem_cons (by rw [List.length_range]; exact more), List.map_cons,
        List.getElem_range] at owed
      obtain ⟨rfl, tail⟩ := List.cons.inj owed
      refine .inr ⟨transfer, passed, raised + 1, busy.matching, busy.reads, busy.writes, more, tail,
        fun i below => ?_, fun later => ⟨?_, fun _ => ?_⟩, fun none => ⟨rfl, (busy.first none).2.1, fun _ => ?_⟩⟩
      · by_cases last : i = raised
        · rw [last]
          exact List.mem_cons_self
        · exact List.mem_cons_of_mem _ (busy.handled i (by omega))
      · have most := (busy.behind later).1
        omega
      · have most := (busy.behind later).1
        omega
      · exact Nat.succ_pos raised
    next => cases moved
  next => cases moved

theorem InStep.step (held : InStep state) {action : DriverAction} {next : DriverState}
    (allowed : StartsInStep state action) (moved : driverStep state action = some next) : InStep next := by
  cases action with
  | start call =>
      simp only [driverStep] at moved
      split at moved
      next free =>
        cases moved
        rcases held with rest | ⟨transfer, passed, raised, busy⟩
        · exact .inr ⟨_, 0, 0, rest.start allowed⟩
        · cases writes : transfer.write with
          | false =>
              rcases busy.reads writes with ⟨wrong, _⟩ | ⟨wrong, _⟩
              · rw [free] at wrong
                cases wrong
              · rw [free] at wrong
                cases wrong
          | true =>
              rcases busy.writes writes with ⟨wrong, _⟩ | ⟨wrong, _⟩
              · rw [free] at wrong
                cases wrong
              · rw [free] at wrong
                cases wrong
      next => cases moved
  | pass =>
      rcases held with rest | ⟨transfer, passed, raised, busy⟩
      · simp only [driverStep, rest.free] at moved
        cases moved
      · exact busy.pass allowed moved
  | move =>
      rcases held with rest | ⟨transfer, passed, raised, busy⟩
      · simp only [driverStep, rest.free] at moved
        cases moved
      · exact busy.move moved
  | interrupt =>
      rcases held with rest | ⟨transfer, passed, raised, busy⟩
      · simp only [driverStep, rest.owed] at moved
        cases moved
      · exact busy.interrupt moved

end Steps

/-- `port_read` takes a sector after the interrupt for it was handled. -/
theorem reads_after_interrupt {state : DriverState}
    (reached : driverSystem.ReachableWhen StartsInStep state) {left : BitVec 32}
    (reading : state.stage = .moving false left) : (state.call, state.moved) ∈ state.handled := by
  have held : InStep state := by
    refine reached.invariant (fun state start => ?_) fun state action next held allowed moved =>
      held.step allowed moved
    cases start
    exact .inl ⟨rfl, rfl, fun later => absurd rfl later, fun _ => ⟨rfl, rfl⟩⟩
  rcases held with rest | ⟨transfer, passed, raised, busy⟩
  · rw [rest.free] at reading
    cases reading
  · cases writes : transfer.write with
    | false =>
        rcases busy.reads writes with ⟨wrong, _⟩ | ⟨_, count⟩
        · rw [reading] at wrong
          cases wrong
        · refine busy.handled state.moved ?_
          have later : state.passes ≠ 0 := by
            intro none
            have zero := (busy.first none).2.1
            omega
          have most := (busy.behind later).1
          omega
    | true =>
        rcases busy.writes writes with ⟨wrong, _⟩ | ⟨wrong, _⟩
        · rw [reading] at wrong
          cases wrong
        · rw [reading] at wrong
          cases wrong

theorem reads_after_interrupt_identify : ∃ state left,
    driverSystem.ReachableWhen StartsInStep state ∧ state.stage = .moving false left ∧
      (state.call, state.moved) ∈ state.handled := by
  have start : driverSystem.ReachableWhen StartsInStep driverStart := .initial rfl
  have meets : driverSystem.Meets StartsInStep driverStart [.start .hdIdentify, .interrupt, .pass] :=
    ⟨show (512 : BitVec 32) ≠ 0 by decide, trivial, fun _ => List.cons_ne_nil _ _, trivial⟩
  obtain ⟨state, left, ran, reading⟩ : ∃ state left,
      driverSystem.run driverStart [.start .hdIdentify, .interrupt, .pass] = some state ∧
        state.stage = .moving false left := ⟨_, _, rfl, rfl⟩
  have reached := start.of_run ran meets
  exact ⟨state, left, reached, reading, reads_after_interrupt reached reading⟩

/-- The first `interrupt_wait` of `hd_identify` returns at once, and `port_read`
reads before any interrupt. -/
theorem reads_before_interrupt : ∃ state left, driverSystem.Reachable state ∧
    state.stage = .moving false left ∧ (state.call, state.moved) ∉ state.handled := by
  have start : driverSystem.Reachable driverStart := .initial rfl
  obtain ⟨state, left, ran, reading, nothing⟩ : ∃ state left,
      driverSystem.run driverStart [.start .hdIdentify, .pass] = some state ∧
        state.stage = .moving false left ∧ state.handled = [] := ⟨_, _, rfl, rfl, rfl⟩
  refine ⟨state, left, start.of_run ran, reading, ?_⟩
  rw [nothing]
  exact List.not_mem_nil

end AempOS.Hd
