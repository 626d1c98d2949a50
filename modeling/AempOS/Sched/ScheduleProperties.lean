import AempOS.Sched.ReadyQueueProperties
import AempOS.Sched.Schedule

/-! Which CPU runs which process. A process that runs and is marked `READY`, as
`exec_pcb_init` leaves it, can be picked by every CPU that has its node: it is
safe only as long as the node is in the queue of the CPU that runs it. -/

set_option autoImplicit false

namespace AempOS.Sched

open Lib

/-! ## The pick of `cpu_schedule` -/

theorem scanReady_some {queue : List Pcb} {task : Tasks} {p : Pcb}
    (found : scanReady queue task = some p) : p ∈ queue ∧ (task p).stat = .ready := by
  rcases @scanGreatest_spec Pcb (fun p => decide ((task p).stat = .ready))
    (fun p => (task p).ticks) queue (0, none) with ⟨_, same⟩ | ⟨best, greatest, _, result⟩
  · rw [scanReady, same] at found
    cases found
  · rw [scanReady, result] at found
    obtain rfl : best = p := Option.some.inj found
    exact ⟨greatest.mem, by simpa using greatest.fits⟩

@[simp] theorem refill_stat (queue : List Pcb) (task : Tasks) (p : Pcb) :
    (refill queue task p).stat = (task p).stat := by
  unfold refill
  split <;> rfl

theorem refill_refill (queue : List Pcb) (task : Tasks) :
    refill queue (refill queue task) = refill queue task := by
  funext p
  unfold refill
  split <;> rfl

/-- After the second pass of the loop of `cpu_schedule` nothing changes any
more. -/
theorem scheduleLoop_stable (queue : List Pcb) (task : Tasks) (more : Nat) :
    scheduleLoop queue (2 + more) task = scheduleLoop queue 2 task := by
  have settled : ∀ passes, scanReady queue (refill queue task) = none →
      scheduleLoop queue passes (refill queue task) = none := by
    intro passes nothing
    induction passes with
    | zero => rfl
    | succ passes ih => rw [scheduleLoop, nothing, refill_refill]; exact ih
  rw [Nat.add_comm]
  cases first : scanReady queue task with
  | some p => simp only [scheduleLoop, first]
  | none =>
      cases second : scanReady queue (refill queue task) with
      | some p => simp only [scheduleLoop, first, second]
      | none => simp only [scheduleLoop, first, second, refill_refill, settled more second]

/-- `cpu_schedule` keeps the current process, or picks a `READY` one of the
queue. It changes no `stat`. -/
theorem cpuSchedule_cases {queue : List Pcb} {task next : Tasks} {proc picked : Pcb}
    (ran : cpuSchedule queue task proc = some (next, picked)) :
    (∀ p, (next p).stat = (task p).stat) ∧ (task picked).stat = .ready ∧
      (picked = proc ∨ picked ∈ queue) := by
  unfold cpuSchedule at ran
  split at ran
  next kept =>
      cases ran
      exact ⟨fun _ => rfl, kept.1, .inl rfl⟩
  next =>
      simp only [scheduleLoop] at ran
      split at ran
      next p first =>
          cases ran
          exact ⟨fun _ => rfl, (scanReady_some first).2, .inr (scanReady_some first).1⟩
      next =>
          split at ran
          next p second =>
              cases ran
              obtain ⟨member, ready⟩ := scanReady_some second
              exact ⟨refill_stat queue task, by simpa using ready, .inr member⟩
          next => cases ran

/-! ## The statuses -/

@[simp] theorem setStat_self (task : Tasks) (p : Pcb) (stat : ProcStat) :
    (task.setStat p stat p).stat = stat := by
  simp [Tasks.setStat]

theorem setStat_other (task : Tasks) {p other : Pcb} (stat : ProcStat) (apart : other ≠ p) :
    task.setStat p stat other = task other := by
  simp [Tasks.setStat, apart]

/-- `schedule` that stays with its process leaves it `READY`. -/
theorem switchStat_same (task : Tasks) (p : Pcb) : (switchStat task p p p).stat = .ready := by
  simp [switchStat]

theorem switchStat_next (task : Tasks) {proc next : Pcb} (apart : next ≠ proc) :
    (switchStat task proc next next).stat = .running := by
  simp only [switchStat]
  split
  · rw [setStat_other _ _ apart, setStat_self]
  · rw [setStat_self]

theorem switchStat_other (task : Tasks) {proc next p : Pcb} (notProc : p ≠ proc)
    (notNext : p ≠ next) : switchStat task proc next p = task p := by
  simp only [switchStat]
  split
  · rw [setStat_other _ _ notProc, setStat_other _ _ notNext]
  · rw [setStat_other _ _ notNext]

theorem switchStat_idle (task : Tasks) {proc next p : Pcb} (busy : (task p).stat ≠ .idle) :
    (switchStat task proc next p).stat ≠ .idle := by
  by_cases isNext : p = next
  · subst isNext
    by_cases isProc : p = proc
    · subst isProc
      simp [switchStat_same]
    · simp [switchStat_next task isProc]
  · by_cases isProc : p = proc
    · subst isProc
      simp only [switchStat]
      split
      · simp
      · rwa [setStat_other _ _ isNext]
    · rwa [switchStat_other task isProc isNext]

/-! ## The invariant -/

/-- Every PCB is queued in one place, no two CPUs run the same process, and a
running process that is marked `READY` is in the queue of its own CPU. -/
structure Exclusive (state : SchedState) : Prop where
  distinct : (contents state.queue).Nodup
  queued : ∀ c, state.proc c ∈ contents state.queue
  home : ∀ c, (state.task (state.proc c)).stat = .ready → state.proc c ∈ state.queue c
  single : ∀ c d, state.proc c = state.proc d → c = d
  busy : ∀ p ∈ contents state.queue, nrTasks + nrInitials ≤ p → (state.task p).stat ≠ .idle

variable {state next : SchedState} {c : CpuId}

/-- A `READY` process in the queue of one CPU is not the current process of
another. -/
theorem Exclusive.ready_elsewhere (held : Exclusive state) {p : Pcb} (member : p ∈ state.queue c)
    (ready : (state.task p).stat = .ready) {d : CpuId} (apart : d ≠ c) : state.proc d ≠ p := by
  rintro rfl
  exact apart (place_unique _ held.distinct (held.home d ready) member)

/-- What `schedule` on `c` picks runs on no other CPU. -/
theorem Exclusive.picked_apart (held : Exclusive state) {task : Tasks} {picked : Pcb}
    (ran : cpuSchedule (state.queue c) state.task (state.proc c) = some (task, picked))
    {d : CpuId} (apart : d ≠ c) : state.proc d ≠ picked := by
  obtain ⟨_, ready, own | member⟩ := cpuSchedule_cases ran
  · rw [own]
    exact fun same => apart (held.single d c same)
  · exact held.ready_elsewhere member ready apart

theorem schedule_exclusive (held : Exclusive state) (moved : state.schedule c = some next) :
    Exclusive next := by
  simp only [SchedState.schedule, Option.bind_eq_bind, Option.bind_eq_some_iff] at moved
  obtain ⟨⟨task, picked⟩, ran, made⟩ := moved
  cases made
  obtain ⟨sameStat, ready, source⟩ := cpuSchedule_cases ran
  have apart : ∀ d, d ≠ c → state.proc d ≠ picked := fun d => held.picked_apart ran
  have pickedQueued : picked ∈ contents state.queue := by
    rcases source with own | member
    · exact own ▸ held.queued c
    · exact mem_contents.mpr ⟨c, member⟩
  refine ⟨held.distinct, fun d => ?_, fun d marked => ?_, fun d e same => ?_, fun p member user => ?_⟩
  · by_cases isC : d = c
    · subst isC
      simpa using pickedQueued
    · simpa [isC] using held.queued d
  · by_cases isC : d = c
    · subst isC
      simp only [Function.update_self] at marked ⊢
      by_cases own : picked = state.proc d
      · rw [own] at ready ⊢
        exact held.home d ready
      · rw [switchStat_next task own] at marked
        cases marked
    · simp only [Function.update_of_ne isC] at marked ⊢
      have notProc : state.proc d ≠ state.proc c := fun same => isC (held.single d c same)
      rw [switchStat_other task notProc (apart d isC), sameStat] at marked
      exact held.home d marked
  · by_cases isD : d = c
    · by_cases isE : e = c
      · exact isD.trans isE.symm
      · subst isD
        simp only [Function.update_self, Function.update_of_ne isE] at same
        exact absurd same.symm (apart e isE)
    · by_cases isE : e = c
      · subst isE
        simp only [Function.update_self, Function.update_of_ne isD] at same
        exact absurd same (apart d isD)
      · simp only [Function.update_of_ne isD, Function.update_of_ne isE] at same
        exact held.single d e same
  · exact switchStat_idle task (sameStat p ▸ held.busy p member user)

theorem allocPcb_some {task : Tasks} {child : Pcb} (found : allocPcb task = some child) :
    nrTasks + nrInitials ≤ child ∧ (task child).stat = .idle := by
  have range := List.mem_of_find?_eq_some found
  have idle := List.find?_some found
  simp only [List.mem_range'_1] at range
  exact ⟨range.1, by simpa using idle⟩

theorem fork_exclusive (held : Exclusive state) (c : CpuId) : Exclusive (state.fork c) := by
  unfold SchedState.fork
  split
  next => exact held
  next child found =>
      obtain ⟨user, idle⟩ := allocPcb_some found
      have fresh : child ∉ contents state.queue := fun member => held.busy child member user idle
      have perm := Lists.append_contents state.queue c child
      have notChild : ∀ {p}, p ∈ contents state.queue → p ≠ child := by
        rintro p member rfl
        exact fresh member
      refine ⟨perm.nodup_iff.mpr (List.nodup_cons.mpr ⟨fresh, held.distinct⟩), fun d => ?_,
        fun d marked => ?_, held.single, fun p member isUser => ?_⟩
      · exact perm.mem_iff.mpr (List.mem_cons_of_mem _ (held.queued d))
      · simp only [Function.update_of_ne (notChild (held.queued d))] at marked
        have home := held.home d marked
        by_cases isC : d = c
        · subst isC
          simp [Lists.append, home]
        · simpa [Lists.append, isC] using home
      · rcases List.mem_cons.mp (perm.mem_iff.mp member) with rfl | inside
        · simp
        · simpa [notChild inside] using held.busy p inside isUser

theorem exec_exclusive (held : Exclusive state) (home : state.proc c ∈ state.queue c) :
    Exclusive (state.exec c) := by
  refine ⟨held.distinct, held.queued, fun d marked => ?_, held.single, fun p member user => ?_⟩
  · by_cases isC : d = c
    · exact isC ▸ home
    · have apart : state.proc d ≠ state.proc c := fun same => isC (held.single d c same)
      simp only [SchedState.exec, setStat_other _ _ apart] at marked
      exact held.home d marked
  · by_cases isProc : p = state.proc c
    · simp [SchedState.exec, isProc]
    · simpa [SchedState.exec, setStat_other _ _ isProc] using held.busy p member user

theorem clock_exclusive (held : Exclusive state) (c : CpuId) : Exclusive (state.clock c) := by
  have same : ∀ p, ((state.clock c).task p).stat = (state.task p).stat := by
    intro p
    by_cases isProc : p = state.proc c
    · simp [SchedState.clock, isProc]
    · simp [SchedState.clock, isProc]
  exact ⟨held.distinct, held.queued, fun d marked => held.home d (same _ ▸ marked), held.single,
    fun p member user => same p ▸ held.busy p member user⟩

theorem loadBalance_exclusive (held : Exclusive state) (long : state.queue.LongEnough)
    (stays : ∀ d, (state.task (state.proc d)).stat = .ready →
      state.proc d ∉ state.queue.migrants c) : Exclusive (state.loadBalance c) := by
  have perm := Lists.balance_contents long c
  refine ⟨perm.nodup_iff.mpr held.distinct, fun d => perm.mem_iff.mpr (held.queued d),
    fun d marked => ?_, held.single, fun p member => held.busy p (perm.mem_iff.mp member)⟩
  exact Lists.balance_mem long (held.home d marked) (stays d marked)

/-! ## Boot -/

/-- The first `count` user PCBs are taken, the others are free. -/
structure Taken (task : Tasks) (count : Nat) : Prop where
  used : ∀ p, nrTasks + nrInitials ≤ p → p < nrTasks + nrInitials + count →
    (task p).stat ≠ .idle
  free : ∀ p, nrTasks + nrInitials + count ≤ p → (task p).stat = .idle

theorem Taken.alloc {task : Tasks} {count : Nat} (held : Taken task count)
    (room : nrTasks + nrInitials + count < nrPcbs) :
    allocPcb task = some (nrTasks + nrInitials + count) := by
  unfold allocPcb
  rw [List.find?_range'_eq_some]
  refine ⟨by simpa using held.free _ le_rfl, ?_, fun p lower upper => ?_⟩
  · rw [List.mem_range'_1]
    omega
  · simpa using held.used p lower upper

theorem Taken.fork {count : Nat} (held : Taken state.task count)
    (room : nrTasks + nrInitials + count < nrPcbs) (c : CpuId) :
    Taken (state.fork c).task (count + 1) ∧
      (state.fork c).queue = state.queue.append c (nrTasks + nrInitials + count) := by
  simp only [SchedState.fork, held.alloc room]
  refine ⟨⟨fun p lower upper => ?_, fun p lower => ?_⟩, trivial⟩
  · by_cases isChild : p = nrTasks + nrInitials + count
    · simp [isChild]
    · simpa [isChild] using held.used p lower (by omega)
  · have apart : p ≠ nrTasks + nrInitials + count := by omega
    simpa [apart] using held.free p (by omega)

theorem forkAll_boot {order : List CpuId} {count : Nat} (held : Exclusive state)
    (taken : Taken state.task count) (room : nrTasks + nrInitials + count + order.length ≤ nrPcbs) :
    Exclusive (forkAll state order) ∧
      ∀ c, ((forkAll state order).queue c).length = (state.queue c).length + order.count c := by
  induction order generalizing state count with
  | nil => exact ⟨held, fun _ => rfl⟩
  | cons first rest ih =>
      rw [List.length_cons] at room
      obtain ⟨nextTaken, queue⟩ := taken.fork (by omega) first
      obtain ⟨exclusive, length⟩ := ih (fork_exclusive held first) nextTaken (by omega)
      refine ⟨exclusive, fun c => ?_⟩
      rw [forkAll, length c, queue]
      by_cases isFirst : c = first
      · subst isFirst
        simp [Lists.append]
        omega
      · simp [Lists.append, isFirst, Ne.symm isFirst]

private theorem bootLists_nodup : (contents bootLists).Nodup := by decide

private theorem bootLists_below : ∀ p ∈ contents bootLists, p < nrTasks + nrInitials := by decide

private theorem bootLists_front : ∀ c, (c : Pcb) ∈ bootLists c := by decide

private theorem bootLists_length : ∀ c, 2 ≤ (bootLists c).length ∧ 3 ≤ (bootLists 0).length := by
  decide

theorem balancedState_exclusive (task : Tasks) : Exclusive (balancedState task) where
  distinct := bootLists_nodup
  queued c := mem_contents.mpr ⟨c, bootLists_front c⟩
  home c _ := bootLists_front c
  single _ _ same := Fin.ext same
  busy p member user := absurd (bootLists_below p member) (not_lt.mpr user)

theorem boot_exclusive (booted : schedSystem.initial state) :
    Exclusive state ∧ state.queue.LongEnough := by
  obtain ⟨task, order, tasks, cpus, rfl⟩ := booted
  have taken : Taken (balancedState task).task 0 := by
    refine ⟨fun p lower upper => ?_, fun p lower => tasks.free p ?_⟩
    · omega
    · simpa [Nat.add_comm] using lower
  have room : nrTasks + nrInitials + 0 + order.length ≤ nrPcbs := by
    rw [cpus.length_eq, List.length_finRange]
    decide
  obtain ⟨exclusive, length⟩ := forkAll_boot (balancedState_exclusive task) taken room
  refine ⟨exclusive, fun c => ?_, ?_⟩
  · have := (bootLists_length c).1
    rw [length c, cpus.count_eq, List.count_eq_one_of_mem (List.nodup_finRange _) (List.mem_finRange c)]
    simp only [balancedState, nrStableProc]
    omega
  · have := (bootLists_length 0).2
    rw [length 0, cpus.count_eq, List.count_eq_one_of_mem (List.nodup_finRange _) (List.mem_finRange 0)]
    simp only [balancedState, nrStableProc]
    omega

/-! ## Runs -/

/-- A process marked `READY` while it runs stays in the queue of its CPU:
`sys_exec` is called with the node of the caller in its own CPU's queue, and
`load_balance` does not take the node of such a process. -/
def StaysHome (state : SchedState) : SchedAction → Prop
  | .exec c => state.proc c ∈ state.queue c
  | .loadBalance c => ∀ d, (state.task (state.proc d)).stat = .ready →
      state.proc d ∉ state.queue.migrants c
  | _ => True

instance (state : SchedState) : (action : SchedAction) → Decidable (StaysHome state action)
  | .exec c => inferInstanceAs (Decidable (state.proc c ∈ state.queue c))
  | .loadBalance c => inferInstanceAs (Decidable (∀ d, (state.task (state.proc d)).stat = .ready →
      state.proc d ∉ state.queue.migrants c))
  | .schedule _ | .fork _ | .clock _ => inferInstanceAs (Decidable True)

theorem step_longEnough (long : state.queue.LongEnough) {action : SchedAction}
    (moved : state.step action = some next) : next.queue.LongEnough := by
  cases action with
  | schedule c =>
      simp only [SchedState.step, SchedState.schedule, Option.bind_eq_bind,
        Option.bind_eq_some_iff] at moved
      obtain ⟨picked, _, made⟩ := moved
      cases made
      exact long
  | loadBalance c =>
      cases moved
      exact Lists.balance_longEnough long c
  | fork c =>
      cases moved
      unfold SchedState.fork
      split
      next => exact long
      next child _ => exact Lists.append_longEnough long c child
  | exec c => cases moved; exact long
  | clock c => cases moved; exact long

theorem step_exclusive (held : Exclusive state) (long : state.queue.LongEnough)
    {action : SchedAction} (home : StaysHome state action)
    (moved : state.step action = some next) : Exclusive next := by
  cases action with
  | schedule c => exact schedule_exclusive held moved
  | loadBalance c => cases moved; exact loadBalance_exclusive held long home
  | fork c => cases moved; exact fork_exclusive held c
  | exec c => cases moved; exact exec_exclusive held home
  | clock c => cases moved; exact clock_exclusive held c

/-- In every run whose steps keep running `READY` processes in their own queue,
no process runs on two CPUs. -/
theorem one_cpu_at_a_time (reached : schedSystem.ReachableWhen StaysHome state)
    {c d : CpuId} (apart : c ≠ d) : state.proc c ≠ state.proc d := by
  have held : Exclusive state ∧ state.queue.LongEnough := by
    refine reached.invariant (fun _ => boot_exclusive) ?_
    rintro state action next ⟨held, long⟩ home moved
    exact ⟨step_exclusive held long home moved, step_longEnough long moved⟩
  exact fun same => apart (held.1.single c d same)

/-- The process table at boot, with the migration threads woken up. -/
def bootTask : Tasks := fun p => {
  stat := if p < nrInitials + nrTasks then .ready else .idle
  ticks := if p = 0 then 2 else 1
  baseTicks := 1 }

def bootState : SchedState := forkAll (balancedState bootTask) (List.finRange numCpus)

theorem bootState_initial : schedSystem.initial bootState := by
  refine ⟨bootTask, List.finRange numCpus, ⟨?_, ?_, ?_, ?_, fun _ _ => rfl, fun _ _ => rfl⟩, .refl _, rfl⟩
  · intro p low
    have below : p < nrInitials + nrTasks := low.trans_le (Nat.le_add_right _ _)
    simp [bootTask, below]
  · intro p _ high
    have below : p < nrInitials + nrTasks := high.trans_le (by decide)
    simp [bootTask, below]
  · intro p _ below
    simp [bootTask, below]
  · intro p above
    simp [bootTask, not_lt.mpr above]

/-- The child of `initial` execs on CPU 0, and CPU 1 then takes two other nodes. -/
theorem one_cpu_at_a_time_boot :
    ∃ state, schedSystem.ReachableWhen StaysHome state ∧ state.proc 0 = 16 ∧
      (state.task 16).stat = .ready ∧ ∀ c d : CpuId, c ≠ d → state.proc c ≠ state.proc d := by
  have ran : schedSystem.run bootState
      [.clock 0, .clock 0, .schedule 0, .exec 0, .clock 1, .schedule 1, .loadBalance 1, .schedule 1] =
        some _ := rfl
  have reached : schedSystem.ReachableWhen StaysHome _ :=
    .of_run (.initial bootState_initial) ran
      ⟨trivial, trivial, trivial, by decide, trivial, trivial, by decide, trivial, trivial⟩
  exact ⟨_, reached, rfl, rfl, fun c d => one_cpu_at_a_time reached⟩

/-- `initial` used up its ticks; its child forks four times, and a child of it
execs at the eighth place of the queue. Two CPUs then balance, and the second one
picks the process that CPU 0 still runs. -/
theorem exec_runs_twice :
    ∃ state, schedSystem.Reachable state ∧ state.proc 0 = state.proc 2 := by
  have ran : schedSystem.run bootState
      [.clock 0, .clock 0, .clock 1, .clock 2,
        .schedule 0, .fork 0, .fork 0, .fork 0, .fork 0, .schedule 0, .exec 0,
        .schedule 1, .loadBalance 1, .schedule 2, .loadBalance 2, .schedule 2] = some _ := rfl
  exact ⟨_, Machine.Reachable.of_run (.initial bootState_initial) ran, rfl⟩

/-! ## The lists are those of the pointers -/

section Refinement

variable {Item Value : Type} (value : Item → Value)

/-- The lists of the values. -/
def Lists.values (lists : Lists Item) : Lists Value := fun c => (lists c).map value

theorem values_append (lists : Lists Item) (c : CpuId) (item : Item) :
    Lists.values value (lists.append c item) = (Lists.values value lists).append c (value item) := by
  funext d
  by_cases isC : d = c
  · subst isC
    simp [Lists.values, Lists.append]
  · simp [Lists.values, Lists.append, isC]

theorem values_moveOne (lists : Lists Item) (des src : CpuId) :
    Lists.values value (lists.moveOne des src) = (Lists.values value lists).moveOne des src := by
  funext d
  by_cases isDes : d = des
  · subst isDes
    simp only [Lists.values, Lists.moveOne, Function.update_self, List.map_append, List.getElem?_map]
    cases (lists src)[nrStableProc]? <;> rfl
  · by_cases isSrc : d = src
    · subst isSrc
      simp [Lists.values, Lists.moveOne, isDes, List.eraseIdx_map]
    · simp [Lists.values, Lists.moveOne, isDes, isSrc]

theorem values_moveMany (lists : Lists Item) (des src : CpuId) (count : Nat) :
    Lists.values value (Lists.moveMany des src count lists) =
      Lists.moveMany des src count (Lists.values value lists) := by
  induction count generalizing lists with
  | zero => rfl
  | succ count ih => rw [Lists.moveMany, Lists.moveMany, ih, values_moveOne]

theorem values_balance (lists : Lists Item) (cpu : CpuId) :
    Lists.values value (lists.balance cpu) = (Lists.values value lists).balance cpu := by
  have busiest : (Lists.values value lists).busiest = lists.busiest := by
    simp [Lists.busiest, Lists.values]
  rw [Lists.balance, Lists.balance, busiest]
  cases lists.busiest with
  | none => rfl
  | some found =>
      simp only [Option.elim_some]
      split
      next => rfl
      next => rw [values_moveMany]; simp [Lists.values]

end Refinement

/-- The queues of the scheduler are what the pointers of the ready queues hold. -/
def Stands (queues : Queues) (state : SchedState) : Prop :=
  ∃ cells, Valid queues cells ∧ state.queue = Lists.values Prod.snd cells

/-- `load_balance` on the pointers does what the scheduler model does. -/
theorem stands_loadBalance {queues : Queues} (held : Stands queues state) (c : CpuId) :
    ∃ moved, loadBalance queues c = some moved ∧ Stands moved (state.loadBalance c) := by
  obtain ⟨cells, valid, lists⟩ := held
  obtain ⟨moved, ran, movedValid⟩ := step_valid valid
    (show FreshAppend queues (.loadBalance c) from trivial)
  refine ⟨moved, ran, _, movedValid, ?_⟩
  simp only [SchedState.loadBalance, lists]
  exact (values_balance Prod.snd cells c).symm

/-- A fork appends its child to the pointers, on whatever fresh block it gets. -/
theorem stands_fork {queues : Queues} (held : Stands queues state) (exclusive : Exclusive state)
    {child : Pcb} (found : allocPcb state.task = some child) {block : Addr}
    (fresh : queues.heap block = none) (c : CpuId) :
    ∃ grown, queues.add c block child = some grown ∧ Stands grown (state.fork c) := by
  obtain ⟨cells, valid, lists⟩ := held
  obtain ⟨user, idle⟩ := allocPcb_some found
  have notAdded : child ∉ queues.added := by
    intro added
    refine exclusive.busy child ?_ user idle
    have inside := valid.stored.mem_iff.mpr added
    rw [contents_map] at inside
    rw [lists]
    exact inside
  obtain ⟨grown, ran, grownValid⟩ := step_valid valid
    (show FreshAppend queues (.add { cpu := c, block, proc := child }) from ⟨fresh, notAdded⟩)
  refine ⟨grown, ran, _, grownValid, ?_⟩
  simp only [SchedState.fork, found, lists]
  exact (values_append Prod.snd cells c (block, child)).symm

end AempOS.Sched
