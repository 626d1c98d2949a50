import AempOS.Sched.ScheduleProperties
import AempOS.Sched.Selection

/-! What `cpu_schedule` picks out of a ready queue, and when it ends. The walks on
the nodes see the values of the queue in order, so that the loops are those of
`Schedule`. One refill decides: it leaves the `stat` fields alone, and a further
one changes nothing. -/

set_option autoImplicit false

namespace AempOS.Sched

open Lib

/-! ## The walks on the nodes are the scans of the list -/

theorem considerNode_fold (task : Tasks) (queue : List Pcb) (best : Int × Option Pcb) :
    queue.foldl (considerNode task) best =
      scanGreatest (fun p => decide ((task p).stat = .ready)) (fun p => (task p).ticks) best queue := by
  induction queue generalizing best with
  | nil => rfl
  | cons p rest ih =>
      rw [List.foldl_cons, ih, scanGreatest]
      simp [considerNode]

/-- A node visited twice gets the same `base_ticks` twice. -/
theorem refillNode_fold (queue : List Pcb) (task : Tasks) :
    queue.foldl refillNode task = refill queue task := by
  induction queue generalizing task with
  | nil => funext p; simp [refill]
  | cons first rest ih =>
      rw [List.foldl_cons, ih]
      funext p
      by_cases isFirst : p = first
      · subst isFirst
        by_cases again : p ∈ rest <;> simp [refill, refillNode, again]
      · by_cases inside : p ∈ rest <;> simp [refill, refillNode, isFirst, inside]

/-- The running best is `0` exactly when nothing was found. -/
theorem scan_zero_iff (task : Tasks) (queue : List Pcb) :
    (queue.foldl (considerNode task) (0, none)).1 = 0 ↔ scanReady queue task = none := by
  rw [considerNode_fold, scanReady]
  rcases @scanGreatest_spec Pcb (fun p => decide ((task p).stat = .ready))
    (fun p => (task p).ticks) queue (0, none) with ⟨_, same⟩ | ⟨found, _, above, result⟩
  · simp [same]
  · have positive : 0 < (task found).ticks := above
    simp [result, Int.ne_of_gt positive]

theorem scan_second (task : Tasks) (queue : List Pcb) :
    (queue.foldl (considerNode task) (0, none)).2 = scanReady queue task := by
  rw [considerNode_fold, scanReady]

variable {queues : Queues} {c : CpuId} {cells : List Cell} {task : Tasks} {proc : Pcb}

/-- The result of the loop on the list, as the code returns it. -/
def returned (outcome : Tasks × Pcb) : Tasks × Option Pcb := (outcome.1, some outcome.2)

theorem selectLoop_eq {heap : Heap} {front rear : Option Addr} (linked : DList heap front rear cells)
    {steps : Nat} (enough : cells.length < steps) (passes : Nat) (task : Tasks) :
    selectLoop heap front steps passes task =
      (scheduleLoop (cells.map Prod.snd) passes task).map returned := by
  induction passes generalizing task with
  | zero => rfl
  | succ passes ih =>
      simp only [selectLoop, scheduleLoop, linked.traverse_eq _ enough, Option.bind_eq_bind,
        Option.bind_some, scan_zero_iff, scan_second, refillNode_fold]
      cases scanReady (cells.map Prod.snd) task with
      | none => simpa using ih (refill (cells.map Prod.snd) task)
      | some p => simp [returned]

/-- With fewer steps the loop may stop short, but it finds nothing else. -/
theorem selectLoop_some {heap : Heap} {front rear : Option Addr}
    (linked : DList heap front rear cells) {steps passes : Nat} {task after : Tasks}
    {found : Option Pcb} (ran : selectLoop heap front steps passes task = some (after, found)) :
    (scheduleLoop (cells.map Prod.snd) passes task).map returned = some (after, found) := by
  induction passes generalizing task with
  | zero => cases ran
  | succ passes ih =>
      simp only [selectLoop, Option.bind_eq_bind, Option.bind_eq_some_iff] at ran
      obtain ⟨best, walked, ran⟩ := ran
      obtain rfl := linked.traverse_some walked
      simp only [scheduleLoop, scan_zero_iff, scan_second] at ran ⊢
      cases scanned : scanReady (cells.map Prod.snd) task with
      | none =>
          simp only [scanned, if_true, Option.bind_eq_some_iff] at ran
          obtain ⟨refilled, walkedAgain, ran⟩ := ran
          obtain rfl := linked.traverse_some walkedAgain
          rw [refillNode_fold] at ran
          exact ih ran
      | some p => simpa [scanned, returned] using ran

/-- `cpu_schedule` on the nodes does what it does on the list. -/
theorem cpuScheduleNodes_eq {rear : Option Addr}
    (linked : DList queues.heap (queues.cpu c).ready.front rear cells) {steps passes : Nat}
    (enough : cells.length < steps) (decided : 2 ≤ passes) (task : Tasks) (proc : Pcb) :
    cpuScheduleNodes queues c steps passes task proc =
      (cpuSchedule (cells.map Prod.snd) task proc).map returned := by
  obtain ⟨more, rfl⟩ := Nat.exists_eq_add_of_le decided
  unfold cpuScheduleNodes cpuSchedule
  split
  next => rfl
  next => rw [selectLoop_eq linked enough, scheduleLoop_stable]

/-! ## The pick -/

/-- What `cpu_schedule` leaves when it searches: the first of the `READY` ones
with the greatest `ticks`, after a refill if no `READY` one had any. -/
structure Picks (queue : List Pcb) (task after : Tasks) (found : Pcb) : Prop where
  first : FirstGreatest (fun p => decide ((after p).stat = .ready)) (fun p => (after p).ticks) queue
    found
  positive : 0 < (after found).ticks
  refilled : after = task ∨
    (∀ p ∈ queue, (task p).stat = .ready → (task p).ticks ≤ 0) ∧ after = refill queue task

/-- A scan that finds something finds the first greatest one. -/
theorem scanReady_greatest {queue : List Pcb} {found : Pcb} (scanned : scanReady queue task = some found) :
    FirstGreatest (fun p => decide ((task p).stat = .ready)) (fun p => (task p).ticks) queue found ∧
      0 < (task found).ticks := by
  rcases @scanGreatest_spec Pcb (fun p => decide ((task p).stat = .ready))
    (fun p => (task p).ticks) queue (0, none) with ⟨_, same⟩ | ⟨best, greatest, above, result⟩
  · rw [scanReady, same] at scanned
    cases scanned
  · rw [scanReady, result] at scanned
    obtain rfl : best = found := Option.some.inj scanned
    exact ⟨greatest, above⟩

theorem scanReady_none_iff {queue : List Pcb} :
    scanReady queue task = none ↔ ∀ p ∈ queue, (task p).stat = .ready → (task p).ticks ≤ 0 := by
  rcases @scanGreatest_spec Pcb (fun p => decide ((task p).stat = .ready))
    (fun p => (task p).ticks) queue (0, none) with ⟨below, same⟩ | ⟨best, greatest, above, result⟩
  · rw [scanReady, same]
    exact ⟨fun _ p member ready => below p member (by simpa using ready), fun _ => rfl⟩
  · rw [scanReady, result]
    refine ⟨fun impossible => (Option.some_ne_none _ impossible).elim, fun empty => ?_⟩
    have none_left := empty best greatest.mem (by simpa using greatest.fits)
    exact absurd above (Int.not_lt.mpr none_left)

@[simp] theorem refill_ticks {queue : List Pcb} {p : Pcb} (member : p ∈ queue) :
    (refill queue task p).ticks = (task p).baseTicks := by
  simp [refill, member]

theorem scheduleLoop_picks {queue : List Pcb}
    (runnable : ∃ p ∈ queue, (task p).stat = .ready ∧ (0 < (task p).ticks ∨ 0 < (task p).baseTicks)) :
    ∃ after found, scheduleLoop queue 2 task = some (after, found) ∧ Picks queue task after found := by
  obtain ⟨p, member, ready, share⟩ := runnable
  cases first : scanReady queue task with
  | some found =>
      obtain ⟨greatest, positive⟩ := scanReady_greatest first
      exact ⟨task, found, by simp [scheduleLoop, first], greatest, positive, .inl rfl⟩
  | none =>
      have empty := scanReady_none_iff.mp first
      have base : 0 < (task p).baseTicks :=
        share.resolve_left (Int.not_lt.mpr (empty p member ready))
      cases second : scanReady queue (refill queue task) with
      | some found =>
          obtain ⟨greatest, positive⟩ := scanReady_greatest second
          exact ⟨_, found, by simp [scheduleLoop, first, second], greatest, positive,
            .inr ⟨empty, rfl⟩⟩
      | none =>
          have still := scanReady_none_iff.mp second p member (by simpa using ready)
          rw [refill_ticks member] at still
          exact absurd base (Int.not_lt.mpr still)

/-- `cpu_schedule` stays with a `READY` process that has `ticks` left. Otherwise
it ends as soon as a queued process can get some, after one refill at most. -/
theorem cpuSchedule_selects {rear : Option Addr}
    (linked : DList queues.heap (queues.cpu c).ready.front rear cells) (task : Tasks) (proc : Pcb) :
    ((task proc).stat = .ready ∧ 0 < (task proc).ticks →
        ∀ steps passes, cpuScheduleNodes queues c steps passes task proc = some (task, some proc)) ∧
      (¬((task proc).stat = .ready ∧ 0 < (task proc).ticks) →
        (∃ p ∈ cells.map Prod.snd, (task p).stat = .ready ∧
          (0 < (task p).ticks ∨ 0 < (task p).baseTicks)) →
        ∃ after found, Picks (cells.map Prod.snd) task after found ∧
          ∀ steps passes, cells.length < steps → 2 ≤ passes →
            cpuScheduleNodes queues c steps passes task proc = some (after, some found)) := by
  refine ⟨fun stays steps passes => if_pos stays, fun leaves runnable => ?_⟩
  obtain ⟨after, found, looped, picks⟩ := scheduleLoop_picks runnable
  refine ⟨after, found, picks, fun steps passes enough decided => ?_⟩
  have searched : cpuSchedule (cells.map Prod.snd) task proc = some (after, found) := by
    rw [cpuSchedule, if_neg leaves, looped]
  rw [cpuScheduleNodes_eq linked enough decided, searched]
  rfl

/-- The queue of CPU 0 with two nodes, of `proc_table + 8` and `proc_table + 9`. -/
def twoNodes : Queues where
  heap
    | 1 => some ⟨8, none, some 2⟩
    | 2 => some ⟨9, some 1, none⟩
    | _ => none
  cpu _ := { ready := { front := some 1, rear := some 2 }, nrReadyProc := 2 }
  added := [9, 8]

theorem twoNodes_linked : DList twoNodes.heap (twoNodes.cpu 0).ready.front (some 2) [(1, 8), (2, 9)] :=
  ⟨rfl, rfl, rfl, rfl, trivial⟩

/-- Both are `READY` without `ticks`; the second one has the greater share. -/
def spentTask : Tasks := fun p => { stat := .ready, ticks := 0, baseTicks := if p = 9 then 3 else 1 }

theorem cpuSchedule_selects_second :
    ∃ after found, Picks [8, 9] spentTask after found ∧ found = 9 ∧ (after 8).ticks = 1 ∧
      cpuScheduleNodes twoNodes 0 3 2 spentTask 8 = some (after, some found) := by
  obtain ⟨after, found, picks, ran⟩ := (cpuSchedule_selects twoNodes_linked spentTask 8).2
    (by decide) ⟨9, by simp, rfl, .inr (by decide)⟩
  have outcome := ran 3 2 (by simp) le_rfl
  obtain ⟨next, computed, share⟩ :
      ∃ next, cpuScheduleNodes twoNodes 0 3 2 spentTask 8 = some (next, some 9) ∧ (next 8).ticks = 1 :=
    ⟨_, rfl, rfl⟩
  rw [outcome] at computed
  cases computed
  exact ⟨after, 9, picks, rfl, share, outcome⟩

/-! ## The end of `schedule` -/

/-- A search ends only with a process that was `READY` before it. -/
theorem scheduleLoop_ready {queue : List Pcb} {passes : Nat} {task after : Tasks} {found : Pcb}
    (looped : scheduleLoop queue passes task = some (after, found)) :
    found ∈ queue ∧ (task found).stat = .ready := by
  induction passes generalizing task with
  | zero => cases looped
  | succ passes ih =>
      rw [scheduleLoop] at looped
      split at looped
      next p scanned =>
          cases looped
          exact scanReady_some scanned
      next =>
          obtain ⟨member, ready⟩ := ih looped
          exact ⟨member, by simpa using ready⟩

/-- A `schedule` with a `RUNNING` process ends only when another one is `READY`. -/
theorem scheduleNodes_ready {rear : Option Addr}
    (linked : DList queues.heap (queues.cpu c).ready.front rear cells)
    (running : (task proc).stat = .running) {steps passes : Nat} {after : Tasks} {next : Pcb}
    (ran : scheduleNodes queues c steps passes task proc = some (after, next)) :
    next ∈ cells.map Prod.snd ∧ (task next).stat = .ready := by
  have leaves : ¬((task proc).stat = .ready ∧ (task proc).ticks > 0) := by simp [running]
  simp only [scheduleNodes, cpuScheduleNodes, if_neg leaves, Option.bind_eq_bind,
    Option.bind_eq_some_iff] at ran
  obtain ⟨⟨searched, pick⟩, looped, picked, rfl, made⟩ := ran
  cases made
  have onList := selectLoop_some linked looped
  rw [Option.map_eq_some_iff] at onList
  obtain ⟨⟨reached, found⟩, listed, same⟩ := onList
  cases same
  exact scheduleLoop_ready listed

/-- `schedule` with a `RUNNING` process of the queue ends, and leaves a `RUNNING`
process of the queue, exactly if some queued process is `READY`: the search does
not see the running one. -/
theorem schedule_ends_iff {rear : Option Addr}
    (linked : DList queues.heap (queues.cpu c).ready.front rear cells)
    (queued : proc ∈ cells.map Prod.snd) (running : (task proc).stat = .running)
    (base : ∀ p ∈ cells.map Prod.snd, 0 < (task p).baseTicks) :
    (∃ steps passes after next, scheduleNodes queues c steps passes task proc = some (after, next) ∧
        next ∈ cells.map Prod.snd ∧ (after next).stat = .running) ↔
      ∃ p ∈ cells.map Prod.snd, (task p).stat = .ready := by
  constructor
  · rintro ⟨steps, passes, after, next, ran, _, _⟩
    exact ⟨next, scheduleNodes_ready linked running ran⟩
  · rintro ⟨p, member, ready⟩
    have leaves : ¬((task proc).stat = .ready ∧ (task proc).ticks > 0) := by simp [running]
    obtain ⟨after, next, looped, picks⟩ := scheduleLoop_picks ⟨p, member, ready, .inr (base p member)⟩
    obtain ⟨inside, wasReady⟩ := scheduleLoop_ready looped
    have apart : next ≠ proc := by
      rintro rfl
      rw [running] at wasReady
      cases wasReady
    have searched : cpuSchedule (cells.map Prod.snd) task proc = some (after, next) := by
      rw [cpuSchedule, if_neg leaves, looped]
    refine ⟨cells.length + 1, 2, switchStat after proc next, next, ?_, inside,
      switchStat_next after apart⟩
    rw [scheduleNodes, cpuScheduleNodes_eq linked (Nat.lt_succ_self _) le_rfl, searched]
    rfl

/-- The first one runs, the second one waits for its turn. -/
def runningTask : Tasks := fun p =>
  { stat := if p = 8 then .running else .ready, ticks := 0, baseTicks := 1 }

theorem schedule_ends_iff_two :
    ∃ steps passes after next, scheduleNodes twoNodes 0 steps passes runningTask 8 = some (after, next) ∧
      next ∈ [8, 9] ∧ (after next).stat = .running :=
  (schedule_ends_iff twoNodes_linked (by simp) rfl fun p member => Int.one_pos).mpr ⟨9, by simp, rfl⟩

/-- The first one runs, the second one sleeps. -/
def aloneTask : Tasks := fun p =>
  { stat := if p = 8 then .running else .sleeping, ticks := 1, baseTicks := 1 }

/-- The only runnable process of a CPU calls `schedule`: the loop goes on for ever. -/
theorem schedule_alone :
    DList twoNodes.heap (twoNodes.cpu 0).ready.front (some 2) [(1, 8), (2, 9)] ∧
      (aloneTask 8).stat = .running ∧ (∀ p, 0 < (aloneTask p).baseTicks) ∧
      ∀ steps passes, scheduleNodes twoNodes 0 steps passes aloneTask 8 = none := by
  refine ⟨twoNodes_linked, rfl, fun _ => Int.one_pos, fun steps passes => ?_⟩
  cases ran : scheduleNodes twoNodes 0 steps passes aloneTask 8 with
  | none => rfl
  | some outcome =>
      obtain ⟨member, ready⟩ := scheduleNodes_ready twoNodes_linked rfl ran
      rcases List.mem_cons.mp member with isRunning | rest
      · rw [isRunning] at ready
        cases ready
      · rw [List.mem_singleton.mp rest] at ready
        cases ready

end AempOS.Sched
