import AempOS.Sched.ReadyQueueProperties

/-! The processes that each CPU keeps: its initial process, its migration thread and
the `init` that its initial process forked. `move_ready_proc` spares the first three
places of a queue. On CPU 0 the third place is not always that of `init`, because
`resort_ready_proc` puts whatever is last there. -/

set_option autoImplicit false

namespace AempOS.Sched

open Lib

/-- The node at this place of a queue, front first, has the PCB. -/
def AtPlace (queues : Queues) (c : CpuId) (place : Nat) (proc : Pcb) : Prop :=
  ∃ addr cell, walk queues.heap place (queues.cpu c).ready.front = some (some addr) ∧
    queues.heap addr = some cell ∧ cell.value = proc

def InQueue (queues : Queues) (c : CpuId) (proc : Pcb) : Prop := ∃ place, AtPlace queues c place proc

/-- The boot sequence with these forks. -/
def BootedBy (forks : List Append) (queues : Queues) : Prop :=
  ∃ block : Pcb → Addr, (forks.map Append.cpu).Perm (List.finRange numCpus) ∧
    ((balanceReadyProc block ++ forks).map Append.block).Nodup ∧
    ((balanceReadyProc block ++ forks).map Append.proc).Nodup ∧
    emptyQueues.addAll (balanceReadyProc block ++ forks) = some queues

def bootedSystem (forks : List Append) : Machine Queues Action where
  initial := BootedBy forks
  step := step

/-- Every CPU has its own stable processes in its queue. -/
def AtHome (forks : List Append) (queues : Queues) : Prop :=
  ∀ c : CpuId, InQueue queues c c ∧ InQueue queues c (nrInitials + c) ∧
    ∀ fork ∈ forks, fork.cpu = c → InQueue queues c fork.proc

/-- A `load_balance` on the CPU takes the node of this PCB: it is behind the stable
places of the busiest queue, among as many as move. -/
def TakenBy (queues : Queues) (cpu : CpuId) (proc : Pcb) : Prop :=
  ∃ (busiest : CpuId) (place : Nat), findBusiestCpu (fun c => (queues.cpu c).nrReadyProc) = some busiest ∧ busiest ≠ cpu ∧
    (place : Int) < moveProcNum (queues.cpu cpu) (queues.cpu busiest) ∧
    AtPlace queues busiest (nrStableProc + place) proc

/-- No `load_balance` takes the `init` of CPU 0. -/
def SparesInit (forks : List Append) (queues : Queues) : Action → Prop
  | .loadBalance cpu => ∀ fork ∈ forks, fork.cpu = 0 → ¬TakenBy queues cpu fork.proc
  | _ => True

variable {queues : Queues} {cells : Lists Cell} {forks : List Append}

/-! ## Places in the lists -/

theorem walk_add (heap : Heap) (first more : Nat) (p : Option Addr) :
    walk heap (first + more) p = (walk heap first p).bind (walk heap more) := by
  induction first generalizing p with
  | zero => simp [walk]
  | succ first ih =>
      rw [Nat.succ_add, walk, walk]
      cases heap.read p with
      | none => rfl
      | some cell => exact ih cell.next

theorem walk_null (heap : Heap) (steps : Nat) (addr : Addr) : walk heap steps none ≠ some (some addr) := by
  cases steps with
  | zero => simp [walk]
  | succ steps => simp [walk, DHeap.read]

theorem Represents.atPlace_iff (held : Represents queues cells) (c : CpuId) (place : Nat) (proc : Pcb) :
    AtPlace queues c place proc ↔ ∃ addr, (cells c)[place]? = some (addr, proc) := by
  have front := (held.list c).front
  by_cases inside : place < (cells c).length
  · have split : cells c = (cells c).take place ++ (cells c)[place] :: (cells c).drop (place + 1) := by simp
    have length : ((cells c).take place).length = place := by
      rw [List.length_take]
      omega
    have walked : walk queues.heap place (queues.cpu c).ready.front = some (some (cells c)[place].1) := by
      have segment := (held.list c).linked
      rw [split] at segment
      have reached := walk_segment segment
      rw [length, ← split, ← front] at reached
      exact reached
    obtain ⟨found, isFound, isValue⟩ := (held.list c).linked.allocated (List.getElem_mem inside)
    rw [List.getElem?_eq_getElem inside]
    constructor
    · rintro ⟨addr, cell, here, isCell, rfl⟩
      have same : (cells c)[place].1 = addr := Option.some.inj (Option.some.inj (walked.symm.trans here))
      rw [← same, isFound] at isCell
      cases isCell
      exact ⟨addr, by rw [isValue, ← same]⟩
    · rintro ⟨addr, isItem⟩
      have item : (cells c)[place] = (addr, proc) := Option.some.inj isItem
      exact ⟨_, found, walked, isFound, by rw [isValue, item]⟩
  · have beyond : (cells c)[place]? = none := List.getElem?_eq_none (by omega)
    simp only [beyond, reduceCtorEq, exists_false, iff_false]
    rintro ⟨addr, cell, here, _⟩
    obtain ⟨more, rfl⟩ := Nat.exists_eq_add_of_le (Nat.not_lt.mp inside)
    have segment : Segment queues.heap none (cells c ++ []) none := by
      rw [List.append_nil]
      exact (held.list c).linked
    have ended := walk_segment segment
    rw [List.append_nil, ← front] at ended
    rw [walk_add, ended] at here
    exact walk_null _ _ _ here

theorem Represents.inQueue_iff (held : Represents queues cells) (c : CpuId) (proc : Pcb) :
    InQueue queues c proc ↔ proc ∈ (cells c).map Prod.snd := by
  simp only [InQueue, held.atPlace_iff, List.mem_map]
  constructor
  · rintro ⟨place, addr, found⟩
    exact ⟨(addr, proc), List.mem_of_getElem? found, rfl⟩
  · rintro ⟨⟨addr, _⟩, member, rfl⟩
    obtain ⟨place, found⟩ := List.mem_iff_getElem?.mp member
    exact ⟨place, addr, found⟩

/-- What `load_balance` takes, in the lists. -/
theorem Valid.takenBy_iff (held : Valid queues cells) (cpu : CpuId) (proc : Pcb) :
    TakenBy queues cpu proc ↔ proc ∈ (cells.migrants cpu).map Prod.snd := by
  obtain ⟨found, isBusiest, most⟩ := Lists.busiest_spec
    (List.ne_nil_of_length_pos (Nat.lt_of_lt_of_le (by decide) (held.long.stable cpu)))
  have amount := moveProcNum_lists held.toRepresents cpu found (most cpu)
  simp only [TakenBy, findBusiestCpu_lists held.toRepresents, isBusiest, held.atPlace_iff, Lists.migrants,
    Option.elim_some, Option.some.injEq, List.mem_map]
  constructor
  · rintro ⟨_, place, rfl, _, below, addr, isItem⟩
    refine ⟨(addr, proc), ?_, rfl⟩
    refine List.mem_iff_getElem?.mpr ⟨place, ?_⟩
    rw [List.getElem?_take_of_lt (by omega), List.getElem?_drop]
    exact isItem
  · rintro ⟨⟨addr, _⟩, member, rfl⟩
    obtain ⟨place, isItem⟩ := List.mem_iff_getElem?.mp member
    have below : place < ((cells found).length - (cells cpu).length) / 2 := by
      by_contra beyond
      rw [List.getElem?_eq_none (by rw [List.length_take]; omega)] at isItem
      cases isItem
    rw [List.getElem?_take_of_lt below, List.getElem?_drop] at isItem
    have differ : found ≠ cpu := by
      rintro rfl
      omega
    exact ⟨found, place, rfl, differ, by omega, addr, isItem⟩

/-! ## Keeping the stable processes -/

/-- The fronts of the lists: on CPU 0 two stable PCBs, with `init` somewhere behind
them, and elsewhere all three. -/
structure Home (forks : List Append) (cells : Lists Cell) : Prop where
  front : ∀ c : CpuId, ((cells c).take 2).map Prod.snd = [c.val, nrInitials + c.val]
  third : ∀ fork ∈ forks, fork.cpu ≠ 0 →
    ((cells fork.cpu).take nrStableProc).map Prod.snd = [fork.cpu.val, nrInitials + fork.cpu.val, fork.proc]
  init : ∀ fork ∈ forks, fork.cpu = 0 → fork.proc ∈ (cells 0).map Prod.snd

namespace Home

theorem atHome (home : Home forks cells) (held : Represents queues cells) : AtHome forks queues := by
  intro c
  simp only [held.inQueue_iff]
  have inFront : ∀ proc, proc ∈ [c.val, nrInitials + c.val] → proc ∈ (cells c).map Prod.snd := by
    intro proc member
    rw [← home.front c] at member
    exact (List.map_subset _ (List.take_subset 2 (cells c))) member
  refine ⟨inFront _ (by simp), inFront _ (by simp), fun fork member isCpu => ?_⟩
  by_cases isZero : fork.cpu = 0
  · rw [← isCpu, isZero]
    exact home.init fork member isZero
  · have third := home.third fork member isZero
    rw [isCpu] at third
    refine (List.map_subset _ (List.take_subset nrStableProc (cells c))) ?_
    rw [third]
    simp

theorem append (home : Home forks cells) (long : cells.LongEnough) (c : CpuId) (cell : Cell) :
    Home forks (cells.append c cell) := by
  have kept : ∀ other n, n ≤ nrStableProc → (cells.append c cell other).take n = (cells other).take n := by
    intro other n few
    by_cases same : other = c
    · subst same
      simp only [Lists.append, Function.update_self]
      exact List.take_append_of_le_length (few.trans (long.stable other))
    · simp only [Lists.append, Function.update_of_ne same]
  refine ⟨fun other => ?_, fun fork member notZero => ?_, fun fork member isZero => ?_⟩
  · rw [kept other 2 (by decide)]
    exact home.front other
  · rw [kept fork.cpu nrStableProc (Nat.le_refl _)]
    exact home.third fork member notZero
  · have before := home.init fork member isZero
    by_cases same : (0 : CpuId) = c
    · subst same
      simp only [Lists.append, Function.update_self, List.map_append]
      exact List.mem_append_left _ before
    · simpa only [Lists.append, Function.update_of_ne same] using before

theorem balance (home : Home forks cells) (long : cells.LongEnough) {cpu : CpuId}
    (spared : ∀ fork ∈ forks, fork.cpu = 0 → fork.proc ∉ (cells.migrants cpu).map Prod.snd) :
    Home forks (cells.balance cpu) := by
  have kept := Lists.balance_stable long cpu
  refine ⟨fun other => ?_, fun fork member notZero => ?_, fun fork member isZero => ?_⟩
  · have two : ∀ list : List Cell, list.take 2 = (list.take nrStableProc).take 2 := fun list => by
      rw [List.take_take]
      rfl
    rw [two, kept, ← two]
    exact home.front other
  · rw [kept]
    exact home.third fork member notZero
  · obtain ⟨⟨addr, proc⟩, inZero, isProc⟩ := List.mem_map.mp (home.init fork member isZero)
    refine List.mem_map.mpr ⟨(addr, proc), Lists.balance_mem long inZero fun taken => ?_, isProc⟩
    exact spared fork member isZero (List.mem_map.mpr ⟨_, taken, isProc⟩)

theorem resort (home : Home forks cells) (long : cells.LongEnough) : Home forks (cells.resort 0) := by
  have perm := Lists.resortOne_perm (long.stable 0)
  have others : ∀ c : CpuId, c ≠ 0 → cells.resort 0 c = cells c := fun c apart => Function.update_of_ne apart _ _
  have isZero : cells.resort 0 0 = Lists.resortOne (cells 0) := Function.update_self ..
  refine ⟨fun c => ?_, fun fork member notZero => ?_, fun fork member zero => ?_⟩
  · by_cases same : c = 0
    · subst same
      have two : 2 ≤ (cells 0).length := (Nat.le_succ 2).trans (long.stable 0)
      have front : (Lists.resortOne (cells 0)).take 2 = (cells 0).take 2 := by
        rw [Lists.resortOne, List.append_assoc, List.take_append_of_le_length (by simp [two]), List.take_take]
        rfl
      rw [isZero, front]
      exact home.front 0
    · rw [others c same]
      exact home.front c
  · rw [others fork.cpu notZero]
    exact home.third fork member notZero
  · rw [isZero]
    exact (perm.map Prod.snd).mem_iff.mpr (home.init fork member zero)

end Home

theorem appendAll_filter (appends : List Append) (cells : Lists Cell) (c : CpuId) :
    Lists.appendAll appends cells c =
      cells c ++ (appends.filter fun append => append.cpu = c).map fun append => (append.block, append.proc) := by
  induction appends generalizing cells with
  | nil => simp [Lists.appendAll]
  | cons append rest ih =>
      rw [Lists.appendAll, ih]
      by_cases same : append.cpu = c
      · subst same
        simp [Lists.append]
      · simp [Lists.append, same, Ne.symm same]

theorem balanceReadyProc_filter (block : Pcb → Addr) (c : CpuId) :
    ((balanceReadyProc block).filter fun append => append.cpu = c).map Append.proc =
      c.val :: (nrInitials + c.val) :: if c = 0 then [8, 9, 10, 11] else [] := by
  revert c
  intro c
  match c with
  | 0 => rfl
  | 1 => rfl
  | 2 => rfl
  | 3 => rfl

theorem fork_unique (cpus : (forks.map Append.cpu).Perm (List.finRange numCpus)) {fork : Append}
    (member : fork ∈ forks) : forks.filter (fun other => other.cpu = fork.cpu) = [fork] := by
  have count : (forks.filter fun other => other.cpu = fork.cpu).length = 1 := by
    have once := cpus.count_eq fork.cpu
    rw [List.count_eq_one_of_mem (List.nodup_finRange _) (List.mem_finRange fork.cpu)] at once
    rw [← List.countP_eq_length_filter, ← once, List.count, List.countP_map]
    rfl
  obtain ⟨only, isOnly⟩ := List.length_eq_one_iff.mp count
  have inside : fork ∈ forks.filter fun other => other.cpu = fork.cpu := List.mem_filter.mpr ⟨member, by simp⟩
  rw [isOnly] at inside ⊢
  rw [List.mem_singleton.mp inside]

/-- After the boot sequence the list of a CPU begins with its two PCBs, and the
PCB that its initial process forked is next, except on CPU 0. -/
theorem boot_home {block : Pcb → Addr} (cpus : (forks.map Append.cpu).Perm (List.finRange numCpus)) :
    Home forks (Lists.appendAll (balanceReadyProc block ++ forks) fun _ => []) := by
  have procs : ∀ c : CpuId,
      (Lists.appendAll (balanceReadyProc block ++ forks) (fun _ => []) c).map Prod.snd =
        c.val :: (nrInitials + c.val) :: ((if c = 0 then [8, 9, 10, 11] else []) ++
          (forks.filter fun fork => fork.cpu = c).map Append.proc) := by
    intro c
    rw [appendAll_filter, List.nil_append, List.map_map, List.filter_append, List.map_append]
    exact congrArg (· ++ _) (balanceReadyProc_filter block c)
  refine ⟨fun c => ?_, fun fork member notZero => ?_, fun fork member isZero => ?_⟩
  · rw [List.map_take, procs]
    rfl
  · rw [List.map_take, procs, if_neg notZero, fork_unique cpus member]
    rfl
  · have inside : fork.proc ∈ (forks.filter fun other => other.cpu = 0).map Append.proc :=
      List.mem_map_of_mem (List.mem_filter.mpr ⟨member, by simp [isZero]⟩)
    rw [procs]
    simp only [List.mem_cons, List.mem_append]
    exact .inr (.inr (.inr inside))

/-! ## Runs -/

theorem BootedBy.home (booted : BootedBy forks queues) : ∃ cells, Valid queues cells ∧ Home forks cells := by
  obtain ⟨block, cpus, blocks, procs, ran⟩ := booted
  exact ⟨_, boot_valid cpus blocks procs ran, boot_home cpus⟩

theorem step_home {action : Action} {next : Queues} (held : Valid queues cells) (home : Home forks cells)
    (fresh : FreshAppend queues action) (spares : SparesInit forks queues action)
    (moved : step queues action = some next) : Valid next (cells.step action) ∧ Home forks (cells.step action) := by
  obtain ⟨result, ran, resultHeld⟩ := step_valid held fresh
  obtain rfl : result = next := Option.some.inj (ran.symm.trans moved)
  refine ⟨resultHeld, ?_⟩
  cases action with
  | add append => exact home.append held.long append.cpu _
  | loadBalance cpu =>
      refine home.balance held.long fun fork member isZero taken => ?_
      exact spares fork member isZero ((held.takenBy_iff cpu fork.proc).mpr taken)
  | resort => exact home.resort held.long

/-- What a `load_balance` takes is gone from the queue where it was. -/
theorem Valid.taken_leaves (held : Valid queues cells) {cpu c : CpuId} {proc : Pcb} {next : Queues}
    (taken : TakenBy queues cpu proc) (inside : proc ∈ (cells c).map Prod.snd)
    (moved : step queues (.loadBalance cpu) = some next) : ¬InQueue next c proc := by
  obtain ⟨result, ran, resultHeld⟩ := step_valid held (show FreshAppend queues (.loadBalance cpu) from trivial)
  obtain rfl : result = next := Option.some.inj (ran.symm.trans moved)
  have isTaken := (held.takenBy_iff cpu proc).mp taken
  obtain ⟨found, isBusiest, ⟨own, _⟩ | ⟨count, halved, movable, balanced⟩⟩ := Lists.balance_cases held.long cpu
  · rw [Lists.migrants, isBusiest, Option.elim_some, own] at isTaken
    simp at isTaken
  rw [Lists.migrants, isBusiest, Option.elim_some, ← halved] at isTaken
  have distinct : ∀ place, ((cells place).map Prod.snd).Nodup := by
    refine place_nodup (fun place => (cells place).map Prod.snd) ?_
    rw [← contents_map]
    exact held.stored.nodup_iff.mpr held.once
  have inFound : proc ∈ (cells found).map Prod.snd :=
    (List.map_subset _ fun cell member => List.mem_of_mem_drop (List.mem_of_mem_take member)) isTaken
  have isFound : c = found := by
    refine place_unique (fun place => (cells place).map Prod.snd) ?_ inside inFound
    rw [← contents_map]
    exact held.stored.nodup_iff.mpr held.once
  subst isFound
  rw [resultHeld.inQueue_iff]
  have after : cells.step (.loadBalance cpu) c =
      (cells c).take nrStableProc ++ (cells c).drop (nrStableProc + count) := by
    change cells.balance cpu c = _
    rw [balanced, Lists.moveMany_src movable]
  have split : (cells c).map Prod.snd = ((cells c).take nrStableProc).map Prod.snd ++
      ((((cells c).drop nrStableProc).take count).map Prod.snd ++
        ((cells c).drop (nrStableProc + count)).map Prod.snd) := by
    rw [← List.map_append, ← List.map_append, ← List.drop_drop, List.take_append_drop, List.take_append_drop]
  have parts := distinct c
  rw [split, List.nodup_append] at parts
  obtain ⟨_, rest, across⟩ := parts
  obtain ⟨_, _, apart⟩ := List.nodup_append.mp rest
  rw [after, List.map_append, List.mem_append]
  rintro (inFront | inRest)
  · exact across proc inFront proc (List.mem_append_left _ isTaken) rfl
  · exact apart proc isTaken proc inRest rfl

/-- As long as no `load_balance` takes the `init` of CPU 0, every CPU has its stable
processes in its queue; and the first `load_balance` that takes it moves it away. -/
theorem stable_processes_stay
    (reached : (bootedSystem forks).ReachableWhen
      (fun queues action => FreshAppend queues action ∧ SparesInit forks queues action) queues) :
    AtHome forks queues ∧ ∀ cpu next, (bootedSystem forks).step queues (.loadBalance cpu) = some next →
      ¬SparesInit forks queues (.loadBalance cpu) → ¬AtHome forks next := by
  have start : ∀ state, (bootedSystem forks).initial state → ∃ cells, Valid state cells ∧ Home forks cells :=
    fun _ booted => BootedBy.home booted
  obtain ⟨cells, held, home⟩ := reached.invariant start fun state action next before guarded moved => by
    obtain ⟨cells, held, home⟩ := before
    exact ⟨_, step_home held home guarded.1 guarded.2 moved⟩
  refine ⟨home.atHome held.toRepresents, fun cpu next moved takes atHome => ?_⟩
  simp only [SparesInit, not_forall, not_not] at takes
  obtain ⟨fork, member, isZero, taken⟩ := takes
  exact held.taken_leaves taken (home.init fork member isZero) moved ((atHome 0).2.2 fork member isZero)

theorem bootQueues_by : BootedBy bootForks bootQueues :=
  ⟨id, by decide, by decide, by decide, (Option.some_get _).symm⟩

/-- `init`, PCB 16, is at the third place after one resort. -/
def sortedQueues : Queues := (step bootQueues .resort).get rfl

theorem bootForks_init : ∀ fork ∈ bootForks, fork.cpu = 0 → fork.proc = 16 := by
  decide

theorem sortedQueues_spare : SparesInit bootForks sortedQueues (.loadBalance 1) := by
  intro fork member isZero taken
  have isInit := bootForks_init fork member isZero
  obtain ⟨busiest, place, isBusiest, _, below, addr, cell, walked, isCell, isProc⟩ := taken
  have zero : findBusiestCpu (fun c => (sortedQueues.cpu c).nrReadyProc) = some 0 := by decide
  obtain rfl : 0 = busiest := Option.some.inj (zero.symm.trans isBusiest)
  have two : moveProcNum (sortedQueues.cpu 1) (sortedQueues.cpu 0) = 2 := by decide
  have places : place = 0 ∨ place = 1 := by omega
  rcases places with rfl | rfl
  · have found : walk sortedQueues.heap (nrStableProc + 0) (sortedQueues.cpu 0).ready.front = some (some 8) := by
      decide
    obtain rfl : 8 = addr := Option.some.inj (Option.some.inj (found.symm.trans walked))
    obtain rfl : _ = cell := Option.some.inj isCell
    exact absurd (isProc.trans isInit) (by decide)
  · have found : walk sortedQueues.heap (nrStableProc + 1) (sortedQueues.cpu 0).ready.front = some (some 9) := by
      decide
    obtain rfl : 9 = addr := Option.some.inj (Option.some.inj (found.symm.trans walked))
    obtain rfl : _ = cell := Option.some.inj isCell
    exact absurd (isProc.trans isInit) (by decide)

theorem stable_processes_stay_once :
    ∃ queues, (bootedSystem bootForks).run bootQueues [.resort, .loadBalance 1] = some queues ∧
      AtHome bootForks queues ∧ ∀ cpu next, (bootedSystem bootForks).step queues (.loadBalance cpu) = some next →
        ¬SparesInit bootForks queues (.loadBalance cpu) → ¬AtHome bootForks next := by
  have ran : (bootedSystem bootForks).run bootQueues [.resort, .loadBalance 1] = some _ := rfl
  have start : (bootedSystem bootForks).ReachableWhen
      (fun queues action => FreshAppend queues action ∧ SparesInit bootForks queues action) bootQueues :=
    .initial bootQueues_by
  exact ⟨_, ran, stable_processes_stay
    (start.of_run ran ⟨⟨trivial, trivial⟩, ⟨trivial, sortedQueues_spare⟩, trivial⟩)⟩

/-- After two resorts `init` is at the fourth place, and a `load_balance` on CPU 1
takes it. -/
theorem init_migrates :
    ∃ queues, (bootedSystem bootForks).ReachableWhen FreshAppend queues ∧ ¬AtHome bootForks queues := by
  obtain ⟨resorted, queues, ran, sameRun, moved, taken, place⟩ : ∃ resorted queues,
      queueSystem.run bootQueues [.resort, .resort] = some resorted ∧
        (bootedSystem bootForks).run bootQueues [.resort, .resort] = some resorted ∧
          step resorted (.loadBalance 1) = some queues ∧ TakenBy resorted 1 16 ∧ InQueue resorted 0 16 :=
    ⟨_, _, rfl, rfl, rfl, ⟨0, 0, by decide, by decide, by decide, 16, _, rfl, rfl, rfl⟩, 3, 16, _, rfl, rfl, rfl⟩
  obtain ⟨cells, held⟩ := reachable_valid
    (.of_run (.initial bootQueues_booted) ran ⟨trivial, trivial, trivial⟩)
  have start : (bootedSystem bootForks).ReachableWhen FreshAppend bootQueues := .initial bootQueues_by
  have reached := start.of_run sameRun ⟨trivial, trivial, trivial⟩
  have allowed : FreshAppend resorted (.loadBalance 1) := trivial
  have inside := (held.inQueue_iff 0 16).mp place
  refine ⟨queues, reached.step allowed moved, fun atHome => ?_⟩
  exact held.taken_leaves taken inside moved ((atHome 0).2.2 ⟨0, 16, 16⟩ (by decide) rfl)

end AempOS.Sched
