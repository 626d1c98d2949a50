import AempOS.Task.SpacesProperties

/-! The pages of the kernel in the child of `sys_fork`. They are those of
`init_page_pte` unless a loop of `fork_mem_cpy` visits one of them, which the loop
over the heap does for every thread. -/

set_option autoImplicit false

namespace AempOS.Task

open Lib Memory

variable {layout : Layout} {kernel next : Kernel} {dirs : List Nat} {proc child : Nat} {result : Int}

/-- The child of a successful `sys_fork`. -/
theorem Housed.fork_child (held : Housed layout dirs kernel) (created : kernel.tasks.Created proc)
    (done : kernel.sysFork proc = some (next, result)) (success : result ≠ -1) :
    ∃ child : Nat, result = child ∧ (next.KernelKept child ↔ kernel.SparesKernel proc) ∧
      ((kernel.tasks.faces proc).type = .thread → ¬next.KernelKept child) := by
  obtain ⟨_, rfl⟩ | ⟨child, tasks, final, free, forked, changed, rfl⟩ := spaceFork_cases done
  · exact absurd rfl success
  have differ := free.ne created
  obtain ⟨changed, isResult⟩ := changed differ
  have exactly := fork_kernel_pages (held.forkable created differ) held.spaces
    (held.lodged proc created).words.fits forked
  have sameDir : (Kernel.settle tasks final).pages.cr3 child = final.cr3 child := by
    have own := congrFun changed.faces child
    rw [Function.update_self] at own
    exact congrArg Face.cr3 own
  have kept : (Kernel.settle tasks final).KernelKept child ↔ kernel.SparesKernel proc := by
    unfold Kernel.KernelKept
    rw [sameDir]
    exact exactly
  refine ⟨child, ?_, kept, fun isThread keeps => held.thread_visits created isThread (kept.mp keeps)⟩
  rw [isResult, held.tree.pid child free.high]

/-! ## One process -/

theorem sysFork_returns {final : PageState} {locked : Tasks}
    (allocated : kernel.tasks.allocPcb = some (locked, some child))
    (forked : kernel.pages.sysFork (kernel.memmap proc).toLinMemmap proc child = some final) :
    ∃ next result, kernel.sysFork proc = some (next, result) ∧ result ≠ -1 := by
  obtain ⟨⟨tasks, result⟩, called, notFailed⟩ : ∃ called, kernel.tasks.sysFork proc (final.cr3 child) = some called ∧
      called.2 ≠ -1 := by
    unfold Tasks.sysFork
    rw [allocated]
    refine ⟨_, rfl, fun wrong => ?_⟩
    simp only at wrong
    omega
  refine ⟨Kernel.settle tasks final, result, ?_, notFailed⟩
  simp only [Kernel.sysFork, allocated, forked, called, Option.bind_eq_bind, Option.bind_some]
  rfl

/-- Only PCB 1 is in use. -/
def loneTasks : Tasks where
  table i :=
    { emptyPcb i with
      stat := if i = 1 then .ready else .idle
      cr3 := if i = 1 then 0x00400000 else 0 }
  allocPcbLock := false
  uProcSum := 0

theorem loneTasks_booted : loneTasks.Booted where
  pid _ _ := rfl
  type _ _ := rfl
  free i _ high := if_neg (by unfold nrTasks nrInitials at high; omega)
  unlocked := rfl

theorem loneTasks_created {i : Nat} (created : loneTasks.Created i) : i = 1 := by
  by_contra other
  exact created.2 (if_neg other)

theorem loneTasks_cr3 (i : Nat) (alive : (loneTasks.table i).cr3 ≠ 0) : (loneTasks.table i).cr3 ∈ [0x00400000] := by
  by_cases same : i = 1
  · subst same
    exact List.mem_singleton.mpr rfl
  · exact absurd (if_neg same) alive

theorem lone_kernel :
    ∃ kernel : Kernel, kernel.tasks = loneTasks ∧ kernel.Execed lowLayout [0x00400000] 1 ∧
      Process [0x00400000] 1 kernel.pages ∧ Room 493 3996 kernel.man ∧
      (∀ addr ∈ stackAddrs, ∃ found, kernel.pages.entry 0x00400000 (addr / 4096) = some found) ∧
      (∀ page, KernelPage page → kernel.pages.entry 0x00400000 page = kernelEntry page) ∧
      ∀ page < kernelPage, (∀ addr ∈ stackAddrs, addr / 4096 ≠ page) →
        kernel.pages.entry 0x00400000 page = none := by
  obtain ⟨made, state, _, _, held, room, isDir, _, backed, entries, absent⟩ :=
    first_process stackAddrs (by decide) (by decide) (by decide : 7 < 4096) (by decide)
  have mem : (Kernel.settle loneTasks state).pages.mem = state.mem := rfl
  have same : (Kernel.settle loneTasks state).pages.cr3 1 = state.cr3 1 := isDir.symm
  have process : Process [0x00400000] 1 (Kernel.settle loneTasks state).pages :=
    held.congr mem rfl loneTasks_cr3 same
  have kernelPages : ∀ page, KernelPage page →
      (Kernel.settle loneTasks state).pages.entry 0x00400000 page = kernelEntry page := fun page isKernel =>
    (entry_congr mem _ page).trans (entries page isKernel.inside isKernel.1)
  have housed : Housed lowLayout [0x00400000] (Kernel.settle loneTasks state) := by
    refine .booted loneTasks_booted ⟨process.tables, fun dir member => ?_⟩ held.trusted
      (fun dir member page isKernel => ?_) fun i created => ?_
    · obtain rfl := List.mem_singleton.mp member
      exact process.absent
    · obtain rfl := List.mem_singleton.mp member
      exact ⟨(kernelPages page isKernel).trans isKernel.entry, fun table points => process.proper _ table points⟩
    · obtain rfl := loneTasks_created created
      exact ⟨List.mem_singleton.mpr rfl, execMemmap_words (by decide : 0 < 4294967296) (by decide : 0 < 4294967296)
        (by decide : 0 < 4294967296) (by decide : 0 < 4294967296)⟩
  refine ⟨Kernel.settle loneTasks state, rfl, ⟨housed, (by decide : loneTasks.Created 1), rfl, ⟨0, 0, 0, 0, rfl⟩⟩, process, room,
    fun addr member => ?_, kernelPages, fun page low apart => (entry_congr mem _ page).trans (absent page low apart)⟩
  · obtain ⟨found, isFound⟩ := (backed addr member).present
    rw [isDir] at isFound
    exact ⟨found, (entry_congr mem _ _).trans isFound⟩

/-! ## Runs -/

/-- In a run whose forks spared the kernel, the child of the next `sys_fork` has the
pages of the kernel as `init_page_pte` maps them exactly when that call spares the
kernel too. A thread that forks does not. -/
theorem fork_keeps_kernel_half (reached : (spaceSystem layout).ReachableWhen SparesKernel kernel)
    (done : kernel.perform layout (.fork proc) = some (next, result)) (success : result ≠ -1) :
    ∃ child : Nat, result = child ∧ (next.KernelKept child ↔ kernel.SparesKernel proc) ∧
      ((kernel.tasks.faces proc).type = .thread → ¬next.KernelKept child) := by
  obtain ⟨dirs, held⟩ := reached_housed reached
  have created : kernel.tasks.Created (SpaceCall.fork proc).caller := perform_created done
  unfold Kernel.perform at done
  rw [if_pos created] at done
  exact held.fork_child created done success

/-- The first process forks. -/
theorem fork_keeps_kernel_half_once :
    ∃ (kernel next : Kernel) (child : Nat), (spaceSystem lowLayout).ReachableWhen SparesKernel kernel ∧
      kernel.perform lowLayout (.fork 1) = some (next, (child : Int)) ∧
      (next.KernelKept child ↔ kernel.SparesKernel 1) ∧
      ((kernel.tasks.faces 1).type = .thread → ¬next.KernelKept child) := by
  obtain ⟨kernel, isLone, execed, process, room, present, _⟩ := lone_kernel
  have allocated : kernel.tasks.allocPcb = some ({ loneTasks with allocPcbLock := true }, some 16) := by
    rw [isLone]
    rfl
  have limit : kernel.pages.heapLimit 1 = heapLinBase := by
    unfold Kernel.pages Kernel.memmap
    rw [isLone]
    rfl
  have map : (kernel.memmap 1).toLinMemmap = initialMap := by
    unfold Kernel.memmap
    rw [isLone]
    rfl
  have isDir : kernel.pages.cr3 1 = 0x00400000 := by
    unfold Kernel.pages
    rw [isLone]
    rfl
  have loops := initialMap_loops
  rw [← limit] at loops
  obtain ⟨final, forked⟩ : ∃ final, kernel.pages.sysFork initialMap 1 16 = some final :=
    process.fork_returns (by decide) (by rw [limit]; decide) initialMap_fits loops
      (fun addr member => by rw [isDir]; exact present addr member) (room.le (by decide) (by decide))
  rw [← map] at forked
  obtain ⟨next, result, done, success⟩ := sysFork_returns allocated forked
  have created : kernel.tasks.Created 1 := by
    rw [isLone]
    decide
  have performed : kernel.perform lowLayout (.fork 1) = some (next, result) := by
    have caller : kernel.tasks.Created (SpaceCall.fork 1).caller := created
    unfold Kernel.perform
    rw [if_pos caller]
    exact done
  have reached : (spaceSystem lowLayout).ReachableWhen SparesKernel kernel := .initial ⟨_, _, execed⟩
  obtain ⟨child, rfl, kept, thread⟩ := fork_keeps_kernel_half reached performed success
  exact ⟨kernel, next, child, reached, performed, kept, thread⟩

/-- The table after PCB 1 made a thread. -/
def threadTasks : Tasks := ((loneTasks.sysPthread lowLayout 1 7).get rfl).1

theorem threadTasks_made : loneTasks.sysPthread lowLayout 1 7 = some (threadTasks, 16) := rfl

theorem threadTasks_cr3 (i : Nat) (alive : (threadTasks.table i).cr3 ≠ 0) :
    (threadTasks.table i).cr3 ∈ [0x00400000] := by
  have allocated : loneTasks.allocPcb = some ({ loneTasks with allocPcbLock := true }, some 16) := rfl
  obtain ⟨changed, _⟩ := sysPthread_found allocated threadTasks_made (by decide)
  have parent : loneTasks.parentOf 1 = 1 := rfl
  have isFace : (threadTasks.table i).cr3 = (threadTasks.faces i).cr3 := rfl
  rw [isFace, changed.faces, parent] at alive ⊢
  by_cases isChild : i = 16
  · subst isChild
    exact List.mem_singleton.mpr rfl
  · rw [Function.update_of_ne isChild] at alive ⊢
    by_cases isParent : i = 1
    · subst isParent
      exact List.mem_singleton.mpr rfl
    · rw [Function.update_of_ne isParent] at alive ⊢
      exact loneTasks_cr3 i alive

theorem mapUser_of_fresh {current who : Nat} {state final : PageState} {addrs : List Nat}
    (ran : addrs.foldlM (PageState.mapFresh who (pgP + pgUsu + pgRww)) state = some final) :
    addrs.foldlM (mapUser current who) state = some final := by
  induction addrs generalizing state with
  | nil =>
      cases ran
      rfl
  | cons addr rest ih =>
      simp only [List.foldlM_cons, Option.bind_eq_bind, Option.bind_eq_some_iff, PageState.mapFresh] at ran
      obtain ⟨mid, moved, ran⟩ := ran
      simp only [List.foldlM_cons, Option.bind_eq_bind, Option.bind_eq_some_iff]
      refine ⟨mid, ?_, ih ran⟩
      unfold mapUser
      exact mapOk_current moved

/-- The addresses by which the stack of the first thread is mapped. -/
def threadStack : List Nat := [0x88003FFC, 0x88002FFC, 0x88001FFC, 0x88000FFC]

theorem threadStack_loop : descending 0x88000000 loopFuel 0x88003FFC = some threadStack := by decide

/-- The memory map of the first thread. -/
def threadMap : LinMemmap :=
  { initialMap with
    heapLinBase := lowLayout.heapBaseField 1
    stackLinBase := 0x88003FFC
    stackLinLimit := 0x88000000 }

theorem threadMap_fits : threadMap.Fits :=
  ⟨by decide, by decide, by decide, by decide, by decide, by decide⟩

theorem threadMap_loops :
    Loops threadMap (lowLayout.heapLimitField 1) [] (lowLayout.heapBaseField 1 :: threadStack) :=
  ⟨by decide, [], [], [lowLayout.heapBaseField 1], threadStack, [], by decide, by decide, by decide, by decide,
    by decide, by decide⟩

theorem lone_pthread :
    ∃ kernel next : Kernel, kernel.tasks = loneTasks ∧ kernel.Execed lowLayout [0x00400000] 1 ∧
      Proper kernel.pages 0x00400000 ∧ kernel.perform lowLayout (.pthread 1 7) = some (next, 16) ∧
      next.tasks = threadTasks ∧ Process [0x00400000] 16 next.pages ∧ Room 489 3992 next.man ∧
      ∀ addr ∈ lowLayout.heapBaseField 1 :: threadStack,
        ∃ found, next.pages.entry 0x00400000 (addr / 4096) = some found := by
  obtain ⟨kernel, isLone, execed, process, room, _, entries, absent⟩ := lone_kernel
  have mem : (Kernel.pages { kernel with tasks := threadTasks }).mem = kernel.pages.mem := rfl
  have isDir : kernel.pages.cr3 1 = 0x00400000 := by
    unfold Kernel.pages
    rw [isLone]
    rfl
  have same : (Kernel.pages { kernel with tasks := threadTasks }).cr3 16 = kernel.pages.cr3 1 := isDir.symm
  have thread : Process [0x00400000] 16 (Kernel.pages { kernel with tasks := threadTasks }) :=
    process.congr mem rfl threadTasks_cr3 same
  have threadDir : (Kernel.pages { kernel with tasks := threadTasks }).cr3 16 = 0x00400000 := rfl
  have below : ∀ addr ∈ threadStack, addr < Memory.kernelLinBase := by decide
  have apart : ∀ addr ∈ threadStack, addr / 4096 < kernelPage ∧ ∀ other ∈ stackAddrs, other / 4096 ≠ addr / 4096 := by
    decide
  obtain ⟨final, ran, finalProcess, finalRoom, cr3, _, backs, others⟩ := thread.load below (by decide : pgP + pgUsu + pgRww < 4096)
    (by decide) (room.le (by decide : 489 + threadStack.length ≤ 493) (by decide : 3992 + threadStack.length ≤ 3996))
    fun addr member => by
      rw [threadDir]
      exact .inl ((entry_congr mem _ _).trans (absent _ (apart addr member).1 (apart addr member).2))
  have mapped : threadStack.foldlM (mapUser 1 16) (Kernel.pages { kernel with tasks := threadTasks }) = some final :=
    mapUser_of_fresh ran
  have after : (Kernel.settle threadTasks final).pages.mem = final.mem := rfl
  have finalDir : final.cr3 16 = 0x00400000 := by rw [cr3, threadDir]
  have created : kernel.tasks.Created 1 := by
    rw [isLone]
    decide
  have done : kernel.perform lowLayout (.pthread 1 7) = some (Kernel.settle threadTasks final, 16) := by
    have allocated : kernel.tasks.allocPcb = some ({ loneTasks with allocPcbLock := true }, some 16) := by
      rw [isLone]
      rfl
    have called : kernel.tasks.sysPthread lowLayout 1 7 = some (threadTasks, 16) := isLone ▸ threadTasks_made
    have stack : Kernel.mapStack (Kernel.pages { kernel with tasks := threadTasks }) 1 16
        (Kernel.memmap { kernel with tasks := threadTasks } 16) = some final := by
      have loop : descending (Kernel.memmap { kernel with tasks := threadTasks } 16).stackLinLimit loopFuel
          (Kernel.memmap { kernel with tasks := threadTasks } 16).stackLinBase = some threadStack := threadStack_loop
      simp only [Kernel.mapStack, PageState.overArea, loop, Option.bind_some]
      exact mapped
    have caller : kernel.tasks.Created (SpaceCall.pthread 1 7).caller := created
    unfold Kernel.perform
    rw [if_pos caller]
    simp only [Kernel.sysPthread, allocated, called, stack, Option.bind_eq_bind, Option.bind_some]
    rfl
  have proper : Proper kernel.pages 0x00400000 := isDir ▸ process.proper
  refine ⟨kernel, Kernel.settle threadTasks final, isLone, execed, proper, done, rfl,
    finalProcess.congr after rfl threadTasks_cr3 finalDir.symm, finalRoom, fun addr member => ?_⟩
  rw [entry_congr after]
  rcases List.mem_cons.mp member with rfl | inStack
  · have isKernel : KernelPage (lowLayout.heapBaseField 1 / 4096) := by
      unfold KernelPage
      decide
    have outside : ∀ addr ∈ threadStack, addr / 4096 ≠ lowLayout.heapBaseField 1 / 4096 := by decide
    have kept := others _ isKernel.inside outside
    rw [threadDir] at kept
    rw [kept, entry_congr mem, entries _ isKernel]
    exact ⟨_, isKernel.entry⟩
  · have inside : addr / 4096 < 1048576 := Nat.lt_trans (apart addr inStack).1 (by decide)
    obtain ⟨found, isFound⟩ := (backs _ inside (.inr ⟨addr, inStack, rfl⟩)).present
    rw [finalDir] at isFound
    exact ⟨found, isFound⟩

theorem thread_kernel :
    ∃ kernel : Kernel, kernel.tasks = threadTasks ∧
      (spaceSystem lowLayout).ReachableWhen SparesKernel kernel ∧ Process [0x00400000] 16 kernel.pages ∧
      Room 489 3992 kernel.man ∧
      ∀ addr ∈ lowLayout.heapBaseField 1 :: threadStack,
        ∃ found, kernel.pages.entry 0x00400000 (addr / 4096) = some found := by
  obtain ⟨kernel, next, _, execed, _, done, isThread, thread, room, present⟩ := lone_pthread
  have start : (spaceSystem lowLayout).ReachableWhen SparesKernel kernel := .initial ⟨_, _, execed⟩
  have moved : (spaceSystem lowLayout).step kernel (.pthread 1 7) = some next := by
    change (kernel.perform lowLayout (.pthread 1 7)).map Prod.fst = _
    rw [done]
    rfl
  have free : SparesKernel kernel (.pthread 1 7) := trivial
  exact ⟨next, isThread, start.step free moved, thread, room, present⟩

/-- A thread forks: its child has a page of the kernel of its own. -/
theorem thread_fork_remaps_kernel :
    ∃ (kernel next : Kernel) (child : Nat), (spaceSystem lowLayout).Reachable kernel ∧
      kernel.perform lowLayout (.fork 16) = some (next, (child : Int)) ∧ ¬next.KernelKept child := by
  obtain ⟨kernel, isThread, reached, process, room, present⟩ := thread_kernel
  have allocated : kernel.tasks.allocPcb = some ({ threadTasks with allocPcbLock := true }, some 17) := by
    rw [isThread]
    rfl
  have limit : kernel.pages.heapLimit 16 = lowLayout.heapLimitField 1 := by
    unfold Kernel.pages Kernel.memmap
    rw [isThread]
    rfl
  have map : (kernel.memmap 16).toLinMemmap = threadMap := by
    unfold Kernel.memmap
    rw [isThread]
    rfl
  have isDir : kernel.pages.cr3 16 = 0x00400000 := by
    unfold Kernel.pages
    rw [isThread]
    rfl
  have loops := threadMap_loops
  rw [← limit] at loops
  obtain ⟨final, forked⟩ : ∃ final, kernel.pages.sysFork threadMap 16 17 = some final :=
    process.fork_returns (by decide) (by rw [limit]; decide) threadMap_fits loops
      (fun addr member => by rw [isDir]; exact present addr member) (room.le (by decide) (by decide))
  rw [← map] at forked
  obtain ⟨next, result, done, success⟩ := sysFork_returns allocated forked
  have created : kernel.tasks.Created 16 := by
    rw [isThread]
    decide
  obtain ⟨dirs, held⟩ := reached_housed reached
  obtain ⟨child, rfl, _, thread⟩ := held.fork_child created done success
  have type : (kernel.tasks.faces 16).type = .thread := by
    rw [isThread]
    rfl
  refine ⟨kernel, next, child, reached.reachable, ?_, thread type⟩
  have caller : kernel.tasks.Created (SpaceCall.fork 16).caller := created
  unfold Kernel.perform
  rw [if_pos caller]
  exact done

end AempOS.Task
