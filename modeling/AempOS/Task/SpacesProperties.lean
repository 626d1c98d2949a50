import AempOS.Task.Spaces

/-! What every run of `sys_fork`, `sys_pthread` and `sys_malloc` keeps of the address
spaces, as long as no loop of `fork_mem_cpy` visits a page of the kernel. The heap of
a thread is two pointers into the process table, so a thread that forks visits one. -/

set_option autoImplicit false

namespace AempOS.Task

open Lib Memory

variable {layout : Layout} {kernel next : Kernel} {dirs : List Nat} {proc child entry size : Nat} {result : Int}

theorem execMemmap_words {textBase textLimit dataBase dataLimit : Nat} (textBaseSmall : textBase < 4294967296)
    (textLimitSmall : textLimit < 4294967296) (dataBaseSmall : dataBase < 4294967296)
    (dataLimitSmall : dataLimit < 4294967296) : (execMemmap textBase textLimit dataBase dataLimit).Words := by
  refine ⟨⟨⟨textBaseSmall, textLimitSmall⟩, ⟨dataBaseSmall, dataLimitSmall⟩, ?_, ?_, ?_, ?_⟩, ?_, ?_⟩ <;>
    simp only [execMemmap] <;> decide

/-! ## Loops -/

theorem wordsBelow_address {limit fuel addr : Nat} {addrs : List Nat} (address : addr < 4294967296)
    (ran : Kernel.wordsBelow limit fuel addr = some addrs) : ∀ other ∈ addrs, other < 4294967296 := by
  induction fuel generalizing addr addrs with
  | zero => cases ran
  | succ fuel ih =>
      unfold Kernel.wordsBelow at ran
      split at ran
      next =>
          obtain ⟨rest, ranRest, rfl⟩ := Option.map_eq_some_iff.mp ran
          intro other member
          rcases List.mem_cons.mp member with rfl | inRest
          · exact address
          · refine ih ?_ ranRest other inRest
            unfold add32
            omega
      next =>
          cases ran
          simp

theorem descending_address {limit base : Nat} {addrs : List Nat} (address : base < 4294967296)
    (ran : descending limit loopFuel base = some addrs) : ∀ addr ∈ addrs, addr < 4294967296 := by
  intro addr member
  obtain ⟨k, sum, _⟩ := (descending_visited address ran addr).mp member
  omega

/-! ## What the calls do -/

/-- The loop body by which `sys_malloc` and `pthread_stack_init` map a page. -/
def mapUser (current who : Nat) (state : PageState) (lin : Nat) : Option PageState :=
  state.mapOk current lin failed who (pgP + pgUsu + pgRww) (pgP + pgUsu + pgRww)

theorem bump_faces (tasks : Tasks) (owner size : Nat) :
    (tasks.modify owner fun pcb =>
      { pcb with memmap := { pcb.memmap with heapLinLimit := add32 pcb.memmap.heapLinLimit size } }).faces =
      Function.update tasks.faces owner
        { tasks.faces owner with memmap := { (tasks.faces owner).memmap with
            heapLinLimit := add32 (tasks.faces owner).memmap.heapLinLimit size } } :=
  modify_faces tasks owner _

/-- `sys_malloc` moves the end of a heap and maps the words of the region. -/
theorem sysMalloc_cases {addr : Nat} (done : kernel.sysMalloc layout proc size = some (next, addr)) :
    ∃ owner tasks addrs final, kernel.heapOwner layout proc = some owner ∧
      addr = (kernel.tasks.faces owner).memmap.heapLinLimit ∧
      tasks.faces = Function.update kernel.tasks.faces owner
        { kernel.tasks.faces owner with memmap := { (kernel.tasks.faces owner).memmap with
            heapLinLimit := add32 (kernel.tasks.faces owner).memmap.heapLinLimit size } } ∧
      Kernel.wordsBelow (add32 addr size) Kernel.wordFuel addr = some addrs ∧
      addrs.foldlM (mapUser proc proc) (Kernel.pages { kernel with tasks := tasks }) = some final ∧
      next = Kernel.settle tasks final := by
  simp only [Kernel.sysMalloc, Kernel.vmalloc, PageState.overArea, Option.bind_eq_bind,
    Option.bind_eq_some_iff, Option.map_eq_some_iff] at done
  obtain ⟨⟨reserved, start⟩, ⟨owner, isOwner, isReserved⟩, final, ⟨addrs, visited, ran⟩, isNext⟩ := done
  obtain ⟨rfl, rfl⟩ := Prod.mk.inj isReserved
  obtain ⟨rfl, rfl⟩ := Prod.mk.inj (Option.some.inj isNext)
  exact ⟨owner, _, addrs, final, isOwner, rfl, bump_faces kernel.tasks owner size, visited, ran, rfl⟩

/-- `sys_pthread` finds no PCB, or makes a thread and maps its stack. -/
theorem spacePthread_cases (done : kernel.sysPthread layout proc entry = some (next, result)) :
    (next = { kernel with tasks := { kernel.tasks with allocPcbLock := true } } ∧ result = -1) ∨
      ∃ child tasks addrs final, FreePcb kernel.tasks child ∧
        (kernel.tasks.parentOf proc ≠ child →
          Threaded layout kernel.tasks (kernel.tasks.parentOf proc) child tasks ∧
            result = (kernel.tasks.faces child).pid) ∧
        descending (tasks.faces child).memmap.stackLinLimit loopFuel (tasks.faces child).memmap.stackLinBase =
          some addrs ∧
        addrs.foldlM (mapUser proc child) (Kernel.pages { kernel with tasks := tasks }) = some final ∧
        next = Kernel.settle tasks final := by
  simp only [Kernel.sysPthread, Option.bind_eq_bind, Option.bind_eq_some_iff] at done
  obtain ⟨⟨locked, found⟩, allocated, done⟩ := done
  obtain ⟨_, rfl, isFree⟩ := allocPcb_cases allocated
  cases found with
  | none =>
      obtain ⟨rfl, rfl⟩ := Prod.mk.inj (Option.some.inj done)
      exact .inl ⟨rfl, rfl⟩
  | some child =>
      simp only [Kernel.mapStack, PageState.overArea, Option.bind_eq_some_iff] at done
      obtain ⟨⟨tasks, pid⟩, called, final, ⟨addrs, visited, ran⟩, isNext⟩ := done
      obtain ⟨rfl, rfl⟩ := Prod.mk.inj (Option.some.inj isNext)
      exact .inr ⟨child, tasks, addrs, final, isFree child rfl, fun differ => sysPthread_found allocated called differ,
        visited, ran, rfl⟩

/-- `sys_fork` with the PCB that `alloc_PCB` finds. -/
theorem spaceFork_found {locked : Tasks}
    (allocated : kernel.tasks.allocPcb = some (locked, some child)) (done : kernel.sysFork proc = some (next, result)) :
    ∃ tasks final, kernel.pages.sysFork (kernel.memmap proc).toLinMemmap proc child = some final ∧
      (proc ≠ child → Forked kernel.tasks proc child (final.cr3 child) tasks ∧
        result = (kernel.tasks.faces child).pid) ∧
      next = Kernel.settle tasks final := by
  simp only [Kernel.sysFork, allocated, Option.bind_eq_bind, Option.bind_some, Option.bind_eq_some_iff] at done
  obtain ⟨final, forked, ⟨tasks, pid⟩, called, isNext⟩ := done
  obtain ⟨rfl, rfl⟩ := Prod.mk.inj (Option.some.inj isNext)
  exact ⟨tasks, final, forked, fun differ => sysFork_found allocated called differ, rfl⟩

/-- `sys_fork` finds no PCB, or makes a child. -/
theorem spaceFork_cases (done : kernel.sysFork proc = some (next, result)) :
    (next = { kernel with tasks := { kernel.tasks with allocPcbLock := true } } ∧ result = -1) ∨
      ∃ child tasks final, FreePcb kernel.tasks child ∧
        kernel.pages.sysFork (kernel.memmap proc).toLinMemmap proc child = some final ∧
        (proc ≠ child → Forked kernel.tasks proc child (final.cr3 child) tasks ∧
          result = (kernel.tasks.faces child).pid) ∧
        next = Kernel.settle tasks final := by
  obtain ⟨⟨locked, found⟩, allocated, _⟩ := Option.bind_eq_some_iff.mp done
  obtain ⟨_, rfl, isFree⟩ := allocPcb_cases allocated
  cases found with
  | none =>
      simp only [Kernel.sysFork, allocated, Option.bind_eq_bind, Option.bind_some] at done
      obtain ⟨rfl, rfl⟩ := Prod.mk.inj (Option.some.inj done)
      exact .inl ⟨rfl, rfl⟩
  | some child =>
      obtain ⟨tasks, final, forked, changed, isNext⟩ := spaceFork_found allocated done
      exact .inr ⟨child, tasks, final, isFree child rfl, forked, changed, isNext⟩

/-! ## Steps -/

namespace Housed

theorem created_of_faces {tasks after : Tasks} {i : Nat} (same : (after.faces i).stat = (tasks.faces i).stat)
    (created : after.Created i) : tasks.Created i := by
  rw [created_faces] at created ⊢
  exact ⟨created.1, same ▸ created.2⟩

theorem cr3_mem (held : Housed layout dirs kernel) (created : kernel.tasks.Created proc) :
    kernel.pages.cr3 proc ∈ dirs := (held.lodged proc created).cr3

theorem alive (held : Housed layout dirs kernel) (created : kernel.tasks.Created proc) :
    kernel.pages.cr3 proc ≠ 0 := held.spaces.tables.ne_zero (held.cr3_mem created)

theorem locked (held : Housed layout dirs kernel) :
    Housed layout dirs { kernel with tasks := { kernel.tasks with allocPcbLock := true } } :=
  ⟨held.spaces, held.trusted, held.pinned, held.tree.locked, held.lodged⟩

/-- The calls on memory that map fresh pages only. -/
theorem settle {tasks : Tasks} {final : PageState} (held : Housed layout dirs { kernel with tasks := tasks })
    (touches : Touches dirs (fun _ _ => False) (Kernel.pages { kernel with tasks := tasks }) final)
    (trusted : Trusted final.man) : Housed layout dirs (Kernel.settle tasks final) := by
  have mem : (Kernel.settle tasks final).pages.mem = final.mem := rfl
  have spaces := touches.spaces held.spaces
  have cr3 : ∀ i, (Kernel.settle tasks final).pages.cr3 i = final.cr3 i := by
    intro i
    rw [touches.cr3 held.spaces]
    rfl
  refine ⟨?_, trusted, fun dir member page isKernel => ?_, held.tree, held.lodged⟩
  · refine Spaces.congr mem spaces rfl fun i alive => ?_
    rw [cr3] at alive ⊢
    exact spaces.tables.cr3 i alive
  · have pinned := held.pinned dir member page isKernel
    exact Pinned.congr mem (pinned.touches touches held.spaces member isKernel.inside fun wrong => wrong)

/-- A table in which every PCB has an address space that it had before, or one of
another PCB. -/
theorem retable {tasks : Tasks} (held : Housed layout dirs kernel) (tree : TreeSound tasks)
    (cr3 : ∀ i, (tasks.table i).cr3 ≠ 0 → (tasks.table i).cr3 ∈ dirs)
    (lodged : ∀ i, tasks.Created i → Lodged layout dirs (tasks.faces i)) :
    Housed layout dirs { kernel with tasks := tasks } := by
  have mem : (Kernel.pages { kernel with tasks := tasks }).mem = kernel.pages.mem := rfl
  exact ⟨Spaces.congr mem held.spaces rfl cr3, held.trusted,
    fun dir member page isKernel => Pinned.congr mem (held.pinned dir member page isKernel), tree, lodged⟩

theorem cr3_known (held : Housed layout dirs kernel) (i : Nat) (alive : (kernel.tasks.faces i).cr3 ≠ 0) :
    (kernel.tasks.faces i).cr3 ∈ dirs := held.spaces.tables.cr3 i alive

/-- The heap that a caller uses is that of its process. -/
theorem heapOwner (held : Housed layout dirs kernel) (created : kernel.tasks.Created proc) :
    kernel.heapOwner layout proc = some (kernel.tasks.parentOf proc) := by
  unfold Kernel.heapOwner Tasks.parentOf
  cases type : kernel.tasks.typeOf proc with
  | process => rfl
  | thread =>
      obtain ⟨owner, inside, named, _, limit⟩ := (held.lodged proc created).heap type
      have isOwner : (kernel.tasks.table proc).info.ppid.toNat = owner := by
        have named : (kernel.tasks.table proc).info.ppid = owner := named
        rw [named]
        rfl
      have isLimit : (kernel.memmap proc).heapLinLimit = layout.heapLimitField owner := limit
      simp only [isOwner, isLimit]
      rw [List.find?_range_eq_some]
      unfold Layout.heapLimitField
      refine ⟨by simp, List.mem_range.mpr inside, fun j below => ?_⟩
      simp only [Bool.not_eq_true', decide_eq_false_iff_not]
      omega

end Housed

/-- A call that changes memory maps only keeps the tree. -/
theorem TreeSound.remap {tasks after : Tasks} (sound : TreeSound tasks)
    (same : ∀ i, ∃ map, after.faces i = { tasks.faces i with memmap := map }) : TreeSound after := by
  have type : ∀ i, (after.faces i).type = (tasks.faces i).type := fun i => by
    obtain ⟨_, isFace⟩ := same i
    rw [isFace]
  have ppid : ∀ i, (after.faces i).ppid = (tasks.faces i).ppid := fun i => by
    obtain ⟨_, isFace⟩ := same i
    rw [isFace]
  have cr3 : ∀ i, (after.faces i).cr3 = (tasks.faces i).cr3 := fun i => by
    obtain ⟨_, isFace⟩ := same i
    rw [isFace]
  have created : ∀ i, after.Created i ↔ tasks.Created i := fun i => by
    obtain ⟨_, isFace⟩ := same i
    rw [created_faces, created_faces, isFace]
  constructor
  · intro i isCreated isThread
    obtain ⟨owner, named, ownerCreated, isProcess, sameSpace⟩ :=
      sound.tree i ((created i).mp isCreated) ((type i).symm.trans isThread)
    refine ⟨owner, (ppid i).trans named, (created owner).mpr ownerCreated, (type owner).trans isProcess, ?_⟩
    rw [cr3, cr3, sameSpace]
  · intro i inside
    obtain ⟨_, isFace⟩ := same i
    rw [isFace]
    exact sound.pid i inside

namespace Housed

/-! ### `sys_malloc` -/

theorem Lodged.bump {face : Face} (lodged : Lodged layout dirs face) (isProcess : face.type = .process) :
    Lodged layout dirs { face with memmap := { face.memmap with
      heapLinLimit := add32 face.memmap.heapLinLimit size } } := by
  refine ⟨lodged.cr3, ⟨lodged.words.fits, ?_, lodged.words.stackChildLimit⟩, fun isThread => ?_⟩
  · exact Nat.mod_lt _ (by decide)
  · rw [isProcess] at isThread
    cases isThread

/-- The table in which `vmalloc` moved the end of a heap. -/
theorem bumped {owner : Nat} {tasks : Tasks} (held : Housed layout dirs kernel) (created : kernel.tasks.Created owner)
    (isProcess : (kernel.tasks.faces owner).type = .process)
    (faces : tasks.faces = Function.update kernel.tasks.faces owner
      { kernel.tasks.faces owner with memmap := { (kernel.tasks.faces owner).memmap with
          heapLinLimit := add32 (kernel.tasks.faces owner).memmap.heapLinLimit size } }) :
    Housed layout dirs { kernel with tasks := tasks } := by
  have lodgedOwner := held.lodged _ created
  have same : ∀ i, ∃ map, tasks.faces i = { kernel.tasks.faces i with memmap := map } := by
    intro i
    rw [faces]
    by_cases isThis : i = owner
    · subst isThis
      exact ⟨_, Function.update_self ..⟩
    · exact ⟨_, Function.update_of_ne isThis _ _⟩
  refine held.retable (held.tree.remap same) (fun i alive => ?_) fun i isCreated => ?_
  · have isCr3 : (tasks.table i).cr3 = (kernel.tasks.faces i).cr3 := by
      obtain ⟨_, isFace⟩ := same i
      exact congrArg Face.cr3 isFace
    rw [isCr3] at alive ⊢
    exact held.cr3_known i alive
  · rw [faces]
    by_cases isThis : i = owner
    · subst isThis
      rw [Function.update_self]
      exact Lodged.bump lodgedOwner isProcess
    · rw [Function.update_of_ne isThis]
      refine held.lodged i (created_of_faces ?_ isCreated)
      rw [faces, Function.update_of_ne isThis]

theorem malloc {addr : Nat} (held : Housed layout dirs kernel) (created : kernel.tasks.Created proc)
    (done : kernel.sysMalloc layout proc size = some (next, addr)) : Housed layout dirs next := by
  obtain ⟨owner, tasks, addrs, final, isOwner, isAddr, faces, visited, ran, rfl⟩ := sysMalloc_cases done
  obtain rfl : kernel.tasks.parentOf proc = owner := Option.some.inj ((held.heapOwner created).symm.trans isOwner)
  obtain ⟨ownerCreated, isProcess, _⟩ := held.tree.parentOf created
  have lodgedOwner := held.lodged _ ownerCreated
  have retabled := held.bumped ownerCreated isProcess faces
  have start : addr < 4294967296 := by
    rw [isAddr]
    exact lodgedOwner.words.heapLinLimit
  have callerCreated : tasks.Created proc := by
    refine created_of_faces ?_ created
    rw [faces]
    by_cases isThis : proc = kernel.tasks.parentOf proc
    · rw [← isThis, Function.update_self]
    · rw [Function.update_of_ne isThis]
  obtain ⟨touches, trusted⟩ := mapLoop_touches retabled.spaces retabled.trusted (retabled.alive callerCreated)
    (wordsBelow_address start visited) ran
  exact retabled.settle touches trusted

/-! ### `sys_pthread` -/

theorem Lodged.thread {face : Face} {parent : Nat} {pid : Nat} {stat : ProcStat} (lodged : Lodged layout dirs face)
    (inside : parent < nrPcbs) (isPid : face.pid = parent) :
    Lodged layout dirs { face with
      type := .thread
      ppid := face.pid
      pid := pid
      stat := stat
      memmap := { face.memmap with
        heapLinBase := layout.heapBaseField parent
        heapLinLimit := layout.heapLimitField parent
        stackLinLimit := face.memmap.stackChildLimit
        stackLinBase := sub32 (add32 face.memmap.stackChildLimit 0x4000) 4 } } := by
  have fits := lodged.words.fits
  have high := layout.high
  have child := lodged.words.stackChildLimit
  have base : layout.heapBaseField parent < 4294967296 ∧ layout.heapLimitField parent < 4294967296 := by
    unfold Layout.heapBaseField Layout.heapLimitField
    unfold nrPcbs Memory.kernelLinBase kernelSize at *
    omega
  have stack : sub32 (add32 face.memmap.stackChildLimit 0x4000) 4 < 4294967296 := by
    unfold sub32
    omega
  exact ⟨lodged.cr3, ⟨⟨fits.text, fits.data, fits.vpage, base.1, ⟨stack, child⟩, fits.arg⟩, base.2, child⟩,
    fun _ => ⟨parent, inside, by rw [isPid], rfl, rfl⟩⟩

theorem Lodged.cut {face : Face} (lodged : Lodged layout dirs face) :
    Lodged layout dirs { face with memmap := { face.memmap with
      stackChildLimit := add32 face.memmap.stackChildLimit 0x4000 } } := by
  refine ⟨lodged.cr3, ⟨lodged.words.fits, lodged.words.heapLinLimit, ?_⟩, lodged.heap⟩
  exact Nat.mod_lt _ (by decide)

/-- The table that `sys_pthread` leaves. -/
theorem threaded {tasks : Tasks} {parent : Nat} (held : Housed layout dirs kernel)
    (created : kernel.tasks.Created parent) (isProcess : (kernel.tasks.faces parent).type = .process)
    (free : FreePcb kernel.tasks child) (changed : Threaded layout kernel.tasks parent child tasks) :
    Housed layout dirs { kernel with tasks := tasks } := by
  have lodgedParent := held.lodged parent created
  have isPid := held.tree.pid parent created.1
  refine held.retable (held.tree.pthread created isProcess free changed) (fun i alive => ?_) fun i isCreated => ?_
  · have isCr3 : (tasks.table i).cr3 = (tasks.faces i).cr3 := rfl
    rw [isCr3, changed.faces] at alive ⊢
    by_cases isChild : i = child
    · subst isChild
      rw [Function.update_self]
      exact lodgedParent.cr3
    · rw [Function.update_of_ne isChild] at alive ⊢
      by_cases isParent : i = parent
      · subst isParent
        rw [Function.update_self]
        exact lodgedParent.cr3
      · rw [Function.update_of_ne isParent] at alive ⊢
        exact held.cr3_known i alive
  · by_cases isChild : i = child
    · subst isChild
      rw [changed.faces, Function.update_self]
      exact Lodged.thread lodgedParent created.1 isPid
    · by_cases isParent : i = parent
      · subst isParent
        rw [changed.faces, Function.update_of_ne isChild, Function.update_self]
        exact Lodged.cut lodgedParent
      · have same : tasks.faces i = kernel.tasks.faces i := by
          rw [changed.faces, Function.update_of_ne isChild, Function.update_of_ne isParent]
        rw [same]
        exact held.lodged i (created_of_faces (by rw [same]) isCreated)

theorem pthread (held : Housed layout dirs kernel) (created : kernel.tasks.Created proc)
    (done : kernel.sysPthread layout proc entry = some (next, result)) : Housed layout dirs next := by
  obtain ⟨rfl, _⟩ | ⟨child, tasks, addrs, final, free, changed, visited, ran, rfl⟩ := spacePthread_cases done
  · exact held.locked
  obtain ⟨isCreated, isProcess, _⟩ := held.tree.parentOf created
  obtain ⟨changed, _⟩ := changed (free.ne isCreated)
  have retabled := held.threaded isCreated isProcess free changed
  have own := congrFun changed.faces child
  rw [Function.update_self] at own
  have childCreated : tasks.Created child := by
    rw [created_faces, own]
    exact ⟨free.high, fun wrong => by cases wrong⟩
  have base : (tasks.faces child).memmap.stackLinBase < 4294967296 :=
    (retabled.lodged child childCreated).words.fits.stack.1
  obtain ⟨touches, trusted⟩ := mapLoop_touches retabled.spaces retabled.trusted (retabled.alive childCreated)
    (descending_address base visited) ran
  exact retabled.settle touches trusted

/-! ### `sys_fork` -/

theorem forkable (held : Housed layout dirs kernel) (created : kernel.tasks.Created proc) (differ : proc ≠ child) :
    Forkable dirs proc child kernel.pages :=
  ⟨held.spaces.tables, held.trusted, held.alive created, differ,
    held.spaces.absent _ (held.cr3_mem created), (held.lodged proc created).words.heapLinLimit⟩

end Housed

/-- No loop of `fork_mem_cpy` visits a page of the kernel. -/
def Kernel.SparesKernel (kernel : Kernel) (proc : Nat) : Prop :=
  ∀ addr, (kernel.memmap proc).toLinMemmap.Visited (kernel.memmap proc).heapLinLimit addr → ¬KernelPage (addr / 4096)

/-- A thread that forks visits the page of its parent's PCB. -/
theorem Housed.thread_visits (held : Housed layout dirs kernel) (created : kernel.tasks.Created proc)
    (isThread : (kernel.tasks.faces proc).type = .thread) : ¬kernel.SparesKernel proc := by
  obtain ⟨owner, inside, _, base, limit⟩ := (held.lodged proc created).heap isThread
  have isBase : (kernel.memmap proc).heapLinBase = layout.heapBaseField owner := base
  have isLimit : (kernel.memmap proc).heapLinLimit = layout.heapLimitField owner := limit
  have low := layout.low
  have high := layout.high
  intro spares
  refine spares (layout.heapBaseField owner) (.inr (.inr (.inr (.inl ⟨0, by rw [isBase]; omega, ?_⟩)))) ?_
  · rw [isLimit]
    unfold Layout.heapBaseField Layout.heapLimitField
    omega
  · unfold KernelPage kernelPage Layout.heapBaseField
    unfold nrPcbs Memory.kernelLinBase kernelSize at *
    omega

namespace Housed

/-- What `sys_fork` leaves, when it found a PCB and spared the kernel. -/
theorem fork (held : Housed layout dirs kernel) (created : kernel.tasks.Created proc)
    (spares : kernel.SparesKernel proc) (done : kernel.sysFork proc = some (next, result)) :
    ∃ more, Housed layout more next := by
  obtain ⟨rfl, _⟩ | ⟨child, tasks, final, free, forked, changed, rfl⟩ := spaceFork_cases done
  · exact ⟨dirs, held.locked⟩
  have differ := free.ne created
  obtain ⟨changed, _⟩ := changed differ
  have lodged := held.lodged proc created
  have ready := held.forkable created differ
  obtain ⟨made, space, forking, touches, _⟩ := sysFork_touches ready held.spaces lodged.words.fits forked
  have newSpaces : Spaces ((alloc4k .kernel kernel.pages.man).2 :: dirs) (made.inherit proc child) :=
    ⟨space.tables.inherit, (space.spaces held.spaces).absent⟩
  have isProcess : (kernel.tasks.faces proc).type = .process := by
    cases type : (kernel.tasks.faces proc).type with
    | process => rfl
    | thread => exact absurd spares (held.thread_visits created type)
  have isDir : final.cr3 child = (alloc4k .kernel kernel.pages.man).2 := forking.childDir
  rw [isDir] at changed
  generalize (alloc4k .kernel kernel.pages.man).2 = dir at *
  have own := congrFun changed.faces child
  rw [Function.update_self] at own
  have others : ∀ i, i ≠ child → tasks.faces i = kernel.tasks.faces i := fun i other => by
    rw [changed.faces, Function.update_of_ne other]
  have mem : (Kernel.settle tasks final).pages.mem = final.mem := rfl
  refine ⟨dir :: dirs, Spaces.congr mem (touches.spaces newSpaces) rfl fun i alive => ?_, forking.trusted,
    fun other member page isKernel => ?_, held.tree.fork isProcess free changed, fun i isCreated => ?_⟩
  · have isCr3 : (Kernel.settle tasks final).pages.cr3 i = (tasks.faces i).cr3 := rfl
    rw [isCr3] at alive ⊢
    by_cases isChild : i = child
    · subst isChild
      rw [own]
      exact List.mem_cons_self
    · rw [others i isChild] at alive ⊢
      exact List.mem_cons_of_mem _ (held.cr3_known i alive)
  · have spared : ¬ForkTouches (kernel.memmap proc).toLinMemmap (kernel.pages.heapLimit proc)
        (kernel.pages.cr3 proc) dir other page := by
      rintro (⟨_, rfl⟩ | ⟨_, addr, visited, rfl⟩)
      · exact absurd isKernel (by unfold KernelPage; decide)
      · exact spares addr visited isKernel
    refine Pinned.congr mem (Pinned.touches ?_ touches newSpaces member isKernel.inside spared)
    rcases List.mem_cons.mp member with rfl | old
    · refine ⟨?_, fun table points => space.proper _ table ⟨points.index, points.present, points.base⟩⟩
      rw [← isKernel.entry]
      exact space.new page isKernel.inside
    · have madeMem : (made.inherit proc child).mem = made.mem := rfl
      exact Pinned.congr madeMem ((held.pinned other old page isKernel).newSpace space old isKernel.inside)
  · have settled : (Kernel.settle tasks final).tasks.faces i = tasks.faces i := rfl
    by_cases isChild : i = child
    · subst isChild
      rw [settled, own]
      refine ⟨List.mem_cons_self, lodged.words, fun isThread => ?_⟩
      rw [isProcess] at isThread
      cases isThread
    · rw [settled, others i isChild]
      obtain ⟨member, words, heap⟩ := held.lodged i (created_of_faces (by rw [settled, others i isChild]) isCreated)
      exact ⟨List.mem_cons_of_mem _ member, words, heap⟩

/-- A kernel that has made no thread yet. -/
theorem booted (start : kernel.tasks.Booted) (spaces : Spaces dirs kernel.pages) (trusted : Trusted kernel.man)
    (pinned : ∀ dir ∈ dirs, ∀ page, KernelPage page →
      Pinned kernel.pages dir page (4096 * (page - kernelPage), pgP + pgRww))
    (known : ∀ i, kernel.tasks.Created i → (kernel.tasks.table i).cr3 ∈ dirs ∧ (kernel.memmap i).Words) :
    Housed layout dirs kernel where
  spaces := spaces
  trusted := trusted
  pinned := pinned
  tree := .booted start
  lodged i created := by
    refine ⟨(known i created).1, (known i created).2, fun isThread => ?_⟩
    have isProcess : (kernel.tasks.faces i).type = .process := start.type i created.1
    rw [isProcess] at isThread
    cases isThread

end Housed

/-! ## Runs -/

/-- The calls of `sys_fork` spare the kernel. -/
def SparesKernel (kernel : Kernel) : SpaceCall → Prop
  | .fork proc => kernel.SparesKernel proc
  | _ => True

theorem perform_created {call : SpaceCall} (done : kernel.perform layout call = some (next, result)) :
    kernel.tasks.Created call.caller := by
  unfold Kernel.perform at done
  split at done
  next created => exact created
  next => cases done

theorem Housed.step {call : SpaceCall} (held : Housed layout dirs kernel) (guarded : SparesKernel kernel call)
    (done : kernel.perform layout call = some (next, result)) : ∃ more, Housed layout more next := by
  have created := perform_created done
  unfold Kernel.perform at done
  rw [if_pos created] at done
  cases call with
  | fork proc => exact held.fork created guarded done
  | pthread proc entry => exact ⟨dirs, held.pthread created done⟩
  | malloc proc size =>
      obtain ⟨⟨after, addr⟩, called, isNext⟩ := Option.map_eq_some_iff.mp done
      obtain ⟨rfl, _⟩ := Prod.mk.inj isNext
      exact ⟨dirs, held.malloc created called⟩

theorem reached_housed (reached : (spaceSystem layout).ReachableWhen SparesKernel kernel) :
    ∃ dirs, Housed layout dirs kernel := by
  have start : ∀ state, (spaceSystem layout).initial state → ∃ dirs, Housed layout dirs state := by
    rintro state ⟨dirs, _, execed⟩
    exact ⟨dirs, execed.housed⟩
  refine reached.invariant start fun state call after before guarded moved => ?_
  obtain ⟨dirs, held⟩ := before
  obtain ⟨⟨_, result⟩, done, rfl⟩ := Option.map_eq_some_iff.mp moved
  exact held.step guarded done

end AempOS.Task
