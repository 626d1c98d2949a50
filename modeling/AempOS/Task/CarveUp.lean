import AempOS.Task.KernelPages
import AempOS.Lib.Blocks
import Mathlib.Data.List.Perm.Subperm

/-! How an exec'ed process and its threads divide its address space. The regions of
`sys_malloc` follow each other from the base of the heap, the stacks of the threads
follow each other from the end of the heap, and both stay below the stack of the
process. Threads reach the end of the heap through a pointer and the stacks through
their parent, at any depth of nesting. -/

set_option autoImplicit false

namespace AempOS.Task

open Lib Memory

/-- The kernel and the regions that `sys_malloc` returned to a process and its
threads, the last one first. -/
structure Carve where
  kernel : Kernel
  regions : List Block

/-- A thread of the process. -/
def ThreadOf (tasks : Tasks) (owner i : Nat) : Prop :=
  tasks.Created i ∧ tasks.typeOf i = .thread ∧ (tasks.table i).info.ppid = owner

/-- The process or one of its threads. -/
def Family (tasks : Tasks) (owner i : Nat) : Prop := i = owner ∨ ThreadOf tasks owner i

instance (tasks : Tasks) (owner i : Nat) : Decidable (ThreadOf tasks owner i) :=
  inferInstanceAs (Decidable (_ ∧ _ ∧ _))

instance (tasks : Tasks) (owner i : Nat) : Decidable (Family tasks owner i) :=
  inferInstanceAs (Decidable (_ ∨ _))

/-- Calls of `sys_pthread`, and of `sys_malloc` with sizes that are not negative. -/
def Carve.step (layout : Layout) (owner : Nat) (carve : Carve) (call : SpaceCall) : Option Carve :=
  if Family carve.kernel.tasks owner call.caller then
    match call with
    | .fork _ => none
    | .pthread proc entry =>
        (carve.kernel.perform layout (.pthread proc entry)).map fun result => { carve with kernel := result.1 }
    | .malloc proc size =>
        if size < 2147483648 then
          (carve.kernel.sysMalloc layout proc size).map fun result => ⟨result.1, ⟨result.2, size⟩ :: carve.regions⟩
        else none
  else none

/-- Runs of an exec'ed process, which has no threads at first, and its threads. -/
def carveSystem (layout : Layout) (owner : Nat) : Machine Carve SpaceCall where
  initial carve := carve.regions = [] ∧ (∀ i, ¬ThreadOf carve.kernel.tasks owner i) ∧
    ∃ dirs, carve.kernel.Execed layout dirs owner ∧ ∀ dir ∈ dirs, Proper carve.kernel.pages dir
  step := Carve.step layout owner

/-- The stack of a thread. -/
def Kernel.threadStack (kernel : Kernel) (thread : Nat) : Block := ⟨(kernel.memmap thread).stackLinLimit, 0x4000⟩

/-- The stack that `exec_pcb_init` gives a process, from `StackLinBase - 0x4000` to
`StackLinBase + 4`. -/
def ownStack : Block := ⟨0xBFFFEFFC - 0x4000, 0x4004⟩

/-- The parts of the address space. -/
inductive Piece where
  | region (k : Nat)
  | stack (thread : Nat)
  | own

def Carve.block (carve : Carve) (owner : Nat) : Piece → Option Block
  | .region k => carve.regions[k]?
  | .stack thread => if ThreadOf carve.kernel.tasks owner thread then some (carve.kernel.threadStack thread) else none
  | .own => some ownStack

/-- No two parts overlap. -/
def Carve.Disjoint (carve : Carve) (owner : Nat) : Prop :=
  ∀ left right, left ≠ right → ∀ a ∈ carve.block owner left, ∀ b ∈ carve.block owner right, a.Apart b

/-- The four pages of the stack of each thread are present. -/
def Carve.StacksPresent (carve : Carve) (owner : Nat) : Prop :=
  ∀ thread, ThreadOf carve.kernel.tasks owner thread → ∀ j < 4, ∃ found,
    carve.kernel.pages.entry (carve.kernel.pages.cr3 thread)
      ((carve.kernel.memmap thread).stackLinLimit / 4096 + j) = some found

variable {layout : Layout} {carve after : Carve} {kernel next : Kernel} {dirs : List Nat}
  {owner proc child size entry : Nat} {result : Int}

/-! ## Pages that the loops leave -/

theorem Proper.congr {state other : PageState} {dir : Nat} (mem : other.mem = state.mem) (proper : Proper state dir) :
    Proper other dir := fun i table points => proper i table (points.congr mem)

/-- A loop that maps pages leaves them present, behind tables of the pool. -/
theorem mapLoop_present {state final : PageState} {current who : Nat} {addrs : List Nat}
    (held : Spaces dirs state) (trusted : Trusted state.man) (alive : state.cr3 who ≠ 0)
    (proper : ∀ dir ∈ dirs, Proper state dir) (addresses : ∀ addr ∈ addrs, addr < 4294967296)
    (done : addrs.foldlM (mapUser current who) state = some final) :
    (∀ dir ∈ dirs, Proper final dir) ∧
      ∀ addr ∈ addrs, ∃ found, Pinned final (state.cr3 who) (addr / 4096) found := by
  induction addrs generalizing state with
  | nil =>
      cases done
      exact ⟨proper, by simp⟩
  | cons addr rest ih =>
      simp only [List.foldlM_cons, Option.bind_eq_bind, Option.bind_eq_some_iff] at done
      obtain ⟨mid, moved, done⟩ := done
      have address := addresses addr (by simp)
      have member := held.tables.cr3 who alive
      have call := mapOk_eq moved
      obtain ⟨_, _, mapped⟩ :=
        linMappingPhy_mapped held.tables (trusted 2) alive address (by decide) (by decide) call
      have first : Touches dirs (fun _ _ => False) state mid := .mapped .refl member mapped (by omega) (.inl rfl)
      have keeps := mapped.keeps held.tables member
      have midSpaces := first.spaces held
      have midAlive : mid.cr3 who ≠ 0 := by rwa [first.cr3 held]
      have midTrusted := linMappingPhy_trusted held.tables trusted alive address call (.inl rfl)
      have midProper : ∀ dir ∈ dirs, Proper mid dir := fun dir inside => keeps.proper inside (proper dir inside)
      have restAddresses : ∀ other ∈ rest, other < 4294967296 := fun other inRest => addresses other (by simp [inRest])
      obtain ⟨finalProper, present⟩ := ih midSpaces midTrusted midAlive midProper restAddresses done
      refine ⟨finalProper, fun other isOther => ?_⟩
      cases isOther with
      | head =>
          obtain ⟨found, isFound⟩ : ∃ found, mid.entry (state.cr3 who) (addr / 4096) = some found := by
            rcases mapped.entry_max held.tables member rfl (by omega) with
              ⟨found, isFound, rfl, rfl⟩ | ⟨_, frame, set, _, _, content⟩
            · exact ⟨found, isFound⟩
            · rw [reads_makeEntry content.aligned (by decide) (by decide)] at set
              exact ⟨_, set⟩
          have pinned : Pinned mid (state.cr3 who) (addr / 4096) found :=
            ⟨isFound, fun table points => midProper _ member _ table points⟩
          have later : Touches dirs (fun _ _ => False) mid final :=
            (mapLoop_touches midSpaces midTrusted midAlive restAddresses done).1
          exact ⟨found, pinned.touches later midSpaces member (by omega) fun wrong => wrong⟩
      | tail _ inRest =>
          obtain ⟨found, pinned⟩ := present other inRest
          rw [first.cr3 held] at pinned
          exact ⟨found, pinned⟩

/-- What a loop that maps pages leaves of a kernel in which the tables are proper. -/
theorem Housed.mapped {tasks : Tasks} {final : PageState} {current who : Nat} {addrs : List Nat}
    (held : Housed layout dirs { kernel with tasks := tasks }) (alive : (tasks.table who).cr3 ≠ 0)
    (proper : ∀ dir ∈ dirs, Proper kernel.pages dir) (addresses : ∀ addr ∈ addrs, addr < 4294967296)
    (done : addrs.foldlM (mapUser current who) (Kernel.pages { kernel with tasks := tasks }) = some final) :
    Housed layout dirs (Kernel.settle tasks final) ∧
      (∀ dir ∈ dirs, Proper (Kernel.settle tasks final).pages dir) ∧
      (∀ dir ∈ dirs, ∀ page < 1048576, ∀ found, Pinned kernel.pages dir page found →
        Pinned (Kernel.settle tasks final).pages dir page found) ∧
      ∀ addr ∈ addrs, ∃ found, Pinned (Kernel.settle tasks final).pages (tasks.table who).cr3 (addr / 4096) found := by
  have mem : (Kernel.pages { kernel with tasks := tasks }).mem = kernel.pages.mem := rfl
  have finalMem : (Kernel.settle tasks final).pages.mem = final.mem := rfl
  obtain ⟨touches, trusted⟩ := mapLoop_touches held.spaces held.trusted alive addresses done
  obtain ⟨finalProper, present⟩ := mapLoop_present held.spaces held.trusted alive
    (fun dir member => Proper.congr mem (proper dir member)) addresses done
  refine ⟨held.settle touches trusted, fun dir member => Proper.congr finalMem (finalProper dir member),
    fun dir member page inside found pinned => ?_, fun addr member => ?_⟩
  · have before := Pinned.congr mem pinned
    exact Pinned.congr finalMem (before.touches touches held.spaces member inside fun wrong => wrong)
  · obtain ⟨found, pinned⟩ := present addr member
    exact ⟨found, Pinned.congr finalMem pinned⟩

/-! ## The parts -/

theorem threadOf_faces (tasks : Tasks) (owner i : Nat) :
    ThreadOf tasks owner i ↔
      tasks.Created i ∧ (tasks.faces i).type = .thread ∧ (tasks.faces i).ppid = owner := Iff.rfl

/-- What a run keeps: the regions and the stacks of the threads are stacked. -/
structure Carved (layout : Layout) (owner : Nat) (dirs threads : List Nat) (carve : Carve) : Prop where
  held : Housed layout dirs carve.kernel
  proper : ∀ dir ∈ dirs, Proper carve.kernel.pages dir
  created : carve.kernel.tasks.Created owner
  isProcess : (carve.kernel.tasks.faces owner).type = .process
  limit : (carve.kernel.tasks.faces owner).memmap.heapLinLimit = heapLinBase + totalSize carve.regions
  regions : Stacked heapLinBase carve.regions
  nodup : threads.Nodup
  members : ∀ i, i ∈ threads ↔ ThreadOf carve.kernel.tasks owner i
  cursor : (carve.kernel.tasks.faces owner).memmap.stackChildLimit = heapLinLimitMax + 0x4000 * threads.length
  threadStacks : Stacked heapLinLimitMax (threads.map carve.kernel.threadStack)
  present : ∀ thread ∈ threads, ∀ j < 4, ∃ found, Pinned carve.kernel.pages (carve.kernel.pages.cr3 thread)
    ((carve.kernel.memmap thread).stackLinLimit / 4096 + j) found

theorem totalSize_stacks (kernel : Kernel) (threads : List Nat) :
    totalSize (threads.map kernel.threadStack) = 0x4000 * threads.length := by
  induction threads with
  | nil => rfl
  | cons thread rest ih =>
      have size : (kernel.threadStack thread).size = 0x4000 := rfl
      rw [List.map_cons, totalSize_cons, ih, List.length_cons, size]
      omega

namespace Carved

variable {threads : List Nat}

/-- There are fewer threads than PCBs. -/
theorem few (carved : Carved layout owner dirs threads carve) : threads.length ≤ 64 := by
  have inside : threads ⊆ List.range nrPcbs := fun i member =>
    List.mem_range.mpr ((carved.members i).mp member).1.1
  have short := (carved.nodup.subperm inside).length_le
  rwa [List.length_range] at short

theorem callerCreated (carved : Carved layout owner dirs threads carve) (family : Family carve.kernel.tasks owner proc) :
    carve.kernel.tasks.Created proc := by
  rcases family with rfl | thread
  · exact carved.created
  · exact thread.1

/-- The calls of the threads are about their process. -/
theorem parentOf (carved : Carved layout owner dirs threads carve) (family : Family carve.kernel.tasks owner proc) :
    carve.kernel.tasks.parentOf proc = owner := by
  unfold Tasks.parentOf
  rcases family with rfl | ⟨_, isThread, named⟩
  · have isProcess : carve.kernel.tasks.typeOf proc = .process := carved.isProcess
    rw [isProcess]
  · rw [isThread]
    simp only [named, Int.toNat_natCast]

theorem stack_inside {thread : Nat} (carved : Carved layout owner dirs threads carve) (member : thread ∈ threads) :
    heapLinLimitMax ≤ (carve.kernel.threadStack thread).addr ∧
      (carve.kernel.threadStack thread).stop ≤ heapLinLimitMax + 0x4000 * threads.length := by
  rw [← totalSize_stacks carve.kernel]
  exact carved.threadStacks.inside _ (List.mem_map_of_mem member)

theorem stack_page {thread j : Nat} (carved : Carved layout owner dirs threads carve) (member : thread ∈ threads)
    (inside : j < 4) : (carve.kernel.memmap thread).stackLinLimit / 4096 + j < 1048576 := by
  have few := carved.few
  obtain ⟨_, high⟩ := carved.stack_inside member
  unfold Kernel.threadStack Block.stop heapLinLimitMax at high
  simp only at high
  omega

theorem disjoint (carved : Carved layout owner dirs threads carve) (bounded : totalSize carve.regions < 0x40000000) :
    carve.Disjoint owner := by
  have few := carved.few
  have regionInside : ∀ (k : Nat), ∀ a ∈ carve.block owner (.region k),
      heapLinBase ≤ a.addr ∧ a.stop ≤ heapLinBase + totalSize carve.regions := fun k a isA =>
    carved.regions.inside a (List.mem_of_getElem? isA)
  have threadOf : ∀ (thread : Nat), ∀ a ∈ carve.block owner (.stack thread),
      thread ∈ threads ∧ a = carve.kernel.threadStack thread := by
    intro thread a isA
    simp only [Carve.block, Option.mem_def, Option.ite_none_right_eq_some, Option.some.injEq] at isA
    exact ⟨(carved.members thread).mpr isA.1, isA.2.symm⟩
  have stackInside : ∀ (thread : Nat), ∀ a ∈ carve.block owner (.stack thread),
      heapLinLimitMax ≤ a.addr ∧ a.stop ≤ heapLinLimitMax + 0x4000 * threads.length := by
    intro thread a isA
    obtain ⟨member, rfl⟩ := threadOf thread a isA
    exact carved.stack_inside member
  have ownInside : ∀ a ∈ carve.block owner .own, heapLinLimitMax + 0x100000 ≤ a.addr := by
    intro a isA
    cases isA
    decide
  have order : heapLinBase + 0x40000000 ≤ heapLinLimitMax := by decide
  unfold Carve.Disjoint Block.Apart
  intro left right differ a isA b isB
  cases left with
  | region k =>
      have first := regionInside k a isA
      cases right with
      | region l => exact carved.regions.apart (fun same => differ (congrArg _ same)) isA isB
      | stack thread =>
          have second := stackInside thread b isB
          omega
      | own =>
          have second := ownInside b isB
          omega
  | stack thread =>
      have first := stackInside thread a isA
      cases right with
      | region l =>
          have second := regionInside l b isB
          omega
      | stack other =>
          obtain ⟨member, rfl⟩ := threadOf thread a isA
          obtain ⟨otherMember, rfl⟩ := threadOf other b isB
          obtain ⟨i, isThread⟩ := List.mem_iff_getElem?.mp member
          obtain ⟨j, isOther⟩ := List.mem_iff_getElem?.mp otherMember
          have apart : i ≠ j := by
            rintro rfl
            rw [isThread] at isOther
            exact differ (congrArg _ (Option.some.inj isOther))
          apply carved.threadStacks.apart apart
          · rw [List.getElem?_map, isThread]
            rfl
          · rw [List.getElem?_map, isOther]
            rfl
      | own =>
          have second := ownInside b isB
          omega
  | own =>
      have first := ownInside a isA
      cases right with
      | region l =>
          have second := regionInside l b isB
          omega
      | stack other =>
          have second := stackInside other b isB
          omega
      | own => exact absurd rfl differ

theorem stacksPresent (carved : Carved layout owner dirs threads carve) : carve.StacksPresent owner := by
  intro thread isThread j inside
  obtain ⟨found, pinned⟩ := carved.present thread ((carved.members thread).mpr isThread) j inside
  exact ⟨found, pinned.entry⟩

/-- The invariant is about these parts of the faces. -/
theorem recarve {tasks : Tasks} {final : PageState} {regions : List Block} {more : List Nat}
    (housed : Housed layout dirs (Kernel.settle tasks final))
    (proper : ∀ dir ∈ dirs, Proper (Kernel.settle tasks final).pages dir)
    (created : tasks.Created owner) (isProcess : (tasks.faces owner).type = .process)
    (limit : (tasks.faces owner).memmap.heapLinLimit = heapLinBase + totalSize regions)
    (stacked : Stacked heapLinBase regions) (nodup : more.Nodup)
    (members : ∀ i, i ∈ more ↔ ThreadOf tasks owner i)
    (cursor : (tasks.faces owner).memmap.stackChildLimit = heapLinLimitMax + 0x4000 * more.length)
    (threadStacks : Stacked heapLinLimitMax (more.map fun thread => ⟨(tasks.faces thread).memmap.stackLinLimit, 0x4000⟩))
    (present : ∀ thread ∈ more, ∀ j < 4, ∃ found, Pinned (Kernel.settle tasks final).pages (tasks.faces thread).cr3
      ((tasks.faces thread).memmap.stackLinLimit / 4096 + j) found) :
    Carved layout owner dirs more ⟨Kernel.settle tasks final, regions⟩ :=
  ⟨housed, proper, created, isProcess, limit, stacked, nodup, members, cursor, threadStacks, present⟩

theorem malloc {addr : Nat} (carved : Carved layout owner dirs threads carve)
    (family : Family carve.kernel.tasks owner proc)
    (done : carve.kernel.sysMalloc layout proc size = some (next, addr))
    (bounded : totalSize carve.regions + size < 0x40000000) :
    Carved layout owner dirs threads ⟨next, ⟨addr, size⟩ :: carve.regions⟩ := by
  have created := carved.callerCreated family
  have held := carved.held
  obtain ⟨other, tasks, addrs, final, isOwner, isAddr, faces, visited, ran, rfl⟩ := sysMalloc_cases done
  obtain rfl : owner = other := by
    rw [held.heapOwner created, carved.parentOf family] at isOwner
    exact Option.some.inj isOwner
  have retabled := held.bumped carved.created carved.isProcess faces
  have own := congrFun faces owner
  rw [Function.update_self] at own
  have others : ∀ i, (tasks.faces i).type = (carve.kernel.tasks.faces i).type ∧
      (tasks.faces i).ppid = (carve.kernel.tasks.faces i).ppid ∧
      (tasks.faces i).stat = (carve.kernel.tasks.faces i).stat ∧
      (tasks.faces i).cr3 = (carve.kernel.tasks.faces i).cr3 ∧
      (tasks.faces i).memmap.stackLinLimit = (carve.kernel.tasks.faces i).memmap.stackLinLimit := by
    intro i
    by_cases isThis : i = owner
    · subst isThis
      rw [own]
      exact ⟨rfl, rfl, rfl, rfl, rfl⟩
    · rw [faces, Function.update_of_ne isThis]
      exact ⟨rfl, rfl, rfl, rfl, rfl⟩
  have createdIff : ∀ i, tasks.Created i ↔ carve.kernel.tasks.Created i := by
    intro i
    rw [created_faces, created_faces, (others i).2.2.1]
  have alive : (tasks.table proc).cr3 ≠ 0 := retabled.alive ((createdIff proc).mpr created)
  have start : addr < 4294967296 := by
    rw [isAddr]
    exact (held.lodged owner carved.created).words.heapLinLimit
  obtain ⟨housed, proper, kept, _⟩ := retabled.mapped alive carved.proper (wordsBelow_address start visited) ran
  have base : addr = heapLinBase + totalSize carve.regions := isAddr.trans carved.limit
  refine recarve housed proper ((createdIff owner).mpr carved.created) ((others owner).1.trans carved.isProcess) ?_
    (.cons base carved.regions) carved.nodup (fun i => ?_) ?_ ?_ fun thread member j inside => ?_
  · rw [own, totalSize_cons]
    simp only
    rw [carved.limit]
    unfold add32 heapLinBase
    omega
  · rw [carved.members i, threadOf_faces, threadOf_faces, createdIff, (others i).1, (others i).2.1]
  · rw [own]
    exact carved.cursor
  · have same : (fun thread => (⟨(tasks.faces thread).memmap.stackLinLimit, 0x4000⟩ : Block)) =
        carve.kernel.threadStack := by
      funext thread
      rw [(others thread).2.2.2.2]
      rfl
    rw [same]
    exact carved.threadStacks
  · obtain ⟨found, pinned⟩ := carved.present thread member j inside
    obtain ⟨_, _, _, cr3, limit⟩ := others thread
    rw [cr3, limit]
    have isDir : (carve.kernel.tasks.faces thread).cr3 ∈ dirs :=
      held.cr3_mem ((carved.members thread).mp member).1
    exact ⟨found, kept _ isDir _ (carved.stack_page member inside) found pinned⟩

/-- The faces after a thread was made for the owner. -/
structure NewThread (carve : Carve) (owner child : Nat) (threads : List Nat) (tasks : Tasks) : Prop where
  childCreated : tasks.Created child
  ownerCreated : tasks.Created owner
  isThread : (tasks.faces child).type = .thread
  parent : (tasks.faces child).ppid = owner
  base : (tasks.faces child).memmap.stackLinBase = heapLinLimitMax + 0x4000 * threads.length + 0x3FFC
  limit : (tasks.faces child).memmap.stackLinLimit = heapLinLimitMax + 0x4000 * threads.length
  isProcess : (tasks.faces owner).type = .process
  heapLimit : (tasks.faces owner).memmap.heapLinLimit = (carve.kernel.tasks.faces owner).memmap.heapLinLimit
  cursor : (tasks.faces owner).memmap.stackChildLimit = heapLinLimitMax + 0x4000 * (threads.length + 1)
  others : ∀ i, i ≠ child → i ≠ owner → tasks.faces i = carve.kernel.tasks.faces i

theorem newThread {tasks : Tasks} (carved : Carved layout owner dirs threads carve) (free : FreePcb carve.kernel.tasks child)
    (changed : Threaded layout carve.kernel.tasks owner child tasks) : NewThread carve owner child threads tasks := by
  have apart := free.ne carved.created
  have few := carved.few
  have childFace := congrFun changed.faces child
  rw [Function.update_self, carved.cursor] at childFace
  have ownerFace := congrFun changed.faces owner
  rw [Function.update_of_ne apart, Function.update_self] at ownerFace
  refine ⟨?_, ?_, ?_, ?_, ?_, ?_, ?_, ?_, ?_, fun i notChild notOwner => ?_⟩
  · rw [created_faces, childFace]
    exact ⟨free.high, fun wrong => by cases wrong⟩
  · rw [created_faces, ownerFace]
    exact carved.created
  · rw [childFace]
  · rw [childFace, carved.held.tree.pid owner carved.created.1]
  · rw [childFace]
    unfold add32 sub32 heapLinLimitMax
    simp only
    omega
  · rw [childFace]
  · rw [ownerFace]
    exact carved.isProcess
  · rw [ownerFace]
  · rw [ownerFace]
    simp only
    rw [carved.cursor]
    unfold add32 heapLinLimitMax
    omega
  · rw [changed.faces, Function.update_of_ne notChild, Function.update_of_ne notOwner]

namespace NewThread

variable {tasks : Tasks} (made : NewThread carve owner child threads tasks)

include made

theorem members (carved : Carved layout owner dirs threads carve) (i : Nat) :
    i ∈ child :: threads ↔ ThreadOf tasks owner i := by
  rw [List.mem_cons, carved.members, threadOf_faces, threadOf_faces]
  by_cases isChild : i = child
  · subst isChild
    exact ⟨fun _ => ⟨made.childCreated, made.isThread, made.parent⟩, fun _ => .inl rfl⟩
  · by_cases isOwner : i = owner
    · subst isOwner
      rw [made.isProcess, carved.isProcess]
      simp [isChild]
    · rw [created_faces, created_faces, made.others i isChild isOwner]
      simp [isChild]

/-- The threads that were there before. -/
theorem old (carved : Carved layout owner dirs threads carve) (free : FreePcb carve.kernel.tasks child) :
    ∀ thread ∈ threads, tasks.faces thread = carve.kernel.tasks.faces thread := by
  intro thread member
  have isThread := (threadOf_faces _ _ _).mp ((carved.members thread).mp member)
  refine made.others thread (free.ne isThread.1) ?_
  rintro rfl
  rw [carved.isProcess] at isThread
  cases isThread.2.1

/-- The loop over the new stack visits each of its pages. -/
theorem visits {addrs : List Nat} (few : threads.length ≤ 64) {j : Nat} (inside : j < 4)
    (visited : descending (tasks.faces child).memmap.stackLinLimit loopFuel (tasks.faces child).memmap.stackLinBase =
      some addrs) :
    ∃ addr ∈ addrs, addr / 4096 = (tasks.faces child).memmap.stackLinLimit / 4096 + j := by
  have address : (tasks.faces child).memmap.stackLinBase < 4294967296 := by
    rw [made.base]
    unfold heapLinLimitMax
    omega
  refine ⟨heapLinLimitMax + 0x4000 * threads.length + 4096 * j + 0xFFC, ?_, ?_⟩
  · rw [descending_visited address visited]
    refine ⟨3 - j, ?_, ?_⟩
    · rw [made.base]
      omega
    · rw [made.limit]
      omega
  · rw [made.limit]
    unfold heapLinLimitMax
    omega

end NewThread

theorem pthread (carved : Carved layout owner dirs threads carve) (family : Family carve.kernel.tasks owner proc)
    (done : carve.kernel.sysPthread layout proc entry = some (next, result)) :
    ∃ more, Carved layout owner dirs more ⟨next, carve.regions⟩ := by
  have held := carved.held
  obtain ⟨rfl, _⟩ | ⟨child, tasks, addrs, final, free, changed, visited, ran, rfl⟩ := spacePthread_cases done
  · exact ⟨threads, held.locked, carved.proper, carved.created, carved.isProcess, carved.limit, carved.regions,
      carved.nodup, carved.members, carved.cursor, carved.threadStacks, carved.present⟩
  rw [carved.parentOf family] at changed
  obtain ⟨changed, _⟩ := changed (free.ne carved.created)
  have retabled := held.threaded carved.created carved.isProcess free changed
  have made := carved.newThread free changed
  have few := carved.few
  have base : (tasks.faces child).memmap.stackLinBase < 4294967296 := by
    rw [made.base]
    unfold heapLinLimitMax
    omega
  obtain ⟨housed, proper, kept, mapped⟩ := retabled.mapped (retabled.alive made.childCreated) carved.proper
    (descending_address base visited) ran
  have fresh : child ∉ threads := fun member => free.ne ((carved.members child).mp member).1 rfl
  have old := made.old carved free
  refine ⟨child :: threads, recarve housed proper made.ownerCreated made.isProcess ?_ carved.regions
    (List.nodup_cons.mpr ⟨fresh, carved.nodup⟩) (made.members carved) made.cursor ?_ fun thread member j inside => ?_⟩
  · rw [made.heapLimit]
    exact carved.limit
  · rw [List.map_cons]
    have same : threads.map (fun thread => (⟨(tasks.faces thread).memmap.stackLinLimit, 0x4000⟩ : Block)) =
        threads.map carve.kernel.threadStack := by
      apply List.map_congr_left
      intro thread member
      rw [old thread member]
      rfl
    rw [same]
    refine .cons ?_ carved.threadStacks
    rw [totalSize_stacks]
    exact made.limit
  · cases member with
    | head =>
        obtain ⟨addr, isAddr, isPage⟩ := made.visits few inside visited
        obtain ⟨found, pinned⟩ := mapped addr isAddr
        exact ⟨found, isPage ▸ pinned⟩
    | tail _ member =>
        rw [old thread member]
        obtain ⟨found, pinned⟩ := carved.present thread member j inside
        have isDir : (carve.kernel.tasks.faces thread).cr3 ∈ dirs :=
          held.cr3_mem ((carved.members thread).mp member).1
        exact ⟨found, kept _ isDir _ (carved.stack_page member inside) found pinned⟩

theorem start (initial : (carveSystem layout owner).initial carve) : ∃ dirs, Carved layout owner dirs [] carve := by
  obtain ⟨noRegion, noThread, dirs, execed, proper⟩ := initial
  obtain ⟨_, _, _, _, isMap⟩ := execed.execed
  have isMap : (carve.kernel.tasks.faces owner).memmap = execMemmap _ _ _ _ := isMap
  refine ⟨dirs, execed.housed, proper, execed.created, execed.isProcess, ?_, ?_, .nil, fun i => ?_, ?_, .nil, ?_⟩
  · rw [isMap, noRegion]
    rfl
  · rw [noRegion]
    exact .nil
  · constructor
    · intro member
      cases member
    · intro isThread
      exact absurd isThread (noThread i)
  · rw [isMap]
    rfl
  · intro thread member
    cases member

end Carved

/-! ## Runs -/

theorem carveStep_cases {call : SpaceCall} (moved : carve.step layout owner call = some after) :
    (∃ proc entry result, Family carve.kernel.tasks owner proc ∧ after.regions = carve.regions ∧
      carve.kernel.sysPthread layout proc entry = some (after.kernel, result)) ∨
      ∃ proc size addr, Family carve.kernel.tasks owner proc ∧ after.regions = ⟨addr, size⟩ :: carve.regions ∧
        carve.kernel.sysMalloc layout proc size = some (after.kernel, addr) := by
  unfold Carve.step at moved
  split at moved
  next family =>
      cases call with
      | fork proc => cases moved
      | pthread proc entry =>
          obtain ⟨⟨next, result⟩, performed, rfl⟩ := Option.map_eq_some_iff.mp moved
          have created := perform_created performed
          unfold Kernel.perform at performed
          rw [if_pos created] at performed
          exact .inl ⟨proc, entry, result, family, rfl, performed⟩
      | malloc proc size =>
          simp only [Option.ite_none_right_eq_some, Option.map_eq_some_iff] at moved
          obtain ⟨_, ⟨next, addr⟩, done, rfl⟩ := moved
          exact .inr ⟨proc, size, addr, family, rfl, done⟩
  next => cases moved

/-- In every run whose regions stay below `0x40000000` bytes, no two parts of the
address space overlap, and the stacks of the threads are present. -/
theorem address_space_carved (reached : (carveSystem layout owner).Reachable carve)
    (bounded : totalSize carve.regions < 0x40000000) : carve.Disjoint owner ∧ carve.StacksPresent owner := by
  have carved : totalSize carve.regions < 0x40000000 → ∃ dirs threads, Carved layout owner dirs threads carve := by
    have start : ∀ state, (carveSystem layout owner).initial state → totalSize state.regions < 0x40000000 →
        ∃ dirs threads, Carved layout owner dirs threads state := by
      intro state initial _
      obtain ⟨dirs, carved⟩ := Carved.start initial
      exact ⟨dirs, [], carved⟩
    refine reached.invariant start fun state call after before moved small => ?_
    rcases carveStep_cases moved with
      ⟨proc, entry, result, family, regions, done⟩ | ⟨proc, size, addr, family, regions, done⟩
    · rw [regions] at small
      obtain ⟨dirs, threads, carved⟩ := before small
      obtain ⟨more, carvedNext⟩ := carved.pthread family done
      rw [← regions] at carvedNext
      exact ⟨dirs, more, carvedNext⟩
    · rw [regions, totalSize_cons] at small
      simp only at small
      obtain ⟨dirs, threads, carved⟩ := before (by omega)
      have carvedNext := carved.malloc family done (by omega)
      rw [← regions] at carvedNext
      exact ⟨dirs, threads, carvedNext⟩
  obtain ⟨dirs, threads, carved⟩ := carved bounded
  exact ⟨carved.disjoint bounded, carved.stacksPresent⟩

/-- A process that made one thread. -/
theorem address_space_carved_thread :
    ∃ carve : Carve, (carveSystem lowLayout 1).Reachable carve ∧ ThreadOf carve.kernel.tasks 1 16 ∧
      carve.Disjoint 1 ∧ carve.StacksPresent 1 := by
  obtain ⟨kernel, next, isLone, execed, proper, done, isThread, _⟩ := lone_pthread
  have noThread : ∀ i, ¬ThreadOf kernel.tasks 1 i := by
    rw [isLone]
    rintro i ⟨created, isThread, _⟩
    obtain rfl := loneTasks_created created
    cases isThread
  have start : (carveSystem lowLayout 1).Reachable ⟨kernel, []⟩ :=
    .initial ⟨rfl, noThread, _, execed, fun dir member => List.mem_singleton.mp member ▸ proper⟩
  have moved : (carveSystem lowLayout 1).step ⟨kernel, []⟩ (.pthread 1 7) = some ⟨next, []⟩ := by
    have family : Family kernel.tasks 1 (SpaceCall.pthread 1 7).caller := .inl rfl
    change Carve.step lowLayout 1 ⟨kernel, []⟩ (.pthread 1 7) = some ⟨next, []⟩
    unfold Carve.step
    rw [if_pos family]
    simp only [done, Option.map_some]
  have reached : (carveSystem lowLayout 1).Reachable ⟨next, []⟩ := start.step trivial moved
  have isThreadOf : ThreadOf next.tasks 1 16 := by
    rw [isThread]
    decide
  have bounded : totalSize [] < 0x40000000 := by decide
  exact ⟨⟨next, []⟩, reached, isThreadOf, address_space_carved reached bounded⟩

end AempOS.Task
