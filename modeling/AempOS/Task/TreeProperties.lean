import AempOS.Task.ProcTable

/-! The process tree. A thread names the process that owns its address space as long
as no thread calls `sys_fork`: the child of such a call has the type of its parent,
so it is a thread whose parent is a thread, with an address space of its own. -/

set_option autoImplicit false

namespace AempOS.Task

open Lib Memory

variable {layout : Layout} {tasks next : Tasks} {proc child parent dir entry : Nat} {result : Int}

/-! ## What the calls do to the table -/

/-- The fields of a PCB that are read through the links of the tree. -/
structure Face where
  type : ProcType
  ppid : Int
  cr3 : Nat
  pid : Nat
  stat : ProcStat
  memmap : Memmap

def Pcb.face (pcb : Pcb) : Face := ⟨pcb.info.type, pcb.info.ppid, pcb.cr3, pcb.pid, pcb.stat, pcb.memmap⟩

def Tasks.faces (tasks : Tasks) (i : Nat) : Face := (tasks.table i).face

/-- The PCB that `alloc_PCB` finds. -/
structure FreePcb (tasks : Tasks) (child : Nat) : Prop where
  low : nrTasks + nrInitials ≤ child
  high : child < nrPcbs
  idle : (tasks.table child).stat = .idle

theorem allocPcb_cases {locked : Tasks} {found : Option Nat} (done : tasks.allocPcb = some (locked, found)) :
    tasks.allocPcbLock = false ∧ locked = { tasks with allocPcbLock := true } ∧
      ∀ child ∈ found, FreePcb tasks child := by
  unfold Tasks.allocPcb at done
  split at done
  next => cases done
  next free =>
      obtain ⟨rfl, rfl⟩ := Prod.mk.inj (Option.some.inj done)
      refine ⟨by simpa using free, rfl, fun child member => ?_⟩
      have inside := List.mem_of_find?_eq_some member
      have idle := List.find?_some member
      rw [List.mem_range'_1] at inside
      simp only [decide_eq_true_eq] at idle
      constructor
      · exact inside.1
      · have above := inside.2
        unfold nrPcbs nrTasks nrInitials at *
        omega
      · exact idle

/-! ### Faces -/

theorem modify_faces (tasks : Tasks) (i : Nat) (change : Pcb → Pcb) :
    (tasks.modify i change).faces = Function.update tasks.faces i (change (tasks.table i)).face := by
  funext j
  by_cases same : j = i
  · subst same
    simp [Tasks.faces, Tasks.modify]
  · simp [Tasks.faces, Tasks.modify, same]

theorem modify_faces_same (tasks : Tasks) (i : Nat) {change : Pcb → Pcb}
    (same : ∀ pcb, (change pcb).face = pcb.face) : (tasks.modify i change).faces = tasks.faces := by
  rw [modify_faces, same]
  exact Function.update_eq_self i tasks.faces

theorem childInfo_face (type : ProcType) (realPpid ppid : Nat) (dataHold : Bool) (pcb : Pcb) :
    (childInfo type realPpid ppid dataHold pcb).face = { pcb.face with type := type, ppid := ppid } := rfl

theorem forkUpdateInfo_faces (tasks : Tasks) (proc child : Nat) :
    (tasks.forkUpdateInfo proc child).faces = Function.update tasks.faces child
      { tasks.faces child with type := (tasks.faces proc).type, ppid := (tasks.faces proc).pid } := by
  unfold Tasks.forkUpdateInfo
  generalize isCounted : tasks.modify proc (addChildProcess (tasks.table child).pid) = counted
  have faces : counted.faces = tasks.faces := by
    rw [← isCounted]
    exact modify_faces_same tasks proc fun _ => rfl
  have type : counted.typeOf proc = (tasks.faces proc).type := congrArg Face.type (congrFun faces proc)
  have pid : (counted.table proc).pid = (tasks.faces proc).pid := congrArg Face.pid (congrFun faces proc)
  have same : (counted.table child).face = tasks.faces child := congrFun faces child
  rw [modify_faces, childInfo_face, faces, type, pid, same]

theorem launch_faces (tasks : Tasks) (child : Nat) (name : String) :
    (tasks.launch child name).faces = Function.update tasks.faces child
      { tasks.faces child with stat := .ready } :=
  modify_faces tasks child fun pcb =>
    { pcb with
      pName := name
      regs := Function.update pcb.regs eaxReg 0
      stackTop := Function.update pcb.stackTop eaxReg 0
      stat := .ready }

theorem setEip_faces (tasks : Tasks) (child entry : Nat) : (tasks.setEip child entry).faces = tasks.faces :=
  modify_faces_same tasks child fun _ => rfl

theorem pthreadHeapInit_faces (tasks : Tasks) (child parent : Nat) :
    (tasks.pthreadHeapInit layout child parent).faces = Function.update tasks.faces child
      { tasks.faces child with memmap := { (tasks.faces child).memmap with
          heapLinBase := layout.heapBaseField parent
          heapLinLimit := layout.heapLimitField parent } } :=
  modify_faces tasks child _

theorem pthreadUpdateInfo_faces (tasks : Tasks) (proc child parent : Nat) :
    (tasks.pthreadUpdateInfo proc child parent).faces = Function.update tasks.faces child
      { tasks.faces child with type := .thread, ppid := (tasks.faces parent).pid } := by
  unfold Tasks.pthreadUpdateInfo
  simp only
  generalize isTold : (if parent ≠ proc then tasks.modify parent (addChildThread (tasks.table child).pid)
    else tasks) = told
  have toldFaces : told.faces = tasks.faces := by
    rw [← isTold]
    split
    next => exact modify_faces_same tasks parent fun _ => rfl
    next => rfl
  generalize isCounted : told.modify proc (addChildThread (tasks.table child).pid) = counted
  have faces : counted.faces = tasks.faces := by
    rw [← isCounted, ← toldFaces]
    exact modify_faces_same told proc fun _ => rfl
  have pid : (counted.table parent).pid = (tasks.faces parent).pid := congrArg Face.pid (congrFun faces parent)
  have same : (counted.table child).face = tasks.faces child := congrFun faces child
  rw [modify_faces, childInfo_face, faces, pid, same]

/-- What `pthread_stack_init` does when parent and child differ. -/
theorem pthreadStackInit_faces (tasks : Tasks) (differ : parent ≠ child) :
    (tasks.pthreadStackInit child parent).faces =
      Function.update
        (Function.update tasks.faces parent
          { tasks.faces parent with memmap := { (tasks.faces parent).memmap with
              stackChildLimit := add32 (tasks.faces parent).memmap.stackChildLimit 0x4000 } })
        child
        { tasks.faces child with memmap := { (tasks.faces child).memmap with
            stackLinLimit := (tasks.faces parent).memmap.stackChildLimit
            stackLinBase := sub32 (add32 (tasks.faces parent).memmap.stackChildLimit 0x4000) 4 } } := by
  unfold Tasks.pthreadStackInit
  simp only
  rw [modify_faces, modify_faces, modify_faces]
  funext i
  by_cases isChild : i = child
  · subst isChild
    simp [Tasks.modify, Tasks.faces, Pcb.face, differ.symm, differ]
  · by_cases isParent : i = parent
    · subst isParent
      simp [Tasks.modify, Tasks.faces, Pcb.face, differ]
    · simp [isChild, isParent]

/-! ### Whole calls -/

/-- What `sys_fork` leaves when it found a PCB. -/
structure Forked (tasks : Tasks) (proc child dir : Nat) (next : Tasks) : Prop where
  faces : next.faces = Function.update tasks.faces child
    { tasks.faces proc with
      ppid := (tasks.faces proc).pid
      cr3 := dir
      pid := (tasks.faces child).pid
      stat := .ready }
  unlocked : next.allocPcbLock = false

theorem sysFork_found {locked : Tasks} (allocated : tasks.allocPcb = some (locked, some child))
    (done : tasks.sysFork proc dir = some (next, result)) (differ : proc ≠ child) :
    Forked tasks proc child dir next ∧ result = (tasks.faces child).pid := by
  obtain ⟨_, rfl, _⟩ := allocPcb_cases allocated
  unfold Tasks.sysFork at done
  rw [allocated] at done
  obtain ⟨isNext, isResult⟩ := Prod.mk.inj (Option.some.inj done)
  have forked : Forked tasks proc child dir next := by
    rw [← isNext]
    refine ⟨?_, rfl⟩
    rw [launch_faces, forkUpdateInfo_faces, modify_faces, modify_faces]
    funext i
    by_cases isChild : i = child
    · subst isChild
      simp [Tasks.modify, Tasks.faces, Pcb.face, forkPcbCpy, pcbCpy, differ]
    · simp [isChild, Tasks.faces]
  have own := congrFun forked.faces child
  rw [Function.update_self] at own
  refine ⟨forked, ?_⟩
  rw [isNext] at isResult
  exact isResult.symm.trans (congrArg (fun face => (face.pid : Int)) own)

theorem sysFork_cases (done : tasks.sysFork proc dir = some (next, result)) :
    (next = { tasks with allocPcbLock := true } ∧ result = -1) ∨
      ∃ child, FreePcb tasks child ∧ (proc ≠ child → Forked tasks proc child dir next) := by
  obtain ⟨⟨locked, found⟩, allocated, finished⟩ := Option.map_eq_some_iff.mp done
  obtain ⟨_, rfl, isFree⟩ := allocPcb_cases allocated
  cases found with
  | none =>
      obtain ⟨rfl, rfl⟩ := Prod.mk.inj finished
      exact .inl ⟨rfl, rfl⟩
  | some child => exact .inr ⟨child, isFree child rfl, fun differ => (sysFork_found allocated done differ).1⟩

/-- What `sys_pthread` leaves when it found a PCB. -/
structure Threaded (layout : Layout) (tasks : Tasks) (parent child : Nat) (next : Tasks) : Prop where
  faces : next.faces =
    Function.update
      (Function.update tasks.faces parent
        { tasks.faces parent with memmap := { (tasks.faces parent).memmap with
            stackChildLimit := add32 (tasks.faces parent).memmap.stackChildLimit 0x4000 } })
      child
      { tasks.faces parent with
        type := .thread
        ppid := (tasks.faces parent).pid
        pid := (tasks.faces child).pid
        stat := .ready
        memmap := { (tasks.faces parent).memmap with
          heapLinBase := layout.heapBaseField parent
          heapLinLimit := layout.heapLimitField parent
          stackLinLimit := (tasks.faces parent).memmap.stackChildLimit
          stackLinBase := sub32 (add32 (tasks.faces parent).memmap.stackChildLimit 0x4000) 4 } }
  unlocked : next.allocPcbLock = false

theorem sysPthread_found {locked : Tasks} (allocated : tasks.allocPcb = some (locked, some child))
    (done : tasks.sysPthread layout proc entry = some (next, result)) (differ : tasks.parentOf proc ≠ child) :
    Threaded layout tasks (tasks.parentOf proc) child next ∧ result = (tasks.faces child).pid := by
  obtain ⟨_, rfl, _⟩ := allocPcb_cases allocated
  unfold Tasks.sysPthread at done
  rw [allocated] at done
  obtain ⟨isNext, isResult⟩ := Prod.mk.inj (Option.some.inj done)
  have threaded : Threaded layout tasks (tasks.parentOf proc) child next := by
    rw [← isNext]
    refine ⟨?_, rfl⟩
    have isParent : Tasks.parentOf { tasks with allocPcbLock := true } proc = tasks.parentOf proc := rfl
    simp only [isParent]
    rw [launch_faces, pthreadUpdateInfo_faces, setEip_faces, pthreadHeapInit_faces,
      pthreadStackInit_faces _ differ, modify_faces]
    generalize tasks.parentOf proc = parent at differ
    funext i
    by_cases isChild : i = child
    · subst isChild
      simp [Tasks.faces, Pcb.face, pthreadPcbCpy, pcbCpy, differ]
    · by_cases same : i = parent
      · subst same
        simp [isChild, Tasks.faces]
      · simp [isChild, same, Tasks.faces]
  have own := congrFun threaded.faces child
  rw [Function.update_self] at own
  refine ⟨threaded, ?_⟩
  rw [isNext] at isResult
  exact isResult.symm.trans (congrArg (fun face => (face.pid : Int)) own)

theorem sysPthread_cases (done : tasks.sysPthread layout proc entry = some (next, result)) :
    (next = { tasks with allocPcbLock := true } ∧ result = -1) ∨
      ∃ child, FreePcb tasks child ∧
        (tasks.parentOf proc ≠ child → Threaded layout tasks (tasks.parentOf proc) child next) := by
  obtain ⟨⟨locked, found⟩, allocated, finished⟩ := Option.map_eq_some_iff.mp done
  obtain ⟨_, rfl, isFree⟩ := allocPcb_cases allocated
  cases found with
  | none =>
      obtain ⟨rfl, rfl⟩ := Prod.mk.inj finished
      exact .inl ⟨rfl, rfl⟩
  | some child => exact .inr ⟨child, isFree child rfl, fun differ => (sysPthread_found allocated done differ).1⟩

/-! ## The tree -/

/-- The thread names the process that owns its address space. -/
def Owner (tasks : Tasks) (thread owner : Nat) : Prop :=
  (tasks.faces thread).ppid = owner ∧ tasks.Created owner ∧ (tasks.faces owner).type = .process ∧
    (tasks.faces owner).cr3 = (tasks.faces thread).cr3

/-- Every thread names the process that owns its address space. -/
def Tree (tasks : Tasks) : Prop :=
  ∀ i, tasks.Created i → (tasks.faces i).type = .thread → ∃ owner, Owner tasks i owner

/-- No thread calls `sys_fork`. -/
def NoThreadForks (tasks : Tasks) : TaskCall → Prop
  | .fork proc _ => (tasks.faces proc).type = .process
  | .pthread _ _ => True

theorem created_faces (tasks : Tasks) (i : Nat) :
    tasks.Created i ↔ i < nrPcbs ∧ (tasks.faces i).stat ≠ .idle := Iff.rfl

/-- The tree, and what keeps it. -/
structure TreeSound (tasks : Tasks) : Prop where
  tree : Tree tasks
  pid : ∀ i < nrPcbs, (tasks.faces i).pid = i

theorem FreePcb.ne (free : FreePcb tasks child) {i : Nat} (created : tasks.Created i) : i ≠ child := by
  rintro rfl
  exact created.2 free.idle

namespace TreeSound

theorem booted (start : tasks.Booted) : TreeSound tasks where
  tree i created isThread := by
    have isProcess : (tasks.faces i).type = .process := start.type i created.1
    rw [isProcess] at isThread
    cases isThread
  pid := start.pid

theorem locked (sound : TreeSound tasks) : TreeSound { tasks with allocPcbLock := true } := ⟨sound.tree, sound.pid⟩

/-- The process whose stacks and heap a caller uses is in use, and has its address
space. -/
theorem parentOf (sound : TreeSound tasks) (created : tasks.Created proc) :
    tasks.Created (tasks.parentOf proc) ∧ (tasks.faces (tasks.parentOf proc)).type = .process ∧
      (tasks.faces (tasks.parentOf proc)).cr3 = (tasks.faces proc).cr3 := by
  unfold Tasks.parentOf
  cases type : tasks.typeOf proc with
  | process => exact ⟨created, type, rfl⟩
  | thread =>
      obtain ⟨owner, named, isCreated, isProcess, sameSpace⟩ := sound.tree proc created type
      have isOwner : (tasks.table proc).info.ppid.toNat = owner := by
        have named : (tasks.table proc).info.ppid = owner := named
        rw [named]
        rfl
      simp only [isOwner]
      exact ⟨isCreated, isProcess, sameSpace⟩

/-- What is known of a PCB survives a call that changes only the child and the memory
map of one other PCB. -/
theorem grow (sound : TreeSound tasks) (free : FreePcb tasks child) {face : Face}
    (others : ∀ i, i ≠ child → (next.faces i).type = (tasks.faces i).type ∧
      (next.faces i).ppid = (tasks.faces i).ppid ∧ (next.faces i).cr3 = (tasks.faces i).cr3 ∧
      (next.faces i).stat = (tasks.faces i).stat ∧ (next.faces i).pid = (tasks.faces i).pid)
    (own : next.faces child = face) (pid : face.pid = (tasks.faces child).pid)
    (named : face.type = .thread → ∃ owner : Nat, face.ppid = owner ∧ tasks.Created owner ∧
      (tasks.faces owner).type = .process ∧ (tasks.faces owner).cr3 = face.cr3) : TreeSound next := by
  have stays : ∀ i, tasks.Created i → next.Created i := by
    intro i created
    obtain ⟨_, _, _, stat, _⟩ := others i (free.ne created)
    refine ⟨created.1, ?_⟩
    rw [created_faces] at created
    intro idle
    exact created.2 (stat.symm.trans idle)
  have carry : ∀ i (owner : Nat), (next.faces i).ppid = owner → tasks.Created owner →
      (tasks.faces owner).type = .process → (tasks.faces owner).cr3 = (next.faces i).cr3 →
        Owner next i owner := by
    intro i owner isOwner created isProcess sameSpace
    obtain ⟨type, _, cr3, _, _⟩ := others owner (free.ne created)
    exact ⟨isOwner, stays owner created, type.trans isProcess, cr3.trans sameSpace⟩
  constructor
  · intro i created isThread
    by_cases isChild : i = child
    · subst isChild
      rw [own] at isThread
      obtain ⟨owner, isOwner, isCreated, isProcess, sameSpace⟩ := named isThread
      rw [← own] at isOwner sameSpace
      exact ⟨owner, carry i owner isOwner isCreated isProcess sameSpace⟩
    · obtain ⟨type, ppid, cr3, stat, _⟩ := others i isChild
      have before : tasks.Created i := by
        rw [created_faces] at created ⊢
        exact ⟨created.1, stat ▸ created.2⟩
      obtain ⟨owner, isOwner, isCreated, isProcess, sameSpace⟩ := sound.tree i before (type ▸ isThread)
      exact ⟨owner, carry i owner (ppid.trans isOwner) isCreated isProcess (sameSpace.trans cr3.symm)⟩
  · intro i inside
    by_cases isChild : i = child
    · subst isChild
      rw [own, pid]
      exact sound.pid i inside
    · obtain ⟨_, _, _, _, same⟩ := others i isChild
      rw [same]
      exact sound.pid i inside

theorem fork (sound : TreeSound tasks) (isProcess : (tasks.faces proc).type = .process)
    (free : FreePcb tasks child) (forked : Forked tasks proc child dir next) : TreeSound next := by
  have own := congrFun forked.faces child
  rw [Function.update_self] at own
  refine sound.grow free (fun i other => ?_) own rfl fun isThread => ?_
  · rw [forked.faces, Function.update_of_ne other]
    exact ⟨rfl, rfl, rfl, rfl, rfl⟩
  · rw [isProcess] at isThread
    cases isThread

theorem pthread (sound : TreeSound tasks) (created : tasks.Created parent)
    (isProcess : (tasks.faces parent).type = .process) (free : FreePcb tasks child)
    (threaded : Threaded layout tasks parent child next) : TreeSound next := by
  have own := congrFun threaded.faces child
  rw [Function.update_self] at own
  refine sound.grow free (fun i other => ?_) own rfl fun _ => ?_
  · rw [threaded.faces, Function.update_of_ne other]
    by_cases isParent : i = parent
    · subst isParent
      rw [Function.update_self]
      exact ⟨rfl, rfl, rfl, rfl, rfl⟩
    · rw [Function.update_of_ne isParent]
      exact ⟨rfl, rfl, rfl, rfl, rfl⟩
  · refine ⟨parent, ?_, created, isProcess, rfl⟩
    rw [sound.pid parent created.1]

end TreeSound

/-- A step of the system is one of the two calls by a PCB that is in use. -/
theorem taskStep_cases {call : TaskCall} (moved : (taskSystem layout).step tasks call = some next) :
    tasks.Created call.caller ∧
      (next = { tasks with allocPcbLock := true } ∨ ∃ child, FreePcb tasks child ∧
        match call with
        | .fork proc dir => Forked tasks proc child dir next
        | .pthread proc _ => tasks.parentOf proc ≠ child → Threaded layout tasks (tasks.parentOf proc) child next) := by
  obtain ⟨⟨final, result⟩, done, rfl⟩ := Option.map_eq_some_iff.mp moved
  unfold Tasks.perform at done
  split at done
  next created =>
      refine ⟨created, ?_⟩
      cases call with
      | fork proc dir =>
          obtain ⟨rfl, _⟩ | ⟨child, free, forked⟩ := sysFork_cases done
          · exact .inl rfl
          · exact .inr ⟨child, free, forked (free.ne created)⟩
      | pthread proc entry =>
          obtain ⟨rfl, _⟩ | ⟨child, free, threaded⟩ := sysPthread_cases done
          · exact .inl rfl
          · exact .inr ⟨child, free, threaded⟩
  next => cases done

theorem TreeSound.step {call : TaskCall} (sound : TreeSound tasks) (guarded : NoThreadForks tasks call)
    (moved : (taskSystem layout).step tasks call = some next) : TreeSound next := by
  obtain ⟨created, rfl | ⟨child, free, changed⟩⟩ := taskStep_cases moved
  · exact sound.locked
  cases call with
  | fork proc dir => exact sound.fork guarded free changed
  | pthread proc entry =>
      obtain ⟨isCreated, isProcess, _⟩ := sound.parentOf created
      exact sound.pthread isCreated isProcess free (changed (free.ne isCreated))

/-- A thread that calls `sys_fork` gets a child that is a thread and names it as its
parent. -/
theorem Forked.no_tree (isThread : (tasks.faces proc).type = .thread) (sound : TreeSound tasks)
    (created : tasks.Created proc) (free : FreePcb tasks child) (forked : Forked tasks proc child dir next) :
    ¬Tree next := by
  intro tree
  have own := congrFun forked.faces child
  rw [Function.update_self] at own
  have isCreated : next.Created child := by
    refine ⟨free.high, ?_⟩
    intro idle
    have ready : (next.faces child).stat = .ready := by rw [own]
    rw [show (next.table child).stat = (next.faces child).stat from rfl, ready] at idle
    cases idle
  obtain ⟨owner, named, _, isProcess, _⟩ := tree child isCreated (by rw [own]; exact isThread)
  rw [own] at named
  simp only at named
  rw [sound.pid proc created.1] at named
  obtain rfl : proc = owner := Int.ofNat.inj named
  rw [forked.faces, Function.update_of_ne (free.ne created), isThread] at isProcess
  cases isProcess

/-- As long as no thread calls `sys_fork`, every thread names the process that owns
its address space, and that is the process whose stacks and heap a caller uses; the
first thread that forks a child breaks this. -/
theorem process_tree (reached : (taskSystem layout).ReachableWhen NoThreadForks tasks) :
    Tree tasks ∧
      (∀ proc, tasks.Created proc → tasks.Created (tasks.parentOf proc) ∧
        (tasks.faces (tasks.parentOf proc)).type = .process ∧
        (tasks.faces (tasks.parentOf proc)).cr3 = (tasks.faces proc).cr3) ∧
      ∀ call next, (taskSystem layout).step tasks call = some next → ¬NoThreadForks tasks call →
        Tree next → next = { tasks with allocPcbLock := true } := by
  have start : ∀ state, (taskSystem layout).initial state → TreeSound state :=
    fun _ booted => TreeSound.booted booted
  have sound := reached.invariant start fun _ _ _ before guarded moved => before.step guarded moved
  refine ⟨sound.tree, fun proc created => sound.parentOf created, fun call next moved forks tree => ?_⟩
  obtain ⟨created, rfl | ⟨child, free, changed⟩⟩ := taskStep_cases moved
  · rfl
  cases call with
  | pthread proc entry => exact absurd trivial forks
  | fork proc dir =>
      have isThread : (tasks.faces proc).type = .thread := by
        cases type : (tasks.faces proc).type with
        | thread => rfl
        | process => exact absurd type forks
      exact absurd tree (changed.no_tree isThread sound created free)

/-! ## The parents of threads -/

/-- The `ppid` of a thread is a PCB in use, whatever its type. -/
structure Parented (tasks : Tasks) : Prop where
  parent : ∀ i < nrPcbs, (tasks.faces i).type = .thread →
    ∃ owner : Nat, (tasks.faces i).ppid = owner ∧ tasks.Created owner
  pid : ∀ i < nrPcbs, (tasks.faces i).pid = i

namespace Parented

theorem parentOf (held : Parented tasks) (created : tasks.Created proc) : tasks.Created (tasks.parentOf proc) := by
  unfold Tasks.parentOf
  cases type : tasks.typeOf proc with
  | process => exact created
  | thread =>
      obtain ⟨owner, named, isCreated⟩ := held.parent proc created.1 type
      have isOwner : (tasks.table proc).info.ppid.toNat = owner := by
        have named : (tasks.table proc).info.ppid = owner := named
        rw [named]
        rfl
      simp only [isOwner]
      exact isCreated

theorem grow (held : Parented tasks) (free : FreePcb tasks child)
    (others : ∀ i, i ≠ child → (next.faces i).type = (tasks.faces i).type ∧
      (next.faces i).ppid = (tasks.faces i).ppid ∧ (next.faces i).stat = (tasks.faces i).stat ∧
      (next.faces i).pid = (tasks.faces i).pid)
    (pid : (next.faces child).pid = (tasks.faces child).pid) (created : tasks.Created parent)
    (named : (next.faces child).ppid = parent) : Parented next := by
  have stays : ∀ i, tasks.Created i → next.Created i := by
    intro i isCreated
    obtain ⟨_, _, stat, _⟩ := others i (free.ne isCreated)
    rw [created_faces] at isCreated ⊢
    exact ⟨isCreated.1, by rw [stat]; exact isCreated.2⟩
  constructor
  · intro i inside isThread
    by_cases isChild : i = child
    · subst isChild
      exact ⟨parent, named, stays parent created⟩
    · obtain ⟨type, ppid, _, _⟩ := others i isChild
      rw [type] at isThread
      obtain ⟨owner, isOwner, isCreated⟩ := held.parent i inside isThread
      exact ⟨owner, ppid.trans isOwner, stays owner isCreated⟩
  · intro i inside
    by_cases isChild : i = child
    · subst isChild
      exact pid.trans (held.pid i inside)
    · obtain ⟨_, _, _, same⟩ := others i isChild
      exact same.trans (held.pid i inside)

theorem step {call : TaskCall} (held : Parented tasks) (moved : (taskSystem layout).step tasks call = some next) :
    Parented next := by
  obtain ⟨created, rfl | ⟨child, free, changed⟩⟩ := taskStep_cases moved
  · exact ⟨held.parent, held.pid⟩
  cases call with
  | fork proc dir =>
      have own := congrFun changed.faces child
      rw [Function.update_self] at own
      refine held.grow free (fun i other => ?_) (by rw [own]) created ?_
      · rw [changed.faces, Function.update_of_ne other]
        exact ⟨rfl, rfl, rfl, rfl⟩
      · have isPid : (tasks.faces proc).pid = proc := held.pid proc created.1
        rw [own]
        exact congrArg Nat.cast isPid
  | pthread proc entry =>
      have isCreated := held.parentOf created
      have threaded := changed (free.ne isCreated)
      have own := congrFun threaded.faces child
      rw [Function.update_self] at own
      refine held.grow free (fun i other => ?_) (by rw [own]) isCreated ?_
      · rw [threaded.faces, Function.update_of_ne other]
        by_cases isParent : i = tasks.parentOf proc
        · rw [isParent, Function.update_self]
          exact ⟨rfl, rfl, rfl, rfl⟩
        · rw [Function.update_of_ne isParent]
          exact ⟨rfl, rfl, rfl, rfl⟩
      · have isPid := held.pid (tasks.parentOf proc) isCreated.1
        rw [own]
        exact congrArg Nat.cast isPid

/-- So it is in every table that `sys_fork` and `sys_pthread` make. -/
theorem reached (reached : (taskSystem layout).Reachable tasks) : Parented tasks := by
  have start : ∀ tasks, (taskSystem layout).initial tasks → Parented tasks := by
    intro tasks booted
    refine ⟨fun i inside isThread => ?_, booted.pid⟩
    have isProcess : (tasks.faces i).type = .process := booted.type i inside
    rw [isProcess] at isThread
    cases isThread
  exact reached.invariant start fun _ _ _ before moved => before.step moved

end Parented

/-! ## A small table -/

def emptyPcb (i : Nat) : Pcb where
  regs _ := 0
  stackTop _ := 0
  ldtSel := 0
  espSaveInt := 0
  espSaveContext := 0
  memmap := execMemmap 0 0 0 0
  info := ⟨.process, -1, -1, 0, fun _ => 0, 0, fun _ => 0, true, true⟩
  pid := i
  pName := "initial"
  stat := if i < nrTasks + nrInitials then .ready else .idle
  cr3 := 0x1000 * i
  filp _ := none

def bootTasks : Tasks := ⟨emptyPcb, false, 0⟩

theorem bootTasks_booted : bootTasks.Booted where
  pid _ _ := rfl
  type _ _ := rfl
  free i _ high := if_neg (by omega)
  unlocked := rfl

def lowLayout : Layout := ⟨0xC0030400, by decide, by decide, by decide⟩

/-- The first process forks, the child makes a thread, and the thread makes another. -/
theorem process_tree_threads :
    ∃ tasks, (taskSystem lowLayout).run bootTasks [.fork 0 0x400000, .pthread 16 7, .pthread 17 8] = some tasks ∧
      Tree tasks ∧
      (∀ proc, tasks.Created proc → tasks.Created (tasks.parentOf proc) ∧
        (tasks.faces (tasks.parentOf proc)).type = .process ∧
        (tasks.faces (tasks.parentOf proc)).cr3 = (tasks.faces proc).cr3) ∧
      ∀ call next, (taskSystem lowLayout).step tasks call = some next → ¬NoThreadForks tasks call →
        Tree next → next = { tasks with allocPcbLock := true } := by
  have ran : (taskSystem lowLayout).run bootTasks [.fork 0 0x400000, .pthread 16 7, .pthread 17 8] = some _ := rfl
  have start : (taskSystem lowLayout).ReachableWhen NoThreadForks bootTasks := .initial bootTasks_booted
  exact ⟨_, ran, process_tree (start.of_run ran ⟨rfl, trivial, trivial, trivial⟩)⟩

/-- A thread of the first process forks. -/
theorem thread_fork_breaks_tree : ∃ tasks, (taskSystem lowLayout).Reachable tasks ∧ ¬Tree tasks := by
  have ran : (taskSystem lowLayout).run bootTasks [.pthread 0 7, .fork 16 0x400000] = some _ := rfl
  have start : (taskSystem lowLayout).Reachable bootTasks := .initial bootTasks_booted
  refine ⟨_, start.of_run ran, fun tree => ?_⟩
  obtain ⟨owner, named, _, isProcess, _⟩ := tree 17 (by decide) rfl
  obtain rfl : 16 = owner := Int.ofNat.inj named
  cases isProcess

end AempOS.Task
