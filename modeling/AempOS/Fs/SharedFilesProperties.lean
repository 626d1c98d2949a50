import AempOS.Fs.SharedFiles
import AempOS.Fs.ReferencesProperties

/-! Descriptors after forks. As long as a descriptor is closed only when no other
process has it, every open file of every process is behind a descriptor of a slot in
use, and what two processes share was open at the fork that separated them. -/

set_option autoImplicit false

namespace AempOS.Fs

open Lib AempOS.Task

variable {files after : SharedFiles} {tasks nextTasks : Tasks} {state next : FsState}
  {pid fd child proc dir : Nat} {ret : Int}

/-! ## The arrays of the PCBs -/

def filps (tasks : Tasks) (i : Nat) : Nat → Option Nat := (tasks.table i).filp

theorem modify_filps (tasks : Tasks) (i : Nat) (change : Pcb → Pcb) :
    filps (tasks.modify i change) = Function.update (filps tasks) i (change (tasks.table i)).filp := by
  funext j
  by_cases same : j = i
  · subst same
    simp [filps, Tasks.modify]
  · simp [filps, Tasks.modify, same]

theorem modify_filps_same (tasks : Tasks) (i : Nat) (change : Pcb → Pcb)
    (same : ∀ pcb, (change pcb).filp = pcb.filp) : filps (tasks.modify i change) = filps tasks := by
  rw [modify_filps, same]
  exact Function.update_eq_self i (filps tasks)

theorem forkUpdateInfo_filps (tasks : Tasks) (proc child : Nat) :
    filps (tasks.forkUpdateInfo proc child) = filps tasks := by
  unfold Tasks.forkUpdateInfo
  generalize isCounted : tasks.modify proc (addChildProcess (tasks.table child).pid) = counted
  have same : filps counted = filps tasks := by
    rw [← isCounted]
    exact modify_filps_same tasks proc _ fun _ => rfl
  rw [← same]
  exact modify_filps_same counted child _ fun _ => rfl

theorem launch_filps (tasks : Tasks) (child : Nat) (name : String) : filps (tasks.launch child name) = filps tasks :=
  modify_filps_same tasks child
    (fun pcb =>
      { pcb with
        pName := name
        regs := Function.update pcb.regs eaxReg 0
        stackTop := Function.update pcb.stackTop eaxReg 0
        stat := .ready })
    fun _ => rfl

/-- `sys_fork` copies the array of the parent. -/
theorem sysFork_filps {locked : Tasks} (allocated : tasks.allocPcb = some (locked, some child))
    (done : tasks.sysFork proc dir = some (nextTasks, ret)) :
    filps nextTasks = Function.update (filps tasks) child (filps tasks proc) := by
  obtain ⟨_, rfl, _⟩ := allocPcb_cases allocated
  unfold Tasks.sysFork at done
  rw [allocated] at done
  obtain ⟨isNext, _⟩ := Prod.mk.inj (Option.some.inj done)
  generalize isMade : Tasks.modify { tasks with allocPcbLock := true } child (fun pcb => { pcb with cr3 := dir }) = made
    at isNext
  have madeFilps : filps made = filps tasks := by
    rw [← isMade]
    exact modify_filps_same { tasks with allocPcbLock := true } child _ fun _ => rfl
  have copied : (forkPcbCpy (made.table child) (made.table proc)).filp = filps made proc := rfl
  rw [← isNext, launch_filps, forkUpdateInfo_filps, modify_filps, copied, madeFilps]

/-- A fork finds no PCB, or gives the child the descriptors of its parent. -/
theorem fork_cases (done : files.sysFork proc dir = some (after, ret)) (created : files.tasks.Created proc)
    (pids : ∀ i < nrPcbs, (files.tasks.faces i).pid = i) :
    (∃ tasks, after = { files with tasks := tasks } ∧ tasks.faces = files.tasks.faces ∧
        filps tasks = filps files.tasks) ∨
      ∃ child tasks, FreePcb files.tasks child ∧ Forked files.tasks proc child dir tasks ∧
        filps tasks = Function.update (filps files.tasks) child (filps files.tasks proc) ∧
        after = { files with tasks := tasks, forks := ⟨proc, child, filps files.tasks proc⟩ :: files.forks } := by
  obtain ⟨⟨tasks, pid⟩, forked, isAfter⟩ := Option.map_eq_some_iff.mp done
  obtain ⟨⟨locked, found⟩, allocated, finished⟩ := Option.map_eq_some_iff.mp forked
  obtain ⟨_, rfl, isFree⟩ := allocPcb_cases allocated
  cases found with
  | none =>
      obtain ⟨rfl, rfl⟩ := Prod.mk.inj finished
      obtain ⟨rfl, rfl⟩ := Prod.mk.inj isAfter
      exact .inl ⟨_, rfl, rfl, rfl⟩
  | some child =>
      have free := isFree child rfl
      have differ := free.ne created
      obtain ⟨changed, rfl⟩ := sysFork_found allocated forked differ
      have filp := sysFork_filps allocated forked
      have isPid := pids child free.high
      obtain ⟨rfl, _⟩ := Prod.mk.inj isAfter
      refine .inr ⟨child, tasks, free, changed, filp, ?_⟩
      have notFailed : ((child : Nat) : Int) ≠ -1 := by omega
      simp only [isPid, if_neg notFailed, Int.toNat_natCast]
      rfl

/-! ## Sharing -/

/-- Every open file is behind a descriptor of a slot that is in use. -/
def Valid (files : SharedFiles) : Prop :=
  ∀ i, files.tasks.Created i → ∀ fd d, files.fs.filp i fd = some d →
    ∃ p < nrInode, (files.fDescTable d).inode = .slot p ∧ 1 ≤ (files.inodeTable p).cnt

/-- Two processes share a descriptor only if it was open at the fork that separated
them. -/
def Inherited (files : SharedFiles) : Prop :=
  ∀ i j, i ≠ j → files.tasks.Created i → files.tasks.Created j → ∀ fd place d,
    files.fs.filp i fd = some d → files.fs.filp j place = some d →
      ∃ fork, separated files.forks i j = some fork ∧ ∃ at', fork.filp at' = some d

/-- A descriptor is closed by the only process that has it, and a create picks an inode
that is not in the table. -/
def ClosesOwn (files : SharedFiles) (label : Nat × FileCall) : Prop :=
  match label.2 with
  | .open path flags => KeepsCounts files.fs (.open label.1 path flags)
  | .close fd => ∀ d, files.fs.filp label.1 fd = some d → ∀ other place, files.fs.filp other place = some d →
      other = label.1 ∧ place = fd
  | _ => True

/-- What the calls keep. -/
structure Descriptors (files : SharedFiles) : Prop where
  within : Within files.fs
  counted : Counted files.fs
  pids : ∀ i < nrPcbs, (files.tasks.faces i).pid = i
  created : ∀ i fd d, files.fs.filp i fd = some d → files.tasks.Created i
  linked : ∀ i fd d, files.fs.filp i fd = some d → ∃ p, (files.fDescTable d).inode = .slot p
  inherited : Inherited files

theorem Descriptors.valid (held : Descriptors files) : Valid files := by
  intro i _ fd d link
  obtain ⟨p, points⟩ := held.linked i fd d link
  have inside := held.within.descs i fd d link
  have target : files.fs.targets ⟨d, inside⟩ = .slot p := points
  have some := references_pos target
  have slot : p < nrInode := by
    by_contra outside
    rw [held.within.slots p (by omega)] at some
    omega
  have count := held.counted p slot
  refine ⟨p, slot, points, ?_⟩
  have isCount : (files.inodeTable p).cnt = files.fs.counts p := rfl
  rw [isCount, count]
  unfold FsState.rootReference
  split <;> omega

/-! ## Calls on open files -/

/-- A call that changes positions, sizes and the disk. -/
structure OnlyPositions (state next : FsState) : Prop where
  counts : next.counts = state.counts
  targets : ∀ d, (next.fDescTable d).inode = (state.fDescTable d).inode
  filp : next.filp = state.filp
  root : next.rootInode = state.rootInode

namespace OnlyPositions

theorem refl (state : FsState) : OnlyPositions state state := ⟨rfl, fun _ => rfl, rfl, rfl⟩

theorem setPos (state : FsState) (disk : Disk) (d pos : Nat) :
    OnlyPositions state ({ state with disk := disk }.setDesc d { state.fDescTable d with pos := pos }) := by
  refine ⟨rfl, fun e => ?_, rfl, rfl⟩
  by_cases same : e = d
  · subst same
    simp [FsState.setDesc]
  · simp [FsState.setDesc, same]

theorem setSize {mid : FsState} (before : OnlyPositions state mid) (pin size : Nat)
    (same : mid.inodeTable pin = state.inodeTable pin) :
    OnlyPositions state (syncInode (mid.setInode pin { state.inodeTable pin with size := size }) pin) := by
  have count : ({ state.inodeTable pin with size := size } : Inode).cnt = (mid.inodeTable pin).cnt := by rw [same]
  exact ⟨(setInode_same count).counts.trans before.counts, before.targets, before.filp, before.root⟩

end OnlyPositions

theorem doRead_positions {len : Nat} (ran : doRead state pid fd len = some (next, ret)) : OnlyPositions state next := by
  unfold doRead at ran
  split at ran
  next => cases ran
  next d pin _ =>
      simp only at ran
      split at ran
      next =>
          cases ran
          exact .refl state
      next =>
          split at ran
          next => cases ran
          next =>
              split at ran
              next =>
                  cases ran
                  exact (OnlyPositions.setPos state state.disk d _).setSize pin _ rfl
              next =>
                  cases ran
                  exact .setPos state state.disk d _

theorem doWrite_positions {data : List Byte} (ran : doWrite state pid fd data = some (next, ret)) :
    OnlyPositions state next := by
  unfold doWrite at ran
  split at ran
  next => cases ran
  next d pin _ =>
      simp only at ran
      split at ran
      next =>
          cases ran
          exact .refl state
      next =>
          split at ran
          next => cases ran
          next =>
              split at ran
              next =>
                  cases ran
                  exact (OnlyPositions.setPos state _ d _).setSize pin _ rfl
              next =>
                  cases ran
                  exact .setPos state _ d _

theorem doLseek_positions {off : Int} {whence : Nat} (ran : doLseek state pid fd off whence = some (next, ret)) :
    OnlyPositions state next := by
  unfold doLseek at ran
  split at ran
  next => cases ran
  next d pin _ =>
      simp only at ran
      split at ran
      next =>
          cases ran
          exact .refl state
      next =>
          split at ran
          next =>
              cases ran
              exact .refl state
          next =>
              cases ran
              exact .setPos state state.disk d _

theorem useDevice_positions {disk : Disk} (ran : useDevice state pid fd disk = some (next, ret)) :
    OnlyPositions state next := by
  unfold useDevice at ran
  split at ran
  next => cases ran
  next =>
      split at ran
      next =>
          cases ran
          exact .refl state
      next =>
          split at ran
          next =>
              cases ran
              exact ⟨rfl, fun _ => rfl, rfl, rfl⟩
          next => cases ran

/-! ## Steps -/

theorem settle_cases {result : Option (FsState × Int)}
    (done : (result.map fun (state, ret) => (files.settle state, ret)) = some (after, ret)) :
    ∃ next, result = some (next, ret) ∧ after = files.settle next := by
  obtain ⟨⟨next, answer⟩, ran, settled⟩ := Option.map_eq_some_iff.mp done
  obtain ⟨rfl, rfl⟩ := Prod.mk.inj settled
  exact ⟨next, ran, rfl⟩

/-- A link that is still there is not the one that was taken away. -/
theorem unlinked_update {filp : Nat → Nat → Option Nat} {other place d : Nat}
    (link : Function.update filp pid (Function.update (filp pid) fd none) other place = some d) :
    filp other place = some d ∧ ¬(other = pid ∧ place = fd) := by
  by_cases same : other = pid
  · subst same
    rw [Function.update_self] at link
    by_cases here : place = fd
    · subst here
      rw [Function.update_self] at link
      cases link
    · rw [Function.update_of_ne here] at link
      exact ⟨link, fun both => here both.2⟩
  · rw [Function.update_of_ne same] at link
    exact ⟨link, fun both => same both.1⟩

namespace Descriptors

/-- Calls that leave the descriptors and the counts. -/
theorem positions (held : Descriptors files) (only : OnlyPositions files.fs next) : Descriptors (files.settle next) := by
  have targets : next.targets = files.fs.targets := funext fun d => only.targets d
  refine ⟨⟨fun p outside => ?_, fun i place d link => ?_⟩, fun p inside => ?_, held.pids, fun i place d link => ?_,
    fun i place d link => ?_, fun i j differ first second place spot d left right => ?_⟩
  · have none := held.within.slots p outside
    rw [← targets] at none
    exact none
  · have link : next.filp i place = some d := link
    rw [only.filp] at link
    exact held.within.descs i place d link
  · have counted := held.counted p inside
    have count : next.counts p = references next.targets p + next.rootReference p := by
      unfold FsState.rootReference
      rw [only.counts, targets, only.root]
      exact counted
    exact count
  · have link : next.filp i place = some d := link
    rw [only.filp] at link
    exact held.created i place d link
  · have link : next.filp i place = some d := link
    rw [only.filp] at link
    obtain ⟨p, points⟩ := held.linked i place d link
    exact ⟨p, (only.targets d).trans points⟩
  · have left : next.filp i place = some d := left
    have right : next.filp j spot = some d := right
    rw [only.filp] at left right
    exact held.inherited i j differ first second place spot d left right

/-- An open that gives out no descriptor. -/
theorem reserve (held : Descriptors files) : Descriptors (files.settle (reserveDesc files.fs (freeDesc files.fs))) := by
  have within := held.within.reserve
  have counted := held.counted.reserve
  cases slot : freeDesc files.fs with
  | none => exact held
  | some d =>
      rw [slot] at within counted
      obtain ⟨_, free⟩ := freeDesc_some slot
      refine ⟨within, counted, held.pids, held.created, fun i place e link => ?_, held.inherited⟩
      have link : files.fs.filp i place = some e := link
      obtain ⟨p, points⟩ := held.linked i place e link
      have apart : e ≠ d := by
        rintro rfl
        have free : (files.fDescTable e).inode = .free := free
        rw [free] at points
        cases points
      exact ⟨p, (congrArg FileDesc.inode (Function.update_of_ne apart _ _)).trans points⟩

/-- An open that gives out a descriptor, which no process has. -/
theorem opened {flags d p : Nat} {count : Int} (held : Descriptors files) (created : files.tasks.Created pid)
    (inside : p < nrInode) (opened : OpenedAs files.fs pid flags next fd d p count)
    (counts : count = files.fs.counts p + 1) : Descriptors (files.settle next) := by
  have fresh : ∀ i place, files.fs.filp i place ≠ some d := by
    intro i place link
    obtain ⟨q, points⟩ := held.linked i place d link
    have free : (files.fDescTable d).inode = .free := opened.free
    rw [free] at points
    cases points
  have old : ∀ i place e, next.filp i place = some e → e ≠ d → files.fs.filp i place = some e := by
    intro i place e link apart
    rw [opened.filp] at link
    rcases linked_update link with isThis | before
    · exact absurd (Option.some.inj isThis).symm apart
    · exact before
  have new : ∀ i place, next.filp i place = some d → i = pid := by
    intro i place link
    by_contra other
    rw [opened.filp, Function.update_of_ne other] at link
    exact fresh i place link
  refine ⟨opened.within held.within inside, (opened.counted inside held.counted).mpr counts, held.pids,
    fun i place e link => ?_, fun i place e link => ?_, fun i j differ first second place spot e left right => ?_⟩
  · by_cases isThis : e = d
    · subst isThis
      rw [new i place link]
      exact created
    · exact held.created i place e (old i place e link isThis)
  · have desc : (files.settle next).fDescTable e =
        Function.update files.fs.fDescTable d { mode := flags, pos := 0, inode := .slot p } e := congrFun opened.descs e
    rw [desc]
    by_cases isThis : e = d
    · subst isThis
      exact ⟨p, by rw [Function.update_self]⟩
    · rw [Function.update_of_ne isThis]
      exact held.linked i place e (old i place e link isThis)
  · by_cases isThis : e = d
    · subst isThis
      exact absurd ((new i place left).trans (new j spot right).symm) differ
    · exact held.inherited i j differ first second place spot e (old i place e left isThis) (old j spot e right isThis)

/-- A close by the only process that has the descriptor. -/
theorem closed {d p : Nat} (held : Descriptors files) (closed : ClosedAs files.fs pid fd next d p)
    (alone : ∀ other place, files.fs.filp other place = some d → other = pid ∧ place = fd) :
    Descriptors (files.settle next) := by
  obtain ⟨within, counted⟩ := closed.counted held.within held.counted
  have old : ∀ i place e, next.filp i place = some e → files.fs.filp i place = some e ∧ e ≠ d := by
    intro i place e link
    rw [closed.filp] at link
    obtain ⟨before, apart⟩ := unlinked_update link
    refine ⟨before, ?_⟩
    rintro rfl
    exact apart (alone i place before)
  refine ⟨within, counted, held.pids, fun i place e link => held.created i place e (old i place e link).1,
    fun i place e link => ?_, fun i j differ first second place spot e left right => ?_⟩
  · obtain ⟨before, apart⟩ := old i place e link
    obtain ⟨q, points⟩ := held.linked i place e before
    have desc : (files.settle next).fDescTable e =
        Function.update files.fs.fDescTable d { files.fs.fDescTable d with inode := .free } e := congrFun closed.descs e
    rw [desc, Function.update_of_ne apart]
    exact ⟨q, points⟩
  · exact held.inherited i j differ first second place spot e (old i place e left).1 (old j spot e right).1

/-- A fork without a free PCB. -/
theorem forkless (held : Descriptors files) (faces : tasks.faces = files.tasks.faces)
    (filp : filps tasks = filps files.tasks) : Descriptors { files with tasks := tasks } := by
  have same : SharedFiles.fs { files with tasks := tasks } = files.fs := by
    have rest : SharedFiles.fs { files with tasks := tasks } = { files.fs with filp := filps tasks } := rfl
    rw [rest, filp]
    rfl
  have created : ∀ i, tasks.Created i ↔ files.tasks.Created i := fun i => by
    rw [created_faces, created_faces, faces]
  obtain ⟨within, counted, pids, onlyCreated, linked, inherited⟩ := held
  refine ⟨same ▸ within, same ▸ counted, fun i inside => ?_, fun i place d link => ?_, fun i place d link => ?_,
    fun i j differ first second place spot d left right => ?_⟩
  · have isPid := pids i inside
    rw [← faces] at isPid
    exact isPid
  · rw [same] at link
    exact (created i).mpr (onlyCreated i place d link)
  · rw [same] at link
    exact linked i place d link
  · rw [same] at left right
    exact inherited i j differ ((created i).mp first) ((created j).mp second) place spot d left right

/-- A fork that makes a child. -/
theorem forked (held : Descriptors files) (free : FreePcb files.tasks child)
    (created : files.tasks.Created proc) (changed : Forked files.tasks proc child dir tasks)
    (filp : filps tasks = Function.update (filps files.tasks) child (filps files.tasks proc)) :
    Descriptors { files with tasks := tasks, forks := ⟨proc, child, filps files.tasks proc⟩ :: files.forks } := by
  have own := congrFun changed.faces child
  rw [Function.update_self] at own
  have others : ∀ i, i ≠ child → tasks.faces i = files.tasks.faces i := fun i other => by
    rw [changed.faces, Function.update_of_ne other]
  have links : ∀ i, filps tasks i = if i = child then files.fs.filp proc else files.fs.filp i := by
    intro i
    rw [filp]
    by_cases isChild : i = child
    · subst isChild
      rw [Function.update_self, if_pos rfl]
      rfl
    · rw [Function.update_of_ne isChild, if_neg isChild]
      rfl
  have differ := free.ne created
  -- the process whose links a process has
  have source : ∀ i place d, filps tasks i place = some d →
      files.fs.filp (if i = child then proc else i) place = some d := by
    intro i place d link
    rw [links] at link
    by_cases isChild : i = child
    · rw [if_pos isChild] at link ⊢
      exact link
    · rw [if_neg isChild] at link ⊢
      exact link
  refine ⟨⟨held.within.slots, fun i place d link => held.within.descs _ place d (source i place d link)⟩, held.counted,
    fun i inside => ?_, fun i place d link => ?_, fun i place d link => held.linked _ place d (source i place d link),
    fun i j apart first second place spot d left right => ?_⟩
  · by_cases isChild : i = child
    · subst isChild
      have isPid : (tasks.faces i).pid = (files.tasks.faces i).pid := by rw [own]
      exact isPid.trans (held.pids i inside)
    · have isPid : (tasks.faces i).pid = (files.tasks.faces i).pid := by rw [others i isChild]
      exact isPid.trans (held.pids i inside)
  · have childCreated : tasks.Created child := by
      rw [created_faces, own]
      exact ⟨free.high, fun wrong => by cases wrong⟩
    by_cases isChild : i = child
    · rw [isChild]
      exact childCreated
    · have before := source i place d link
      rw [if_neg isChild] at before
      have wasCreated := held.created i place d before
      have stays : tasks.Created i := by
        rw [created_faces, others i isChild]
        exact wasCreated
      exact stays
  · have ofLeft := source i place d left
    have ofRight := source j spot d right
    have old : ∀ k, tasks.Created k → k ≠ child → files.tasks.Created k := by
      intro k isCreated notChild
      rw [created_faces, others k notChild] at isCreated
      exact isCreated
    unfold separated
    by_cases isChild : i = child
    · have notChild : j ≠ child := fun wrong => apart (isChild.trans wrong.symm)
      rw [if_pos isChild] at ofLeft
      rw [if_neg notChild] at ofRight
      rw [if_pos isChild.symm]
      by_cases isParent : proc = j
      · rw [if_pos isParent]
        exact ⟨_, rfl, place, ofLeft⟩
      · rw [if_neg isParent]
        exact held.inherited proc j isParent created (old j second notChild) place spot d ofLeft ofRight
    · rw [if_neg isChild] at ofLeft
      rw [if_neg (Ne.symm isChild)]
      by_cases other : j = child
      · rw [if_pos other] at ofRight
        rw [if_pos other.symm]
        by_cases isParent : proc = i
        · rw [if_pos isParent]
          exact ⟨_, rfl, spot, ofRight⟩
        · rw [if_neg isParent]
          exact held.inherited i proc (Ne.symm isParent) (old i first isChild) created place spot d ofLeft ofRight
      · rw [if_neg other] at ofRight
        rw [if_neg (Ne.symm other)]
        exact held.inherited i j apart (old i first isChild) (old j second other) place spot d ofLeft ofRight

end Descriptors

theorem Descriptors.performed {call : FileCall} (held : Descriptors files)
    (done : call.perform files pid = some (after, ret)) (guarded : ClosesOwn files (pid, call)) :
    Descriptors after := by
  unfold FileCall.perform at done
  split at done
  next created =>
    cases call with
    | «open» path flags =>
        obtain ⟨next, ran, rfl⟩ := settle_cases done
        rcases doOpen_cases ran with ⟨rfl, _⟩ | ⟨n, place, d, p, count, slot, opened, _, kind⟩
        · exact held.reserve
        · refine held.opened created slot.1 opened ?_
          by_cases creates : oCreat flags = true
          · rw [if_pos creates] at kind
            obtain ⟨missing, valid, rfl, rfl⟩ := kind
            have keeps : ¬InTable files.fs _ := guarded creates missing valid
            have free := mt slot.count_ne.mp keeps
            simp only [ne_eq, Decidable.not_not] at free
            omega
          · rw [if_neg creates] at kind
            exact kind
    | close place =>
        obtain ⟨next, ran, rfl⟩ := settle_cases done
        obtain ⟨d, p, closed⟩ := doClose_closed ran
        exact held.closed closed (guarded d closed.link)
    | read place len =>
        obtain ⟨next, ran, rfl⟩ := settle_cases done
        exact held.positions (doRead_positions ran)
    | write place data =>
        obtain ⟨next, ran, rfl⟩ := settle_cases done
        exact held.positions (doWrite_positions ran)
    | lseek place off whence =>
        obtain ⟨next, ran, rfl⟩ := settle_cases done
        exact held.positions (doLseek_positions ran)
    | device place disk =>
        obtain ⟨next, ran, rfl⟩ := settle_cases done
        exact held.positions (useDevice_positions ran)
    | fork dir =>
        rcases fork_cases done created held.pids with
          ⟨tasks, rfl, faces, filp⟩ | ⟨child, tasks, free, changed, filp, rfl⟩
        · exact held.forkless faces filp
        · exact held.forked free created changed filp
  next => cases done

theorem initFs_filp {size : Nat} {disk : Disk} (start : initFs size disk = some state) (i fd : Nat) :
    state.filp i fd = none := by
  unfold initFs at start
  simp only at start
  split at start
  next made p got =>
      cases start
      obtain ⟨_, _, recounted⟩ := getInode_recounted got
      have same : made.filp i fd = none := by
        rw [recounted.filp]
        rfl
      exact same
  next => cases start

theorem descriptors_reached {size : Nat} {disk : Disk}
    (reached : (sharedMachine size disk).ReachableWhen ClosesOwn files) : Descriptors files := by
  have start : ∀ files, (sharedMachine size disk).initial files → Descriptors files := by
    rintro files ⟨booted, init, _⟩
    obtain ⟨within, counted⟩ := initFs_counted init
    have none : ∀ i fd d, files.fs.filp i fd ≠ some d := by
      intro i fd d link
      rw [initFs_filp init] at link
      cases link
    exact ⟨within, counted, booted.pid, fun i fd d link => absurd link (none i fd d),
      fun i fd d link => absurd link (none i fd d),
      fun i _ _ _ _ fd _ d link _ => absurd link (none i fd d)⟩
  refine reached.invariant start fun files label after before guarded moved => ?_
  obtain ⟨⟨next, ret⟩, done, rfl⟩ := Option.map_eq_some_iff.mp moved
  exact before.performed done guarded

/-- In every run that closes only what nobody else has, the open files of all processes
are behind descriptors in use, and sharing comes from a fork. -/
theorem descriptors_survive_fork {size : Nat} {disk : Disk}
    (reached : (sharedMachine size disk).ReachableWhen ClosesOwn files) : Valid files ∧ Inherited files := by
  have held := descriptors_reached reached
  exact ⟨held.valid, held.inherited⟩

/-! ## A fork with an open file -/

def bootFiles (state : FsState) : SharedFiles :=
  ⟨bootTasks, state.disk, state.sb, state.rootInode, state.inodeTable, state.fDescTable, []⟩

theorem open_then_fork :
    ∃ (files : SharedFiles) (fd d : Nat), (sharedMachine 32768 zeroDisk).ReachableWhen ClosesOwn files ∧
      files.tasks.Created 0 ∧ files.tasks.Created 16 ∧ fd < nrFiles ∧ files.fs.filp 0 fd = some d ∧ files.fs.filp 16 fd = some d := by
  obtain ⟨state, next, fd, ran, keeps, done, place, _⟩ := first_file
  have boot : (bootFiles state).fs = state := by
    have empty : (fun _ _ => none) = state.filp := by
      funext i place
      exact (initFs_filp ran i place).symm
    have rest : (bootFiles state).fs = { state with filp := fun _ _ => none } := rfl
    rw [rest, empty]
  have start : (sharedMachine 32768 zeroDisk).ReachableWhen ClosesOwn (bootFiles state) := by
    refine .initial ⟨bootTasks_booted, ?_, rfl⟩
    rw [boot]
    exact ran
  have opens : doOpen state 0 pathA 3 = some (next, (fd : Int)) := done
  have moved : (sharedMachine 32768 zeroDisk).step (bootFiles state) (0, .open pathA 3) =
      some ((bootFiles state).settle next) := by
    have created : (bootFiles state).tasks.Created 0 := ⟨by decide, fun idle => by cases idle⟩
    simp only [sharedMachine, FileCall.perform, if_pos created, boot, opens]
    rfl
  have guarded : ClosesOwn (bootFiles state) (0, .open pathA 3) := by
    have same : KeepsCounts (bootFiles state).fs (.open 0 pathA 3) := by
      rw [boot]
      exact keeps
    exact same
  have forks : (sharedMachine 32768 zeroDisk).step ((bootFiles state).settle next) (0, .fork 0x400000) = some _ := rfl
  have link : ∃ d, next.filp 0 fd = some d := by
    rcases doOpen_cases opens with ⟨_, failed, _⟩ | ⟨_, place, d, _, _, _, opened, isFd, _⟩
    · omega
    · obtain rfl : fd = place := Int.ofNat.inj isFd
      refine ⟨d, ?_⟩
      rw [opened.filp, Function.update_self, Function.update_self]
  obtain ⟨d, link⟩ := link
  have anyFork : ClosesOwn ((bootFiles state).settle next) (0, .fork 0x400000) := trivial
  have reached := (start.step guarded moved).step anyFork forks
  exact ⟨_, fd, d, reached, ⟨by decide, fun idle => by cases idle⟩, ⟨by decide, fun idle => by cases idle⟩,
    place, link, link⟩

theorem descriptors_survive_first_fork :
    ∃ (files : SharedFiles) (fd d : Nat), files.fs.filp 0 fd = some d ∧ files.fs.filp 16 fd = some d ∧
      Valid files ∧ Inherited files := by
  obtain ⟨files, fd, d, reached, _, _, _, parent, child⟩ := open_then_fork
  exact ⟨files, fd, d, parent, child, descriptors_survive_fork reached⟩

/-- The child closes the file, and the parent is left with a free descriptor. -/
theorem close_frees_shared :
    ∃ files : SharedFiles, (sharedMachine 32768 zeroDisk).Reachable files ∧ ¬Valid files := by
  obtain ⟨files, fd, d, reached, parent, child, place, ofParent, ofChild⟩ := open_then_fork
  obtain ⟨p, points⟩ := (descriptors_reached reached).linked 16 fd d ofChild
  obtain ⟨next, closes⟩ : ∃ next, doClose files.fs 16 fd = some (next, 0) := by
    have link : opened files.fs 16 fd = some (d, p) := opened_iff.mpr ⟨place, ofChild, points⟩
    unfold doClose
    rw [link]
    exact ⟨_, rfl⟩
  have moved : (sharedMachine 32768 zeroDisk).step files (16, .close fd) = some (files.settle next) := by
    simp only [sharedMachine, FileCall.perform, if_pos child, closes]
    rfl
  refine ⟨_, reached.reachable.step trivial moved, fun valid => ?_⟩
  obtain ⟨e, q, closed⟩ := doClose_closed closes
  obtain rfl : d = e := Option.some.inj (ofChild.symm.trans closed.link)
  have kept : (files.settle next).fs.filp 0 fd = some d := by
    have filp : next.filp 0 fd = some d := by
      rw [closed.filp, Function.update_of_ne (by decide)]
      exact ofParent
    exact filp
  obtain ⟨r, _, target, _⟩ := valid 0 parent fd d kept
  have free : (next.fDescTable d).inode = .free := by
    rw [closed.descs, Function.update_self]
  have target : (next.fDescTable d).inode = .slot r := target
  rw [free] at target
  cases target

end AempOS.Fs
