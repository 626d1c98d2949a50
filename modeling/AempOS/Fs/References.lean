import AempOS.Fs.FilesProperties
import AempOS.Lib.Population

/-! The reference counts of the inodes in memory. Each descriptor in use is a
reference to its inode, and `init_fs` keeps one to the root directory. A create gives
the new inode the count 1, whatever count its slot had, and an unlink that is refused
with the inode in hand does not put it back. -/

set_option autoImplicit false

namespace AempOS.Fs

open Lib

/-- `i_cnt` of a slot. -/
def FsState.counts (state : FsState) (p : Nat) : Int := (state.inodeTable p).cnt

/-- `fd_inode` of the descriptors. -/
def FsState.targets (state : FsState) (d : Fin nrFileDesc) : FdInode := (state.fDescTable d).inode

/-- How many descriptors point to a slot. -/
def references (targets : Fin nrFileDesc → FdInode) (p : Nat) : Nat :=
  population (fun inode => inode = .slot p) targets

/-- The reference that `init_fs` keeps. -/
def FsState.rootReference (state : FsState) (p : Nat) : Int := if p = state.rootInode then 1 else 0

/-- Every count is the number of references. -/
def Counted (state : FsState) : Prop :=
  ∀ p < nrInode, state.counts p = references state.targets p + state.rootReference p

/-- The inode is in the table. -/
def InTable (state : FsState) (n : Nat) : Prop := ∃ p < nrInode, state.counts p ≠ 0 ∧ (state.inodeTable p).num = n

/-- The calls that take and give up references. -/
inductive RefCall where
  | open (pid : Nat) (path : Path) (flags : Nat)
  | close (pid fd : Nat)
  | unlink (path : Path)

def RefCall.perform (state : FsState) : RefCall → Option (FsState × Int)
  | .open pid path flags => doOpen state pid path flags
  | .close pid fd => doClose state pid fd
  | .unlink path => doUnlink state path

/-- The file system from `init_fs` on, with calls one at a time. -/
def refMachine (size : Nat) (disk : Disk) : Machine FsState RefCall where
  initial state := initFs size disk = some state
  step state call := (call.perform state).map Prod.fst

/-- An unlink that finds an inode finds a regular file that is not open, and the inode
that a create picks is not in the table. -/
def KeepsCounts (state : FsState) : RefCall → Prop
  | .open _ path flags =>
      oCreat flags → searchFile state path = 0 → stripPath path ≠ none →
        ¬InTable state (allocImapBit state.sb state.disk).1
  | .close _ _ => True
  | .unlink path =>
      path.text ≠ [slash] → searchFile state path ≠ 0 →
        (recordOf state.sb state.disk (searchFile state path)).mode = iRegular ∧
          ¬InTable state (searchFile state path)

variable {state next : FsState} {pid fd flags n p : Nat} {path : Path} {ret : Int}

/-! ## Counts and targets -/

/-- The same counts and descriptors. -/
structure SameReferences (state next : FsState) : Prop where
  counts : next.counts = state.counts
  descs : next.fDescTable = state.fDescTable
  filp : next.filp = state.filp
  root : next.rootInode = state.rootInode

/-- Another count of one slot, and the same descriptors. -/
structure Recounted (state next : FsState) (p : Nat) (count : Int) : Prop where
  counts : next.counts = Function.update state.counts p count
  descs : next.fDescTable = state.fDescTable
  filp : next.filp = state.filp
  root : next.rootInode = state.rootInode

theorem Recounted.trans {mid : FsState} {count : Int} (first : Recounted state mid p count)
    (second : SameReferences mid next) : Recounted state next p count :=
  ⟨second.counts.trans first.counts, second.descs.trans first.descs, second.filp.trans first.filp,
    second.root.trans first.root⟩

theorem setInode_counts (state : FsState) (p : Nat) (inode : Inode) :
    (state.setInode p inode).counts = Function.update state.counts p inode.cnt := by
  funext i
  by_cases same : i = p
  · subst same
    simp [FsState.counts, FsState.setInode]
  · simp [FsState.counts, FsState.setInode, same]

theorem setInode_same {inode : Inode} (same : inode.cnt = (state.inodeTable p).cnt) :
    SameReferences state (state.setInode p inode) := by
  refine ⟨?_, rfl, rfl, rfl⟩
  rw [setInode_counts, same]
  exact Function.update_eq_self p state.counts

theorem setDesc_targets (state : FsState) (d : Fin nrFileDesc) (desc : FileDesc) :
    (state.setDesc d desc).targets = Function.update state.targets d desc.inode := by
  funext e
  by_cases same : e = d
  · subst same
    simp [FsState.targets, FsState.setDesc]
  · have apart : (e : Nat) ≠ d := fun wrong => same (Fin.ext wrong)
    simp [FsState.targets, FsState.setDesc, same, apart]

theorem references_update (targets : Fin nrFileDesc → FdInode) (d : Fin nrFileDesc) (inode : FdInode) (p : Nat) :
    references (Function.update targets d inode) p + (if targets d = .slot p then 1 else 0) =
      references targets p + (if inode = .slot p then 1 else 0) := by
  have updated := population_update (fun inode => decide (inode = .slot p)) targets d inode
  simp only [decide_eq_true_eq] at updated
  exact updated

theorem references_pos {targets : Fin nrFileDesc → FdInode} {d : Fin nrFileDesc} (points : targets d = .slot p) :
    0 < references targets p := by
  have chosen : decide (targets d = .slot p) = true := decide_eq_true points
  exact population_pos chosen

/-! ## The functions -/

/-- `get_inode_sched` adds one to the count of its slot. -/
theorem getInode_recounted (got : getInode state n = some (next, some p)) :
    n ≠ 0 ∧ SlotFor state n p ∧ Recounted state next p (state.counts p + 1) := by
  rcases getInode_cases got with ⟨_, wrong, _⟩ | ⟨q, nonzero, same, slot, ⟨_, rfl⟩ | ⟨free, rfl⟩⟩
  · cases wrong
  · cases same
    exact ⟨nonzero, slot, setInode_counts state p _, rfl, rfl, rfl⟩
  · cases same
    have zero : state.counts p = 0 := free
    rw [zero]
    exact ⟨nonzero, slot, setInode_counts state p _, rfl, rfl, rfl⟩

/-- `new_inode` gives its slot the count 1. -/
theorem newInode_recounted {startSect : Nat} (made : newInode state n startSect = some (next, p)) :
    SlotFor state n p ∧ Recounted state next p 1 := by
  unfold newInode at made
  split at made
  next mid q got =>
      obtain ⟨rfl, rfl⟩ := Prod.mk.inj (Option.some.inj made)
      obtain ⟨_, slot, counts, descs, filp, root⟩ := getInode_recounted got
      have synced : (syncInode (mid.setInode q (freshInode n startSect)) q).counts =
          (mid.setInode q (freshInode n startSect)).counts := rfl
      have fresh := synced.trans (setInode_counts mid q (freshInode n startSect))
      rw [counts, Function.update_idem] at fresh
      exact ⟨slot, fresh, descs, filp, root⟩
  next => cases made

theorem storeDir_same (state : FsState) (k : Nat) (fsbuf : Buffer) (size : Nat) :
    SameReferences state (storeDir state k fsbuf size) := by
  refine ⟨?_, rfl, rfl, rfl⟩
  have table : (storeDir state k fsbuf size).counts =
      (state.setInode state.rootInode { state.dir with size := size }).counts := rfl
  have count : ({ state.dir with size := size } : Inode).cnt = (state.inodeTable state.rootInode).cnt := rfl
  exact table.trans (setInode_same count).counts

theorem newDirEntry_same {filename : List Byte} (done : newDirEntry state n filename = some next) :
    SameReferences state next := by
  unfold newDirEntry at done
  simp only at done
  split at done
  next => cases done
  next =>
      cases done
      exact storeDir_same ..

theorem removeDirEntry_same (state : FsState) (n : Nat) : SameReferences state (removeDirEntry state n) := by
  unfold removeDirEntry
  simp only
  split
  next => exact ⟨rfl, rfl, rfl, rfl⟩
  next =>
      split
      next => exact storeDir_same ..
      next => exact ⟨rfl, rfl, rfl, rfl⟩

theorem putInode_recounted (state : FsState) (p : Nat) : Recounted state (putInode state p) p (state.counts p - 1) :=
  ⟨setInode_counts state p _, rfl, rfl, rfl⟩

theorem createFile_recounted {pin : Option Nat} (created : createFile state path = some (next, pin)) :
    (pin = none ∧ next = state ∧ stripPath path = none) ∨
      ∃ p, pin = some p ∧ stripPath path ≠ none ∧ SlotFor state (allocImapBit state.sb state.disk).1 p ∧
        Recounted state next p 1 := by
  unfold createFile at created
  split at created
  next none =>
      obtain ⟨rfl, rfl⟩ := Prod.mk.inj (Option.some.inj created)
      exact .inl ⟨rfl, rfl, none⟩
  next name valid =>
      simp only at created
      split at created
      next => cases created
      next mid p made =>
          obtain ⟨after, entered, isNext⟩ := Option.map_eq_some_iff.mp created
          obtain ⟨rfl, rfl⟩ := Prod.mk.inj isNext
          obtain ⟨slot, recounted⟩ := newInode_recounted made
          have recounted : Recounted state mid p 1 :=
            ⟨recounted.counts, recounted.descs, recounted.filp, recounted.root⟩
          exact .inr ⟨p, rfl, by simp [valid], slot, recounted.trans (newDirEntry_same entered)⟩

/-! ## The calls -/

/-- What an open leaves that gives out a descriptor. -/
structure OpenedAs (state : FsState) (pid flags : Nat) (next : FsState) (fd d p : Nat) (count : Int) : Prop where
  counts : next.counts = Function.update state.counts p count
  descs : next.fDescTable = Function.update state.fDescTable d { mode := flags, pos := 0, inode := .slot p }
  filp : next.filp = Function.update state.filp pid (Function.update (state.filp pid) fd (some d))
  root : next.rootInode = state.rootInode
  unlinked : state.filp pid fd = none
  inside : d < nrFileDesc
  free : (state.fDescTable d).inode = .free

theorem freeDesc_some {d : Nat} (found : freeDesc state = some d) :
    d < nrFileDesc ∧ (state.fDescTable d).inode = .free := by
  obtain ⟨_, inside, passes, _⟩ := firstFrom_some found
  exact ⟨by omega, by simpa using passes⟩

theorem freeFilp_some (found : freeFilp state pid = some fd) : state.filp pid fd = none := by
  obtain ⟨_, _, passes, _⟩ := firstFrom_some found
  simpa using passes

/-- The end of an open, where the table holds the inode. -/
theorem linkDesc_opened {mid : FsState} {count : Int}
    (recounted : Recounted (reserveDesc state (freeDesc state)) mid p count)
    (linked : linkDesc mid pid flags p (freeFilp state pid) (freeDesc state) = some (next, ret)) :
    ∃ fd d, OpenedAs state pid flags next fd d p count ∧ ret = fd := by
  cases place : freeFilp state pid with
  | none =>
      rw [place] at linked
      cases linked
  | some fd =>
      cases slot : freeDesc state with
      | none =>
          rw [place, slot] at linked
          cases linked
      | some d =>
          rw [place, slot] at linked
          cases linked
          obtain ⟨inside, free⟩ := freeDesc_some slot
          obtain ⟨counts, descs, filp, root⟩ := recounted
          rw [slot] at counts descs filp root
          refine ⟨fd, d, ⟨counts, ?_, ?_, root, freeFilp_some place, inside, free⟩, rfl⟩
          · simp only [FsState.setDesc, FsState.setFilp, descs, reserveDesc, Function.update_idem]
          · simp only [FsState.setDesc, FsState.setFilp, filp, reserveDesc]

theorem reserveDesc_rest (state : FsState) (slot : Option Nat) :
    ∃ table, reserveDesc state slot = { state with fDescTable := table } := by
  cases slot with
  | none => exact ⟨_, rfl⟩
  | some d => exact ⟨_, rfl⟩

theorem doOpen_cases (ran : doOpen state pid path flags = some (next, ret)) :
    (next = reserveDesc state (freeDesc state) ∧ ret = -1 ∧
        (oCreat flags → searchFile state path ≠ 0 ∨ stripPath path = none)) ∨
      ∃ n fd d p count, SlotFor state n p ∧ OpenedAs state pid flags next fd d p count ∧ ret = fd ∧
        if oCreat flags then searchFile state path = 0 ∧ stripPath path ≠ none ∧
          n = (allocImapBit state.sb state.disk).1 ∧ count = 1
        else count = state.counts p + 1 := by
  have linked : ∀ {mid : FsState} {p : Nat} {count : Int},
      Recounted (reserveDesc state (freeDesc state)) mid p count →
      linkDesc mid pid flags p (freeFilp state pid) (freeDesc state) = some (next, ret) →
      ∃ fd d, OpenedAs state pid flags next fd d p count ∧ ret = fd := linkDesc_opened
  obtain ⟨table, isReserved⟩ := reserveDesc_rest state (freeDesc state)
  unfold doOpen at ran
  simp only [isReserved] at ran linked ⊢
  have search : searchFile { state with fDescTable := table } path = searchFile state path := rfl
  rw [search] at ran
  split at ran
  next creates =>
      simp only [creates, if_true, forall_const]
      split at ran
      next exists' =>
          obtain ⟨rfl, rfl⟩ := Prod.mk.inj (Option.some.inj ran)
          exact .inl ⟨rfl, rfl, .inl exists'⟩
      next missing =>
          cases created : createFile { state with fDescTable := table } path with
          | none =>
              rw [created] at ran
              cases ran
          | some made =>
              obtain ⟨mid, pin⟩ := made
              rw [created] at ran
              rcases createFile_recounted created with ⟨rfl, rfl, none⟩ | ⟨p, rfl, valid, slot, recounted⟩
              · obtain ⟨rfl, rfl⟩ := Prod.mk.inj (Option.some.inj ran)
                exact .inl ⟨rfl, rfl, .inr none⟩
              · obtain ⟨fd, d, opened, isRet⟩ := linked recounted ran
                have missing : searchFile state path = 0 := by simpa using missing
                exact .inr ⟨_, fd, d, p, 1, slot, opened, isRet, missing, valid, rfl, rfl⟩
  next plain =>
      split at ran
      next =>
          obtain ⟨rfl, rfl⟩ := Prod.mk.inj (Option.some.inj ran)
          exact .inl ⟨rfl, rfl, fun creates => absurd creates plain⟩
      next =>
          cases got : getInode { state with fDescTable := table } (searchFile state path) with
          | none =>
              rw [got] at ran
              cases ran
          | some found =>
              obtain ⟨mid, pin⟩ := found
              rw [got] at ran
              cases pin with
              | none =>
                  obtain ⟨rfl, rfl⟩ := Prod.mk.inj (Option.some.inj ran)
                  rcases getInode_cases got with ⟨_, _, rfl⟩ | ⟨_, _, wrong, _⟩
                  · exact .inl ⟨rfl, rfl, fun creates => absurd creates plain⟩
                  · cases wrong
              | some p =>
                  obtain ⟨_, slot, recounted⟩ := getInode_recounted got
                  obtain ⟨fd, d, opened, isRet⟩ := linked recounted ran
                  refine .inr ⟨_, fd, d, p, _, slot, opened, isRet, ?_⟩
                  rw [if_neg plain]
                  rfl

/-- What a close leaves. -/
structure ClosedAs (state : FsState) (pid fd : Nat) (next : FsState) (d p : Nat) : Prop where
  link : state.filp pid fd = some d
  target : (state.fDescTable d).inode = .slot p
  counts : next.counts = Function.update state.counts p (state.counts p - 1)
  descs : next.fDescTable = Function.update state.fDescTable d { state.fDescTable d with inode := .free }
  filp : next.filp = Function.update state.filp pid (Function.update (state.filp pid) fd none)
  root : next.rootInode = state.rootInode

theorem doClose_closed (ran : doClose state pid fd = some (next, ret)) : ∃ d p, ClosedAs state pid fd next d p := by
  obtain ⟨d, p, link, rfl⟩ := doClose_cases ran
  obtain ⟨_, isLink, target⟩ := opened_iff.mp link
  exact ⟨d, p, isLink, target, setInode_counts state p _, rfl, rfl, rfl⟩

/-- The end of `removeFile`. -/
theorem putAndRemove_recounted {mid : FsState} (same : SameReferences state mid) (n p : Nat) :
    Recounted state (removeDirEntry (putInode (syncInode mid p) p) n) p (state.counts p - 1) := by
  have put := putInode_recounted (syncInode mid p) p
  have count : (syncInode mid p).counts = state.counts := same.counts
  rw [count] at put
  exact Recounted.trans ⟨put.counts.trans (by rw [count]), put.descs.trans same.descs, put.filp.trans same.filp,
    put.root.trans same.root⟩ (removeDirEntry_same _ n)

theorem removeFile_recounted (state : FsState) (n p : Nat) :
    Recounted state (removeFile state n p) p (state.counts p - 1) := by
  apply putAndRemove_recounted
  refine ⟨?_, rfl, rfl, rfl⟩
  refine (setInode_counts _ p _).trans ?_
  exact Function.update_eq_self p state.counts

/-- An unlink that has no inode in hand, that is refused with it, or that is done. -/
theorem doUnlink_recounted (counted : ∀ i < nrInode, 0 ≤ state.counts i)
    (ran : doUnlink state path = some (next, ret)) :
    (next = state ∧ ret = -1 ∧ (path.text = [slash] ∨ searchFile state path = 0)) ∨
      path.text ≠ [slash] ∧ searchFile state path ≠ 0 ∧ ∃ p, SlotFor state (searchFile state path) p ∧
        ((ret = -1 ∧ Recounted state next p (state.counts p + 1) ∧
            ¬((recordOf state.sb state.disk (searchFile state path)).mode = iRegular ∧ state.counts p = 0)) ∨
          ret = 0 ∧ Recounted state next p (state.counts p) ∧ state.counts p = 0 ∧
            (recordOf state.sb state.disk (searchFile state path)).mode = iRegular) := by
  unfold doUnlink at ran
  split at ran
  next isRoot =>
      cases ran
      exact .inl ⟨rfl, rfl, .inl isRoot⟩
  next notRoot =>
      simp only at ran
      split at ran
      next missing =>
          cases ran
          exact .inl ⟨rfl, rfl, .inr missing⟩
      next found =>
          split at ran
          next none =>
              have missing : searchFile state path = 0 := by simp [searchFile, none]
              exact absurd missing found
          next valid =>
              refine .inr ⟨notRoot, found, ?_⟩
              cases got : getInode state (searchFile state path) with
              | none =>
                  rw [got] at ran
                  cases ran
              | some pair =>
                  obtain ⟨mid, pin⟩ := pair
                  rw [got] at ran
                  cases pin with
                  | none => cases ran
                  | some p =>
                      obtain ⟨_, slot, taken⟩ := getInode_recounted got
                      refine ⟨p, slot, ?_⟩
                      have positive := counted p slot.1
                      have count := congrFun taken.counts p
                      rw [Function.update_self] at count
                      have count : (mid.inodeTable p).cnt = state.counts p + 1 := count
                      have mode : state.counts p = 0 → (mid.inodeTable p).mode =
                          (recordOf state.sb state.disk (searchFile state path)).mode := by
                        intro free
                        rcases getInode_cases got with ⟨_, wrong, _⟩ | ⟨q, _, same, _, ⟨used, _⟩ | ⟨_, rfl⟩⟩
                        · cases wrong
                        · cases same
                          exact absurd free used
                        · cases same
                          simp only [FsState.setInode, Function.update_self, loadedInode]
                      simp only at ran
                      split at ran
                      next special =>
                          cases ran
                          refine .inl ⟨rfl, taken, fun both => special ?_⟩
                          rw [mode both.2, both.1]
                      next regular =>
                          split at ran
                          next open' =>
                              cases ran
                              exact .inl ⟨rfl, taken, fun both => by omega⟩
                          next closed =>
                              cases ran
                              have zero : state.counts p = 0 := by omega
                              have removed := removeFile_recounted mid (searchFile state path) p
                              have before : mid.counts p = 1 := by
                                rw [zero] at count
                                exact count
                              rw [before] at removed
                              refine .inr ⟨rfl, ⟨?_, removed.descs.trans taken.descs, removed.filp.trans taken.filp,
                                removed.root.trans taken.root⟩, zero, ?_⟩
                              · rw [removed.counts, taken.counts, Function.update_idem, zero]
                                rfl
                              · rw [← mode zero]
                                simpa using regular

end AempOS.Fs
