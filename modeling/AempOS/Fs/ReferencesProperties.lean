import AempOS.Fs.References
import AempOS.Fs.LookupProperties

/-! The counts of the inodes over whole runs. They are the numbers of references as
long as no unlink is refused with the inode in hand and no create picks an inode that
is in the table, and the first call that does one of the two breaks them. -/

set_option autoImplicit false

namespace AempOS.Fs

open Lib

variable {state next : FsState} {pid fd flags n p : Nat} {path : Path} {ret : Int}

/-! ## Counting -/

/-- What the calls keep besides the counts. -/
structure Within (state : FsState) : Prop where
  slots : ∀ p, nrInode ≤ p → references state.targets p = 0
  descs : ∀ pid fd d, state.filp pid fd = some d → d < nrFileDesc

theorem Counted.nonneg (counted : Counted state) : ∀ i < nrInode, 0 ≤ state.counts i := by
  intro i inside
  rw [counted i inside]
  unfold FsState.rootReference
  split <;> omega

theorem references_desc {d : Nat} {desc : FileDesc} (descs : next.fDescTable = Function.update state.fDescTable d desc)
    (inside : d < nrFileDesc) (q : Nat) :
    references next.targets q + (if (state.fDescTable d).inode = .slot q then 1 else 0) =
      references state.targets q + (if desc.inode = .slot q then 1 else 0) := by
  have targets : next.targets = Function.update state.targets ⟨d, inside⟩ desc.inode := by
    rw [← setDesc_targets]
    unfold FsState.targets FsState.setDesc
    rw [descs]
  rw [targets]
  exact references_update state.targets ⟨d, inside⟩ desc.inode q

theorem references_reserved (state : FsState) (q : Nat) :
    references (reserveDesc state (freeDesc state)).targets q = references state.targets q := by
  cases slot : freeDesc state with
  | none => rfl
  | some d =>
      obtain ⟨inside, free⟩ := freeDesc_some slot
      have descs : (reserveDesc state (some d)).fDescTable =
          Function.update state.fDescTable d { state.fDescTable d with inode := .reserved } := rfl
      have added := references_desc descs inside q
      rw [free] at added
      simpa using added

theorem Within.reserve (within : Within state) : Within (reserveDesc state (freeDesc state)) := by
  constructor
  · intro p outside
    rw [references_reserved]
    exact within.slots p outside
  · obtain ⟨table, same⟩ := reserveDesc_rest state (freeDesc state)
    rw [same]
    exact within.descs

theorem Counted.reserve (counted : Counted state) : Counted (reserveDesc state (freeDesc state)) := by
  intro p inside
  have held := counted p inside
  rw [references_reserved]
  obtain ⟨table, same⟩ := reserveDesc_rest state (freeDesc state)
  rw [same]
  exact held

theorem linked_update {filp : Nat → Nat → Option Nat} {link : Option Nat} {other place d : Nat}
    (isLink : Function.update filp pid (Function.update (filp pid) fd link) other place = some d) :
    link = some d ∨ filp other place = some d := by
  by_cases same : other = pid
  · subst same
    rw [Function.update_self] at isLink
    by_cases here : place = fd
    · subst here
      rw [Function.update_self] at isLink
      exact .inl isLink
    · rw [Function.update_of_ne here] at isLink
      exact .inr isLink
  · rw [Function.update_of_ne same] at isLink
    exact .inr isLink

namespace OpenedAs

variable {d : Nat} {count : Int}

/-- An open adds one reference. -/
theorem references (opened : OpenedAs state pid flags next fd d p count) (q : Nat) :
    Fs.references next.targets q = Fs.references state.targets q + if p = q then 1 else 0 := by
  have added := references_desc opened.descs opened.inside q
  rw [opened.free] at added
  simpa using added

theorem within (opened : OpenedAs state pid flags next fd d p count) (within : Within state) (inside : p < nrInode) :
    Within next := by
  constructor
  · intro q outside
    have apart : p ≠ q := by omega
    rw [opened.references, within.slots q outside, if_neg apart]
  · intro other place e link
    rw [opened.filp] at link
    rcases linked_update link with isThis | before
    · cases isThis
      exact opened.inside
    · exact within.descs other place e before

/-- An open keeps the counts exactly when it adds one to the count of its slot. -/
theorem counted (opened : OpenedAs state pid flags next fd d p count) (inside : p < nrInode) (counted : Counted state) :
    Counted next ↔ count = state.counts p + 1 := by
  have held := counted p inside
  have root : ∀ q, next.rootReference q = state.rootReference q := fun q => by
    unfold FsState.rootReference
    rw [opened.root]
  constructor
  · intro countedNext
    have after := countedNext p inside
    rw [opened.counts, Function.update_self, opened.references, root, if_pos rfl] at after
    omega
  · rintro rfl q within
    rw [opened.counts, opened.references, root]
    by_cases same : p = q
    · subst same
      rw [Function.update_self, if_pos rfl]
      omega
    · rw [Function.update_of_ne (Ne.symm same), if_neg same]
      exact counted q within

end OpenedAs

namespace ClosedAs

variable {d : Nat}

/-- A close gives up one reference. -/
theorem references (closed : ClosedAs state pid fd next d p) (inside : d < nrFileDesc) (q : Nat) :
    Fs.references next.targets q + (if p = q then 1 else 0) = Fs.references state.targets q := by
  have dropped := references_desc closed.descs inside q
  rw [closed.target] at dropped
  simpa using dropped

theorem counted (closed : ClosedAs state pid fd next d p) (within : Within state) (counted : Counted state) :
    Within next ∧ Counted next := by
  have inside := within.descs pid fd d closed.link
  have root : ∀ q, next.rootReference q = state.rootReference q := fun q => by
    unfold FsState.rootReference
    rw [closed.root]
  refine ⟨⟨fun q outside => ?_, fun other place e link => ?_⟩, fun q slot => ?_⟩
  · have dropped := closed.references inside q
    rw [within.slots q outside] at dropped
    omega
  · rw [closed.filp] at link
    rcases linked_update link with wrong | before
    · cases wrong
    · exact within.descs other place e before
  · have dropped := closed.references inside q
    have held := counted q slot
    rw [closed.counts, root]
    by_cases same : p = q
    · subst same
      rw [Function.update_self]
      rw [if_pos rfl] at dropped
      omega
    · rw [Function.update_of_ne (Ne.symm same)]
      rw [if_neg same] at dropped
      omega

end ClosedAs

/-- Without another descriptor the counts are kept exactly when none changes. -/
theorem Recounted.counted {count : Int} (recounted : Recounted state next p count) (inside : p < nrInode)
    (counted : Counted state) : Counted next ↔ count = state.counts p := by
  have targets : next.targets = state.targets := by
    unfold FsState.targets
    rw [recounted.descs]
  have root : ∀ q, next.rootReference q = state.rootReference q := fun q => by
    unfold FsState.rootReference
    rw [recounted.root]
  constructor
  · intro countedNext
    have after := countedNext p inside
    rw [recounted.counts, Function.update_self, targets, root] at after
    exact after.trans (counted p inside).symm
  · rintro rfl q slot
    rw [recounted.counts, Function.update_eq_self, targets, root]
    exact counted q slot

theorem Recounted.within {count : Int} (recounted : Recounted state next p count) (within : Within state) :
    Within next := by
  constructor
  · intro q outside
    unfold FsState.targets
    rw [recounted.descs]
    exact within.slots q outside
  · rw [recounted.filp]
    exact within.descs

/-! ## Runs -/

theorem SlotFor.count_ne (slot : SlotFor state n p) : state.counts p ≠ 0 ↔ InTable state n := by
  constructor
  · intro used
    rcases slot.2 with ⟨_, num⟩ | ⟨free, _⟩
    · exact ⟨p, slot.1, used, num⟩
    · exact absurd free used
  · rintro ⟨q, inside, used, num⟩ free
    rcases slot.2 with ⟨held, _⟩ | ⟨_, absent⟩
    · exact held free
    · exact absent q inside used num

/-- A call keeps the counts exactly when it meets the condition. -/
theorem Counted.step {call : RefCall} (counted : Counted state) (within : Within state)
    (done : call.perform state = some (next, ret)) : Within next ∧ (Counted next ↔ KeepsCounts state call) := by
  cases call with
  | «open» pid path flags =>
      rcases doOpen_cases done with ⟨rfl, _, refused⟩ | ⟨n, fd, d, p, count, slot, opened, _, kind⟩
      · refine ⟨within.reserve, iff_of_true counted.reserve fun creates missing valid => ?_⟩
        rcases refused creates with found | none
        · exact absurd missing found
        · exact absurd none valid
      · refine ⟨opened.within within slot.1, (opened.counted slot.1 counted).trans ?_⟩
        by_cases creates : oCreat flags = true
        · rw [if_pos creates] at kind
          obtain ⟨missing, valid, rfl, rfl⟩ := kind
          constructor
          · intro one _ _ _ held
            have used := slot.count_ne.mpr held
            omega
          · intro keeps
            have free := mt slot.count_ne.mp (keeps creates missing valid)
            simp only [ne_eq, Decidable.not_not] at free
            omega
        · rw [if_neg creates] at kind
          exact iff_of_true kind fun wrong => absurd wrong creates
  | close pid fd =>
      obtain ⟨d, p, closed⟩ := doClose_closed done
      obtain ⟨withinNext, countedNext⟩ := closed.counted within counted
      exact ⟨withinNext, iff_of_true countedNext trivial⟩
  | unlink path =>
      rcases doUnlink_recounted counted.nonneg done with ⟨rfl, _, early⟩ | ⟨notRoot, found, p, slot, refused | unlinked⟩
      · refine ⟨within, iff_of_true counted fun notRoot found => ?_⟩
        rcases early with isRoot | missing
        · exact absurd isRoot notRoot
        · exact absurd missing found
      · obtain ⟨_, recounted, why⟩ := refused
        refine ⟨recounted.within within, (recounted.counted slot.1 counted).trans ?_⟩
        constructor
        · intro same
          omega
        · intro keeps
          obtain ⟨regular, absent⟩ := keeps notRoot found
          have free := mt slot.count_ne.mp absent
          simp only [ne_eq, Decidable.not_not] at free
          exact absurd ⟨regular, free⟩ why
      · obtain ⟨_, recounted, free, regular⟩ := unlinked
        refine ⟨recounted.within within, (recounted.counted slot.1 counted).trans (iff_of_true rfl ?_)⟩
        exact fun _ _ => ⟨regular, fun held => slot.count_ne.mpr held free⟩

/-- What the counts mean for `do_unlink`. -/
structure UnlinkRule (state : FsState) (path : Path) : Prop where
  /-- A regular file that no descriptor is of can be removed, as long as the table has
  room for its inode. -/
  removed : (recordOf state.sb state.disk (searchFile state path)).mode = iRegular →
    searchFile state path ≠ state.dir.num →
    (∀ d < nrFileDesc, ∀ p, (state.fDescTable d).inode = .slot p → (state.inodeTable p).num ≠ searchFile state path) →
    (∃ p < nrInode, state.counts p = 0) → ∃ next, doUnlink state path = some (next, 0)
  /-- One with an open descriptor cannot. -/
  refused : ∀ d < nrFileDesc, ∀ p, (state.fDescTable d).inode = .slot p →
    (state.inodeTable p).num = searchFile state path → ∃ next, doUnlink state path = some (next, -1)

theorem getInode_held (nonzero : n ≠ 0) (held : InTable state n) :
    ∃ next p, getInode state n = some (next, some p) := by
  obtain ⟨q, inside, used, num⟩ := held
  have used : (state.inodeTable q).cnt ≠ 0 := used
  obtain ⟨p, found⟩ : ∃ p, firstFrom (fun p => (state.inodeTable p).cnt != 0 && (state.inodeTable p).num == n) nrInode 0 =
      some p := firstFrom_isSome (Nat.zero_le q) (by omega) (by simp [used, num])
  unfold getInode
  rw [if_neg nonzero]
  simp only [found]
  exact ⟨_, p, rfl⟩

theorem doUnlink_returns (notRoot : path.text ≠ [slash]) (found : searchFile state path ≠ 0)
    (got : ∃ next p, getInode state (searchFile state path) = some (next, some p)) :
    ∃ next ret, doUnlink state path = some (next, ret) := by
  obtain ⟨mid, p, got⟩ := got
  unfold doUnlink
  rw [if_neg notRoot]
  simp only [found, if_false]
  split
  next => exact ⟨_, _, rfl⟩
  next =>
      rw [got]
      simp only
      split
      next => exact ⟨_, _, rfl⟩
      next =>
          split
          next => exact ⟨_, _, rfl⟩
          next => exact ⟨_, _, rfl⟩

theorem Counted.unlinkRule (counted : Counted state) (within : Within state) (notRoot : path.text ≠ [slash])
    (found : searchFile state path ≠ 0) : UnlinkRule state path := by
  constructor
  · intro regular notDir closed room
    have absent : ¬InTable state (searchFile state path) := by
      rintro ⟨p, inside, used, num⟩
      have count := counted p inside
      have notRootSlot : p ≠ state.rootInode := by
        rintro rfl
        exact notDir num.symm
      unfold FsState.rootReference at count
      rw [if_neg notRootSlot] at count
      have some : references state.targets p ≠ 0 := by omega
      rw [references, Ne, population_eq_zero] at some
      simp only [decide_eq_false_iff_not, not_forall, Decidable.not_not] at some
      obtain ⟨d, points⟩ := some
      exact closed d d.isLt p points num
    obtain ⟨next, ret, done⟩ := doUnlink_returns notRoot found (getInode_isSome found room)
    rcases doUnlink_recounted counted.nonneg done with ⟨_, _, early⟩ | ⟨_, _, p, slot, ⟨_, _, why⟩ | ⟨rfl, _⟩⟩
    · rcases early with isRoot | missing
      · exact absurd isRoot notRoot
      · exact absurd missing found
    · have free := mt slot.count_ne.mp absent
      simp only [ne_eq, Decidable.not_not] at free
      exact absurd ⟨regular, free⟩ why
    · exact ⟨next, done⟩
  · intro d inside p points num
    have some : 0 < references state.targets p := references_pos (d := ⟨d, inside⟩) points
    have slot : p < nrInode := by
      by_contra outside
      rw [within.slots p (by omega)] at some
      omega
    have count := counted p slot
    have held : InTable state (searchFile state path) := by
      refine ⟨p, slot, ?_, num⟩
      unfold FsState.rootReference at count
      split at count <;> omega
    obtain ⟨next, ret, done⟩ := doUnlink_returns notRoot found (getInode_held found held)
    rcases doUnlink_recounted counted.nonneg done with ⟨_, _, early⟩ | ⟨_, _, q, taken, ⟨rfl, _⟩ | ⟨_, _, free, _⟩⟩
    · rcases early with isRoot | missing
      · exact absurd isRoot notRoot
      · exact absurd missing found
    · exact ⟨next, done⟩
    · exact absurd free (taken.count_ne.mpr held)

theorem initFs_counted {size : Nat} {disk : Disk} (start : initFs size disk = some state) :
    Within state ∧ Counted state := by
  unfold initFs at start
  simp only at start
  generalize (if (readSuperBlock disk).magic = magicV1 then disk else mkfs size disk) = formatted at start
  split at start
  next made p got =>
      cases start
      obtain ⟨_, slot, recounted⟩ := getInode_recounted got
      have none : ∀ q, references made.targets q = 0 := by
        intro q
        unfold FsState.targets
        rw [recounted.descs, references, population_eq_zero]
        intro d
        rfl
      refine ⟨⟨fun q _ => none q, fun pid fd d link => ?_⟩, fun q inside => ?_⟩
      · have link : made.filp pid fd = some d := link
        rw [recounted.filp] at link
        cases link
      · have count : made.counts q = (references made.targets q : Int) + if q = p then 1 else 0 := by
          rw [none, recounted.counts]
          by_cases same : q = p
          · subst same
            rw [Function.update_self, if_pos rfl]
            rfl
          · rw [Function.update_of_ne same, if_neg same]
            rfl
        exact count
  next => cases start

theorem references_reached {size : Nat} {disk : Disk}
    (reached : (refMachine size disk).ReachableWhen KeepsCounts state) : Within state ∧ Counted state := by
  have start : ∀ state, (refMachine size disk).initial state → Within state ∧ Counted state :=
    fun state initial => initFs_counted initial
  refine reached.invariant start fun state call after before guarded moved => ?_
  obtain ⟨⟨next, ret⟩, done, rfl⟩ := Option.map_eq_some_iff.mp moved
  obtain ⟨within, kept⟩ := before.2.step before.1 done
  exact ⟨within, kept.mpr guarded⟩

/-- In every run that meets the condition the counts are the numbers of references, and
a call keeps them so exactly when it meets the condition too. -/
theorem inode_references {size : Nat} {disk : Disk} (reached : (refMachine size disk).ReachableWhen KeepsCounts state) :
    Counted state ∧
      (∀ path : Path, path.text ≠ [slash] → searchFile state path ≠ 0 → UnlinkRule state path) ∧
      ∀ call next ret, RefCall.perform state call = some (next, ret) → (Counted next ↔ KeepsCounts state call) := by
  obtain ⟨within, counted⟩ := references_reached reached
  exact ⟨counted, fun path notRoot found => counted.unlinkRule within notRoot found,
    fun call next ret done => (counted.step within done).2⟩

/-! ## A file that is unlinked while it is open -/

theorem Started.only_root {size : Nat} {disk : Disk} (started : Started size disk state) (held : InTable state n) :
    n = 1 := by
  obtain ⟨p, _, used, num⟩ := held
  have isRoot : p = state.rootInode := by
    by_contra other
    exact used (started.others p other)
  have root : (state.inodeTable p).num = 1 := by
    rw [isRoot]
    exact congrArg Inode.num started.root
  exact num.symm.trans root

theorem first_file :
    ∃ (state next : FsState) (fd : Nat), initFs 32768 zeroDisk = some state ∧
      KeepsCounts state (.open 0 pathA 3) ∧ RefCall.perform state (.open 0 pathA 3) = some (next, (fd : Int)) ∧
      fd < nrFiles ∧ searchFile next pathA ≠ 0 ∧ InTable next (searchFile next pathA) := by
  have bounded : Addressable 32768 := by unfold Addressable; omega
  obtain ⟨state, ran, started⟩ := initFs_started zeroDisk_unformatted bounded
  have packed := started.packed
  have sound := packed.sound
  have space := packed.space (by omega)
  have reached : exampleMachine.ReachableWhen KeepsNames (state, mkfsHistory) :=
    .initial ⟨⟨zeroDisk_unformatted, ran⟩, rfl⟩
  have missing : searchFile state pathA = 0 := by
    obtain ⟨here, recorded⟩ := exampleMachine_inStep reached
    exact (recorded.search here pathA_strip (by decide)).trans (by decide)
  have new : NewName state pathA := ⟨missing, by rw [pathA_strip]; exact Option.some_ne_none _⟩
  rcases sound.doOpen_made (space.someClear sound.layout) new pathA_short (by decide : oCreat 3 = true) with
    ⟨_, full⟩ | ⟨next, name, n, b, p, k, size, fd, d, valid, opens, created⟩
  · exact absurd (started.idle.room 0) full
  have keeps : KeepsCounts state (.open 0 pathA 3) := by
    intro _ _ _ held
    obtain ⟨m, _, picked, _, free, _⟩ := allocImapBit_volume sound.layout ⟨n, created.inode.1, created.inode.2.1⟩
    rw [picked] at held
    obtain rfl : m = 1 := started.only_root held
    have reserved : state.volume.imap 1 = true := sound.extents.reserved 1 (by omega)
    have clear : state.volume.imap 1 = false := free
    rw [reserved] at clear
    cases clear
  have found : searchFile next pathA = n := by
    have logged : mkfsHistory.log next (fd : Int) (.create 0 pathA 3) = Function.update mkfsHistory (chars "A") n := by
      have done : ((fd : Int) = -1) = False := eq_false (by omega)
      simp only [History.log, done, if_false, pathA_strip, Option.getD_some, created.allocated_eq sound]
    have moved : exampleMachine.step (state, mkfsHistory) (.create 0 pathA 3) =
        some (next, Function.update mkfsHistory (chars "A") n) := by
      have performed : perform state (.create 0 pathA 3) = some (next, (fd : Int)) := opens
      simp only [exampleMachine, lookupMachine, performed, Option.map_some, logged]
    have fits : KeepsNames (state, mkfsHistory) (.create 0 pathA 3) := ⟨⟨pathA_short, fun _ => space⟩, trivial⟩
    obtain ⟨here, recorded⟩ := exampleMachine_inStep (reached.step fits moved)
    have follows := recorded.search here pathA_strip (by decide)
    rwa [Function.update_self] at follows
  have nonzero : n ≠ 0 := by
    rintro rfl
    have reserved := sound.extents.reserved 0 (by omega)
    rw [created.inode.2.1] at reserved
    cases reserved
  have held : InTable next n := by
    obtain ⟨disk, rfl, _⟩ := created.effect
    have apart := (created.dir sound (freshInode n (b + state.sb.n1stSect - 1))).1
    refine ⟨p, created.slot.1, ?_⟩
    simp only [FsState.counts, Function.update_of_ne apart, Function.update_self]
    exact ⟨Int.one_ne_zero, rfl⟩
  rw [← found] at nonzero held
  have place : fd < nrFiles := by
    obtain ⟨_, high, _⟩ := firstFrom_some created.filp
    unfold nrFiles at *
    omega
  exact ⟨state, next, fd, ran, keeps, opens, place, nonzero, held⟩

theorem inode_references_first :
    ∃ state next ret, (refMachine 32768 zeroDisk).ReachableWhen KeepsCounts state ∧
      RefCall.perform state (.open 0 pathA 3) = some (next, ret) ∧ Counted state ∧ Counted next := by
  obtain ⟨state, next, fd, ran, keeps, done, _⟩ := first_file
  have reached : (refMachine 32768 zeroDisk).ReachableWhen KeepsCounts state := .initial ran
  obtain ⟨counted, _, exactly⟩ := inode_references reached
  exact ⟨state, next, fd, reached, done, counted, (exactly _ next fd done).mpr keeps⟩

/-- The file is unlinked while it is open: the refusal keeps a reference. -/
theorem refused_unlink_leaks : ∃ state, (refMachine 32768 zeroDisk).Reachable state ∧ ¬Counted state := by
  obtain ⟨state, next, fd, ran, keeps, done, _, found, held⟩ := first_file
  have reached : (refMachine 32768 zeroDisk).ReachableWhen KeepsCounts state := .initial ran
  have moved : (refMachine 32768 zeroDisk).step state (.open 0 pathA 3) = some next := by
    change (RefCall.perform state (.open 0 pathA 3)).map Prod.fst = some next
    rw [done]
    rfl
  have opened := reached.step keeps moved
  obtain ⟨last, answer, refused⟩ : ∃ last answer, RefCall.perform next (.unlink pathA) = some (last, answer) :=
    doUnlink_returns (by decide) found (getInode_held found held)
  have again : (refMachine 32768 zeroDisk).step next (.unlink pathA) = some last := by
    change (RefCall.perform next (.unlink pathA)).map Prod.fst = some last
    rw [refused]
    rfl
  refine ⟨last, opened.reachable.step trivial again, fun counted => ?_⟩
  obtain ⟨within, before⟩ := references_reached opened
  have keeps : KeepsCounts next (.unlink pathA) := (before.step within refused).2.mp counted
  exact (keeps (by decide) found).2 held

end AempOS.Fs
