import AempOS.Fs.MkfsProperties

/-! Creation and disk space. `create_file` does not look at what the allocators
return, and `alloc_smap_bit` looks for bits behind the end of the partition too.
As long as space is left for each new file, the files keep apart and inside the
partition. -/

set_option autoImplicit false

namespace AempOS.Fs

open Lib

/-- A sector of the extent of an inode. -/
def InExtent (inode : InodeRecord) (s : Nat) : Prop :=
  inode.startSect ≤ s ∧ s < inode.startSect + inode.nrSects

/-- The inode behind a descriptor of a process. -/
def BehindFd (state : FsState) (pid fd n : Nat) : Prop :=
  ∃ d p, opened state pid fd = some (d, p) ∧ (state.inodeTable p).num = n

/-- `fd` is open on a new file with an extent inside the partition that no other
inode has a sector of. -/
def FileMade (state next : FsState) (pid fd : Nat) : Prop :=
  ∃ n < sectorBits, BehindFd next pid fd n ∧
    inodeBit state.disk n = false ∧ inodeBit next.disk n = true ∧
    (recordOf next.sb next.disk n).nrSects = nrDefaultFileSects ∧
    next.sb.n1stSect ≤ (recordOf next.sb next.disk n).startSect ∧
    (recordOf next.sb next.disk n).startSect + nrDefaultFileSects ≤ next.sb.nrSects ∧
    ∀ m, 1 ≤ m → m < sectorBits → m ≠ n → inodeBit next.disk m = true →
      ∀ s, InExtent (recordOf next.sb next.disk m) s → ¬InExtent (recordOf next.sb next.disk n) s

/-- No table in memory keeps a process from making a file. -/
def RoomInTables (state : FsState) (pid : Nat) : Prop :=
  (∃ i < nrInode, (state.inodeTable i).cnt = 0) ∧
    (∃ fd, 3 ≤ fd ∧ fd < nrFiles ∧ state.filp pid fd = none) ∧
    ∃ d < nrFileDesc, (state.fDescTable d).inode = .free

/-- Without space the call fails and leaves the disk alone; with space it makes a
file if the name is a new one. -/
structure RespectsSpace (state : FsState) (pid : Nat) (path : Path) (flags : Nat) : Prop where
  refused : ¬SpaceLeft state →
    ∃ next, doOpen state pid path flags = some (next, -1) ∧ next.disk = state.disk
  made : SpaceLeft state → ∀ (next : FsState) (fd : Nat),
    doOpen state pid path flags = some (next, (fd : Int)) → FileMade state next pid fd
  returns : SpaceLeft state → RoomInTables state pid → ∃ next ret,
    doOpen state pid path flags = some (next, ret)

/-- A path that names no file yet. -/
def NewName (state : FsState) (path : Path) : Prop :=
  searchFile state path = 0 ∧ stripPath path ≠ none

/-- The terminator of the name stays inside the directory entry. -/
def ShortName (path : Path) : Prop :=
  ∀ name, stripPath path = some name → name.length < maxFilenameLen

/-- Creates of new names find space, and writes stay inside the file. -/
def Fits (state : FsState) : FsCall → Prop
  | .create _ path _ => ShortName path ∧ (NewName state path → SpaceLeft state)
  | .close _ _ => True
  | .write pid fd data => WithinCapacity state pid fd data.length
  | .unlink _ => True

section Calls

variable {state next : FsState} {pid flags : Nat} {path : Path}

theorem reserveDesc_disk (state : FsState) (slot : Option Nat) :
    (reserveDesc state slot).disk = state.disk := by
  cases slot with
  | none => rfl
  | some i => rfl

/-- The create of a name that is there or not a name. -/
theorem doOpen_old (creates : oCreat flags = true) (old : ¬NewName state path) :
    doOpen state pid path flags = some (reserveDesc state (freeDesc state), -1) := by
  refine doOpen_refused creates ?_
  by_cases absent : searchFile state path = 0
  · right
    by_contra valid
    exact old ⟨absent, valid⟩
  · exact .inl absent

/-- The create of a new name never fails by its return value. -/
theorem doOpen_new_nonneg (creates : oCreat flags = true) (new : NewName state path) {ret : Int}
    (ran : doOpen state pid path flags = some (next, ret)) : 0 ≤ ret := by
  have link (state : FsState) (pin : Nat) : ∀ fd i, linkDesc state pid flags pin fd i =
      some (next, ret) → 0 ≤ ret := by
    intro fd i linked
    cases fd with
    | none =>
        cases i with
        | none => cases linked
        | some d => cases linked
    | some fd =>
        cases i with
        | none => cases linked
        | some d =>
            simp only [linkDesc, Option.some.injEq, Prod.mk.injEq] at linked
            rw [← linked.2]
            exact Int.natCast_nonneg fd
  obtain ⟨name, valid⟩ := Option.ne_none_iff_exists'.mp new.2
  have absent : searchFile (reserveDesc state (freeDesc state)) path = 0 := by
    cases freeDesc state with
    | none => exact new.1
    | some d => exact new.1
  rw [doOpen] at ran
  simp only [creates, if_true, absent, ne_eq, not_true, if_false] at ran
  cases made : createFile (reserveDesc state (freeDesc state)) path with
  | none => simp only [made] at ran; cases ran
  | some result =>
      obtain ⟨middle, pin⟩ := result
      cases pin with
      | none =>
          simp only [createFile, valid] at made
          split at made
          next => cases made
          next => simp only [Option.map_eq_some_iff, Prod.mk.injEq, reduceCtorEq, and_false,
            exists_false] at made
      | some pin =>
          simp only [made] at ran
          exact link middle pin _ _ ran

theorem Sound.doOpen_made (sound : Sound state) (clear : SomeClear state) (new : NewName state path)
    (short : ShortName path) (creates : oCreat flags = true) :
    doOpen state pid path flags = none ∧ ¬RoomInTables state pid ∨
      ∃ (next : FsState) (name : List Byte) (n b p k size fd d : Nat), stripPath path = some name ∧
        doOpen state pid path flags = some (next, (fd : Int)) ∧
        FileCreated state pid flags name next n b p k size fd d := by
  obtain ⟨name, valid⟩ := Option.ne_none_iff_exists'.mp new.2
  rcases doOpen_created sound.layout sound.root sound.extents.reserved clear creates new.1 valid
    (short name valid) with ⟨none, full⟩ | ⟨next, n, b, p, k, size, fd, d, made⟩
  · refine .inl ⟨none, fun ⟨⟨i, inside, free⟩, ⟨fd, low, high, unused⟩, d, within, empty⟩ => ?_⟩
    rcases full with full | full | full
    · exact full i inside free
    · obtain ⟨found, hit⟩ : ∃ k, freeFilp state pid = some k :=
        firstFrom_isSome low (by unfold nrFiles at *; omega) (by simp only [unused, Option.isNone_none])
      rw [hit] at full
      cases full
    · obtain ⟨found, hit⟩ : ∃ k, freeDesc state = some k :=
        firstFrom_isSome (Nat.zero_le d) (by omega) (by simp only [empty, beq_self_eq_true])
      rw [hit] at full
      cases full
  · exact .inr ⟨next, name, n, b, p, k, size, fd, d, valid, made⟩

/-- In a sound state the extent of a file lies in the partition and apart from
those of all other inodes. -/
theorem Sound.extent_apart (sound : Sound state) {n : Nat} (live : Live state.volume n) :
    (recordOf state.sb state.disk n).nrSects = nrDefaultFileSects ∧
      state.sb.n1stSect ≤ (recordOf state.sb state.disk n).startSect ∧
      (recordOf state.sb state.disk n).startSect + nrDefaultFileSects ≤ state.sb.nrSects ∧
      ∀ m, 1 ≤ m → m < sectorBits → m ≠ n → inodeBit state.disk m = true →
        ∀ s, InExtent (recordOf state.sb state.disk m) s →
          ¬InExtent (recordOf state.sb state.disk n) s := by
  have five := live.1
  have inside := sound.extents.inside n live.2
  have record := volume_records state (show 1 ≤ n by omega) (Nat.le_of_lt inside)
  obtain ⟨j, run⟩ := sound.extents.run n live
  have start := run.start
  have sects := run.sects
  have low := run.low
  have fits := run.fits
  rw [← record]
  refine ⟨sects, by omega, fits, fun m positive small other set s covered also => ?_⟩
  rw [← volume_records state positive (Nat.le_of_lt small)] at covered
  obtain ⟨fromM, uptoM⟩ := covered
  obtain ⟨fromN, uptoN⟩ := also
  by_cases special : m < 5
  · have below := (sound.extents.special m positive special).2 s fromM uptoM
    omega
  · have liveM : Live state.volume m := ⟨by omega, by rw [volume_imap state small]; exact set⟩
    obtain ⟨i, runM⟩ := sound.extents.run m liveM
    have startM := runM.start
    have sectsM := runM.sects
    exact other (sound.extents.apart m n liveM live (by omega))

variable {n b p k size fd d : Nat} {name : List Byte}

theorem FileCreated.link (created : FileCreated state pid flags name next n b p k size fd d)
    (sound : Sound state) : Fs.opened next pid fd = some (d, p) ∧
      next.inodeTable p = freshInode n (b + state.sb.n1stSect - 1) := by
  obtain ⟨apart, _⟩ := created.dir sound (freshInode n (b + state.sb.n1stSect - 1))
  obtain ⟨_, below, _⟩ := firstFrom_some created.filp
  obtain ⟨disk, rfl, _⟩ := created.effect
  refine ⟨opened_iff.mpr ⟨by unfold nrFiles at *; omega, ?_, ?_⟩, ?_⟩
  · simp only [Function.update_self]
  · simp only [Function.update_self]
  · simp only [Function.update_of_ne apart, Function.update_self]

theorem FileCreated.behindFd (created : FileCreated state pid flags name next n b p k size fd d)
    (sound : Sound state) : BehindFd next pid fd n := by
  obtain ⟨link, inode⟩ := created.link sound
  refine ⟨d, p, link, ?_⟩
  rw [inode]
  rfl

theorem FileCreated.live (created : FileCreated state pid flags name next n b p k size fd d)
    (sound : Sound state) : Live next.volume n := by
  rw [created.volume_eq]
  exact (sound.grown_live created.inode.2.1 b n).mpr (.inr rfl)

theorem FileCreated.made (created : FileCreated state pid flags name next n b p k size fd d)
    (sound : Sound state) (space : SpaceLeft state) : FileMade state next pid fd := by
  have live := created.live sound
  have inside := created.inode.1
  have before : inodeBit state.disk n = false := by
    rw [← volume_imap state inside]
    exact created.inode.2.1
  have after : inodeBit next.disk n = true := by
    rw [← volume_imap next inside]
    exact live.2
  exact ⟨n, inside, created.behindFd sound, before, after, (sound.create space created).extent_apart live⟩

/-- Every call that fits keeps the file system sound. -/
theorem Sound.perform (sound : Sound state) {call : FsCall} (fits : Fits state call) {ret : Int}
    (ran : perform state call = some (next, ret)) : Sound next := by
  cases call with
  | create pid path flags =>
      simp only [Fs.perform] at ran
      split at ran
      next creates =>
        by_cases new : NewName state path
        · have space := fits.2 new
          rcases sound.doOpen_made (space.someClear sound.layout) new fits.1 creates with ⟨none, _⟩ |
            ⟨made, name, n, b, p, k, size, fd, d, _, opens, created⟩
          · rw [none] at ran
            cases ran
          · rw [opens] at ran
            cases ran
            exact sound.create space created
        · rw [doOpen_old creates new] at ran
          cases ran
          exact sound.reserve
      next => cases ran
  | close pid fd => exact sound.close ran
  | write pid fd data => exact sound.write fits ran
  | unlink path =>
      rcases sound.unlink_cases ran with ⟨_, rfl | referenced⟩ |
        ⟨_, name, j, middle, _, _, erased, rfl⟩
      · exact sound
      · obtain ⟨p, nonzero, _⟩ := id referenced
        obtain ⟨low, high, _⟩ := sound.search_named nonzero
        exact sound.refer low high referenced
      · exact sound.remove erased

end Calls

section Runs

variable {size : Nat} {disk : Disk} {state : FsState}

theorem fsMachine_started (bounded : Addressable size)
    (initial : (fsMachine size disk).initial state) : Started size disk state := by
  obtain ⟨unformatted, ran⟩ := initial
  obtain ⟨other, started, facts⟩ := initFs_started unformatted bounded
  rw [started] at ran
  cases ran
  exact facts

theorem fsMachine_sound (bounded : Addressable size) (clean : CleanDirectory size disk)
    (reached : (fsMachine size disk).ReachableWhen Fits state) : Sound state := by
  refine reached.invariant (fun state initial => ?_) fun state call next sound fits moved => ?_
  · exact (fsMachine_started bounded initial).sound bounded clean
  · obtain ⟨⟨after, ret⟩, ran, rfl⟩ := Option.map_eq_some_iff.mp moved
    exact sound.perform fits ran

/-- In every run all of whose calls fit, a create respects the space on the disk
exactly when it finds space or makes no file. -/
theorem creation_respects_space (bounded : Addressable size) (clean : CleanDirectory size disk)
    (reached : (fsMachine size disk).ReachableWhen Fits state) (pid : Nat) {path : Path}
    (short : ShortName path) {flags : Nat} (creates : oCreat flags = true) :
    RespectsSpace state pid path flags ↔ (NewName state path → SpaceLeft state) := by
  have sound := fsMachine_sound bounded clean reached
  constructor
  · intro respects new
    by_contra full
    obtain ⟨next, ran, _⟩ := respects.refused full
    have nonneg := doOpen_new_nonneg creates new ran
    omega
  · intro room
    by_cases new : NewName state path
    · have space := room new
      rcases sound.doOpen_made (space.someClear sound.layout) new short creates with ⟨none, full⟩ |
        ⟨made, name, n, b, p, k, count, fd, d, _, opens, created⟩
      · refine ⟨fun refused => absurd space refused, fun _ next fd ran => ?_, fun _ free => absurd free full⟩
        rw [none] at ran
        cases ran
      · refine ⟨fun refused => absurd space refused, fun _ next other ran => ?_, fun _ _ => ⟨_, _, opens⟩⟩
        rw [opens] at ran
        simp only [Option.some.injEq, Prod.mk.injEq, Int.natCast_inj] at ran
        obtain ⟨rfl, rfl⟩ := ran
        exact created.made sound space
    · have refused : doOpen state pid path flags = some (reserveDesc state (freeDesc state), -1) :=
        doOpen_old creates new
      refine ⟨fun _ => ⟨_, refused, reserveDesc_disk _ _⟩, fun _ next fd ran => ?_,
        fun _ _ => ⟨_, _, refused⟩⟩
      rw [refused] at ran
      simp only [Option.some.injEq, Prod.mk.injEq] at ran
      omega

/-- A disk that was never written. -/
def zeroDisk : Disk := fun _ => zeroBuffer

theorem zeroDisk_unformatted : (readSuperBlock zeroDisk).magic ≠ magicV1 := by
  decide

theorem zeroDisk_clean (size : Nat) : CleanDirectory size zeroDisk :=
  fun _ _ _ _ _ => rfl

/-- `"A"` -/
def pathA : Path := ⟨chars "A", by decide, by decide⟩

theorem pathA_strip : stripPath pathA = some (chars "A") := by
  decide

theorem pathA_short : ShortName pathA := by
  intro name valid
  rw [pathA_strip] at valid
  cases valid
  decide

/-- The sector bits that `mkfs` leaves clear. -/
theorem Started.sector_clear (started : Started size disk state) {c : Nat}
    (inside : c < (newSuperBlock size).nrSmapSects * 4096) :
    sectorBit state.disk c = decide (c < 2049) := by
  rw [← started.formatted.smap_bit inside, ← started.volume, volume_smap]
  rw [started.sb]
  exact inside

theorem Started.inode_clear (started : Started size disk state) : state.volume.imap 5 = false := by
  rw [started.volume, started.formatted.imap_bit]
  decide

/-- No file is open, and no reference is kept but that to the directory. -/
structure Idle (state : FsState) : Prop where
  slots : ∀ i, i ≠ state.rootInode → (state.inodeTable i).cnt = 0
  descs : ∀ d, (state.fDescTable d).inode = .free
  filp : ∀ pid fd, state.filp pid fd = none

theorem Started.idle (started : Started size disk state) : Idle state :=
  ⟨started.others, started.descs, started.filp⟩

theorem Idle.room (idle : Idle state) (pid : Nat) : RoomInTables state pid := by
  refine ⟨?_, ⟨3, Nat.le_refl _, by decide, idle.filp pid 3⟩, 0, by decide, idle.descs 0⟩
  by_cases zero : state.rootInode = 0
  · exact ⟨1, by decide, idle.slots 1 (by omega)⟩
  · exact ⟨0, by decide, idle.slots 0 (by omega)⟩

theorem creation_respects_space_first :
    ∃ state, (fsMachine 8192 zeroDisk).ReachableWhen Fits state ∧ SpaceLeft state ∧
      RespectsSpace state 0 pathA 3 := by
  have bounded : Addressable 8192 := by unfold Addressable; omega
  obtain ⟨state, ran, started⟩ := initFs_started zeroDisk_unformatted bounded
  have reached : (fsMachine 8192 zeroDisk).ReachableWhen Fits state :=
    .initial ⟨zeroDisk_unformatted, ran⟩
  have first : (newSuperBlock 8192).n1stSect = 262 := by decide
  have sects : (newSuperBlock 8192).nrSects = 8192 := rfl
  have maps : (newSuperBlock 8192).nrSmapSects = 3 := by decide
  have space : SpaceLeft state := by
    refine ⟨⟨5, by decide, ?_⟩, 2310, ?_⟩
    · rw [← volume_imap state (by omega)]
      exact started.inode_clear
    · rw [started.sb, first, sects]
      refine ⟨by omega, by unfold nrDefaultFileSects; omega, fun s low high => ?_⟩
      unfold nrDefaultFileSects at high
      rw [started.sector_clear (by rw [maps]; omega), decide_eq_false (by omega)]
  exact ⟨state, reached, space, (creation_respects_space bounded (zeroDisk_clean 8192) reached 0
    pathA_short (by decide)).mpr fun _ => space⟩

/-- On a partition of 4096 sectors the root directory leaves no room for a file,
and the first create returns a descriptor all the same. -/
theorem creation_ignores_space :
    ∃ state, (fsMachine 4096 zeroDisk).Reachable state ∧ ¬SpaceLeft state ∧
      (∃ next, ∃ fd : Nat, doOpen state 0 pathA 3 = some (next, (fd : Int))) ∧
      ¬RespectsSpace state 0 pathA 3 := by
  have bounded : Addressable 4096 := by unfold Addressable; omega
  obtain ⟨state, ran, started⟩ := initFs_started zeroDisk_unformatted bounded
  have sound := started.sound bounded (zeroDisk_clean 4096)
  have first : (newSuperBlock 4096).n1stSect = 261 := by decide
  have sects : (newSuperBlock 4096).nrSects = 4096 := rfl
  have maps : (newSuperBlock 4096).nrSmapSects = 2 := by decide
  have full : ¬SpaceLeft state := by
    rintro ⟨_, sect, low, high, clear⟩
    have bit := clear sect (Nat.le_refl _) (by unfold nrDefaultFileSects; omega)
    rw [started.sb, first] at low bit
    rw [started.sb, sects] at high
    unfold nrDefaultFileSects at high
    rw [started.sector_clear (by rw [maps]; omega), decide_eq_false_iff_not] at bit
    omega
  have new : NewName state pathA := by
    refine ⟨sound.root.search_missing pathA_strip (by decide) fun k _ same => ?_, ?_⟩
    · have head := congrFun same 0
      rw [started.entry bounded (zeroDisk_clean 4096)] at head
      split at head
      next early =>
        obtain rfl | rfl | rfl | rfl : k = 0 ∨ k = 1 ∨ k = 2 ∨ k = 3 := by omega
        · exact absurd head (by decide)
        · exact absurd head (by decide)
        · exact absurd head (by decide)
        · exact absurd head (by decide)
      next => exact absurd head (by decide)
    · rw [pathA_strip]
      exact Option.some_ne_none _
  refine ⟨state, .initial ⟨zeroDisk_unformatted, ran⟩, full, ?_, fun respects => ?_⟩
  · have clear : SomeClear state := by
      refine ⟨⟨5, by decide, started.inode_clear⟩, 2049, ?_⟩
      rw [volume_smap state (by rw [started.sb, maps]; omega),
        started.sector_clear (by rw [maps]; omega), started.sb, maps]
      decide
    rcases sound.doOpen_made clear new pathA_short (show oCreat 3 = true by decide) with ⟨_, none⟩ |
      ⟨next, name, n, b, p, k, size, fd, d, _, opens, _⟩
    · exact absurd (started.idle.room 0) none
    · exact ⟨next, fd, opens⟩
  · obtain ⟨next, refused, _⟩ := respects.refused full
    have nonneg := doOpen_new_nonneg (show oCreat 3 = true by decide) new refused
    omega

end Runs

end AempOS.Fs
