import AempOS.Fs.StoreMoves

/-! A write of a file and an unlink, as calls on the store of named files. -/

set_option autoImplicit false

namespace AempOS.Fs

open Lib

variable {size : Nat} {state next : FsState} {store : Store} {path : Path} {name : List Byte}
  {pid fd d p n : Nat} {ret : Int} {data text : List Byte}

/-- What a write leaves of the other files. -/
theorem Holds.write_other (holds : Holds size state store) (small : size ≤ 2 ^ 22)
    (file : OpenText state store d p text) (wrote : WroteData state next d p data)
    (before : recordPos state.sb (state.inodeTable p).num + inodeSize ≤
      state.dataSect * sectorSize)
    (room : (state.fDescTable d).pos + data.length ≤ nrDefaultFileSects * sectorSize)
    {m : Nat} (apart : m ≠ (state.inodeTable p).num)
    (live : Live next.volume m ↔ Live state.volume m)
    (record : next.volume.records m = state.volume.records m) :
    next.content m = state.content m := by
  unfold FsState.content
  by_cases held : Live state.volume m
  · rw [if_pos held, if_pos (live.mpr held), record]
    obtain ⟨i, other⟩ := holds.sound.extents.run m held
    obtain ⟨j, run⟩ := holds.sound.extents.run _ file.live
    have startOther : (state.volume.records m).startSect = state.sb.n1stSect + 2048 * i := other.start
    have start : (state.volume.records (state.inodeTable p).num).startSect =
        state.sb.n1stSect + 2048 * j := run.start
    have distinct : i ≠ j := by
      rintro rfl
      exact apart (holds.sound.extents.apart m _ held file.live (startOther.trans start.symm))
    have low := (holds.extent_small small held).1
    have sized := holds.sized m held
    rw [← file.record] at start
    unfold inodeSize at before
    unfold extentBytes
    congr 1
    apply List.map_congr_left
    intro k member
    have inside := List.mem_range.mp member
    apply wrote.kept
    · unfold inRange FsState.diskPos
      unfold nrDefaultFileSects sectorSize at *
      omega
    · unfold inRange
      unfold FsState.dataSect nrDefaultFileSects sectorSize at *
      omega
  · rw [if_neg held, if_neg fun wrong => held (live.mp wrong)]

theorem Holds.write (holds : Holds size state store) (small : size ≤ 2 ^ 22)
    (proper : Proper state (.write pid fd data))
    (ran : realWrite state pid fd data = some (next, ret)) :
    ∃ moved, FileStore.Answers store (.write pid fd data) ⟨ret, []⟩ moved ∧
      Holds size next moved := by
  obtain ⟨onFile, update, capacity⟩ := proper
  cases opens : opened state pid fd with
  | none => simp [realWrite, doWrite, opens] at ran
  | some place =>
      obtain ⟨d, p⟩ := place
      obtain ⟨text, file⟩ := holds.text opens (onFile d p opens)
      have regular := file.regularFile holds small opens
      obtain ⟨low, high⟩ := holds.extent_small small file.live
      obtain ⟨j, run⟩ := holds.sound.extents.run _ file.live
      have sects : (state.volume.records (state.inodeTable p).num).nrSects = 2048 := run.sects
      rw [← file.record] at low high sects
      have room := capacity d p opens
      have before : recordPos state.sb (state.inodeTable p).num + inodeSize ≤
          state.dataSect * sectorSize := by
        have array := regular.array.inside regular.least regular.most
        unfold recordPos inodeOff FsState.dataSect nrDefaultFileSects inodeSize sectorSize at *
        omega
      obtain ⟨made, found, wrote⟩ := realWrite_wroteData regular (update d p opens) room
        fun k inside => landing_small (by
          rw [sects] at room
          unfold FsState.diskPos nrDefaultFileSects sectorSize at *
          omega)
      rw [found] at ran
      cases ran
      obtain ⟨⟨middle, result⟩, stored, same⟩ := Option.map_eq_some_iff.mp found
      have ran : doWrite state pid fd data = some (next, result) := by
        simp only [Prod.mk.injEq] at same
        rw [stored, same.1]
      have sound := holds.sound.bareWrite opens file.desc file.slot file.used file.live capacity ran
      obtain ⟨grown, table, volume⟩ := holds.write_volume file opens capacity ran
      have tables := wrote.tables
      have isTable : next.inodeTable = Function.update state.inodeTable p
          (resized (state.inodeTable p)
            (max (state.inodeTable p).size ((state.fDescTable d).pos + data.length))) := by
        rw [tables]
      have isGrown : resized (state.inodeTable p) grown = resized (state.inodeTable p)
          (max (state.inodeTable p).size ((state.fDescTable d).pos + data.length)) := by
        rw [← table, isTable, Function.update_self]
      have descs : next.fDescTable = Function.update state.fDescTable d
          { state.fDescTable d with pos := (state.fDescTable d).pos + data.length } := by
        rw [tables]
      have filp : next.filp = state.filp := by rw [tables]
      have nums (q : Nat) : (next.inodeTable q).num = (state.inodeTable q).num := by
        rw [isTable]
        by_cases here : q = p
        · rw [here, Function.update_self]
          rfl
        · rw [Function.update_of_ne here]
      have counts : next.counts = state.counts := by
        funext q
        show (next.inodeTable q).cnt = (state.inodeTable q).cnt
        rw [isTable]
        by_cases here : q = p
        · rw [here, Function.update_self]
          rfl
        · rw [Function.update_of_ne here]
      have live (m : Nat) : Live next.volume m ↔ Live state.volume m := by
        rw [volume]
        exact Iff.rfl
      have five := onFile d p opens
      have rootNum : (state.inodeTable state.rootInode).num = 1 := holds.sound.root.num
      have apart : state.rootInode ≠ p := by
        rintro rfl
        omega
      obtain ⟨_, _, points⟩ := opened_iff.mp opens
      refine ⟨_, .written (holds.opened_handle opens) file.content (by
        rw [file.length]
        exact file.inside), by rw [tables]; exact holds.sb, sound, ?_, holds.named, ?_, ?_, ?_,
        fun m held => ?_, fun e q target five' => ?_⟩
      · have number : next.nrEntries = state.nrEntries := by
          have root : next.rootInode = state.rootInode := by rw [tables]
          unfold FsState.nrEntries FsState.dir
          rw [root, isTable, Function.update_of_ne apart]
        rw [number]
        refine holds.recorded.same ?_
        rw [volume]
        rfl
      · show Function.update store.content _ (some (splice text data _)) = next.content
        funext m
        by_cases here : m = (state.inodeTable p).num
        · subst here
          have bytes := wrote.splice file (Nat.le_trans before (Nat.mul_le_mul_right _ low))
          rw [Function.update_self, ← bytes, FsState.content, if_pos ((live _).mpr file.live), volume,
            Volume.putRecord_self, table]
        · rw [Function.update_of_ne here, holds.content]
          symm
          refine holds.write_other small file wrote before (by rw [sects] at room; exact room) here
            (live m) ?_
          rw [volume, Volume.putRecord_other here]
      · rw [FileStore.setHandle, FileStore.setContent, holds.handle]
        symm
        exact handle_moved holds.balanced opens descs filp nums
      · have targets : (fun e => (next.fDescTable e).inode) = fun e => (state.fDescTable e).inode := by
          rw [descs, target_setDesc]
          exact Function.update_eq_self d fun e => (state.fDescTable e).inode
        have root : next.rootInode = state.rootInode := by rw [tables]
        have accounts : next.accounts = state.accounts :=
          Accounts.ext counts (funext nums) targets filp root
        have same : Live next.volume = Live state.volume := funext fun m => propext (live m)
        rw [accounts, same]
        exact holds.balanced
      · by_cases here : m = (state.inodeTable p).num
        · have old := holds.sized _ file.live
          rw [← file.record] at old
          rw [volume, here, Volume.putRecord_self, isGrown]
          rw [sects] at room
          exact Nat.max_le.mpr ⟨old, room⟩
        · rw [volume, Volume.putRecord_other here]
          exact holds.sized m ((live m).mp held)
      · rw [descs] at target ⊢
        rw [isTable] at five' ⊢
        by_cases here : e = d
        · subst here
          simp only [Function.update_self] at target ⊢
          rw [points] at target
          cases target
          rw [Function.update_self]
          exact Nat.le_max_right _ _
        · rw [Function.update_of_ne here] at target ⊢
          by_cases slot : q = p
          · subst slot
            rw [Function.update_self]
            exact Nat.le_trans (holds.inside e q target five) (Nat.le_max_left _ _)
          · rw [Function.update_of_ne slot] at five' ⊢
            exact holds.inside e q target five'

/-! ## Unlinks -/

theorem stripPath_root (isRoot : path.text = [slash]) : stripPath path = some [] := by
  simp [stripPath, isRoot, stripChars]

theorem removeDirEntry_table (state : FsState) (n : Nat) {q : Nat} (apart : q ≠ state.rootInode) :
    (removeDirEntry state n).inodeTable q = state.inodeTable q := by
  unfold removeDirEntry
  simp only
  split
  next => rfl
  next =>
    split
    next => exact Function.update_of_ne apart _ _
    next => rfl

theorem removeDirEntry_sb (state : FsState) (n : Nat) : (removeDirEntry state n).sb = state.sb := by
  unfold removeDirEntry
  simp only
  split
  next => rfl
  next =>
    split
    next => rfl
    next => rfl

theorem removeFile_table (state : FsState) (n : Nat) {q : Nat} (apart : q ≠ state.rootInode)
    (other : q ≠ p) : (removeFile state n p).inodeTable q = state.inodeTable q := by
  unfold removeFile
  refine (removeDirEntry_table _ n ?_).trans ?_
  · exact apart
  · simp [putInode, syncInode, FsState.setInode, Function.update_of_ne other]

/-- The directory is left with the records of the files as they were. -/
theorem removeDirEntry_files (layout : Layout state.sb) (root : RootHeld state) (n m : Nat) :
    (removeDirEntry state n).volume.imap = state.volume.imap ∧
      (m ≠ 1 → (removeDirEntry state n).volume.records m = state.volume.records m) := by
  rcases removeDirEntry_cases layout root n with ⟨_, same⟩ | ⟨k, _, _, ⟨_, disk, same, volume⟩ |
    ⟨_, disk, same, volume⟩⟩
  · rw [same]
    exact ⟨rfl, fun _ => rfl⟩
  · have held : FsState.volume { state with disk := disk } = _ := volume
    rw [same, held]
    exact ⟨rfl, fun _ => rfl⟩
  · have held : FsState.volume { state with
        disk := disk
        inodeTable := Function.update state.inodeTable state.rootInode
          (resized state.dir (dirEntrySize * state.usedBefore k)) } = _ := volume
    rw [same, held]
    exact ⟨rfl, fun other => Volume.putRecord_other other⟩

/-- A refusal with the inode in hand. -/
theorem Holds.unlink_refused (holds : Holds size state store) (known : store.find name = some n)
    (referenced : Referenced state n next)
    (busy : InTable state n ∨ ¬Live state.volume n) :
    FileStore.Answers store (.unlink (some name)) ⟨-1, []⟩
        { store with kept := Function.update store.kept n (store.kept n + 1) } ∧
      Holds size next { store with kept := Function.update store.kept n (store.kept n + 1) } := by
  obtain ⟨low, high, kind⟩ := holds.find_some known
  have sound := holds.sound.bareRefer low high referenced
  obtain ⟨p, _, slot, moved⟩ := referenced
  obtain ⟨inode, obtained, rfl⟩ : ∃ inode, Obtained state n p inode ∧
      next = state.setInode p inode := by
    rcases moved with ⟨used, same⟩ | ⟨free, same⟩
    · exact ⟨_, .inl ⟨used, rfl⟩, same⟩
    · exact ⟨_, .inr ⟨free, rfl⟩, same⟩
  have number : FsState.nrEntries (state.setInode p inode) = state.nrEntries := by
    have used : state.counts state.rootInode ≠ 0 := ne_of_gt holds.sound.root.used
    exact congrArg (fun record => InodeRecord.size record / dirEntrySize) (obtained.kept used).1
  have accounts : FsState.accounts (state.setInode p inode) =
      { state.accounts with
        count := Function.update state.accounts.count p (state.accounts.count p + 1)
        num := Function.update state.accounts.num p n } := by
    rw [accounts_setInode, obtained.cnt, obtained.num slot]
    rfl
  refine ⟨.unlinkRefused known ?_, holds.sb, sound, ?_, holds.named, holds.content, ?_, ?_,
    holds.sized, fun e q points => ?_⟩
  · rcases kind with special | live
    · left
      rw [holds.content, FsState.content, if_neg fun live => by have := live.1; omega]
    · right
      rw [holds.inUse_iff live.1]
      exact busy.resolve_right fun wrong => wrong live
  · rw [number]
    exact holds.recorded
  · rw [holds.handle]
    funext one spot
    symm
    apply handle_congr
    · rfl
    intro e link
    refine ⟨rfl, fun q points => (obtained.kept ?_).2⟩
    exact (holds.balanced.target e q points).2.2
  · rw [accounts]
    refine holds.balanced.keep (holds.taken slot) kind fun q inside apart used => ?_
    exact slot.others holds.sound.cached q inside apart used
  · obtain ⟨record, num⟩ := obtained.kept (holds.balanced.target e q points).2.2
    simp only [FsState.setInode]
    rw [num, congrArg InodeRecord.size record]
    exact holds.inside e q points

/-- What a done unlink leaves of the volume. -/
theorem FileErased.files {middle : FsState} {j : Nat} (erased : FileErased state n j middle) (m : Nat) :
    (Live (removeDirEntry middle n).volume m ↔ Live state.volume m ∧ m ≠ n) ∧
      (m ≠ 1 → m ≠ n →
        (removeDirEntry middle n).volume.records m = state.volume.records m) := by
  obtain ⟨imap, records⟩ := removeDirEntry_files erased.coherent.layout erased.coherent.root n m
  constructor
  · rw [← live_withoutFile, ← erased.volume, Live, Live, imap]
  · intro first other
    rw [records first, erased.volume]
    exact Volume.withoutFile_other other

theorem Holds.unlinked (holds : Holds size state store) (whole : NothingCutOff state (.unlink path))
    (known : store.find name = some (searchFile state path))
    (ran : doUnlink state path = some (next, 0)) :
    ∃ moved, FileStore.Answers store (.unlink (some name)) ⟨0, []⟩ moved ∧
      Holds size next moved := by
  have bare := doUnlink_bare ran
  have kept' : DataKept state.bare next.bare := doUnlink_kept holds.sound bare
  have kept : DataKept state next := kept'
  have sound := holds.sound.bareUnlink ran
  have counted : ∀ i < nrInode, 0 ≤ (state.inodeTable i).cnt := holds.sound.cached.counted
  rcases doUnlink_cases counted ran with ⟨wrong, _⟩ | ⟨_, p, _, _, found, slot, free, _, same⟩
  · cases wrong
  rcases doUnlink_recounted counted ran with ⟨_, wrong, _⟩ | ⟨_, _, _, _, ⟨wrong, _⟩ |
    ⟨_, recounted, zero, _⟩⟩
  · cases wrong
  · cases wrong
  rcases holds.sound.unlink_cases bare with ⟨wrong, _⟩ | ⟨_, _, j, middle, _, _, erased, entered⟩
  · cases wrong
  have history : numbers store name = searchFile state path := by simp [numbers, known]
  have search : searchFile state.bare path = searchFile state path := rfl
  rw [search] at erased entered
  have volume : next.volume = (removeDirEntry middle (searchFile state path)).volume :=
    show next.bare.volume = _ from congrArg FsState.volume entered
  have number : next.nrEntries = (removeDirEntry middle (searchFile state path)).nrEntries :=
    show next.bare.nrEntries = _ from congrArg FsState.nrEntries entered
  have recorded : Recorded (removeDirEntry middle (numbers store name)).volume
      (removeDirEntry middle (numbers store name)).nrEntries
      (Function.update (numbers store) name 0) := by
    have erased' := erased
    rw [← history] at erased'
    refine erased'.recorded holds.sound holds.recorded ?_
    rw [history]
    exact whole
  rw [history] at recorded
  have files (m : Nat) := erased.files m
  rw [← volume] at recorded files
  rw [← number] at recorded
  generalize searchFile state path = n at *
  have live : Live state.volume n := erased.live
  have five := live.1
  have absent : ∀ q < nrInode, state.counts q ≠ 0 → (state.inodeTable q).num ≠ n := by
    rcases slot.2 with ⟨used, _⟩ | ⟨_, absent⟩
    · exact absurd free used
    · exact absent
  have counts : next.counts = state.counts := by
    rw [recounted.counts]
    exact Function.update_eq_self _ _
  have tables {q : Nat} (used : state.counts q ≠ 0) (apart : q ≠ state.rootInode) :
      next.inodeTable q = state.inodeTable q := by
    have other : q ≠ p := by
      rintro rfl
      exact used free
    rw [same]
    refine (removeFile_table _ n ?_ other).trans ?_
    · exact apart
    · exact Function.update_of_ne other _ _
  have nums (q : Nat) (used : state.counts q ≠ 0) :
      (next.inodeTable q).num = (state.inodeTable q).num := by
    by_cases root : q = state.rootInode
    · have held : (next.inodeTable next.rootInode).num = 1 := sound.root.num
      have before : (state.inodeTable state.rootInode).num = 1 := holds.sound.root.num
      rw [root, before, ← recounted.root]
      exact held
    · rw [tables used root]
  have accounts : next.accounts = { state.accounts with
      num := fun q => (next.inodeTable q).num } :=
    Accounts.ext counts rfl (by rw [FsState.accounts, recounted.descs]; rfl) recounted.filp
      recounted.root
  have content : store.content n = some (extentBytes state.disk (state.volume.records n)) := by
    rw [holds.content, FsState.content, if_pos live]
  have idle : ¬store.InUse n := by
    rw [holds.inUse_iff five]
    rintro ⟨q, inside, used, num⟩
    exact absent q inside used num
  refine ⟨_, .unlinked known content idle, ?_, sound, ?_, fun sought => ?_, ?_, ?_, ?_,
    fun m held => ?_, fun e q points five' => ?_⟩
  · rw [same]
    exact (removeDirEntry_sb _ n).trans holds.sb
  · show Recorded next.volume next.nrEntries (numbers (store.setName name none))
    rw [numbers_clearName]
    exact recorded
  · show Function.update store.find name none sought ≠ some 0
    by_cases here : sought = name
    · rw [here, Function.update_self]
      intro wrong
      cases wrong
    · rw [Function.update_of_ne here]
      exact holds.named sought
  · show Function.update store.content n none = next.content
    funext m
    by_cases here : m = n
    · rw [here, Function.update_self, FsState.content, if_neg]
      rw [(files n).1]
      exact fun both => both.2 rfl
    · rw [Function.update_of_ne here, holds.content]
      symm
      refine content_kept holds.sound.extents kept ?_ fun file => ?_
      · rw [(files m).1]
        exact and_iff_left here
      · have low := file.1
        exact (files m).2 (by omega) here
  · show store.handle = next.handle
    rw [holds.handle]
    funext one spot
    symm
    apply handle_congr
    · rw [recounted.filp]
    intro e link
    refine ⟨by rw [recounted.descs], fun q points => nums q ?_⟩
    exact (holds.balanced.target e q points).2.2
  · rw [accounts]
    exact holds.balanced.remove nums absent fun m other file => (files m).1.mpr ⟨file, other⟩
  · obtain ⟨file, other⟩ := (files m).1.mp held
    have low := file.1
    rw [(files m).2 (by omega) other]
    exact holds.sized m file
  · rw [recounted.descs] at points ⊢
    have used := (holds.balanced.target e q points).2.2
    have rootNum : (state.inodeTable state.rootInode).num = 1 := holds.sound.root.num
    have apart : q ≠ state.rootInode := by
      rintro rfl
      rw [nums _ used] at five'
      omega
    rw [tables used apart] at five' ⊢
    exact holds.inside e q points five'

theorem Holds.unlink (holds : Holds size state store) (proper : Proper state (.unlink path))
    (ran : doUnlink state path = some (next, ret)) :
    ∃ moved, FileStore.Answers store (.unlink (stripPath path)) ⟨ret, []⟩ moved ∧
      Holds size next moved := by
  obtain ⟨named, whole⟩ := proper
  have counted : ∀ i < nrInode, 0 ≤ (state.inodeTable i).cnt := holds.sound.cached.counted
  rcases doUnlink_recounted counted ran with ⟨rfl, rfl, missing⟩ | ⟨_, found, p, slot, rest⟩
  · refine ⟨store, .unlinkMissed fun name valid => ?_, holds⟩
    have nonempty := named.nonempty valid
    rcases missing with isRoot | zero
    · rw [stripPath_root isRoot] at valid
      cases valid
      exact absurd rfl nonempty
    · exact (holds.find_none valid nonempty).mpr zero
  · obtain ⟨name, valid⟩ : ∃ name, stripPath path = some name := by
      cases strip : stripPath path with
      | none => exact absurd (by simp [searchFile, strip]) found
      | some name => exact ⟨name, rfl⟩
    have nonempty := named.nonempty valid
    have known : store.find name = some (searchFile state path) := by
      have search := holds.search valid nonempty
      cases find : store.find name with
      | none => exact absurd ((holds.find_none valid nonempty).mp find) found
      | some m => rw [search, find, Option.getD_some]
    rw [valid]
    rcases rest with ⟨rfl, recounted, reason⟩ | ⟨rfl, _⟩
    · have referenced : Referenced state (searchFile state path) next := by
        rcases doUnlink_cases counted ran with ⟨_, rfl | referenced⟩ | ⟨wrong, _⟩
        · have same := congrFun recounted.counts p
          rw [Function.update_self] at same
          omega
        · exact referenced
        · cases wrong
      refine ⟨_, holds.unlink_refused known referenced ?_⟩
      rcases slot.2 with ⟨used, num⟩ | ⟨free, _⟩
      · exact .inl ⟨p, slot.1, used, num⟩
      · refine .inr fun live => reason ⟨?_, free⟩
        obtain ⟨low, high, _⟩ := holds.find_some known
        obtain ⟨_, run⟩ := holds.sound.extents.run _ live
        rw [← volume_records state low (Nat.le_of_lt high)]
        exact run.mode
    · exact holds.unlinked whole known ran

end AempOS.Fs
