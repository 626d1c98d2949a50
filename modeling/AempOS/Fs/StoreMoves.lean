import AempOS.Fs.StoreSteps

/-! Calls on open files: each close, seek, read and write is one on the store of named
files. -/

set_option autoImplicit false

namespace AempOS.Fs

open Lib

variable {size : Nat} {state next : FsState} {store : Store} {pid fd d p : Nat} {ret : Int}

/-! ## Closes -/

theorem Holds.close (holds : Holds size state store)
    (ran : doClose state pid fd = some (next, ret)) :
    ∃ moved, FileStore.Answers store (.close pid fd) ⟨ret, []⟩ moved ∧ Holds size next moved := by
  have zero : ret = 0 := by
    unfold doClose at ran
    split at ran
    next => cases ran
    next =>
      simp only [Option.some.injEq, Prod.mk.injEq] at ran
      exact ran.2.symm
  obtain ⟨d, p, opens, rfl⟩ := doClose_cases ran
  obtain ⟨small, link, points⟩ := opened_iff.mp opens
  obtain ⟨inside, slot, used⟩ := holds.balanced.target d p points
  have sum : state.counts p = state.accounts.users p + state.accounts.fixed p +
    store.kept (state.accounts.num p) := holds.balanced.balance p slot used
  have positive := @users_pos state.accounts d p points inside
  have counted : 1 ≤ (state.inodeTable p).cnt := by
    have count : state.counts p = (state.inodeTable p).cnt := rfl
    omega
  have rooted : p = state.rootInode → 0 < (state.inodeTable p).cnt - 1 := by
    intro root
    have fixed : state.accounts.fixed p = 1 := if_pos root
    have count : state.counts p = (state.inodeTable p).cnt := rfl
    omega
  have sound := holds.sound.recount slot used (by omega) rooted
  have sizes (q : Nat) : (Function.update state.inodeTable p (state.inodeTable p).released q).size =
      (state.inodeTable q).size := by
    by_cases here : q = p
    · rw [here, Function.update_self]
      rfl
    · rw [Function.update_of_ne here]
  have nums (q : Nat) : (Function.update state.inodeTable p (state.inodeTable p).released q).num =
      (state.inodeTable q).num := by
    by_cases here : q = p
    · rw [here, Function.update_self]
      rfl
    · rw [Function.update_of_ne here]
  have released := holds.balanced.release link points
  have held : store.handle pid fd = some _ :=
    (congrFun (congrFun holds.handle pid) fd).trans (handle_of_link small link points)
  rw [zero]
  refine ⟨store.setHandle pid fd none, .closed held, holds.sb, sound, ?_, holds.named, holds.content,
    ?_, ?_, holds.sized, fun e q target => ?_⟩
  · have number : (Function.update state.inodeTable p (state.inodeTable p).released
        state.rootInode).size / dirEntrySize = state.nrEntries := by
      rw [sizes]
      rfl
    show Recorded state.volume ((Function.update state.inodeTable p (state.inodeTable p).released
      state.rootInode).size / dirEntrySize) (numbers store)
    rw [number]
    exact holds.recorded
  · rw [FileStore.setHandle, holds.handle]
    symm
    exact handle_released holds.balanced link rfl rfl nums
  · have counts : (state.setInode p (state.inodeTable p).released).counts = _ :=
      setInode_counts state p _
    have accounts : FsState.accounts { state with
        inodeTable := Function.update state.inodeTable p (state.inodeTable p).released
        fDescTable := Function.update state.fDescTable d { state.fDescTable d with inode := .free }
        filp := Function.update state.filp pid (Function.update (state.filp pid) fd none) } =
        { state.accounts with
          count := Function.update state.accounts.count p (state.accounts.count p - 1)
          target := Function.update state.accounts.target d .free
          filp := Function.update state.accounts.filp pid
            (Function.update (state.accounts.filp pid) fd none) } :=
      Accounts.ext counts (funext nums) (target_setDesc state d _) rfl rfl
    rw [accounts]
    exact released
  · by_cases here : e = d
    · simp [here] at target
    · simp only [Function.update_of_ne here] at target ⊢
      rw [nums, sizes]
      exact holds.inside e q target

/-! ## Positions -/

/-- What is known of a file that is open. -/
structure OpenText (state : FsState) (store : Store) (d p : Nat) (text : List Byte) : Prop where
  live : Live state.volume (state.inodeTable p).num
  record : (state.inodeTable p).toInodeRecord = state.volume.records (state.inodeTable p).num
  slot : p < 64
  used : (state.inodeTable p).cnt ≠ 0
  desc : d < 64
  content : store.content (state.inodeTable p).num = some text
  bytes : text = extentBytes state.disk (state.inodeTable p).toInodeRecord
  length : text.length = (state.inodeTable p).size
  inside : (state.fDescTable d).pos ≤ (state.inodeTable p).size

theorem Holds.text (holds : Holds size state store) (opens : opened state pid fd = some (d, p))
    (five : 5 ≤ (state.inodeTable p).num) : ∃ text, OpenText state store d p text := by
  obtain ⟨_, _, points⟩ := opened_iff.mp opens
  obtain ⟨inside, slot, used⟩ := holds.balanced.target d p points
  have kind := holds.balanced.held p slot used
  have live : Live state.volume (state.inodeTable p).num :=
    kind.resolve_left (Nat.not_lt.mpr five)
  have record : (state.inodeTable p).toInodeRecord =
      state.volume.records (state.inodeTable p).num := (holds.sound.cached.agrees p slot used).2.2
  refine ⟨_, live, record, slot, used, inside, ?_, rfl, by simp [extentBytes],
    holds.inside d p points five⟩
  rw [holds.content, FsState.content, if_pos live, record]

/-- The handle behind an `fd`. -/
theorem Holds.opened_handle (holds : Holds size state store)
    (opens : opened state pid fd = some (d, p)) :
    store.handle pid fd = some
      { file := (state.inodeTable p).num
        pos := (state.fDescTable d).pos
        mode := (state.fDescTable d).mode } := by
  obtain ⟨small, link, points⟩ := opened_iff.mp opens
  rw [holds.handle]
  exact handle_of_link small link points

theorem Holds.move (holds : Holds size state store) (opens : opened state pid fd = some (d, p))
    {pos : Nat} (fits : pos ≤ (state.inodeTable p).size) :
    Holds size (state.setDesc d { state.fDescTable d with pos := pos })
      (store.setHandle pid fd (some
        { file := (state.inodeTable p).num
          pos := pos
          mode := (state.fDescTable d).mode })) := by
  obtain ⟨_, _, points⟩ := opened_iff.mp opens
  refine ⟨holds.sb, holds.sound, holds.recorded, holds.named, holds.content, ?_, ?_, holds.sized,
    fun e q target => ?_⟩
  · rw [FileStore.setHandle, holds.handle]
    symm
    exact handle_moved holds.balanced opens rfl rfl fun _ => rfl
  · have targets : (fun e => (Function.update state.fDescTable d
        { state.fDescTable d with pos := pos } e).inode) = fun e => (state.fDescTable e).inode := by
      rw [target_setDesc]
      exact Function.update_eq_self d fun e => (state.fDescTable e).inode
    have accounts : FsState.accounts (state.setDesc d { state.fDescTable d with pos := pos }) =
        state.accounts := Accounts.ext rfl rfl targets rfl rfl
    rw [accounts]
    exact holds.balanced
  · by_cases here : e = d
    · subst here
      simp only [FsState.setDesc, Function.update_self] at target ⊢
      rw [points] at target
      cases target
      exact fun _ => fits
    · simp only [FsState.setDesc, Function.update_of_ne here] at target ⊢
      exact holds.inside e q target

theorem seekPos_origin (pos size : Nat) (off : Int) (whence : Nat) :
    seekPos pos size off whence = (origin whence).map fun from' => from'.target pos size off := by
  unfold seekPos origin
  split
  next => rfl
  next =>
    split
    next => rfl
    next =>
      split
      next => rfl
      next => rfl

theorem Holds.seek (holds : Holds size state store) {off : Int} {whence : Nat}
    (proper : OnFile state pid fd) (ran : doLseek state pid fd off whence = some (next, ret)) :
    ∃ moved, FileStore.Answers store (.seek pid fd off (origin whence)) ⟨ret, []⟩ moved ∧
      Holds size next moved := by
  unfold doLseek at ran
  cases opens : opened state pid fd with
  | none => simp [opens] at ran
  | some place =>
      obtain ⟨d, p⟩ := place
      obtain ⟨text, file⟩ := holds.text opens (proper d p opens)
      have length := file.length
      have held := holds.opened_handle opens
      simp only [opens, seekPos_origin] at ran
      cases found : origin whence with
      | none =>
          simp only [found, Option.map_none, Option.some.injEq, Prod.mk.injEq] at ran
          obtain ⟨rfl, rfl⟩ := ran
          exact ⟨store, .seekRefused held file.content (fun _ _ wrong => by cases wrong), holds⟩
      | some whence' =>
          simp only [found, Option.map_some] at ran
          split at ran
          next outside =>
            simp only [Option.some.injEq, Prod.mk.injEq] at ran
            obtain ⟨rfl, rfl⟩ := ran
            refine ⟨store, .seekRefused held file.content fun other pos same target => ?_, holds⟩
            cases same
            have target : whence'.target (state.fDescTable d).pos text.length off = pos := target
            rw [length] at target ⊢
            omega
          next inside =>
            simp only [Option.some.injEq, Prod.mk.injEq] at ran
            obtain ⟨rfl, rfl⟩ := ran
            obtain ⟨pos, target⟩ : ∃ pos : Nat, whence'.target (state.fDescTable d).pos
                (state.inodeTable p).size off = pos := ⟨_, (Int.toNat_of_nonneg (by omega)).symm⟩
            rw [target] at inside ⊢
            have fits : pos ≤ (state.inodeTable p).size := by omega
            exact ⟨_, .seeked held file.content (by rw [length, target]) (length ▸ fits),
              holds.move opens fits⟩

/-! ## Reads -/

variable {count : Nat} {buf : Buffer} {reply : StoreReply Byte}

theorem OpenText.openFile {text : List Byte} (holds : Holds size state store)
    (file : OpenText state store d p text) (opens : opened state pid fd = some (d, p)) :
    OpenFile state pid fd d p where
  link := opens
  regular := by
    obtain ⟨_, run⟩ := holds.sound.extents.run _ file.live
    have mode : (state.inodeTable p).mode = iRegular :=
      (congrArg InodeRecord.mode file.record).trans run.mode
    rw [mode]
    decide
  inside := file.inside

/-- Where the bytes of a file are, in a partition that the driver can address. -/
theorem Holds.extent_small (holds : Holds size state store) (small : size ≤ 2 ^ 22) {n : Nat}
    (live : Live state.volume n) :
    state.dataSect ≤ (state.volume.records n).startSect ∧
      ((state.volume.records n).startSect + nrDefaultFileSects) * sectorSize ≤ 2 ^ 31 := by
  obtain ⟨j, run⟩ := holds.sound.extents.run n live
  have start : (state.volume.records n).startSect = state.sb.n1stSect + 2048 * j := run.start
  have low := run.low
  have fits : (state.volume.records n).startSect + 2048 ≤ state.sb.nrSects := run.fits
  have sects : state.sb.nrSects = size := by
    rw [holds.sb]
    rfl
  unfold FsState.dataSect nrDefaultFileSects sectorSize
  omega

theorem Holds.read (holds : Holds size state store) (small : size ≤ 2 ^ 22)
    (proper : Proper state (.read pid fd buf count))
    (ran : IoCall.answer state (.read pid fd buf count) = some (next, reply)) :
    ∃ moved, FileStore.Answers store (.read pid fd count) reply moved ∧ Holds size next moved := by
  obtain ⟨onFile, update, within⟩ := proper
  cases opens : opened state pid fd with
  | none => simp [IoCall.answer, realRead, doRead, opens] at ran
  | some place =>
      obtain ⟨d, p⟩ := place
      obtain ⟨text, file⟩ := holds.text opens (onFile d p opens)
      have room := within d p opens
      obtain ⟨read, found, bytes⟩ := realRead_inside buf (file.openFile holds opens)
        (update d p opens) room
      simp only [IoCall.answer, found, Option.map_some, Option.some.injEq, Prod.mk.injEq] at ran
      obtain ⟨rfl, rfl⟩ := ran
      have length := file.length
      obtain ⟨_, high⟩ := holds.extent_small small file.live
      have sized := holds.sized _ file.live
      rw [← file.record] at high sized
      have data : (List.range count).map read = (text.drop (state.fDescTable d).pos).take count := by
        refine List.ext_getElem (by simp; omega) fun o low _ => ?_
        have inside : o < count := by simpa using low
        have place : state.diskPos d p + o < 2 ^ 31 := by
          unfold FsState.diskPos nrDefaultFileSects sectorSize at *
          omega
        rw [List.getElem_map, List.getElem_range, bytes, if_pos inside, landing_small place]
        simp only [List.getElem_take, List.getElem_drop, file.bytes, extentBytes, FsState.diskPos,
          List.getElem_map, List.getElem_range, Nat.add_assoc]
      rw [data]
      exact ⟨_, .read (holds.opened_handle opens) file.content (by rw [length]; exact room),
        holds.move opens room⟩

/-! ## Writes -/

variable {data : List Byte}

theorem OpenText.regularFile {text : List Byte} (holds : Holds size state store)
    (small : size ≤ 2 ^ 22) (file : OpenText state store d p text)
    (opens : opened state pid fd = some (d, p)) : RegularFile state pid fd d p := by
  obtain ⟨low, high⟩ := holds.extent_small small file.live
  obtain ⟨j, run⟩ := holds.sound.extents.run _ file.live
  have sects : (state.volume.records (state.inodeTable p).num).nrSects = 2048 := run.sects
  have five := file.live.1
  have inside : (state.inodeTable p).num < 4096 := holds.sound.extents.inside _ file.live.2
  have record := volume_records state (by omega : 1 ≤ (state.inodeTable p).num) (Nat.le_of_lt inside)
  have inodes : state.sb.nrInodes = 4096 := by
    rw [holds.sb]
    rfl
  rw [← file.record] at low high sects
  unfold FsState.dataSect at low
  unfold nrDefaultFileSects sectorSize at high
  refine ⟨file.openFile holds opens, ?_, by omega, by omega, ?_, by omega, ?_, by omega⟩
  · rw [holds.sb]
    exact newSuperBlock_inodeArray (by omega)
  · rw [← record, file.record]
  · rw [sects]
    decide

/-- The record that a write leaves is that of the file with its new size. -/
theorem Holds.write_volume (holds : Holds size state store) {text : List Byte}
    (file : OpenText state store d p text) (opens : opened state pid fd = some (d, p))
    (capacity : WithinCapacity state pid fd data.length)
    (ran : doWrite state pid fd data = some (next, ret)) :
    ∃ grown, next.inodeTable p = resized (state.inodeTable p) grown ∧
      next.volume = state.volume.putRecord (state.inodeTable p).num
        (resized (state.inodeTable p) grown).toInodeRecord := by
  obtain ⟨j, run⟩ := holds.sound.extents.run _ file.live
  have start : (state.volume.records (state.inodeTable p).num).startSect =
      state.sb.n1stSect + 2048 * j := run.start
  have sects : (state.volume.records (state.inodeTable p).num).nrSects = 2048 := run.sects
  have low := run.low
  have high := run.high
  have five := file.live.1
  have inside : (state.inodeTable p).num < 4096 := holds.sound.extents.inside _ file.live.2
  have addressed : state.sb.n1stSect + 2048 * 4092 ≤ 2 ^ 23 + 2 := holds.sound.addressed
  have layout : Layout state.sb := holds.sound.layout
  have record := volume_records state (by omega : 1 ≤ (state.inodeTable p).num) (Nat.le_of_lt inside)
  have fits : (state.inodeTable p).toInodeRecord.Fits := by
    rw [file.record, record]
    exact readRecord_fits _ _
  rw [← file.record] at start sects
  obtain ⟨grown, pos, disk, effect, _, volume⟩ := doWrite_cases ran layout opens
    (by unfold nrDefaultFileSects; omega) (by omega) (capacity d p opens)
    ⟨by omega, Nat.le_of_lt inside⟩ fits file.record
  refine ⟨grown, ?_, ?_⟩
  · rw [effect]
    simp only [Function.update_self]
  · rw [effect]
    exact volume

theorem extentBytes_getElem? (disk : Disk) (inode : InodeRecord) (i : Nat) :
    (extentBytes disk inode)[i]? =
      if i < inode.size then some (diskByte disk (inode.startSect * sectorSize + i)) else none := by
  unfold extentBytes
  split
  next inside => simp [inside]
  next outside => simp [Nat.not_lt.mp outside]

/-- The bytes of a file after a write: the data over what was there. -/
theorem WroteData.splice {text : List Byte} (wrote : WroteData state next d p data)
    (file : OpenText state store d p text)
    (before : recordPos state.sb (state.inodeTable p).num + inodeSize ≤
      (state.inodeTable p).startSect * sectorSize) :
    extentBytes next.disk (next.inodeTable p).toInodeRecord =
      splice text data (state.fDescTable d).pos := by
  have inside := file.inside
  have length := file.length
  have table : next.inodeTable p = resized (state.inodeTable p)
      (max (state.inodeTable p).size ((state.fDescTable d).pos + data.length)) := by
    rw [wrote.tables]
    simp only [Function.update_self]
  unfold inodeSize at before
  have byte (i : Nat) : (extentBytes next.disk (next.inodeTable p).toInodeRecord)[i]? =
      if i < max (state.inodeTable p).size ((state.fDescTable d).pos + data.length) then
        some (diskByte next.disk ((state.inodeTable p).startSect * sectorSize + i)) else none := by
    rw [table]
    exact extentBytes_getElem? next.disk (resized (state.inodeTable p) _).toInodeRecord i
  have old (i : Nat) : text[i]? = if i < (state.inodeTable p).size then
      some (diskByte state.disk ((state.inodeTable p).startSect * sectorSize + i)) else none := by
    rw [file.bytes]
    exact extentBytes_getElem? state.disk (state.inodeTable p).toInodeRecord i
  have kept (i : Nat)
      (outside : i < (state.fDescTable d).pos ∨ (state.fDescTable d).pos + data.length ≤ i) :
      diskByte next.disk ((state.inodeTable p).startSect * sectorSize + i) =
        diskByte state.disk ((state.inodeTable p).startSect * sectorSize + i) := by
    apply wrote.kept
    · unfold inRange FsState.diskPos
      omega
    · unfold inRange
      omega
  apply List.ext_getElem?
  intro i
  rw [byte, splice_getElem? (by omega)]
  by_cases early : i < (state.fDescTable d).pos
  · rw [if_pos (by omega), if_pos early, old, if_pos (by omega), kept i (.inl early)]
  · rw [if_neg early]
    by_cases within : i < (state.fDescTable d).pos + data.length
    · have stored := wrote.stored (i - (state.fDescTable d).pos) (by omega)
      have place : state.diskPos d p + (i - (state.fDescTable d).pos) =
          (state.inodeTable p).startSect * sectorSize + i := by
        unfold FsState.diskPos
        omega
      rw [place, List.getD_eq_getElem _ _ (by omega)] at stored
      rw [if_pos (by omega), if_pos within, stored, List.getElem?_eq_getElem]
    · rw [if_neg within, old, kept i (.inr (by omega))]
      by_cases last : i < (state.inodeTable p).size
      · rw [if_pos (by omega), if_pos last]
      · rw [if_neg (by omega), if_neg last]

end AempOS.Fs
