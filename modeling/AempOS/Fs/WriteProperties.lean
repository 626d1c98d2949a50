import AempOS.Fs.ReadWriteProperties

/-! What a write of a file leaves on the disk: the data in the extent of the file and the
size in its inode record, when the driver finds every position and the data fit. -/

set_option autoImplicit false

namespace AempOS.Fs

open Lib

/-- Where the record of an inode is on the disk. -/
def recordPos (sb : SuperBlock) (n : Nat) : Nat :=
  inodeSect sb n * sectorSize + inodeOff n

theorem recordPos_place {sb : SuperBlock} {n o : Nat} (inside : o < inodeSize) :
    (recordPos sb n + o) / sectorSize = inodeSect sb n ∧
      (recordPos sb n + o) % sectorSize = inodeOff n + o := by
  unfold recordPos inodeOff inodeSize sectorSize at *
  omega

/-- The regular file behind an `fd`, with an inode of the inode array that the disk has as
the table has it, and with sectors in the data area that are numbered by ints. -/
structure RegularFile (state : FsState) (pid fd d pin : Nat) : Prop extends
    OpenFile state pid fd d pin where
  array : InodeArray state.sb
  least : 1 ≤ (state.inodeTable pin).num
  most : (state.inodeTable pin).num ≤ state.sb.nrInodes
  agrees : recordOf state.sb state.disk (state.inodeTable pin).num =
    (state.inodeTable pin).toInodeRecord
  area : state.sb.n1stSect ≤ (state.inodeTable pin).startSect
  positions : (state.inodeTable pin).nrSects * sectorSize < 2 ^ 31
  sectors : (state.inodeTable pin).startSect + (state.inodeTable pin).nrSects < 2 ^ 31

section Sync

variable {state : FsState} {p n : Nat}

/-- A byte of the disk that `sync_inode` changes is one of the words of the record. -/
theorem syncInode_byte (array : InodeArray state.sb) (isNum : (state.inodeTable p).num = n)
    (low : 1 ≤ n) (high : n ≤ state.sb.nrInodes) {x : Nat}
    (away : ¬inRange (recordPos state.sb n) inodeSize x) :
    diskByte (syncInode state p).disk x = diskByte state.disk x := by
  have inside := array.inside low high
  have small := array.small
  unfold diskByte
  by_cases sect : x / sectorSize = inodeSect state.sb n
  · have outside : x % sectorSize < inodeOff n ∨ inodeOff n + 16 ≤ x % sectorSize := by
      unfold inRange recordPos inodeSize at away
      unfold sectorSize at *
      omega
    rw [sect, syncInode_here array isNum low high, writeRecord_outside outside,
      rdSect_small _ (by omega)]
  · rw [syncInode_other array isNum low high sect]

/-- With the other words as they are on the disk only that of the size changes. -/
theorem writeRecord_resized {fsbuf : Buffer} {off size : Nat} {record : InodeRecord}
    (there : readRecord fsbuf off = record) :
    writeRecord fsbuf off { record with size := size } = setWord32 fsbuf (off + 4) size := by
  subst there
  have start : word32 fsbuf (off + 8) = word32 (setWord32 fsbuf (off + 4) size) (off + 8) :=
    (word32_setWord32_apart (by omega)).symm
  have sects : word32 fsbuf (off + 12) = word32 (setWord32 fsbuf (off + 4) size) (off + 12) :=
    (word32_setWord32_apart (by omega)).symm
  simp only [writeRecord, storeWords, readRecord, setWord32_word32]
  rw [start, setWord32_word32, sects, setWord32_word32]

theorem syncInode_sizeByte (array : InodeArray state.sb) (isNum : (state.inodeTable p).num = n)
    (low : 1 ≤ n) (high : n ≤ state.sb.nrInodes) {size : Nat}
    (agrees : (state.inodeTable p).toInodeRecord = { recordOf state.sb state.disk n with size := size })
    {x : Nat} (away : ¬inRange (recordPos state.sb n + 4) 4 x) :
    diskByte (syncInode state p).disk x = diskByte state.disk x := by
  have inside := array.inside low high
  have small := array.small
  unfold diskByte
  by_cases sect : x / sectorSize = inodeSect state.sb n
  · have outside : x % sectorSize < inodeOff n + 4 ∨ inodeOff n + 4 + 4 ≤ x % sectorSize := by
      unfold inRange recordPos at away
      unfold sectorSize at *
      omega
    rw [sect, syncInode_here array isNum low high, agrees, recordOf, writeRecord_resized rfl,
      setWord32_outside outside, rdSect_small _ (by omega)]
  · rw [syncInode_other array isNum low high sect]

end Sync

/-- The end of `do_rdwt`, with the disk after its rounds and the bytes they moved. -/
def FsState.moved (state : FsState) (d pin : Nat) (disk : Disk) (bytesRw : Nat) : FsState :=
  let desc := state.fDescTable d
  let inode := state.inodeTable pin
  let pos := desc.pos + bytesRw
  let state := { state with disk := disk }.setDesc d { desc with pos := pos }
  if inode.size < pos then syncInode (state.setInode pin { inode with size := pos }) pin else state

section Moved

variable {state : FsState} {pid fd d pin : Nat} {disk : Disk} {bytesRw : Nat}

theorem doWrite_moved (file : OpenFile state pid fd d pin)
    (rdwr : oRdwr (state.fDescTable d).mode = true) (data : List Byte) :
    let inode := state.inodeTable pin
    let pos := (state.fDescTable d).pos
    let posEnd := min (pos + data.length) (inode.nrSects * sectorSize)
    let rounds := inode.startSect + posEnd / sectorSize + 1 - (inode.startSect + pos / sectorSize)
    realWrite state pid fd data =
      some (state.moved d pin
        (writeSects state.disk rounds (inode.startSect + pos / sectorSize) (pos % sectorSize) data)
        (bytesMoved rounds (pos % sectorSize) data.length), (data.length : Int)) := by
  unfold realWrite doWrite FsState.moved
  simp only [file.link, rdwr, Bool.not_true, Bool.false_eq_true, if_false, if_neg file.readable]
  split
  next => rfl
  next => rfl

theorem moved_tables : state.moved d pin disk bytesRw = { state with
    disk := (state.moved d pin disk bytesRw).disk
    inodeTable := Function.update state.inodeTable pin (resized (state.inodeTable pin)
      (max (state.inodeTable pin).size ((state.fDescTable d).pos + bytesRw)))
    fDescTable := Function.update state.fDescTable d
      { state.fDescTable d with pos := (state.fDescTable d).pos + bytesRw } } := by
  unfold FsState.moved
  simp only
  split
  next grows =>
    rw [Nat.max_eq_right (Nat.le_of_lt grows)]
    rfl
  next kept =>
    have same : resized (state.inodeTable pin) (state.inodeTable pin).size = state.inodeTable pin := rfl
    rw [Nat.max_eq_left (Nat.not_lt.mp kept), same, Function.update_eq_self]
    rfl

/-- Before `sync_inode`, when the file grows to `pos`. -/
def FsState.extended (state : FsState) (d pin : Nat) (disk : Disk) (pos : Nat) : FsState :=
  ({ state with disk := disk }.setDesc d { state.fDescTable d with pos := pos }).setInode pin
    (resized (state.inodeTable pin) pos)

theorem extended_inode (pos : Nat) :
    (state.extended d pin disk pos).inodeTable pin = resized (state.inodeTable pin) pos :=
  Function.update_self _ _ _

theorem extended_num (pos : Nat) :
    ((state.extended d pin disk pos).inodeTable pin).num = (state.inodeTable pin).num := by
  rw [extended_inode]
  rfl

theorem extended_array (array : InodeArray state.sb) (pos : Nat) :
    InodeArray (state.extended d pin disk pos).sb := array

theorem moved_disk : (state.moved d pin disk bytesRw).disk =
    if (state.inodeTable pin).size < (state.fDescTable d).pos + bytesRw then
      (syncInode (state.extended d pin disk ((state.fDescTable d).pos + bytesRw)) pin).disk
    else disk := by
  unfold FsState.moved
  simp only
  split
  next => rfl
  next => rfl

theorem moved_byte (file : RegularFile state pid fd d pin) {x : Nat}
    (away : ¬inRange (recordPos state.sb (state.inodeTable pin).num) inodeSize x) :
    diskByte (state.moved d pin disk bytesRw).disk x = diskByte disk x := by
  rw [moved_disk]
  split
  next => exact syncInode_byte (extended_array file.array _) (extended_num _) file.least file.most away
  next => rfl

theorem moved_sizeByte (file : RegularFile state pid fd d pin)
    (agrees : recordOf state.sb disk (state.inodeTable pin).num = (state.inodeTable pin).toInodeRecord)
    {x : Nat} (away : ¬inRange (recordPos state.sb (state.inodeTable pin).num + 4) 4 x) :
    diskByte (state.moved d pin disk bytesRw).disk x = diskByte disk x := by
  rw [moved_disk]
  split
  next =>
    have record : ((state.extended d pin disk ((state.fDescTable d).pos + bytesRw)).inodeTable
        pin).toInodeRecord = { recordOf state.sb disk (state.inodeTable pin).num with
          size := (state.fDescTable d).pos + bytesRw } := by
      rw [extended_inode, agrees]
      rfl
    exact syncInode_sizeByte (extended_array file.array _) (extended_num _) file.least file.most record away
  next => rfl

theorem moved_record (file : RegularFile state pid fd d pin)
    (agrees : recordOf state.sb disk (state.inodeTable pin).num = (state.inodeTable pin).toInodeRecord)
    (bounded : (state.fDescTable d).pos + bytesRw < 2 ^ 32) :
    recordOf state.sb (state.moved d pin disk bytesRw).disk (state.inodeTable pin).num =
      ((state.moved d pin disk bytesRw).inodeTable pin).toInodeRecord := by
  have fits : (state.inodeTable pin).toInodeRecord.Fits := agrees ▸ readRecord_fits _ _
  rw [moved_disk, moved_tables]
  simp only [Function.update_self]
  split
  next grows =>
    have grownFits : ((state.extended d pin disk ((state.fDescTable d).pos + bytesRw)).inodeTable
        pin).toInodeRecord.Fits := by
      rw [extended_inode]
      exact ⟨fits.mode, bounded, fits.startSect, fits.nrSects⟩
    have stored := syncInode_record (extended_array file.array _) (extended_num _) file.least file.most grownFits
    rw [extended_inode] at stored
    rw [Nat.max_eq_right (Nat.le_of_lt grows)]
    exact stored
  next kept =>
    rw [Nat.max_eq_left (Nat.not_lt.mp kept)]
    exact agrees

end Moved

section Writes

variable {state : FsState} {pid fd d pin : Nat} {data : List Byte}

/-- A write inside the capacity of the file moves all of the data. -/
theorem realWrite_room (file : OpenFile state pid fd d pin)
    (rdwr : oRdwr (state.fDescTable d).mode = true)
    (room : (state.fDescTable d).pos + data.length ≤ (state.inodeTable pin).nrSects * sectorSize) :
    ∃ disk, realWrite state pid fd data =
        some (state.moved d pin disk data.length, (data.length : Int)) ∧
      ∀ x, (∃ j < data.length, landing (state.diskPos d pin + j) = x ∧
          diskByte disk x = data.getD j 0) ∨
        ((∀ j < data.length, landing (state.diskPos d pin + j) ≠ x) ∧
          diskByte disk x = diskByte state.disk x) := by
  have enough := rounds_enough (state.inodeTable pin).startSect (state.fDescTable d).pos data.length
  have small : (state.fDescTable d).pos % sectorSize < sectorSize := Nat.mod_lt _ (by decide)
  have ran := doWrite_moved file rdwr data
  simp only [Nat.min_eq_left room] at ran
  rw [bytesMoved_eq small, Nat.min_eq_left (by omega)] at ran
  refine ⟨_, ran, fun x => ?_⟩
  rw [← diskPos_eq]
  exact writeSects_byte small enough x

theorem RegularFile.record_before (file : RegularFile state pid fd d pin) :
    recordPos state.sb (state.inodeTable pin).num + inodeSize ≤ state.diskPos d pin := by
  have inside := file.array.inside file.least file.most
  have area := file.area
  unfold recordPos inodeOff FsState.diskPos inodeSize sectorSize
  omega

/-- The record of an inode depends on its own bytes only. -/
theorem recordOf_congr {sb : SuperBlock} {disk other : Disk} {n : Nat} (array : InodeArray sb)
    (low : 1 ≤ n) (high : n ≤ sb.nrInodes)
    (same : ∀ o < inodeSize, diskByte disk (recordPos sb n + o) = diskByte other (recordPos sb n + o)) :
    recordOf sb disk n = recordOf sb other n := by
  have inside := array.inside low high
  have small := array.small
  unfold recordOf
  rw [rdSect_small _ (by omega), rdSect_small _ (by omega)]
  apply readRecord_congr
  intro o least most
  obtain ⟨shift, rfl⟩ : ∃ shift, o = inodeOff n + shift := ⟨o - inodeOff n, by omega⟩
  have inRecord : shift < inodeSize := by
    unfold inodeSize
    omega
  have byte := same shift inRecord
  rwa [diskByte, diskByte, (recordPos_place inRecord).1, (recordPos_place inRecord).2] at byte

/-- What a write of a file changes: the data in its extent, the size in its record, and size
and position in the tables. -/
structure WroteData (state next : FsState) (d pin : Nat) (data : List Byte) : Prop where
  stored : ∀ j < data.length, diskByte next.disk (state.diskPos d pin + j) = data.getD j 0
  kept : ∀ x, ¬inRange (state.diskPos d pin) data.length x →
    ¬inRange (recordPos state.sb (state.inodeTable pin).num + 4) 4 x →
      diskByte next.disk x = diskByte state.disk x
  record : recordOf state.sb next.disk (state.inodeTable pin).num =
    (next.inodeTable pin).toInodeRecord
  tables : next = { state with
    disk := next.disk
    inodeTable := Function.update state.inodeTable pin (resized (state.inodeTable pin)
      (max (state.inodeTable pin).size ((state.fDescTable d).pos + data.length)))
    fDescTable := Function.update state.fDescTable d
      { state.fDescTable d with pos := (state.fDescTable d).pos + data.length } }

theorem realWrite_wroteData (file : RegularFile state pid fd d pin)
    (rdwr : oRdwr (state.fDescTable d).mode = true)
    (room : (state.fDescTable d).pos + data.length ≤ (state.inodeTable pin).nrSects * sectorSize)
    (lands : ∀ j < data.length, landing (state.diskPos d pin + j) = state.diskPos d pin + j) :
    ∃ next, realWrite state pid fd data = some (next, (data.length : Int)) ∧
      WroteData state next d pin data := by
  obtain ⟨disk, ran, bytes⟩ := realWrite_room file.toOpenFile rdwr room
  have before := file.record_before
  have outside (x : Nat) (away : ¬inRange (state.diskPos d pin) data.length x) :
      diskByte disk x = diskByte state.disk x := by
    rcases bytes x with ⟨j, inside, here, _⟩ | ⟨_, kept⟩
    · rw [lands j inside] at here
      exact absurd ⟨by omega, by omega⟩ away
    · exact kept
  have agrees : recordOf state.sb disk (state.inodeTable pin).num =
      (state.inodeTable pin).toInodeRecord := by
    rw [← file.agrees]
    refine recordOf_congr file.array file.least file.most fun o inRecord => outside _ ?_
    unfold inRange
    omega
  have positions := file.positions
  refine ⟨_, ran, fun j inside => ?_, fun x away other => ?_, moved_record file agrees (by omega),
    moved_tables⟩
  · rw [moved_byte file (by unfold inRange; omega)]
    rcases bytes (state.diskPos d pin + j) with ⟨k, insideK, here, datum⟩ | ⟨missed, _⟩
    · rw [lands k insideK] at here
      rw [datum]
      congr 1
      omega
    · exact absurd (lands j inside) (missed j inside)
  · rw [moved_sizeByte file agrees other]
    exact outside x away

theorem doLseek_set (link : opened state pid fd = some (d, pin)) {pos : Nat}
    (inside : pos ≤ (state.inodeTable pin).size) :
    doLseek state pid fd pos seekSet =
      some (state.setDesc d { state.fDescTable d with pos := pos }, (pos : Int)) := by
  unfold doLseek seekPos
  simp only [link, if_true]
  rw [if_neg (by omega)]
  rfl

theorem setDesc_self (state : FsState) (d : Nat) (desc : FileDesc) :
    (state.setDesc d desc).fDescTable d = desc :=
  Function.update_self _ _ _

/-- A new position for the descriptor leaves the file open. -/
theorem opened_setDesc (link : opened state pid fd = some (d, pin)) (pos : Nat) :
    opened (state.setDesc d { state.fDescTable d with pos := pos }) pid fd = some (d, pin) := by
  rw [opened_iff] at link ⊢
  refine ⟨link.1, link.2.1, ?_⟩
  rw [setDesc_self]
  exact link.2.2

/-- Data that were written from the position of a descriptor on are read back from there. -/
def ReadsBack (state next : FsState) (pid fd d : Nat) (data : List Byte) : Prop :=
  ∀ buf, ∃ (sought after : FsState) (read : Buffer),
    doLseek next pid fd (state.fDescTable d).pos seekSet =
      some (sought, ((state.fDescTable d).pos : Int)) ∧
    realRead sought pid fd buf data.length = some (after, read, (data.length : Int)) ∧
    (∀ o, read o = if o < data.length then data.getD o 0 else buf o) ∧
    sought.disk = next.disk ∧ after.disk = next.disk

/-- What is written where the driver puts it right is found again. -/
theorem realWrite_readsBack (file : RegularFile state pid fd d pin)
    (rdwr : oRdwr (state.fDescTable d).mode = true)
    (room : (state.fDescTable d).pos + data.length ≤ (state.inodeTable pin).nrSects * sectorSize)
    (lands : ∀ j < data.length, landing (state.diskPos d pin + j) = state.diskPos d pin + j) :
    ∃ next, realWrite state pid fd data = some (next, (data.length : Int)) ∧
      WroteData state next d pin data ∧ ReadsBack state next pid fd d data := by
  obtain ⟨next, ran, wrote⟩ := realWrite_wroteData file rdwr room lands
  have inode : next.inodeTable pin = resized (state.inodeTable pin)
      (max (state.inodeTable pin).size ((state.fDescTable d).pos + data.length)) := by
    rw [wrote.tables]
    exact Function.update_self _ _ _
  have desc : next.fDescTable d =
      { state.fDescTable d with pos := (state.fDescTable d).pos + data.length } := by
    rw [wrote.tables]
    exact Function.update_self _ _ _
  have link : opened next pid fd = some (d, pin) := by
    have before := opened_iff.mp file.link
    rw [opened_iff, desc]
    refine ⟨before.1, ?_, before.2.2⟩
    rw [wrote.tables]
    exact before.2.1
  have size : (state.fDescTable d).pos + data.length ≤ (next.inodeTable pin).size := by
    rw [inode]
    exact Nat.le_max_right _ _
  have sought := doLseek_set link (Nat.le_trans (Nat.le_add_right _ _) size)
  have position : ((next.setDesc d { next.fDescTable d with pos := (state.fDescTable d).pos }).fDescTable
      d).pos = (state.fDescTable d).pos := by
    rw [setDesc_self]
  have start : (next.setDesc d { next.fDescTable d with
      pos := (state.fDescTable d).pos }).diskPos d pin = state.diskPos d pin := by
    unfold FsState.diskPos
    rw [position]
    simp only [FsState.setDesc, inode, resized]
  have again : OpenFile (next.setDesc d { next.fDescTable d with pos := (state.fDescTable d).pos })
      pid fd d pin := by
    refine ⟨opened_setDesc link _, ?_, ?_⟩
    · simp only [FsState.setDesc, inode]
      exact file.regular
    · rw [position]
      simp only [FsState.setDesc]
      omega
  refine ⟨next, ran, wrote, fun buf => ?_⟩
  obtain ⟨read, read_eq, bytes⟩ := realRead_inside buf again
    (by rw [setDesc_self, desc]; exact rdwr) (by rw [position]; exact size)
  refine ⟨_, _, read, sought, read_eq, fun o => ?_, rfl, rfl⟩
  rw [bytes, start]
  split
  next inside =>
    rw [lands o inside]
    exact wrote.stored o inside
  next => rfl

end Writes

end AempOS.Fs
