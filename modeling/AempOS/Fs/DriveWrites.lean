import AempOS.Fs.WriteProperties

/-! Writes of files on the drive that the partition is a part of, byte by byte: when the data
come to the extent of the file, and when nothing else of the drive changes. -/

set_option autoImplicit false

namespace AempOS.Fs

open Lib

/-! ## Bytes of a drive -/

/-- The byte of the drive that the registers name for byte `x` of the partition. -/
def drivePos (base x : Nat) : Nat := (base + x / sectorSize) % lbaSectors * sectorSize + x % sectorSize

section Bytes

variable {drive disk : Disk} {base x : Nat}

theorem drivePos_sect (base x : Nat) : drivePos base x / sectorSize = (base + x / sectorSize) % lbaSectors := by
  unfold drivePos sectorSize
  omega

theorem drivePos_off (base x : Nat) : drivePos base x % sectorSize = x % sectorSize := by
  unfold drivePos sectorSize
  omega

/-- A byte whose sector the registers can name. -/
theorem drivePos_near (near : base * sectorSize + x < 2 ^ 37) : drivePos base x = base * sectorSize + x := by
  unfold drivePos
  rw [Nat.mod_eq_of_lt (by unfold sectorSize lbaSectors at *; omega)]
  unfold sectorSize
  omega

/-- Every byte that the registers can name lies in the partition somewhere. -/
theorem drivePos_onto (base : Nat) {place : Nat} (named : place < 2 ^ 37) :
    ∃ x < 2 ^ 37, drivePos base x = place := by
  have inside : place / sectorSize < lbaSectors := by
    unfold sectorSize lbaSectors
    omega
  obtain ⟨sect, small, lies⟩ : ∃ sect < lbaSectors, (base + sect) % lbaSectors = place / sectorSize :=
    ⟨_, Nat.mod_lt _ (by decide), partition_sector inside⟩
  obtain ⟨quotient, remainder⟩ := sector_place (i := sect) (Nat.mod_lt place (by decide : 0 < sectorSize))
  refine ⟨sect * sectorSize + place % sectorSize, ?_, ?_⟩
  · unfold sectorSize lbaSectors at *
    omega
  · rw [drivePos, quotient, remainder, lies]
    exact Nat.div_add_mod' place sectorSize

theorem ontoDrive_byte (drive disk : Disk) (base : Nat) (named : x < 2 ^ 37) :
    diskByte (ontoDrive drive base disk) (drivePos base x) = diskByte disk x := by
  have inside : x / sectorSize < lbaSectors := by
    unfold sectorSize lbaSectors
    omega
  rw [diskByte, drivePos_sect, drivePos_off, ontoDrive_sector _ _ _ inside, diskByte]

/-- What the registers cannot name stays as it is. -/
theorem ontoDrive_beyond (disk : Disk) (beyond : 2 ^ 37 ≤ x) :
    diskByte (ontoDrive drive base disk) x = diskByte drive x := by
  have outside : ¬x / sectorSize < lbaSectors := by
    unfold sectorSize lbaSectors
    omega
  rw [diskByte, ontoDrive, if_neg outside, diskByte]

theorem landing_lt (x : Nat) : landing x < 2 ^ 37 := by
  have named := hdSector_lt (x / sectorSize)
  unfold landing
  unfold sectorSize lbaSectors at *
  omega

end Bytes

/-- The file system is that of a partition of the drive, and the registers can name all
sectors of the partition before those of files. -/
structure OnDrive (drive : Disk) (base : Nat) (state : FsState) : Prop where
  disk : ∀ sectNr < lbaSectors, state.disk sectNr = partitionAt drive base sectNr
  reaches : base + state.sb.n1stSect ≤ lbaSectors

section Writes

variable {drive : Disk} {base : Nat} {state next : FsState} {pid fd d pin len : Nat} {data : List Byte}

theorem OnDrive.byte (onDrive : OnDrive drive base state) {x : Nat} (named : x < 2 ^ 37) :
    diskByte state.disk x = diskByte drive (drivePos base x) := by
  have inside : x / sectorSize < lbaSectors := by
    unfold sectorSize lbaSectors
    omega
  rw [diskByte, onDrive.disk _ inside, partitionAt, diskByte, drivePos_sect, drivePos_off]

/-- The record of an inode is where it belongs. -/
theorem OnDrive.record (onDrive : OnDrive drive base state) (file : RegularFile state pid fd d pin) {x : Nat}
    (inRecord : inRange (recordPos state.sb (state.inodeTable pin).num) inodeSize x) :
    base * sectorSize + x < 2 ^ 37 := by
  have inside := file.array.inside file.least file.most
  have reaches := onDrive.reaches
  unfold inRange recordPos inodeOff inodeSize at inRecord
  unfold sectorSize lbaSectors at *
  omega

/-! ## Writes that are read back -/

/-- What a write of a file changes on the drive: the data in its extent, the size in its
record, and size and position in the tables. -/
structure WroteDrive (drive : Disk) (base : Nat) (state next : FsState) (d pin : Nat) (data : List Byte) :
    Prop where
  stored : ∀ j < data.length,
    diskByte (ontoDrive drive base next.disk) (base * sectorSize + (state.diskPos d pin + j)) = data.getD j 0
  kept : ∀ x, ¬inRange (base * sectorSize + state.diskPos d pin) data.length x →
    ¬inRange (base * sectorSize + (recordPos state.sb (state.inodeTable pin).num + 4)) 4 x →
      diskByte (ontoDrive drive base next.disk) x = diskByte drive x
  record : recordOf state.sb next.disk (state.inodeTable pin).num = (next.inodeTable pin).toInodeRecord
  tables : next = { state with
    disk := next.disk
    inodeTable := Function.update state.inodeTable pin (resized (state.inodeTable pin)
      (max (state.inodeTable pin).size ((state.fDescTable d).pos + data.length)))
    fDescTable := Function.update state.fDescTable d
      { state.fDescTable d with pos := (state.fDescTable d).pos + data.length } }

/-- A write that is read back from the position where it began. -/
def WritesBack (drive : Disk) (base : Nat) (state : FsState) (pid fd d pin : Nat) (data : List Byte) : Prop :=
  ∃ next, realWrite state pid fd data = some (next, (data.length : Int)) ∧
    WroteDrive drive base state next d pin data ∧ ReadsBack state next pid fd d data

/-- Data that the registers can name come to their places on the drive. -/
theorem WroteData.onDrive (onDrive : OnDrive drive base state) (file : RegularFile state pid fd d pin)
    (wrote : WroteData state next d pin data)
    (near : data = [] ∨ base * sectorSize + state.diskPos d pin + data.length ≤ 2 ^ 37) :
    WroteDrive drive base state next d pin data := by
  have reached {j : Nat} (inside : j < data.length) :
      base * sectorSize + (state.diskPos d pin + j) < 2 ^ 37 := by
    rcases near with rfl | near
    · exact absurd inside (Nat.not_lt_zero _)
    · omega
  refine ⟨fun j inside => ?_, fun x away other => ?_, wrote.record, wrote.tables⟩
  · rw [← drivePos_near (reached inside), ontoDrive_byte _ _ _ (by have := reached inside; omega)]
    exact wrote.stored j inside
  · by_cases named : x < 2 ^ 37
    · obtain ⟨y, small, rfl⟩ := drivePos_onto base named
      rw [ontoDrive_byte _ _ _ small, ← onDrive.byte small]
      refine wrote.kept y (fun inside => ?_) fun inside => ?_
      · obtain ⟨j, less, rfl⟩ : ∃ j < data.length, y = state.diskPos d pin + j :=
          ⟨y - state.diskPos d pin, by unfold inRange at inside; omega, by unfold inRange at inside; omega⟩
        rw [drivePos_near (reached less)] at away
        exact away ⟨by omega, by omega⟩
      · have inRecord : inRange (recordPos state.sb (state.inodeTable pin).num) inodeSize y := by
          unfold inRange inodeSize at *
          omega
        rw [drivePos_near (onDrive.record file inRecord)] at other
        unfold inRange at *
        omega
    · exact ontoDrive_beyond _ (Nat.not_lt.mp named)

theorem byte_succ (byte : Byte) : byte + 1 ≠ byte := by
  intro same
  bv_omega

/-- A byte of the drive that no position leads to does not change. -/
theorem not_stored (file : RegularFile state pid fd d pin) (onDrive : OnDrive drive base state)
    (rdwr : oRdwr (state.fDescTable d).mode = true)
    (room : (state.fDescTable d).pos + data.length ≤ (state.inodeTable pin).nrSects * sectorSize)
    {j : Nat} (inside : j < data.length)
    (lost : 2 ^ 37 ≤ base * sectorSize + (state.diskPos d pin + j) ∨
      2 ^ 31 ≤ state.diskPos d pin + j ∧ state.diskPos d pin + j < 2 ^ 37 - 2 ^ 31)
    (fresh : data.getD j 0 ≠ diskByte drive (base * sectorSize + (state.diskPos d pin + j))) :
    ¬WritesBack drive base state pid fd d pin data := by
  rintro ⟨next, ran, wrote, _⟩
  have stored := wrote.stored j inside
  by_cases beyond : 2 ^ 37 ≤ base * sectorSize + (state.diskPos d pin + j)
  · rw [ontoDrive_beyond _ beyond] at stored
    exact fresh stored.symm
  have between := lost.resolve_left beyond
  obtain ⟨disk, ran', bytes⟩ := realWrite_room file.toOpenFile rdwr room
  have isNext : state.moved d pin disk data.length = next := by
    rw [ran] at ran'
    simp only [Option.some.injEq, Prod.mk.injEq] at ran'
    exact ran'.1.symm
  have before := file.record_before
  have named : state.diskPos d pin + j < 2 ^ 37 := by omega
  rw [← drivePos_near (Nat.not_le.mp beyond), ontoDrive_byte _ _ _ named, ← isNext,
    moved_byte file (by unfold inRange; omega)] at stored
  rcases bytes (state.diskPos d pin + j) with ⟨k, _, here, _⟩ | ⟨_, kept⟩
  · have sect : hdSector ((state.diskPos d pin + k) / sectorSize) = (state.diskPos d pin + j) / sectorSize := by
      rw [← landing_sect, here]
    refine hdSector_between ?_ ?_ sect
    · unfold sectorSize
      omega
    · unfold sectorSize
      omega
  · rw [kept, onDrive.byte named, drivePos_near (Nat.not_le.mp beyond)] at stored
    exact fresh stored.symm

theorem realWrite_readBack (onDrive : OnDrive drive base state) (file : RegularFile state pid fd d pin)
    (rdwr : oRdwr (state.fDescTable d).mode = true)
    (room : (state.fDescTable d).pos + len ≤ (state.inodeTable pin).nrSects * sectorSize) :
    (∀ data : List Byte, data.length = len → WritesBack drive base state pid fd d pin data) ↔
      len = 0 ∨ base * sectorSize + state.diskPos d pin + len ≤ 2 ^ 37 ∧
        (state.diskPos d pin + len ≤ 2 ^ 31 ∨ 2 ^ 37 - 2 ^ 31 ≤ state.diskPos d pin) := by
  constructor
  · intro back
    by_contra lost
    -- The first byte that no position leads to, or the last one if that is beyond the registers.
    obtain ⟨j, inside, isLost⟩ : ∃ j < len, 2 ^ 37 ≤ base * sectorSize + (state.diskPos d pin + j) ∨
        2 ^ 31 ≤ state.diskPos d pin + j ∧ state.diskPos d pin + j < 2 ^ 37 - 2 ^ 31 := by
      by_cases beyond : base * sectorSize + state.diskPos d pin + len ≤ 2 ^ 37
      · exact ⟨2 ^ 31 - state.diskPos d pin, by omega, by omega⟩
      · exact ⟨len - 1, by omega, by omega⟩
    let datum := diskByte drive (base * sectorSize + (state.diskPos d pin + j)) + 1
    have count : (List.replicate len datum).length = len := List.length_replicate
    refine not_stored file onDrive rdwr (by rw [count]; exact room) (by rw [count]; exact inside) isLost ?_
      (back _ count)
    rw [List.getD_replicate _ inside]
    exact byte_succ _
  · rintro found data rfl
    obtain ⟨next, ran, wrote, reads⟩ := realWrite_readsBack file rdwr room fun j inside => by
      rcases found with none | ⟨near, low | high⟩
      · omega
      · exact landing_small (by omega)
      · exact landing_last (by omega) (by omega)
    exact ⟨next, ran, wrote.onDrive onDrive file (found.imp List.length_eq_zero_iff.mp And.left), reads⟩

/-- The partition that starts at a sector of a drive without other contents. -/
theorem onDrive_bare (state : FsState) (reaches : base + state.sb.n1stSect ≤ lbaSectors) :
    OnDrive (ontoDrive (fun _ => zeroBuffer) base state.disk) base state where
  disk _ named := (ontoDrive_sector _ _ _ named).symm
  reaches := reaches

theorem fileAt_regular {startSect size pos : Nat} (flags : Nat) (inside : pos ≤ size)
    (area : 3528 ≤ startSect) (high : startSect < 2 ^ 23) (small : size < 2 ^ 32) :
    RegularFile (fileAt startSect size pos flags) 0 3 0 0 where
  toOpenFile := fileAt_open startSect flags inside
  array := newSuperBlock_inodeArray (by decide : 5000000 < 2 ^ 32)
  least := (by decide : 1 ≤ 5)
  most := (by decide : 5 ≤ 4096)
  agrees := by
    have fits : (fileInode startSect size).toInodeRecord.Fits :=
      ⟨(by decide : iRegular < 2 ^ 32), small, (Nat.lt_trans high (by decide)),
        (by decide : nrDefaultFileSects < 2 ^ 32)⟩
    have num : (fileInode startSect size).num = 5 := rfl
    simp only [fileAt, recordOf, rdSect, wrSect, num]
    rw [Function.update_self]
    exact readRecord_writeRecord fits _ _
  area := Nat.le_trans (by decide : (newSuperBlock 5000000).n1stSect ≤ 3528) area
  positions := (by decide : nrDefaultFileSects * sectorSize < 2 ^ 31)
  sectors := by
    simp only [fileAt, fileInode]
    unfold nrDefaultFileSects
    omega

theorem fileAt_onDrive (startSect size pos flags : Nat) :
    OnDrive (ontoDrive (fun _ => zeroBuffer) 63 (fileAt startSect size pos flags).disk) 63
      (fileAt startSect size pos flags) :=
  onDrive_bare _ (by decide : 63 + (newSuperBlock 5000000).n1stSect ≤ lbaSectors)

theorem realWrite_readBack_first :
    WritesBack (ontoDrive (fun _ => zeroBuffer) 63 (fileAt 3528 10 10 2).disk) 63
      (fileAt 3528 10 10 2) 0 3 0 0 [1, 2, 3] := by
  have file := fileAt_regular 2 (Nat.le_refl 10) (Nat.le_refl 3528) (by decide) (by decide)
  exact (realWrite_readBack (fileAt_onDrive 3528 10 10 2) file rfl (by decide : 10 + 3 ≤ 2048 * 512)).mpr
    (.inr ⟨by decide, .inl (by decide)⟩) [1, 2, 3] rfl

/-- A file whose first sector is `2 ^ 22`. -/
theorem realWrite_lost :
    OnDrive (ontoDrive (fun _ => zeroBuffer) 63 (fileAt 4194304 0 0 2).disk) 63 (fileAt 4194304 0 0 2) ∧
      RegularFile (fileAt 4194304 0 0 2) 0 3 0 0 ∧
      ¬WritesBack (ontoDrive (fun _ => zeroBuffer) 63 (fileAt 4194304 0 0 2).disk) 63
        (fileAt 4194304 0 0 2) 0 3 0 0 [1] := by
  have file := fileAt_regular 2 (Nat.le_refl 0) (by decide : 3528 ≤ 4194304) (by decide) (by decide)
  have onDrive := fileAt_onDrive 4194304 0 0 2
  have room : 0 + ([1] : List Byte).length ≤ nrDefaultFileSects * sectorSize := by decide
  refine ⟨onDrive, file, not_stored file onDrive rfl room (by decide : 0 < 1) (.inr (by decide)) ?_⟩
  decide

/-! ## Writes that keep to the file -/

/-- A byte of the drive in the sectors of a file or in its inode record. -/
def InFile (base : Nat) (state : FsState) (pin x : Nat) : Prop :=
  inRange (base * sectorSize + (state.inodeTable pin).startSect * sectorSize)
      ((state.inodeTable pin).nrSects * sectorSize) x ∨
    inRange (base * sectorSize + recordPos state.sb (state.inodeTable pin).num) inodeSize x

/-- A write that keeps to the file. -/
def StaysInside (drive : Disk) (base : Nat) (state : FsState) (pid fd d pin : Nat) (data : List Byte) : Prop :=
  ∃ next ret, realWrite state pid fd data = some (next, ret) ∧
    (∀ x, ¬InFile base state pin x → diskByte (ontoDrive drive base next.disk) x = diskByte drive x) ∧
    (next.inodeTable pin).size ≤ (next.inodeTable pin).nrSects * sectorSize ∧
    (next.fDescTable d).pos ≤ (next.inodeTable pin).size

/-- Positions below `2 ^ 31` are those of the file. -/
theorem landing_inFile (room : (state.fDescTable d).pos + len ≤ (state.inodeTable pin).nrSects * sectorSize)
    (low : state.diskPos d pin + len ≤ 2 ^ 31) (near : base * sectorSize + state.diskPos d pin + len ≤ 2 ^ 37)
    (j : Nat) (inside : j < len) :
    InFile base state pin (drivePos base (landing (state.diskPos d pin + j))) := by
  rw [landing_small (by omega), drivePos_near (by omega)]
  unfold InFile inRange FsState.diskPos
  exact .inl ⟨by omega, by omega⟩

/-- The bytes of the record are the file's own on the drive too. -/
theorem OnDrive.inFile (onDrive : OnDrive drive base state) (file : RegularFile state pid fd d pin) {x : Nat}
    (inRecord : inRange (recordPos state.sb (state.inodeTable pin).num) inodeSize x) :
    InFile base state pin (drivePos base x) := by
  rw [drivePos_near (onDrive.record file inRecord)]
  unfold InFile inRange at *
  exact .inr ⟨by omega, by omega⟩

/-- Data behind the capacity of the file move the size behind it: the sector after the last
one of the file takes them. -/
theorem staysInside_room (file : OpenFile state pid fd d pin)
    (rdwr : oRdwr (state.fDescTable d).mode = true)
    (within : (state.inodeTable pin).size ≤ (state.inodeTable pin).nrSects * sectorSize)
    (stays : StaysInside drive base state pid fd d pin data) :
    (state.fDescTable d).pos + data.length ≤ (state.inodeTable pin).nrSects * sectorSize := by
  by_contra full
  obtain ⟨next, ret, ran, _, size, _⟩ := stays
  have inside := file.inside
  have ran' := doWrite_moved file rdwr data
  simp only [Nat.min_eq_right (Nat.le_of_not_le full)] at ran'
  rw [bytesMoved_eq (Nat.mod_lt _ (by decide)), ran] at ran'
  simp only [Option.some.injEq, Prod.mk.injEq] at ran'
  rw [ran'.1, moved_tables] at size
  simp only [Function.update_self, resized] at size
  unfold sectorSize at *
  omega

theorem realWrite_staysInside (onDrive : OnDrive drive base state) (file : RegularFile state pid fd d pin)
    (rdwr : oRdwr (state.fDescTable d).mode = true)
    (within : (state.inodeTable pin).size ≤ (state.inodeTable pin).nrSects * sectorSize) :
    (∀ data : List Byte, data.length = len → StaysInside drive base state pid fd d pin data) ↔
      (state.fDescTable d).pos + len ≤ (state.inodeTable pin).nrSects * sectorSize ∧
        ∀ j < len, InFile base state pin (drivePos base (landing (state.diskPos d pin + j))) := by
  constructor
  · intro stays
    have count (datum : Byte) : (List.replicate len datum).length = len := List.length_replicate
    have room := staysInside_room file.toOpenFile rdwr within (stays _ (count 0))
    rw [count] at room
    refine ⟨room, fun j inside => ?_⟩
    by_contra away
    -- All data are one byte that the driver does not find where it lands.
    let datum := diskByte state.disk (landing (state.diskPos d pin + j)) + 1
    obtain ⟨next, ret, ran, kept, _, _⟩ := stays _ (count datum)
    have all : (state.fDescTable d).pos + (List.replicate len datum).length ≤
        (state.inodeTable pin).nrSects * sectorSize := by rw [count]; exact room
    obtain ⟨disk, ran', bytes⟩ := realWrite_room file.toOpenFile rdwr all
    have isNext : next = state.moved d pin disk (List.replicate len datum).length := by
      rw [ran] at ran'
      simp only [Option.some.injEq, Prod.mk.injEq] at ran'
      exact ran'.1
    have named := landing_lt (state.diskPos d pin + j)
    have same := kept _ away
    rw [ontoDrive_byte _ _ _ named, ← onDrive.byte named, isNext,
      moved_byte file fun inRecord => away (onDrive.inFile file inRecord)] at same
    rcases bytes (landing (state.diskPos d pin + j)) with ⟨k, insideK, _, stored⟩ | ⟨missed, _⟩
    · rw [count] at insideK
      rw [same, List.getD_replicate _ insideK] at stored
      exact byte_succ _ stored.symm
    · exact missed j (by rw [count]; exact inside) rfl
  · rintro ⟨room, lands⟩ data rfl
    obtain ⟨disk, ran, bytes⟩ := realWrite_room file.toOpenFile rdwr room
    refine ⟨_, _, ran, fun x away => ?_, ?_, ?_⟩
    · by_cases named : x < 2 ^ 37
      · obtain ⟨y, small, rfl⟩ := drivePos_onto base named
        rw [ontoDrive_byte _ _ _ small, ← onDrive.byte small,
          moved_byte file fun inRecord => away (onDrive.inFile file inRecord)]
        rcases bytes y with ⟨j, inside, here, _⟩ | ⟨_, kept⟩
        · exact absurd (here ▸ lands j inside) away
        · exact kept
      · exact ontoDrive_beyond _ (Nat.not_lt.mp named)
    · rw [moved_tables]
      simp only [Function.update_self, resized]
      exact Nat.max_le.mpr ⟨within, room⟩
    · rw [moved_tables]
      simp only [Function.update_self, resized]
      exact Nat.le_max_right _ _

theorem realWrite_staysInside_first :
    StaysInside (ontoDrive (fun _ => zeroBuffer) 63 (fileAt 3528 10 10 2).disk) 63
      (fileAt 3528 10 10 2) 0 3 0 0 [1, 2, 3] := by
  have file := fileAt_regular 2 (Nat.le_refl 10) (Nat.le_refl 3528) (by decide) (by decide)
  exact (realWrite_staysInside (fileAt_onDrive 3528 10 10 2) file rfl (by decide : 10 ≤ 2048 * 512)).mpr
    ⟨by decide, landing_inFile (by decide) (by decide) (by decide)⟩ [1, 2, 3] rfl

/-- One byte at the end of a full file. -/
theorem realWrite_behind :
    OnDrive (ontoDrive (fun _ => zeroBuffer) 63 (fileAt 3528 1048576 1048576 2).disk) 63
        (fileAt 3528 1048576 1048576 2) ∧
      RegularFile (fileAt 3528 1048576 1048576 2) 0 3 0 0 ∧
      ¬StaysInside (ontoDrive (fun _ => zeroBuffer) 63 (fileAt 3528 1048576 1048576 2).disk) 63
        (fileAt 3528 1048576 1048576 2) 0 3 0 0 [7] := by
  have file := fileAt_regular 2 (Nat.le_refl 1048576) (Nat.le_refl 3528) (by decide) (by decide)
  refine ⟨fileAt_onDrive 3528 1048576 1048576 2, file, fun stays => ?_⟩
  have room := staysInside_room file.toOpenFile rfl (by decide : 1048576 ≤ 2048 * 512) stays
  exact absurd room (by decide)

end Writes

end AempOS.Fs
