import AempOS.Fs.InodeProperties
import AempOS.Fs.ReadWrite

/-! Reads and writes of files, byte by byte. The disk is one row of bytes, and the
driver takes the position of a sector for a signed word of 32 bits: it lands where it
should below `2 ^ 31`, and again in the last `2 ^ 31` bytes of those that the registers of
the drive can name, and elsewhere between them. -/

set_option autoImplicit false

namespace AempOS.Fs

open Lib

/-- Byte `x` of the disk. -/
def diskByte (disk : Disk) (x : Nat) : Byte := disk (x / sectorSize) (x % sectorSize)

/-- The byte of the disk that the driver takes for byte `x`. -/
def landing (x : Nat) : Nat := hdSector (x / sectorSize) * sectorSize + x % sectorSize

def inRange (start count x : Nat) : Prop := start ≤ x ∧ x < start + count

instance (start count x : Nat) : Decidable (inRange start count x) :=
  inferInstanceAs (Decidable (_ ∧ _))

theorem landing_sect (x : Nat) : landing x / sectorSize = hdSector (x / sectorSize) := by
  unfold landing sectorSize
  omega

theorem landing_off (x : Nat) : landing x % sectorSize = x % sectorSize := by
  unfold landing sectorSize
  omega

theorem landing_small {x : Nat} (small : x < 2 ^ 31) : landing x = x := by
  unfold landing
  rw [hdSector_small (by unfold sectorSize; omega)]
  unfold sectorSize
  omega

/-- A negative position is right in the last sectors that the registers can name. -/
theorem hdSector_last {sectNr : Nat} (high : 2 ^ 28 - 2 ^ 22 ≤ sectNr) (named : sectNr < lbaSectors) :
    hdSector sectNr = sectNr := by
  unfold hdSector sectorSize
  unfold lbaSectors at *
  simp only
  rw [if_neg (by omega)]
  omega

theorem landing_last {x : Nat} (high : 2 ^ 37 - 2 ^ 31 ≤ x) (named : x < 2 ^ 37) : landing x = x := by
  unfold landing
  rw [hdSector_last (by unfold sectorSize; omega) (by unfold sectorSize lbaSectors; omega)]
  unfold sectorSize
  omega

/-- The driver goes to no sector between those of the positive positions and those of the
negative ones. -/
theorem hdSector_between {s r : Nat} (low : 2 ^ 22 ≤ r) (high : r < 2 ^ 28 - 2 ^ 22) :
    hdSector s ≠ r := by
  unfold hdSector sectorSize lbaSectors
  simp only
  split
  next => omega
  next => omega

section Loops

variable {disk : Disk} {rounds i off : Nat} {data : List Byte}

/-- The bytes that the rounds move: all that is asked for, or as much as the sectors
hold. -/
theorem bytesMoved_eq {left : Nat} (small : off < sectorSize) :
    bytesMoved rounds off left = min left (rounds * sectorSize - off) := by
  induction rounds generalizing off left with
  | zero =>
      rw [bytesMoved]
      omega
  | succ rounds ih =>
      rw [bytesMoved, ih (by decide : 0 < sectorSize), Nat.succ_mul]
      omega

/-- Bytes of sector `i`. -/
theorem sector_place {o : Nat} (inside : o < sectorSize) :
    (i * sectorSize + o) / sectorSize = i ∧ (i * sectorSize + o) % sectorSize = o := by
  unfold sectorSize at *
  omega

/-- What is left after the first sector goes on where the next one begins. -/
theorem later_place {left rest j : Nat} (more : j < rest)
    (isRest : rest ≤ left - min left (sectorSize - off)) (small : off < sectorSize) :
    (i + 1) * sectorSize + 0 + j = i * sectorSize + off + (min left (sectorSize - off) + j) := by
  unfold sectorSize at *
  omega

/-- What a write makes of a byte of the disk: one that the data land on has such a datum,
every other one is the old one. -/
theorem writeSects_byte (small : off < sectorSize) (enough : off + data.length ≤ rounds * sectorSize)
    (x : Nat) :
    (∃ j < data.length, landing (i * sectorSize + off + j) = x ∧
        diskByte (writeSects disk rounds i off data) x = data.getD j 0) ∨
      ((∀ j < data.length, landing (i * sectorSize + off + j) ≠ x) ∧
        diskByte (writeSects disk rounds i off data) x = diskByte disk x) := by
  induction rounds generalizing disk i off data with
  | zero => exact .inr ⟨fun j inside => by omega, rfl⟩
  | succ rounds ih =>
      have restLength : (data.drop (min data.length (sectorSize - off))).length =
          data.length - min data.length (sectorSize - off) := List.length_drop
      have restEnough : 0 + (data.drop (min data.length (sectorSize - off))).length ≤
          rounds * sectorSize := by
        rw [restLength]
        unfold sectorSize at small enough ⊢
        omega
      rw [writeSects]
      rcases @ih (wrSect disk i (overlay (rdSect disk i) off
          (data.take (min data.length (sectorSize - off))))) (i + 1) 0 _ (by decide) restEnough with
        ⟨j, inside, lands, stored⟩ | ⟨missed, kept⟩
      · -- A later round stores into the byte.
        rw [restLength] at inside
        have place := later_place (i := i) inside (Nat.le_refl _) small
        refine .inl ⟨min data.length (sectorSize - off) + j, by omega, by rw [← place, lands], ?_⟩
        rw [stored, List.getD_eq_getElem?_getD, List.getElem?_drop, ← List.getD_eq_getElem?_getD]
      · rw [kept]
        by_cases here : x / sectorSize = hdSector i ∧ off ≤ x % sectorSize ∧
            x % sectorSize < off + min data.length (sectorSize - off)
        · obtain ⟨sect, least, most⟩ := here
          obtain ⟨quotient, remainder⟩ := sector_place (i := i) (by omega : x % sectorSize < sectorSize)
          have place : i * sectorSize + off + (x % sectorSize - off) = i * sectorSize + x % sectorSize := by
            omega
          refine .inl ⟨x % sectorSize - off, by omega, ?_, ?_⟩
          · rw [place, landing, quotient, remainder, ← sect]
            exact Nat.div_add_mod' x sectorSize
          · rw [diskByte, wrSect, sect, Function.update_self, overlay_apply, List.length_take,
              if_pos (by omega), List.getD_eq_getElem?_getD, List.getElem?_take_of_lt (by omega),
              ← List.getD_eq_getElem?_getD]
        · refine .inr ⟨fun j inside lands => ?_, ?_⟩
          · by_cases now : j < min data.length (sectorSize - off)
            · apply here
              obtain ⟨quotient, remainder⟩ := sector_place (i := i) (by omega : off + j < sectorSize)
              rw [← lands, landing_sect, landing_off, Nat.add_assoc, quotient, remainder]
              omega
            · have more : j - min data.length (sectorSize - off) <
                  data.length - min data.length (sectorSize - off) := by omega
              have place := later_place (i := i) more (Nat.le_refl _) small
              rw [Nat.add_sub_cancel' (Nat.not_lt.mp now)] at place
              exact missed _ (by rw [restLength]; exact more) (by rw [place, lands])
          · unfold diskByte wrSect
            by_cases sect : x / sectorSize = hdSector i
            · rw [sect, Function.update_self, overlay_apply, List.length_take, if_neg (by omega), rdSect]
            · rw [Function.update_of_ne sect]

/-- The bytes that the rounds bring are next to each other, as they are on the disk. -/
theorem readSects_bytes {bytesRw left : Nat} {buf : Buffer} (small : off < sectorSize) (o : Nat) :
    readSects disk rounds i off bytesRw left buf o =
      if inRange bytesRw (bytesMoved rounds off left) o then
        diskByte disk (landing (i * sectorSize + off + (o - bytesRw)))
      else buf o := by
  induction rounds generalizing i off bytesRw left buf with
  | zero =>
      have empty : ¬inRange bytesRw (bytesMoved 0 off left) o := by
        unfold inRange
        rw [bytesMoved]
        omega
      rw [readSects, if_neg empty]
  | succ rounds ih =>
      have bounded := bytesMoved_le rounds 0 (left - min left (sectorSize - off))
      rw [readSects, ih (by decide), bytesMoved]
      generalize bytesMoved rounds 0 (left - min left (sectorSize - off)) = rest at bounded
      by_cases later : inRange (bytesRw + min left (sectorSize - off)) rest o
      · have whole : inRange bytesRw (min left (sectorSize - off) + rest) o := by
          unfold inRange at *
          omega
        have place : (i + 1) * sectorSize + 0 + (o - (bytesRw + min left (sectorSize - off))) =
            i * sectorSize + off + (o - bytesRw) := by
          unfold inRange at later
          rw [later_place (by omega) bounded small]
          omega
        rw [if_pos later, if_pos whole, place]
      · rw [if_neg later, copyBytes]
        by_cases now : bytesRw ≤ o ∧ o < bytesRw + min left (sectorSize - off)
        · have whole : inRange bytesRw (min left (sectorSize - off) + rest) o := by
            unfold inRange
            omega
          obtain ⟨quotient, remainder⟩ :=
            sector_place (i := i) (by omega : off + (o - bytesRw) < sectorSize)
          rw [if_pos now, if_pos whole, diskByte, landing_sect, landing_off, Nat.add_assoc, quotient,
            remainder, rdSect]
        · have whole : ¬inRange bytesRw (min left (sectorSize - off) + rest) o := by
            unfold inRange at *
            omega
          rw [if_neg now, if_neg whole]

end Loops

/-- The regular file behind an `fd`, with the position inside the file. -/
structure OpenFile (state : FsState) (pid fd d pin : Nat) : Prop where
  link : opened state pid fd = some (d, pin)
  regular : modeType (state.inodeTable pin).mode = iRegular
  inside : (state.fDescTable d).pos ≤ (state.inodeTable pin).size

/-- Where the byte at the position of a descriptor is on the disk. -/
def FsState.diskPos (state : FsState) (d pin : Nat) : Nat :=
  (state.inodeTable pin).startSect * sectorSize + (state.fDescTable d).pos

theorem diskPos_eq (state : FsState) (d pin : Nat) :
    ((state.inodeTable pin).startSect + (state.fDescTable d).pos / sectorSize) * sectorSize +
      (state.fDescTable d).pos % sectorSize = state.diskPos d pin := by
  unfold FsState.diskPos sectorSize
  omega

/-- The sectors from that of `pos` to that of `pos + len`, which is one too many when the
range ends with a sector, hold the range. -/
theorem rounds_enough (startSect pos len : Nat) :
    pos % sectorSize + len ≤
      (startSect + (pos + len) / sectorSize + 1 - (startSect + pos / sectorSize)) * sectorSize := by
  unfold sectorSize
  omega

section Reads

variable {state : FsState} {pid fd d pin count : Nat} {buf : Buffer}

theorem OpenFile.readable (file : OpenFile state pid fd d pin) :
    modeType (state.inodeTable pin).mode ≠ iCharSpecial := by
  rw [file.regular]
  decide

/-- A read that ends inside the file brings the bytes that the driver finds. -/
theorem realRead_inside (buf : Buffer) (file : OpenFile state pid fd d pin)
    (rdwr : oRdwr (state.fDescTable d).mode = true)
    (room : (state.fDescTable d).pos + count ≤ (state.inodeTable pin).size) :
    ∃ read : Buffer, realRead state pid fd buf count =
        some (state.setDesc d { state.fDescTable d with pos := (state.fDescTable d).pos + count },
          read, (count : Int)) ∧
      ∀ o, read o =
        if o < count then diskByte state.disk (landing (state.diskPos d pin + o)) else buf o := by
  have enough := rounds_enough (state.inodeTable pin).startSect (state.fDescTable d).pos count
  have all : bytesMoved ((state.inodeTable pin).startSect +
      ((state.fDescTable d).pos + count) / sectorSize + 1 -
        ((state.inodeTable pin).startSect + (state.fDescTable d).pos / sectorSize))
      ((state.fDescTable d).pos % sectorSize) count = count := by
    rw [bytesMoved_eq (Nat.mod_lt _ (by decide)), Nat.min_eq_left (by omega)]
  refine ⟨readInto state pid fd count buf, ?_, fun o => ?_⟩
  · unfold realRead doRead
    simp only [file.link, rdwr, Bool.not_true, Bool.false_eq_true, if_false, if_neg file.readable,
      Nat.min_eq_left room, all, if_neg (Nat.not_lt.mpr room), Option.map_some]
  · unfold readInto
    simp only [file.link, rdwr, Bool.not_true, Bool.false_eq_true, if_false, Nat.min_eq_left room]
    rw [readSects_bytes (Nat.mod_lt _ (by decide)), all, diskPos_eq]
    simp only [inRange, Nat.zero_le, true_and, Nat.zero_add, Nat.sub_zero]

theorem realRead_count {next : FsState} {read : Buffer} {ret : Int}
    (ran : realRead state pid fd buf count = some (next, read, ret)) : ret = count := by
  rw [realRead, Option.map_eq_some_iff] at ran
  obtain ⟨result, _, same⟩ := ran
  cases same
  rfl

/-- A read as its description has it. -/
def ReadsFile (state : FsState) (pid fd d pin : Nat) (buf : Buffer) (count : Nat) : Prop :=
  let desc := state.fDescTable d
  let left := min count ((state.inodeTable pin).size - desc.pos)
  if oRdwr desc.mode then
    ∃ read : Buffer, realRead state pid fd buf count =
        some (state.setDesc d { desc with pos := desc.pos + left }, read, (left : Int)) ∧
      ∀ o, read o = if o < left then diskByte state.disk (state.diskPos d pin + o) else buf o
  else realRead state pid fd buf count = some (state, buf, -1)

theorem realRead_readsFile (file : OpenFile state pid fd d pin) :
    ReadsFile state pid fd d pin buf count ↔
      oRdwr (state.fDescTable d).mode = true ∧
        (state.fDescTable d).pos + count ≤ (state.inodeTable pin).size ∧
        ∀ o < count, diskByte state.disk (landing (state.diskPos d pin + o)) =
          diskByte state.disk (state.diskPos d pin + o) := by
  have inside := file.inside
  unfold ReadsFile
  simp only
  constructor
  · intro reads
    split at reads
    next rdwr =>
      obtain ⟨read, ran, bytes⟩ := reads
      have room : (state.fDescTable d).pos + count ≤ (state.inodeTable pin).size := by
        have result := realRead_count ran
        omega
      obtain ⟨found, found_eq, found_bytes⟩ := realRead_inside buf file rdwr room
      refine ⟨rdwr, room, fun o least => ?_⟩
      have same : found = read := by
        rw [found_eq] at ran
        simp only [Option.some.injEq, Prod.mk.injEq] at ran
        exact ran.2.1
      have here := bytes o
      rw [← same, found_bytes, if_pos least, if_pos (by omega)] at here
      exact here
    next =>
      have result := realRead_count reads
      omega
  · rintro ⟨rdwr, room, lands⟩
    obtain ⟨found, found_eq, found_bytes⟩ := realRead_inside buf file rdwr room
    have left : min count ((state.inodeTable pin).size - (state.fDescTable d).pos) = count := by
      omega
    rw [if_pos rdwr, left]
    refine ⟨found, found_eq, fun o => ?_⟩
    rw [found_bytes]
    split
    next least => exact lands o least
    next => rfl

/-- The inode of a file of the usual number of sectors. -/
def fileInode (startSect size : Nat) : Inode where
  mode := iRegular
  size := size
  startSect := startSect
  nrSects := nrDefaultFileSects
  cnt := 1
  num := 5

/-- A partition of 5000000 sectors with that file, which is open behind descriptor 0. -/
def fileAt (startSect size pos flags : Nat) : FsState where
  disk := wrSect (fun _ => zeroBuffer) (inodeSect (newSuperBlock 5000000) 5)
    (writeRecord zeroBuffer (inodeOff 5) (fileInode startSect size).toInodeRecord)
  sb := newSuperBlock 5000000
  rootInode := 1
  inodeTable _ := fileInode startSect size
  fDescTable _ := { mode := flags, pos := pos, inode := .slot 0 }
  filp _ _ := some 0

theorem fileAt_open (startSect flags : Nat) {size pos : Nat} (inside : pos ≤ size) :
    OpenFile (fileAt startSect size pos flags) 0 3 0 0 :=
  ⟨rfl, (by decide : modeType iRegular = iRegular), inside⟩

theorem realRead_readsFile_middle : ReadsFile (fileAt 3528 10 2 2) 0 3 0 0 zeroBuffer 4 := by
  refine (realRead_readsFile (fileAt_open 3528 2 (by decide))).mpr ⟨rfl, by decide, fun o least => ?_⟩
  have place : (fileAt 3528 10 2 2).diskPos 0 0 = 1806338 := rfl
  rw [landing_small]
  omega

/-- One byte of an empty file, and a byte through a descriptor without `O_RDWR`. -/
theorem realRead_result :
    (OpenFile (fileAt 3528 0 0 2) 0 3 0 0 ∧ ¬ReadsFile (fileAt 3528 0 0 2) 0 3 0 0 zeroBuffer 1) ∧
      OpenFile (fileAt 3528 1 0 1) 0 3 0 0 ∧ ¬ReadsFile (fileAt 3528 1 0 1) 0 3 0 0 zeroBuffer 1 := by
  refine ⟨⟨fileAt_open 3528 2 (Nat.le_refl 0), ?_⟩, fileAt_open 3528 1 (Nat.zero_le 1), ?_⟩
  · rintro ⟨_, ran, _⟩
    have result : ((min 1 (0 - 0) : Nat) : Int) = (1 : Nat) := realRead_count ran
    omega
  · intro reads
    have result : (-1 : Int) = (1 : Nat) := realRead_count reads
    omega

end Reads

end AempOS.Fs
