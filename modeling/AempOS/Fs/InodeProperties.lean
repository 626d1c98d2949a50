import AempOS.Fs.FilesProperties

/-! An inode that is written is the one that is read back. Writer and readers
take sector and offset of a record from its number; records of different inodes
share no byte, and all of them lie in the inode array. -/

set_option autoImplicit false

namespace AempOS.Fs

open Lib

/-- The inode array `[2 + nr_imap_sects + nr_smap_sects, n_1st_sect)` has a record
for every inode, and its sectors are addressed as such. -/
structure InodeArray (sb : SuperBlock) : Prop where
  records : 2 + sb.nrImapSects + sb.nrSmapSects + (sb.nrInodes + 15) / 16 ≤ sb.n1stSect
  small : sb.n1stSect ≤ 2 ^ 22

theorem newSuperBlock_inodeArray {size : Nat} (bounded : size < 2 ^ 32) :
    InodeArray (newSuperBlock size) := by
  have first : (newSuperBlock size).n1stSect = 3 + (newSuperBlock size).nrSmapSects + 256 := rfl
  have smap : (newSuperBlock size).nrSmapSects = size / 4096 + 1 := rfl
  have imap : (newSuperBlock size).nrImapSects = 1 := rfl
  have inodes : (newSuperBlock size).nrInodes = 4096 := rfl
  constructor
  · rw [imap, inodes]
    omega
  · omega

section Place

variable {sb : SuperBlock} {n m : Nat}

theorem InodeArray.inside (array : InodeArray sb) (low : 1 ≤ n) (high : n ≤ sb.nrInodes) :
    2 + sb.nrImapSects + sb.nrSmapSects ≤ inodeSect sb n ∧ inodeSect sb n < sb.n1stSect := by
  have records := array.records
  unfold inodeSect sectorSize inodeSize
  omega

/-- A byte of the record of `m`, in the sector of `m`, is none of the record of
another inode. -/
theorem records_apart (low : 1 ≤ n) (lowM : 1 ≤ m) (differ : m ≠ n)
    (same : inodeSect sb m = inodeSect sb n) :
    inodeOff n + 32 ≤ inodeOff m ∨ inodeOff m + 32 ≤ inodeOff n := by
  unfold inodeSect at same
  unfold inodeOff sectorSize inodeSize at *
  omega

end Place

variable {state : FsState} {p n : Nat}

/-- No slot in use has the inode. -/
def NotCached (state : FsState) (n : Nat) : Prop :=
  ∀ i < nrInode, (state.inodeTable i).cnt ≠ 0 → (state.inodeTable i).num ≠ n

theorem getInode_loads (nonzero : n ≠ 0) (absent : NotCached state n)
    (room : ∃ i < nrInode, (state.inodeTable i).cnt = 0) :
    ∃ next q, getInode state n = some (next, some q) ∧ next.inodeTable q = loadedInode state n := by
  obtain ⟨next, q, got⟩ := getInode_isSome nonzero room
  refine ⟨next, q, got, ?_⟩
  rcases getInode_cases got with ⟨zero, _⟩ | ⟨q', _, isSlot, slot, ⟨used, _⟩ | ⟨_, rfl⟩⟩
  · exact absurd zero nonzero
  · cases isSlot
    rcases slot.2 with ⟨_, same⟩ | ⟨unused, _⟩
    · exact absurd same (absent q slot.1 used)
    · exact absurd unused used
  · cases isSlot
    exact Function.update_self _ _ _

theorem syncInode_here (array : InodeArray state.sb) (isNum : (state.inodeTable p).num = n)
    (low : 1 ≤ n) (high : n ≤ state.sb.nrInodes) :
    (syncInode state p).disk (inodeSect state.sb n) =
      writeRecord (rdSect state.disk (inodeSect state.sb n)) (inodeOff n)
        (state.inodeTable p).toInodeRecord := by
  have inside := array.inside low high
  have small := array.small
  simp only [syncInode, isNum]
  exact wrSect_self (by omega)

theorem syncInode_other (array : InodeArray state.sb) (isNum : (state.inodeTable p).num = n)
    (low : 1 ≤ n) (high : n ≤ state.sb.nrInodes) {sect : Nat} (apart : sect ≠ inodeSect state.sb n) :
    (syncInode state p).disk sect = state.disk sect := by
  have inside := array.inside low high
  have small := array.small
  simp only [syncInode, isNum]
  exact wrSect_other (by omega) apart

theorem syncInode_record (array : InodeArray state.sb) (isNum : (state.inodeTable p).num = n)
    (low : 1 ≤ n) (high : n ≤ state.sb.nrInodes)
    (fits : (state.inodeTable p).toInodeRecord.Fits) :
    recordOf state.sb (syncInode state p).disk n = (state.inodeTable p).toInodeRecord := by
  have inside := array.inside low high
  have small := array.small
  rw [recordOf, rdSect_small _ (by omega), syncInode_here array isNum low high,
    readRecord_writeRecord fits]

theorem syncInode_apart (array : InodeArray state.sb) (isNum : (state.inodeTable p).num = n)
    (low : 1 ≤ n) (high : n ≤ state.sb.nrInodes) {m : Nat} (lowM : 1 ≤ m)
    (highM : m ≤ state.sb.nrInodes) (differ : m ≠ n) {o : Nat} (inRecord : o < inodeSize) :
    rdSect (syncInode state p).disk (inodeSect state.sb m) (inodeOff m + o) =
      rdSect state.disk (inodeSect state.sb m) (inodeOff m + o) := by
  have insideM := array.inside lowM highM
  have small := array.small
  have inside := array.inside low high
  rw [rdSect_small _ (by omega), rdSect_small _ (by omega)]
  by_cases same : inodeSect state.sb m = inodeSect state.sb n
  · have apart := records_apart low lowM differ same
    unfold inodeSize at inRecord
    rw [same, syncInode_here array isNum low high, writeRecord_outside (by omega),
      rdSect_small _ (by omega)]
  · rw [syncInode_other array isNum low high same]

/-- What `sync_inode` of inode `n` leaves. -/
structure ReadBack (state : FsState) (p n : Nat) : Prop where
  /-- Later, with the disk as it is, the inode is loaded as it was written. -/
  loads : ∀ later : FsState, later.disk = (syncInode state p).disk → later.sb = state.sb →
    NotCached later n → (∃ i < nrInode, (later.inodeTable i).cnt = 0) →
      ∃ next q, getInode later n = some (next, some q) ∧ (next.inodeTable q).num = n ∧
        (next.inodeTable q).toInodeRecord = (state.inodeTable p).toInodeRecord
  others : ∀ m, 1 ≤ m → m ≤ state.sb.nrInodes → m ≠ n → ∀ o < inodeSize,
    rdSect (syncInode state p).disk (inodeSect state.sb m) (inodeOff m + o) =
      rdSect state.disk (inodeSect state.sb m) (inodeOff m + o)
  outside : ∀ sect, sect < 2 + state.sb.nrImapSects + state.sb.nrSmapSects ∨
    state.sb.n1stSect ≤ sect → (syncInode state p).disk sect = state.disk sect

theorem syncInode_readBack {size : Nat} (bounded : size < 2 ^ 32)
    (mounted : state.sb = newSuperBlock size) (isNum : (state.inodeTable p).num = n) (low : 1 ≤ n)
    (high : n ≤ state.sb.nrInodes) (fits : (state.inodeTable p).toInodeRecord.Fits) :
    ReadBack state p n := by
  have array : InodeArray state.sb := mounted ▸ newSuperBlock_inodeArray bounded
  refine ⟨fun later sameDisk sameSb absent room => ?_, fun m lowM highM differ o inRecord => ?_,
    fun sect away => ?_⟩
  · obtain ⟨next, q, got, loaded⟩ := getInode_loads (by omega) absent room
    refine ⟨next, q, got, by rw [loaded]; rfl, ?_⟩
    rw [loaded, loadedInode, sameDisk, sameSb]
    exact syncInode_record array isNum low high fits
  · exact syncInode_apart array isNum low high lowM highM differ inRecord
  · have inside := array.inside low high
    exact syncInode_other array isNum low high (by omega)

/-- An empty disk under a table in memory. -/
def withTable (table : Nat → Inode) : FsState where
  disk _ := zeroBuffer
  sb := newSuperBlock 32768
  rootInode := 0
  inodeTable := table
  fDescTable _ := { mode := 0, pos := 0, inode := .free }
  filp _ _ := none

/-- The last record of the first sector of the array. -/
def lastOfSector : Inode where
  mode := iRegular
  size := 77
  startSect := 4363
  nrSects := nrDefaultFileSects
  cnt := 1
  num := 16

theorem syncInode_readBack_last : ReadBack (withTable fun _ => lastOfSector) 0 16 :=
  syncInode_readBack (by decide : 32768 < 2 ^ 32) rfl rfl (by decide) (by decide)
    ⟨by decide, by decide, by decide, by decide⟩

/-- With 64 other inodes in use there is no slot for the inode. -/
theorem getInode_full :
    let written := syncInode (withTable fun _ => lastOfSector) 0
    let later : FsState := { written with inodeTable := fun i => { lastOfSector with num := 17 + i } }
    NotCached later 16 ∧ getInode later 16 = none := by
  refine ⟨fun i _ _ => ?_, rfl⟩
  simp only
  omega

end AempOS.Fs
