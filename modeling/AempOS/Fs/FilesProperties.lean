import AempOS.Fs.Volume
import AempOS.Fs.Files

/-! What each call does to the volume and to the tables in memory, as one
inversion lemma for each function. -/

set_option autoImplicit false

namespace AempOS.Fs

open Lib

def FsState.volume (state : FsState) : Volume :=
  volumeOf state.sb state.disk

/-- The slot `p` is one that `get_inode` takes for inode `n`: it holds the inode,
or it is free and no slot holds it. -/
def SlotFor (state : FsState) (n p : Nat) : Prop :=
  p < nrInode ∧
    ((state.inodeTable p).cnt ≠ 0 ∧ (state.inodeTable p).num = n ∨
      (state.inodeTable p).cnt = 0 ∧
        ∀ i < nrInode, (state.inodeTable i).cnt ≠ 0 → (state.inodeTable i).num ≠ n)

section Inodes

variable {state next : FsState} {n p : Nat}

/-- An inode of the table with one reference more. -/
def Inode.held (inode : Inode) : Inode :=
  { inode with cnt := inode.cnt + 1 }

/-- An inode as it is read from the disk. -/
def loadedInode (state : FsState) (n : Nat) : Inode :=
  { toInodeRecord := recordOf state.sb state.disk n
    cnt := 1
    num := n }

theorem getInode_cases {pin : Option Nat} (ran : getInode state n = some (next, pin)) :
    (n = 0 ∧ pin = none ∧ next = state) ∨
      ∃ p, n ≠ 0 ∧ pin = some p ∧ SlotFor state n p ∧
        ((state.inodeTable p).cnt ≠ 0 ∧ next = state.setInode p (state.inodeTable p).held ∨
          (state.inodeTable p).cnt = 0 ∧ next = state.setInode p (loadedInode state n)) := by
  rw [getInode] at ran
  split at ran
  next zero =>
    simp only [Option.some.injEq, Prod.mk.injEq] at ran
    exact .inl ⟨zero, ran.2.symm, ran.1.symm⟩
  next nonzero =>
    simp only at ran
    cases hit : firstFrom (fun p => (state.inodeTable p).cnt != 0 && (state.inodeTable p).num == n)
      nrInode 0 with
    | some p =>
        simp only [hit, Option.some.injEq, Prod.mk.injEq] at ran
        obtain ⟨_, inside, passes, _⟩ := firstFrom_some hit
        simp only [Bool.and_eq_true, bne_iff_ne, beq_iff_eq] at passes
        exact .inr ⟨p, nonzero, ran.2.symm, ⟨by omega, .inl passes⟩, .inl ⟨passes.1, ran.1.symm⟩⟩
    | none =>
        simp only [hit] at ran
        cases free : firstFrom (fun p => (state.inodeTable p).cnt == 0) nrInode 0 with
        | some q =>
            simp only [free, Option.some.injEq, Prod.mk.injEq] at ran
            obtain ⟨_, inside, passes, _⟩ := firstFrom_some free
            simp only [beq_iff_eq] at passes
            refine .inr ⟨q, nonzero, ran.2.symm, ⟨by omega, .inr ⟨passes, fun i small used same => ?_⟩⟩,
              .inr ⟨passes, ran.1.symm⟩⟩
            have absent := firstFrom_none hit (Nat.zero_le i) (by omega)
            simp [used, same] at absent
        | none => simp [free] at ran

/-- With a free slot `get_inode` always has a result. -/
theorem getInode_isSome (nonzero : n ≠ 0)
    (room : ∃ i < nrInode, (state.inodeTable i).cnt = 0) :
    ∃ next p, getInode state n = some (next, some p) := by
  obtain ⟨i, inside, free⟩ := room
  rw [getInode, if_neg nonzero]
  simp only
  cases firstFrom (fun p => (state.inodeTable p).cnt != 0 && (state.inodeTable p).num == n)
    nrInode 0 with
  | some p => exact ⟨_, p, rfl⟩
  | none =>
      have passes : ((state.inodeTable i).cnt == 0) = true := by simp [free]
      obtain ⟨q, hit⟩ : ∃ q, firstFrom (fun p => (state.inodeTable p).cnt == 0) nrInode 0 = some q :=
        firstFrom_isSome (Nat.zero_le i) (by omega) passes
      simp only [hit]
      exact ⟨_, q, rfl⟩

/-- The inode of a new file. -/
def freshInode (n startSect : Nat) : Inode :=
  { mode := iRegular
    size := 0
    startSect := startSect
    nrSects := nrDefaultFileSects
    cnt := 1
    num := n }

theorem freshInode_fits {startSect : Nat} (small : startSect < 2 ^ 32) :
    (freshInode n startSect).toInodeRecord.Fits :=
  ⟨show iRegular < 2 ^ 32 by decide, show 0 < 2 ^ 32 by decide, small,
    show nrDefaultFileSects < 2 ^ 32 by decide⟩

theorem newInode_cases {startSect : Nat} (ran : newInode state n startSect = some (next, p))
    (layout : Layout state.sb) (high : n ≤ sectorBits) (small : startSect < 2 ^ 32) :
    n ≠ 0 ∧ SlotFor state n p ∧ ∃ disk,
      next = { state with
        disk := disk
        inodeTable := Function.update state.inodeTable p (freshInode n startSect) } ∧
      volumeOf state.sb disk =
        state.volume.putRecord n (freshInode n startSect).toInodeRecord := by
  rw [newInode] at ran
  split at ran
  next middle q got =>
    simp only [Option.some.injEq, Prod.mk.injEq] at ran
    obtain ⟨rfl, rfl⟩ := ran
    rcases getInode_cases got with ⟨_, absurd, _⟩ | ⟨p, nonzero, same, slot, moved⟩
    · cases absurd
    · cases same
      have table : ∃ inode, middle = state.setInode q inode := by
        rcases moved with ⟨_, eq⟩ | ⟨_, eq⟩
        · exact ⟨_, eq⟩
        · exact ⟨_, eq⟩
      obtain ⟨inode, rfl⟩ := table
      refine ⟨nonzero, slot, _, ?_, storeRecord_volume layout state.disk (by omega) high
        (freshInode_fits small)⟩
      simp only [syncInode, FsState.setInode, Function.update_self, Function.update_idem]
      rfl
  next => cases ran

theorem newInode_isSome {startSect : Nat} (nonzero : n ≠ 0)
    (room : ∃ i < nrInode, (state.inodeTable i).cnt = 0) :
    ∃ next p, newInode state n startSect = some (next, p) := by
  obtain ⟨next, p, ran⟩ := getInode_isSome nonzero room
  exact ⟨_, p, by rw [newInode, ran]⟩

end Inodes

section Entries

variable {state : FsState}

/-- The slot that `root_inode` points to holds the root directory. -/
structure RootHeld (state : FsState) : Prop where
  slot : state.rootInode < nrInode
  used : 0 < state.dir.cnt
  num : state.dir.num = 1
  start : state.dir.startSect = state.sb.n1stSect
  fits : state.dir.toInodeRecord.Fits
  whole : state.dir.size = state.dir.size / dirEntrySize * dirEntrySize
  bounded : state.dir.size / dirEntrySize < maxEntries

/-- `nr_dir_entries` -/
def FsState.nrEntries (state : FsState) : Nat :=
  state.dir.size / dirEntrySize

/-- The inode number in entry `k` of the root directory. -/
def FsState.listed (state : FsState) (k : Nat) : Nat :=
  (state.volume.entries k).inodeNr

theorem RootHeld.entryInode_eq (root : RootHeld state) {k : Nat} (inside : k < maxEntries) :
    entryInode state.disk state.dir.startSect k = state.listed k := by
  rw [root.start, FsState.listed, FsState.volume, entries_inside inside]
  rfl

theorem RootHeld.nrEntries_lt (root : RootHeld state) : state.nrEntries < maxEntries :=
  root.bounded

theorem stripChars_bounds {room : Nat} {text name : List Byte} (stripped : stripChars room text = some name) :
    name.length ≤ room ∧ ∀ c ∈ name, c ∈ text := by
  induction text generalizing room name with
  | nil =>
      rw [stripChars] at stripped
      cases stripped
      exact ⟨Nat.zero_le _, fun _ member => member⟩
  | cons c rest ih =>
      cases room with
      | zero =>
          simp only [stripChars] at stripped
          cases stripped
          exact ⟨Nat.le_refl _, fun _ member => nomatch member⟩
      | succ room =>
          rw [stripChars] at stripped
          split at stripped
          next => cases stripped
          next =>
            obtain ⟨tail, ends, rfl⟩ := Option.map_eq_some_iff.mp stripped
            obtain ⟨short, subset⟩ := ih ends
            refine ⟨Nat.succ_le_succ short, fun d member => ?_⟩
            rcases List.mem_cons.mp member with rfl | later
            · exact List.mem_cons_self
            · exact List.mem_cons_of_mem _ (subset d later)

/-- What `strip_path` leaves has at most `MAX_FILENAME_LEN` characters. -/
theorem stripPath_bounds {path : Path} {name : List Byte} (valid : stripPath path = some name) :
    name.length ≤ maxFilenameLen ∧ 0 ∉ name := by
  have noNul := path.noNul
  unfold stripPath at valid
  cases text : path.text with
  | nil =>
      rw [text] at valid
      cases valid
      exact ⟨Nat.zero_le _, fun member => nomatch member⟩
  | cons c rest =>
      rw [text] at valid noNul
      obtain ⟨short, subset⟩ := stripChars_bounds valid
      refine ⟨short, fun zero => noNul ?_⟩
      have member := subset 0 zero
      split at member
      next => exact List.mem_cons_of_mem _ member
      next => exact member

/-- The comparison of a name with an entry, in terms of the volume. -/
theorem RootHeld.entryNamed_iff (root : RootHeld state) {k : Nat} (inside : k < maxEntries)
    {name : List Byte} (short : name.length ≤ maxFilenameLen) :
    entryNamed state.disk state.dir.startSect name k = true ↔
      (state.volume.entries k).name = padded name := by
  have entry : (state.volume.entries k).name =
      fun i => if i < maxFilenameLen then entryChar state.disk state.sb.n1stSect k i else 0 := by
    rw [FsState.volume, volumeOf]
    simp only [if_pos inside, entryOf]
  rw [entry, root.start]
  simp only [entryNamed, List.all_eq_true, List.mem_range, beq_iff_eq]
  constructor
  · intro same
    funext i
    split
    next low => exact (same i low).symm
    next high => exact (List.getD_eq_default _ _ (by omega)).symm
  · intro same i low
    have here := congrFun same i
    rw [if_pos low] at here
    exact here.symm

private theorem RootHeld.scan_limit (root : RootHeld state) :
    state.nrEntries ≤ min ((state.dir.size + sectorSize - 1) / sectorSize * entriesPerSect)
        (state.dir.size / dirEntrySize + 1) ∧
      min ((state.dir.size + sectorSize - 1) / sectorSize * entriesPerSect)
        (state.dir.size / dirEntrySize + 1) ≤ state.nrEntries + 1 := by
  have whole := root.whole
  unfold FsState.nrEntries
  have per : entriesPerSect = 32 := by decide
  rw [per]
  unfold dirEntrySize at *
  unfold sectorSize
  omega

/-- A search for a name that no entry has, up to the one behind the last. -/
theorem RootHeld.search_missing (root : RootHeld state) {path : Path} {name : List Byte}
    (valid : stripPath path = some name) (nonempty : name ≠ [])
    (missing : ∀ k ≤ state.nrEntries, (state.volume.entries k).name ≠ padded name) :
    searchFile state path = 0 := by
  have bounded := root.nrEntries_lt
  have limit := root.scan_limit
  have short := (stripPath_bounds valid).1
  simp only [searchFile, valid, if_neg nonempty]
  rw [firstFrom_eq_none fun k _ below => ?_]
  rw [Bool.eq_false_iff, ne_eq, root.entryNamed_iff (by omega) short]
  exact missing k (by omega)

theorem RootHeld.search_unique (root : RootHeld state) {path : Path} {name : List Byte} {k : Nat}
    (valid : stripPath path = some name) (nonempty : name ≠ []) (inside : k < state.nrEntries)
    (found : (state.volume.entries k).name = padded name)
    (only : ∀ l ≤ state.nrEntries, (state.volume.entries l).name = padded name → l = k) :
    searchFile state path = state.listed k := by
  have bounded := root.nrEntries_lt
  have limit := root.scan_limit
  have short := (stripPath_bounds valid).1
  simp only [searchFile, valid, if_neg nonempty]
  rw [firstFrom_unique (Nat.zero_le k) (by omega) ((root.entryNamed_iff (by omega) short).mpr found)
    fun l _ below passes => ?_]
  · exact root.entryInode_eq (by omega)
  · exact only l (by omega) ((root.entryNamed_iff (by omega) short).mp passes)

/-- The directory with another size, in memory and on disk. -/
def resized (dir : Inode) (size : Nat) : Inode :=
  { dir with size := size }

/-- Where `new_dir_entry` puts an entry, and the size it leaves. -/
def EntryPlace (state : FsState) (k size : Nat) : Prop :=
  k < state.nrEntries ∧ state.listed k = 0 ∧ size = state.dir.size ∨
    k = state.nrEntries ∧ (∀ j < state.nrEntries, state.listed j ≠ 0) ∧
      size = state.dir.size + dirEntrySize

theorem EntryPlace.congr {other : FsState} {k size : Nat} (place : EntryPlace state k size)
    (dir : other.dir = state.dir) (listed : ∀ j, state.listed j = other.listed j) :
    EntryPlace other k size := by
  have number : other.nrEntries = state.nrEntries := by rw [FsState.nrEntries, dir]; rfl
  unfold EntryPlace at place ⊢
  rw [number, dir, ← listed]
  simp only [← listed]
  exact place

private theorem storeDir_spec (layout : Layout state.sb) (root : RootHeld state) (k : Nat)
    (fsbuf : Buffer) {size : Nat} (fits : size < 2 ^ 32) :
    ∃ disk, storeDir state k fsbuf size = { state with
        disk := disk
        inodeTable := Function.update state.inodeTable state.rootInode (resized state.dir size) } ∧
      volumeOf state.sb disk =
        (volumeOf state.sb (wrSect state.disk (state.sb.n1stSect + entrySect k) fsbuf)).putRecord 1
          (resized state.dir size).toInodeRecord := by
  have held := root.fits
  have resizedFits : (resized state.dir size).toInodeRecord.Fits :=
    { mode := held.mode
      size := fits
      startSect := held.startSect
      nrSects := held.nrSects }
  refine ⟨_, ?_, storeRecord_volume layout _ (Nat.le_refl 1) (by decide) resizedFits⟩
  simp only [storeDir, syncInode, FsState.setInode, Function.update_self, root.start, root.num,
    resized]

theorem newDirEntry_spec (root : RootHeld state) (layout : Layout state.sb) {n : Nat}
    (small : n < 2 ^ 32) {name : List Byte} (short : name.length < maxFilenameLen) :
    ∃ k size disk, EntryPlace state k size ∧
      newDirEntry state n name = some { state with
        disk := disk
        inodeTable := Function.update state.inodeTable state.rootInode (resized state.dir size) } ∧
      volumeOf state.sb disk =
        (state.volume.putEntry k ((state.volume.entries k).renamed n name)).putRecord 1
          (resized state.dir size).toInodeRecord := by
  have bounded := root.nrEntries_lt
  have roomy (k : Nat) : ¬sectorSize < entryOff k + 4 + name.length + 1 := by
    have fits := entry_fits k
    unfold dirEntrySize at fits
    unfold maxFilenameLen at short
    omega
  have stored {k size : Nat} (inside : k < maxEntries) (fits : size < 2 ^ 32) :=
    storeDir_spec layout root k
      (writeEntry (entryBuf state.disk state.dir.startSect k) (entryOff k) n name) fits
  cases hole : firstFrom (fun k => entryInode state.disk state.dir.startSect k == 0)
    (state.dir.size / dirEntrySize) 0 with
  | some k =>
      obtain ⟨_, below, zero, _⟩ := firstFrom_some hole
      have inside : k < maxEntries := by
        unfold FsState.nrEntries at bounded
        omega
      simp only [beq_iff_eq, root.entryInode_eq inside] at zero
      obtain ⟨disk, same, volume⟩ := stored inside root.fits.size
      rw [root.start, writeEntry_volume layout inside small short] at volume
      refine ⟨k, state.dir.size, disk, .inl ⟨by unfold FsState.nrEntries; omega, zero, rfl⟩, ?_,
        volume⟩
      simp only [newDirEntry, hole, Option.getD_some, if_neg (roomy k), reduceCtorEq, if_false, same]
  | none =>
      have grows : state.dir.size + dirEntrySize < 2 ^ 32 := by
        have whole := root.whole
        unfold FsState.nrEntries maxEntries at bounded
        unfold dirEntrySize at whole bounded ⊢
        omega
      obtain ⟨disk, same, volume⟩ := stored bounded grows
      rw [root.start, writeEntry_volume layout bounded small short] at volume
      refine ⟨state.nrEntries, state.dir.size + dirEntrySize, disk, .inr ⟨rfl, fun j below => ?_, rfl⟩,
        ?_, volume⟩
      · have nonzero := firstFrom_none hole (Nat.zero_le j) (by unfold FsState.nrEntries at below; omega)
        rw [root.entryInode_eq (by omega)] at nonzero
        simpa using nonzero
      · rw [← same]
        simp only [newDirEntry, hole, Option.getD_none, if_neg (roomy _), if_true]
        rfl

/-- How many entries before `k` are in use. -/
def FsState.usedBefore (state : FsState) (k : Nat) : Nat :=
  ((List.range k).filter fun i => state.listed i != 0).length

theorem usedBefore_le (state : FsState) (k : Nat) : state.usedBefore k ≤ k := by
  have length := List.length_filter_le (fun i => state.listed i != 0) (List.range k)
  rw [List.length_range] at length
  exact length

private theorem RootHeld.sizeBefore_eq (root : RootHeld state) {k : Nat} (inside : k ≤ maxEntries) :
    sizeBefore state.disk state.dir.startSect k = dirEntrySize * state.usedBefore k := by
  unfold sizeBefore FsState.usedBefore
  congr 2
  apply List.filter_congr
  intro i member
  rw [root.entryInode_eq (Nat.lt_of_lt_of_le (List.mem_range.mp member) inside)]

theorem removeDirEntry_cases (layout : Layout state.sb) (root : RootHeld state) (n : Nat) :
    (∀ k < state.nrEntries, state.listed k ≠ n) ∧ removeDirEntry state n = state ∨
      ∃ k < state.nrEntries, state.listed k = n ∧
        (k + 1 ≠ state.nrEntries ∧ (∃ disk, removeDirEntry state n = { state with disk := disk } ∧
            volumeOf state.sb disk = state.volume.putEntry k emptyEntry) ∨
          k + 1 = state.nrEntries ∧ ∃ disk, removeDirEntry state n = { state with
                disk := disk
                inodeTable := Function.update state.inodeTable state.rootInode
                  (resized state.dir (dirEntrySize * state.usedBefore k)) } ∧
            volumeOf state.sb disk = (state.volume.putEntry k emptyEntry).putRecord 1
              (resized state.dir (dirEntrySize * state.usedBefore k)).toInodeRecord) := by
  have bounded := root.nrEntries_lt
  have number : state.nrEntries = state.dir.size / dirEntrySize := rfl
  cases found : firstFrom (fun k => entryInode state.disk state.dir.startSect k == n)
    (state.dir.size / dirEntrySize) 0 with
  | none =>
      refine .inl ⟨fun k below => ?_, by simp only [removeDirEntry, found]⟩
      have other := firstFrom_none found (Nat.zero_le k) (by omega)
      rw [root.entryInode_eq (by omega)] at other
      simpa using other
  | some k =>
      obtain ⟨_, below, same, _⟩ := firstFrom_some found
      have inside : k < maxEntries := by omega
      simp only [beq_iff_eq, root.entryInode_eq inside] at same
      refine .inr ⟨k, by omega, same, ?_⟩
      by_cases last : k + 1 = state.nrEntries
      · have used := usedBefore_le state k
        have fits : dirEntrySize * state.usedBefore k < 2 ^ 32 := by
          unfold maxEntries at inside
          unfold dirEntrySize
          omega
        obtain ⟨disk, stored, volume⟩ := storeDir_spec layout root k
          (clearBytes (entryBuf state.disk state.sb.n1stSect k) (entryOff k) dirEntrySize) fits
        rw [clearEntry_volume layout inside] at volume
        refine .inr ⟨last, disk, ?_, volume⟩
        rw [← stored, ← root.sizeBefore_eq (Nat.le_of_lt inside)]
        simp only [removeDirEntry, found]
        rw [if_pos (number ▸ last), root.start]
      · refine .inl ⟨last, _, ?_, clearEntry_volume layout inside⟩
        simp only [removeDirEntry, found]
        rw [if_neg (number ▸ last), root.start]

end Entries

section Create

variable {state next : FsState} {path : Path} {name : List Byte}

theorem SlotFor.ne_root (root : RootHeld state) {n p : Nat} (slot : SlotFor state n p)
    (other : n ≠ 1) : p ≠ state.rootInode := by
  rintro rfl
  have used := root.used
  have num := root.num
  unfold FsState.dir at used num
  rcases slot.2 with ⟨_, same⟩ | ⟨free, _⟩
  · exact other (same.symm.trans num)
  · omega

/-- Another disk and another slot of the table leave the directory held. -/
theorem RootHeld.other (root : RootHeld state) (disk : Disk) {p : Nat} (apart : p ≠ state.rootInode)
    (inode : Inode) :
    RootHeld { state with
      disk := disk
      inodeTable := Function.update state.inodeTable p inode } := by
  have same : FsState.dir { state with
      disk := disk
      inodeTable := Function.update state.inodeTable p inode } = state.dir :=
    Function.update_of_ne apart.symm _ _
  exact ⟨root.slot, same ▸ root.used, same ▸ root.num, same ▸ root.start, same ▸ root.fits,
    same ▸ root.whole, same ▸ root.bounded⟩

/-- What `create_file` does with the inode `n`, the run of sectors from bit `b`
on, the slot `p` of the table and the directory entry `k`. -/
structure Creation (state : FsState) (name : List Byte) (next : FsState) (n b p k size : Nat) :
    Prop where
  inode : n < sectorBits ∧ state.volume.imap n = false ∧ ∀ m < n, state.volume.imap m = true
  run : b < state.sb.nrSmapSects * sectorBits ∧ state.volume.smap b = false ∧
    ∀ c < b, state.volume.smap c = true
  slot : SlotFor state n p
  place : EntryPlace state k size
  effect : ∃ disk,
    next = { state with
      disk := disk
      inodeTable := Function.update
        (Function.update state.inodeTable p (freshInode n (b + state.sb.n1stSect - 1)))
        state.rootInode (resized state.dir size) } ∧
    volumeOf state.sb disk =
      ((state.volume.withFile n b (min nrDefaultFileSects (state.sb.nrSmapSects * sectorBits - b))
        (freshInode n (b + state.sb.n1stSect - 1)).toInodeRecord).putEntry k
          ((state.volume.entries k).renamed n name)).putRecord 1
            (resized state.dir size).toInodeRecord

/-- There is a clear bit in each of the maps. -/
def SomeClear (state : FsState) : Prop :=
  (∃ n < sectorBits, state.volume.imap n = false) ∧
    ∃ b < state.sb.nrSmapSects * sectorBits, state.volume.smap b = false

/-- Only a full table of inodes keeps a file from being made. -/
theorem createFile_cases (root : RootHeld state) (layout : Layout state.sb)
    (reserved : ∀ m < 5, state.volume.imap m = true) (clear : SomeClear state)
    (valid : stripPath path = some name) (short : name.length < maxFilenameLen) :
    createFile state path = none ∧ (∀ i < nrInode, (state.inodeTable i).cnt ≠ 0) ∨
      ∃ next n b p k size, createFile state path = some (next, some p) ∧
        Creation state name next n b p k size := by
  obtain ⟨n, disk1, imap, inside, free, least, volume1⟩ := allocImapBit_volume layout clear.1
  have sectors : ∃ b < state.sb.nrSmapSects * sectorBits,
      (volumeOf state.sb disk1).smap b = false := by
    rw [volume1]
    exact clear.2
  obtain ⟨b, disk2, smap, within, unset, lower, volume2⟩ :=
    allocSmapBit_volume layout (show 0 < nrDefaultFileSects by decide) sectors
  rw [volume1] at unset lower
  have far : n ≠ 0 ∧ n ≠ 1 := by
    constructor
    · rintro rfl
      exact absurd (reserved 0 (by omega)) (Bool.eq_false_iff.mp free)
    · rintro rfl
      exact absurd (reserved 1 (by omega)) (Bool.eq_false_iff.mp free)
  simp only [createFile, valid, imap, smap]
  cases made : newInode { state with disk := disk2 } n (b + state.sb.n1stSect - 1) with
  | none =>
    refine .inl ⟨rfl, fun i small free => ?_⟩
    obtain ⟨_, _, some⟩ := newInode_isSome far.1
      (show ∃ i < nrInode, (FsState.inodeTable { state with disk := disk2 } i).cnt = 0 from
        ⟨i, small, free⟩)
    rw [made] at some
    cases some
  | some result =>
    obtain ⟨middle, p⟩ := result
    have start : b + state.sb.n1stSect - 1 < 2 ^ 32 := by
      have first := layout.first
      have small := layout.small
      unfold sectorBits at within
      unfold nrDefaultFileSects at small
      omega
    obtain ⟨_, slot, disk3, rfl, volume3⟩ :=
      newInode_cases made layout (Nat.le_of_lt inside) start
    have apart : p ≠ state.rootInode := SlotFor.ne_root root slot far.2
    have held := root.other disk3 apart (freshInode n (b + state.sb.n1stSect - 1))
    have numbered : n < 2 ^ 32 := by
      unfold sectorBits at inside
      omega
    obtain ⟨k, size, disk4, place, stored, volume4⟩ := newDirEntry_spec held layout numbered short
    have dir : Function.update state.inodeTable p (freshInode n (b + state.sb.n1stSect - 1))
        state.rootInode = state.dir := Function.update_of_ne apart.symm _ _
    have number : (Function.update state.inodeTable p
        (freshInode n (b + state.sb.n1stSect - 1)) p).num = n := by
      rw [Function.update_self]
      rfl
    have volume : volumeOf state.sb disk3 =
        state.volume.withFile n b (min nrDefaultFileSects (state.sb.nrSmapSects * sectorBits - b))
          (freshInode n (b + state.sb.n1stSect - 1)).toInodeRecord := by
      rw [volume3]
      simp only [FsState.volume]
      rw [volume2, volume1]
      rfl
    simp only [number, stored, Option.map_some]
    refine .inr ⟨_, n, b, p, k, size, rfl, ⟨inside, free, least⟩, ⟨within, unset, lower⟩, slot,
      place.congr dir.symm fun j => ?_, disk4, ?_, ?_⟩
    · simp only [FsState.listed, FsState.volume, volume]
      rfl
    · simp only [FsState.dir, dir]
    · rw [volume4]
      simp only [FsState.volume, volume, FsState.dir, dir]
      rfl

theorem searchFile_congr {other : FsState} (disk : other.disk = state.disk)
    (dir : other.dir = state.dir) (path : Path) : searchFile other path = searchFile state path := by
  unfold searchFile
  rw [disk, dir]

private theorem searchFile_reserveDesc (state : FsState) (slot : Option Nat) (path : Path) :
    searchFile (reserveDesc state slot) path = searchFile state path := by
  cases slot with
  | none => rfl
  | some i => exact searchFile_congr rfl rfl path

/-- A create of a name that is there, or of no valid path. -/
theorem doOpen_refused {pid flags : Nat} (creates : oCreat flags = true)
    (refused : searchFile state path ≠ 0 ∨ stripPath path = none) :
    doOpen state pid path flags = some (reserveDesc state (freeDesc state), -1) := by
  rw [doOpen]
  simp only [creates, if_true, searchFile_reserveDesc]
  split
  next => rfl
  next absent =>
    have invalid := refused.resolve_left absent
    simp only [createFile, invalid]

/-- What a create does: as `create_file`, with the descriptor `d` and `fd`. -/
structure FileCreated (state : FsState) (pid flags : Nat) (name : List Byte) (next : FsState)
    (n b p k size fd d : Nat) : Prop where
  inode : n < sectorBits ∧ state.volume.imap n = false ∧ ∀ m < n, state.volume.imap m = true
  run : b < state.sb.nrSmapSects * sectorBits ∧ state.volume.smap b = false ∧
    ∀ c < b, state.volume.smap c = true
  slot : SlotFor state n p
  place : EntryPlace state k size
  filp : freeFilp state pid = some fd
  desc : freeDesc state = some d
  effect : ∃ disk,
    next = { state with
      disk := disk
      inodeTable := Function.update
        (Function.update state.inodeTable p (freshInode n (b + state.sb.n1stSect - 1)))
        state.rootInode (resized state.dir size)
      fDescTable := Function.update state.fDescTable d
        { mode := flags, pos := 0, inode := .slot p }
      filp := Function.update state.filp pid (Function.update (state.filp pid) fd (some d)) } ∧
    volumeOf state.sb disk =
      ((state.volume.withFile n b (min nrDefaultFileSects (state.sb.nrSmapSects * sectorBits - b))
        (freshInode n (b + state.sb.n1stSect - 1)).toInodeRecord).putEntry k
          ((state.volume.entries k).renamed n name)).putRecord 1
            (resized state.dir size).toInodeRecord

/-- Only a full table keeps the create of a new name from its end. -/
theorem doOpen_created (layout : Layout state.sb) (root : RootHeld state)
    (reserved : ∀ m < 5, state.volume.imap m = true) (clear : SomeClear state) {pid flags : Nat}
    (creates : oCreat flags = true) (absent : searchFile state path = 0)
    (valid : stripPath path = some name) (short : name.length < maxFilenameLen) :
    doOpen state pid path flags = none ∧ ((∀ i < nrInode, (state.inodeTable i).cnt ≠ 0) ∨
        freeFilp state pid = none ∨ freeDesc state = none) ∨
      ∃ (next : FsState) (n b p k size fd d : Nat),
        doOpen state pid path flags = some (next, (fd : Int)) ∧
        FileCreated state pid flags name next n b p k size fd d := by
  rw [doOpen]
  simp only [creates, if_true, searchFile_reserveDesc, absent, ne_eq, not_true, if_false]
  cases desc : freeDesc state with
  | none =>
      left
      refine ⟨?_, .inr (.inr rfl)⟩
      simp only [reserveDesc]
      rcases createFile_cases root layout reserved clear valid short with ⟨none, _⟩ |
        ⟨next, n, b, p, k, size, made, _⟩
      · rw [none]
      · rw [made]
        cases freeFilp state pid with
        | none => rfl
        | some fd => rfl
  | some d =>
      have heldRoot : RootHeld (reserveDesc state (some d)) := by
        refine ⟨root.slot, root.used, root.num, root.start, root.fits, root.whole, root.bounded⟩
      rcases createFile_cases heldRoot layout reserved clear valid short with ⟨none, full⟩ |
        ⟨middle, n, b, p, k, size, made, creation⟩
      · rw [none]
        exact .inl ⟨rfl, .inl full⟩
      · rw [made]
        cases filp : freeFilp state pid with
        | none => exact .inl ⟨rfl, .inr (.inl rfl)⟩
        | some fd =>
            obtain ⟨disk, rfl, volume⟩ := creation.effect
            refine .inr ⟨_, n, b, p, k, size, fd, d, rfl, creation.inode, creation.run, creation.slot,
              creation.place, filp, desc, disk, ?_, volume⟩
            simp only [FsState.setFilp, FsState.setDesc, reserveDesc, Function.update_idem]
            rfl

end Create

section Descriptors

variable {state next : FsState} {pid fd i pin : Nat} {ret : Int}

theorem opened_iff : opened state pid fd = some (i, pin) ↔
    fd < nrFiles ∧ state.filp pid fd = some i ∧ (state.fDescTable i).inode = .slot pin := by
  unfold opened
  constructor
  · intro found
    split at found
    next => cases found
    next inside =>
      cases link : state.filp pid fd with
      | none => simp only [link] at found; cases found
      | some d =>
          simp only [link] at found
          cases inode : (state.fDescTable d).inode with
          | free => simp only [inode] at found; cases found
          | reserved => simp only [inode] at found; cases found
          | slot p =>
              simp only [inode, Option.some.injEq, Prod.mk.injEq] at found
              obtain ⟨rfl, rfl⟩ := found
              exact ⟨by omega, rfl, inode⟩
  · rintro ⟨inside, link, inode⟩
    rw [if_neg (by omega)]
    simp only [link, inode]

/-- An inode of the table with one reference less. -/
def Inode.released (inode : Inode) : Inode :=
  { inode with cnt := inode.cnt - 1 }

theorem doClose_cases (ran : doClose state pid fd = some (next, ret)) :
    ∃ i pin, opened state pid fd = some (i, pin) ∧ next = { state with
      inodeTable := Function.update state.inodeTable pin (state.inodeTable pin).released
      fDescTable := Function.update state.fDescTable i { state.fDescTable i with inode := .free }
      filp := Function.update state.filp pid (Function.update (state.filp pid) fd none) } := by
  rw [doClose] at ran
  cases link : opened state pid fd with
  | none => simp only [link] at ran; cases ran
  | some pair =>
      obtain ⟨i, pin⟩ := pair
      simp only [link, Option.some.injEq, Prod.mk.injEq] at ran
      exact ⟨i, pin, rfl, ran.1.symm⟩

/-- The rounds of a write store only into sectors that the data reaches: the last
round may write a sector back as it was. -/
theorem writeSects_frame (start stop : Nat) {rounds : Nat} :
    ∀ {disk : Disk} {sect off : Nat} {data : List Byte}, off < sectorSize → start ≤ sect →
      (data = [] ∨ sect * sectorSize + off + data.length ≤ stop * sectorSize) →
      ∀ r, (∀ s, start ≤ s → s < stop → hdSector s ≠ r) →
        writeSects disk rounds sect off data r = disk r := by
  induction rounds with
  | zero =>
      intros
      rfl
  | succ rounds ih =>
      intro disk sect off data small low room r outside
      rw [writeSects]
      have rest : data.drop (min data.length (sectorSize - off)) = [] ∨
          (sect + 1) * sectorSize + 0 +
            (data.drop (min data.length (sectorSize - off))).length ≤ stop * sectorSize := by
        by_cases ends : data.length ≤ sectorSize - off
        · left
          rw [Nat.min_eq_left ends, List.drop_length]
        · right
          rw [List.length_drop]
          rcases room with empty | room
          · rw [empty] at ends
            exact absurd (Nat.zero_le _) ends
          · rw [Nat.succ_mul]
            omega
      rw [ih (by decide) (by omega) rest r outside]
      rcases room with rfl | room
      · rw [List.take_nil, overlay_nil, wrSect_rdSect]
      · by_cases empty : data = []
        · rw [empty, List.take_nil, overlay_nil, wrSect_rdSect]
        · have some : 0 < data.length := List.length_pos_iff.mpr empty
          have within : sect < stop := by
            unfold sectorSize at room
            omega
          exact Function.update_of_ne (outside sect low within).symm _ _

theorem bytesMoved_le (rounds off left : Nat) : bytesMoved rounds off left ≤ left := by
  induction rounds generalizing off left with
  | zero => exact Nat.zero_le _
  | succ rounds ih =>
      have rest := ih 0 (left - min left (sectorSize - off))
      rw [bytesMoved]
      omega

/-- A write inside the capacity of a file, whose sectors are out of the way of
the maps, the inode array and the root directory. -/
theorem doWrite_cases {data : List Byte} (ran : doWrite state pid fd data = some (next, ret))
    (layout : Layout state.sb) (link : opened state pid fd = some (i, pin))
    (low : state.sb.n1stSect + nrDefaultFileSects ≤ (state.inodeTable pin).startSect)
    (high : (state.inodeTable pin).startSect + (state.inodeTable pin).nrSects ≤ 2 ^ 23 + 2)
    (capacity : (state.fDescTable i).pos + data.length ≤
      (state.inodeTable pin).nrSects * sectorSize)
    (numbered : 1 ≤ (state.inodeTable pin).num ∧ (state.inodeTable pin).num ≤ sectorBits)
    (fits : (state.inodeTable pin).toInodeRecord.Fits)
    (agrees : (state.inodeTable pin).toInodeRecord =
      state.volume.records (state.inodeTable pin).num) :
    ∃ size pos disk, next = { state with
        disk := disk
        inodeTable := Function.update state.inodeTable pin (resized (state.inodeTable pin) size)
        fDescTable := Function.update state.fDescTable i { state.fDescTable i with pos := pos } } ∧
      size < 2 ^ 32 ∧
      volumeOf state.sb disk = state.volume.putRecord (state.inodeTable pin).num
        (resized (state.inodeTable pin) size).toInodeRecord := by
  have same : resized (state.inodeTable pin) (state.inodeTable pin).size = state.inodeTable pin := rfl
  have unchanged : state.volume.putRecord (state.inodeTable pin).num
      (state.inodeTable pin).toInodeRecord = state.volume := by
    rw [agrees, Volume.putRecord, Function.update_eq_self]
  rw [doWrite] at ran
  simp only [link] at ran
  split at ran
  next =>
    simp only [Option.some.injEq, Prod.mk.injEq] at ran
    refine ⟨(state.inodeTable pin).size, (state.fDescTable i).pos, state.disk, ?_, fits.size, ?_⟩
    · rw [same, Function.update_eq_self, Function.update_eq_self]
      exact ran.1.symm
    · rw [same, unchanged]
      rfl
  next =>
    split at ran
    next => cases ran
    next =>
      have stored : volumeOf state.sb (writeSects state.disk
          ((state.inodeTable pin).startSect + min ((state.fDescTable i).pos + data.length)
              ((state.inodeTable pin).nrSects * sectorSize) / sectorSize + 1 -
            ((state.inodeTable pin).startSect + (state.fDescTable i).pos / sectorSize))
          ((state.inodeTable pin).startSect + (state.fDescTable i).pos / sectorSize)
          ((state.fDescTable i).pos % sectorSize) data) = state.volume := by
        apply volumeOf_congr layout
        intro r above below
        refine writeSects_frame (state.inodeTable pin).startSect
          ((state.inodeTable pin).startSect + (state.inodeTable pin).nrSects) (Nat.mod_lt _ (by decide)) (Nat.le_add_right _ _) (.inr ?_) r ?_
        · unfold sectorSize at capacity ⊢
          omega
        · intro s from' upto same
          have small := layout.small
          rcases hdSector_far (Nat.le_trans low from') (by omega) (by omega) with near | far
          · omega
          · omega
      have moved := bytesMoved_le
        ((state.inodeTable pin).startSect + min ((state.fDescTable i).pos + data.length)
              ((state.inodeTable pin).nrSects * sectorSize) / sectorSize + 1 -
            ((state.inodeTable pin).startSect + (state.fDescTable i).pos / sectorSize))
        ((state.fDescTable i).pos % sectorSize) data.length
      generalize writeSects state.disk _ _ _ data = disk at ran stored
      generalize bytesMoved _ _ data.length = bytes at ran moved
      split at ran
      next grows =>
        simp only [Option.some.injEq, Prod.mk.injEq] at ran
        have bounded : (state.fDescTable i).pos + bytes < 2 ^ 32 := by
          unfold nrDefaultFileSects at low
          unfold sectorSize at capacity
          omega
        have resizedFits : (resized (state.inodeTable pin)
            ((state.fDescTable i).pos + bytes)).toInodeRecord.Fits :=
          { mode := fits.mode
            size := bounded
            startSect := fits.startSect
            nrSects := fits.nrSects }
        refine ⟨(state.fDescTable i).pos + bytes, (state.fDescTable i).pos + bytes, _, ?_, bounded,
          (storeRecord_volume layout disk numbered.1 numbered.2 resizedFits).trans (by rw [stored])⟩
        rw [← ran.1]
        simp only [syncInode, FsState.setInode, FsState.setDesc, Function.update_self]
        rfl
      next =>
        simp only [Option.some.injEq, Prod.mk.injEq] at ran
        refine ⟨(state.inodeTable pin).size, (state.fDescTable i).pos + bytes, disk, ?_, fits.size, ?_⟩
        · rw [same, Function.update_eq_self, ← ran.1]
          rfl
        · rw [same, unchanged, stored]

end Descriptors

section Unlink

variable {state next : FsState} {path : Path} {ret : Int} {n p : Nat}

/-- What is left of the inode of a removed file in the table. -/
def Inode.erased (inode : Inode) : Inode :=
  { toInodeRecord := emptyRecord
    cnt := inode.cnt - 1
    num := inode.num }

theorem removeFile_eq {b count : Nat} (num : (state.inodeTable p).num = n)
    (layout : Layout state.sb)
    (start : (state.inodeTable p).startSect = b + state.sb.n1stSect - 1)
    (sects : (state.inodeTable p).nrSects = count) (numbered : 1 ≤ n ∧ n < sectorBits)
    (run : 1 ≤ b ∧ 0 < count ∧ b + count ≤ state.sb.nrSmapSects * sectorBits) :
    ∃ disk, removeFile state n p = removeDirEntry { state with
        disk := disk
        inodeTable := Function.update state.inodeTable p (state.inodeTable p).erased } n ∧
      volumeOf state.sb disk = state.volume.withoutFile n b count := by
  have emptyFits : emptyRecord.Fits := ⟨by decide, by decide, by decide, by decide⟩
  refine ⟨_, ?_, (storeRecord_volume layout (freeSmapBits state.sb (freeImapBit state.disk n)
    (b + state.sb.n1stSect - 1) count) numbered.1 (Nat.le_of_lt numbered.2) emptyFits).trans ?_⟩
  · unfold removeFile
    simp only [syncInode, putInode, FsState.setInode, Function.update_self, Function.update_idem, num,
      start, sects, Inode.erased, emptyRecord]
  · rw [freeSmapBits_volume layout _ run.1 run.2.1 run.2.2, freeImapBit_volume layout _ numbered.2]
    rfl

/-- A reference to inode `n` was taken and kept. -/
def Referenced (state : FsState) (n : Nat) (next : FsState) : Prop :=
  ∃ p, n ≠ 0 ∧ SlotFor state n p ∧
    ((state.inodeTable p).cnt ≠ 0 ∧ next = state.setInode p (state.inodeTable p).held ∨
      (state.inodeTable p).cnt = 0 ∧ next = state.setInode p (loadedInode state n))

/-- A refusal takes a reference at most; a removal finds the file closed. -/
theorem doUnlink_cases (counted : ∀ i < nrInode, 0 ≤ (state.inodeTable i).cnt)
    (ran : doUnlink state path = some (next, ret)) :
    (ret = -1 ∧ (next = state ∨ Referenced state (searchFile state path) next)) ∨
      ret = 0 ∧ ∃ p name, stripPath path = some name ∧ searchFile state path ≠ 0 ∧
        SlotFor state (searchFile state path) p ∧ (state.inodeTable p).cnt = 0 ∧
        (recordOf state.sb state.disk (searchFile state path)).mode = iRegular ∧
        next = removeFile (state.setInode p (loadedInode state (searchFile state path)))
          (searchFile state path) p := by
  rw [doUnlink] at ran
  split at ran
  next =>
    simp only [Option.some.injEq, Prod.mk.injEq] at ran
    exact .inl ⟨ran.2.symm, .inl ran.1.symm⟩
  next =>
    simp only at ran
    split at ran
    next =>
      simp only [Option.some.injEq, Prod.mk.injEq] at ran
      exact .inl ⟨ran.2.symm, .inl ran.1.symm⟩
    next found =>
      split at ran
      next =>
        simp only [Option.some.injEq, Prod.mk.injEq] at ran
        exact .inl ⟨ran.2.symm, .inl ran.1.symm⟩
      next valid =>
        obtain ⟨name, valid⟩ := Option.ne_none_iff_exists'.mp valid
        cases got : getInode state (searchFile state path) with
        | none => simp only [got] at ran; cases ran
        | some pair =>
            obtain ⟨middle, pin⟩ := pair
            rcases getInode_cases got with ⟨zero, _⟩ | ⟨p, _, rfl, slot, moved⟩
            · exact absurd zero found
            · simp only [got] at ran
              have taken : Referenced state (searchFile state path) middle := ⟨p, found, slot, moved⟩
              split at ran
              next =>
                simp only [Option.some.injEq, Prod.mk.injEq] at ran
                exact .inl ⟨ran.2.symm, .inr (ran.1 ▸ taken)⟩
              next regular =>
                split at ran
                next =>
                  simp only [Option.some.injEq, Prod.mk.injEq] at ran
                  exact .inl ⟨ran.2.symm, .inr (ran.1 ▸ taken)⟩
                next single =>
                  simp only [Option.some.injEq, Prod.mk.injEq] at ran
                  rcases moved with ⟨used, rfl⟩ | ⟨free, rfl⟩
                  · have positive := counted p slot.1
                    simp only [FsState.setInode, Function.update_self, Inode.held] at single
                    omega
                  · simp only [FsState.setInode, Function.update_self, loadedInode, ne_eq,
                      Decidable.not_not] at regular
                    exact .inr ⟨ran.2.symm, p, name, valid, found, slot, free, regular, ran.1.symm⟩

end Unlink

end AempOS.Fs
