import AempOS.Fs.InodeProperties

/-! What `new_dir_entry` writes. The name field has room for eleven characters
and the terminator; a name of twelve puts its terminator on the entry behind, and
in the last entry of a sector outside the buffer. -/

set_option autoImplicit false

namespace AempOS.Fs

open Lib

/-- Byte `o` of entry `l`. -/
def entryByte (disk : Disk) (dirBlk0Nr l o : Nat) : Byte :=
  entryBuf disk dirBlk0Nr l (entryOff l + o)

/-- The directory lies behind the inode array, and its sectors, with the one of
the entry just past its size, are addressed as such. -/
structure DirPlaced (state : FsState) : Prop where
  array : InodeArray state.sb
  low : 1 ≤ state.dir.num
  high : state.dir.num ≤ state.sb.nrInodes
  behind : state.sb.n1stSect ≤ state.dir.startSect
  small : state.dir.startSect + entrySect state.nrEntries < 2 ^ 22

section Entries

variable {k l : Nat}

theorem entryOff_lt (k : Nat) : entryOff k + 16 ≤ sectorSize := by
  unfold entryOff entriesPerSect sectorSize dirEntrySize
  omega

theorem entryOff_apart (differ : l ≠ k) (same : entrySect l = entrySect k) :
    entryOff l + 16 ≤ entryOff k ∨ l = k + 1 ∧ entryOff l = entryOff k + 16 ∨
      entryOff k + 32 ≤ entryOff l := by
  unfold entrySect entryOff entriesPerSect sectorSize dirEntrySize at *
  omega

theorem entryOff_last (k : Nat) : entryOff k + 16 = sectorSize ↔ k % entriesPerSect = 31 := by
  unfold entryOff entriesPerSect sectorSize dirEntrySize
  omega

theorem entry_next (inner : k % entriesPerSect ≠ 31) :
    entrySect (k + 1) = entrySect k ∧ entryOff (k + 1) = entryOff k + 16 := by
  unfold entrySect entryOff entriesPerSect sectorSize dirEntrySize at *
  omega

end Entries

variable {state : FsState} {k inodeNr size : Nat} {fsbuf : Buffer} {name : List Byte}

/-- The disk of `storeDir`: one sector of the directory and the inode array. -/
theorem storeDir_sector (placed : DirPlaced state)
    (inside : state.dir.startSect + entrySect k < 2 ^ 22) {sect : Nat}
    (low : state.sb.n1stSect ≤ sect) :
    (storeDir state k fsbuf size).disk sect =
      if sect = state.dir.startSect + entrySect k then fsbuf else state.disk sect := by
  have written := placed.array.inside placed.low placed.high
  have small := placed.array.small
  have recordSect : inodeSect state.sb state.dir.num < 2 ^ 22 := by omega
  simp only [storeDir, syncInode, FsState.setInode, Function.update_self]
  rw [wrSect_other recordSect (by omega)]
  split
  next here =>
    rw [here]
    exact wrSect_self inside
  next there => exact wrSect_other inside there

theorem storeDir_dir : (storeDir state k fsbuf size).dir = { state.dir with size := size } := by
  simp [storeDir, syncInode, FsState.dir, FsState.setInode]

/-- An entry of the directory after `storeDir`. -/
theorem storeDir_entry (placed : DirPlaced state)
    (inside : state.dir.startSect + entrySect k < 2 ^ 22) {l : Nat}
    (addressed : state.dir.startSect + entrySect l < 2 ^ 22) :
    entryBuf (storeDir state k fsbuf size).disk state.dir.startSect l =
      if entrySect l = entrySect k then fsbuf else entryBuf state.disk state.dir.startSect l := by
  have behind := placed.behind
  unfold entryBuf
  rw [rdSect_small _ addressed, rdSect_small _ addressed,
    storeDir_sector placed inside (by omega : state.sb.n1stSect ≤ state.dir.startSect + entrySect l)]
  by_cases same : entrySect l = entrySect k
  · rw [if_pos (by omega), if_pos same]
  · rw [if_neg (by omega), if_neg same]

/-- The entry that `new_dir_entry` takes: the first with inode number 0, or else
the one just past the size. -/
def TakenSlot (state : FsState) (k : Nat) : Prop :=
  (∀ l < k, l < state.nrEntries → entryInode state.disk state.dir.startSect l ≠ 0) ∧
    (k < state.nrEntries ∧ entryInode state.disk state.dir.startSect k = 0 ∨ k = state.nrEntries)

theorem TakenSlot.unique {l : Nat} (one : TakenSlot state k) (two : TakenSlot state l) : k = l := by
  obtain ⟨earlierK, atK⟩ := one
  obtain ⟨earlierL, atL⟩ := two
  rcases Nat.lt_trichotomy k l with before | same | after
  · rcases atK with ⟨inside, zero⟩ | past
    · exact absurd zero (earlierL k before inside)
    · omega
  · exact same
  · rcases atL with ⟨inside, zero⟩ | past
    · exact absurd zero (earlierK l after inside)
    · omega

theorem TakenSlot.addressed (taken : TakenSlot state k) (placed : DirPlaced state) :
    state.dir.startSect + entrySect k < 2 ^ 22 := by
  have small := placed.small
  have low : k ≤ state.nrEntries := by
    rcases taken.2 with ⟨inside, _⟩ | past
    · exact Nat.le_of_lt inside
    · exact Nat.le_of_eq past
  have sector : entrySect k ≤ entrySect state.nrEntries := Nat.div_le_div_right low
  omega

theorem takenSlot_hole : TakenSlot state
    ((firstFrom (fun k => entryInode state.disk state.dir.startSect k == 0) state.nrEntries 0).getD
      state.nrEntries) := by
  cases search : firstFrom (fun k => entryInode state.disk state.dir.startSect k == 0)
    state.nrEntries 0 with
  | none =>
      refine ⟨fun l _ inside => ?_, .inr rfl⟩
      simpa using firstFrom_none search (Nat.zero_le l) (by omega)
  | some k =>
      obtain ⟨_, inside, zero, earlier⟩ := firstFrom_some search
      refine ⟨fun l before _ => ?_, .inl ⟨by simpa using inside, by simpa using zero⟩⟩
      simpa using earlier l (Nat.zero_le l) before

/-- The size of the directory with an entry at `k`. -/
def sizeWith (state : FsState) (k : Nat) : Nat :=
  if k < state.nrEntries then state.dir.size else state.dir.size + dirEntrySize

/-- The new sector of the directory. -/
def entryWritten (state : FsState) (k inodeNr : Nat) (name : List Byte) : Buffer :=
  writeEntry (entryBuf state.disk state.dir.startSect k) (entryOff k) inodeNr name

theorem newDirEntry_eq (taken : TakenSlot state k) :
    newDirEntry state inodeNr name =
      if sectorSize < entryOff k + 4 + name.length + 1 then none
      else some (storeDir state k (entryWritten state k inodeNr name) (sizeWith state k)) := by
  have same := taken.unique takenSlot_hole
  unfold newDirEntry sizeWith
  simp only
  rw [← FsState.nrEntries, ← same]
  cases search : firstFrom (fun k => entryInode state.disk state.dir.startSect k == 0)
    state.nrEntries 0 with
  | none =>
      rw [search, Option.getD_none] at same
      rw [if_pos rfl, if_neg (by omega : ¬k < state.nrEntries)]
      rfl
  | some found =>
      obtain ⟨_, inside, _⟩ := firstFrom_some search
      rw [search, Option.getD_some] at same
      rw [if_neg (Option.some_ne_none found), if_pos (by omega : k < state.nrEntries)]
      rfl

section Writing

variable {off o : Nat}

theorem writeEntry_beyond (outside : o < off ∨ off + 4 + name.length + 1 ≤ o) :
    writeEntry fsbuf off inodeNr name o = fsbuf o := by
  rw [writeEntry, copyString_outside (by omega), setWord32_outside (by omega)]

theorem writeEntry_inode (small : inodeNr < 2 ^ 32) :
    word32 (writeEntry fsbuf off inodeNr name) off = inodeNr := by
  have same : word32 (writeEntry fsbuf off inodeNr name) off =
      word32 (setWord32 fsbuf off inodeNr) off :=
    word32_congr fun o _ high => copyString_outside (by omega)
  rw [same, word32_setWord32 fsbuf off small]

theorem writeEntry_name {i : Nat} (inside : i ≤ name.length) :
    writeEntry fsbuf off inodeNr name (off + 4 + i) = name.getD i 0 :=
  copyString_inside inside

end Writing

/-- Entry `k` has the number and the name, and every other entry its old bytes. -/
structure EntryAdded (state next : FsState) (k inodeNr : Nat) (name : List Byte) : Prop where
  place : k < state.nrEntries ∧ entryInode state.disk state.dir.startSect k = 0 ∧
      next.dir.size = state.dir.size ∨
    k = state.nrEntries ∧ next.dir.size = state.dir.size + dirEntrySize
  number : entryInode next.disk state.dir.startSect k = inodeNr
  named : ∀ i < name.length, entryChar next.disk state.dir.startSect k i = name.getD i 0
  others : ∀ l, l ≠ k → state.dir.startSect + entrySect l < 2 ^ 22 → ∀ o < dirEntrySize,
    entryByte next.disk state.dir.startSect l o = entryByte state.disk state.dir.startSect l o

/-- The name leaves room for its terminator, or the entry behind the taken one is
in the same sector and starts with a zero anyway. -/
def RoomForName (state : FsState) (name : List Byte) : Prop :=
  name.length < maxFilenameLen ∨
    ∀ k, TakenSlot state k →
      k % entriesPerSect ≠ 31 ∧ entryByte state.disk state.dir.startSect (k + 1) 0 = 0

theorem entryWritten_other (short : name.length ≤ maxFilenameLen)
    (clear : name.length < maxFilenameLen ∨ entryByte state.disk state.dir.startSect (k + 1) 0 = 0)
    {l o : Nat} (differ : l ≠ k) (same : entrySect l = entrySect k) (inside : o < dirEntrySize) :
    entryWritten state k inodeNr name (entryOff l + o) =
      entryByte state.disk state.dir.startSect l o := by
  have buffer : entryBuf state.disk state.dir.startSect l =
      entryBuf state.disk state.dir.startSect k := by
    unfold entryBuf
    rw [same]
  unfold maxFilenameLen at short clear
  unfold dirEntrySize at inside
  unfold entryByte at clear ⊢
  unfold entryWritten
  rw [buffer]
  by_cases terminator : name.length = 12 ∧ l = k + 1 ∧ o = 0
  · -- The only byte of another entry that is written.
    obtain ⟨full, rfl, rfl⟩ := terminator
    have zero := clear.resolve_left (by omega)
    have next : entryOff (k + 1) = entryOff k + 16 := by
      rcases entryOff_apart differ same with before | ⟨_, next⟩ | behind
      · unfold entrySect entryOff entriesPerSect sectorSize dirEntrySize at *
        omega
      · exact next
      · unfold entrySect entryOff entriesPerSect sectorSize dirEntrySize at *
        omega
    rw [buffer] at zero
    rw [zero, Nat.add_zero, next]
    have written : writeEntry (entryBuf state.disk state.dir.startSect k) (entryOff k) inodeNr name
        (entryOff k + 4 + name.length) = name.getD name.length 0 := writeEntry_name (Nat.le_refl _)
    rw [full] at written
    rw [written, List.getD_eq_default _ _ (by omega)]
  · rcases entryOff_apart differ same with before | ⟨next, place⟩ | behind
    · exact writeEntry_beyond (by omega)
    · exact writeEntry_beyond (by omega)
    · exact writeEntry_beyond (by omega)

theorem storeDir_added (placed : DirPlaced state) (taken : TakenSlot state k)
    (number : inodeNr < 2 ^ 32) (short : name.length ≤ maxFilenameLen)
    (clear : name.length < maxFilenameLen ∨ entryByte state.disk state.dir.startSect (k + 1) 0 = 0) :
    EntryAdded state (storeDir state k (entryWritten state k inodeNr name) (sizeWith state k)) k
      inodeNr name := by
  have addressed := taken.addressed placed
  have buffer (l : Nat) (inside : state.dir.startSect + entrySect l < 2 ^ 22) :
      entryBuf (storeDir state k (entryWritten state k inodeNr name) (sizeWith state k)).disk
        state.dir.startSect l =
          if entrySect l = entrySect k then entryWritten state k inodeNr name
          else entryBuf state.disk state.dir.startSect l := storeDir_entry placed addressed inside
  have here := buffer k addressed
  rw [if_pos rfl] at here
  constructor
  · rw [storeDir_dir]
    unfold sizeWith
    rcases taken.2 with ⟨inside, zero⟩ | past
    · exact .inl ⟨inside, zero, if_pos inside⟩
    · exact .inr ⟨past, if_neg (by omega)⟩
  · rw [entryInode, here]
    exact writeEntry_inode number
  · intro i inside
    rw [entryChar, here]
    exact writeEntry_name (Nat.le_of_lt inside)
  · intro l differ inside o inEntry
    rw [entryByte, buffer l inside]
    by_cases same : entrySect l = entrySect k
    · rw [if_pos same]
      exact entryWritten_other short clear differ same inEntry
    · rw [if_neg same]
      rfl

/-- `new_dir_entry` touches one entry alone exactly where the name has room. -/
theorem newDirEntry_added {path : Path} (placed : DirPlaced state)
    (stripped : stripPath path = some name) (number : inodeNr < 2 ^ 32) :
    (∃ next k, newDirEntry state inodeNr name = some next ∧
      EntryAdded state next k inodeNr name) ↔ RoomForName state name := by
  have short := (stripPath_bounds stripped).1
  obtain ⟨k, taken⟩ : ∃ k, TakenSlot state k := ⟨_, takenSlot_hole⟩
  have addressed := taken.addressed placed
  have ends := entryOff_lt k
  have last := entryOff_last k
  constructor
  · rintro ⟨next, j, made, added⟩
    rw [newDirEntry_eq taken] at made
    split at made
    next => cases made
    next inBuffer =>
      cases made
      by_cases room : name.length < maxFilenameLen
      · exact .inl room
      have full : name.length = 12 := by
        unfold maxFilenameLen at *
        omega
      have inner : ¬k % entriesPerSect = 31 := last.not.mp (by omega)
      obtain ⟨sameSect, nextOff⟩ := entry_next inner
      refine .inr fun l alsoTaken => ?_
      cases taken.unique alsoTaken
      refine ⟨inner, ?_⟩
      -- The terminator is the first byte of the entry behind, which is not `j`.
      have inside : state.dir.startSect + entrySect (k + 1) < 2 ^ 22 := sameSect ▸ addressed
      by_cases own : k + 1 = j
      · subst own
        rcases added.place with ⟨_, zero, _⟩ | ⟨past, grown⟩
        · exact word32_eq_zero zero
        · rw [storeDir_dir] at grown
          simp only [sizeWith, if_pos (by omega : k < state.nrEntries)] at grown
          unfold dirEntrySize at grown
          omega
      · have kept := added.others (k + 1) own inside 0 (by decide)
        rw [← kept, entryByte, storeDir_entry placed addressed inside, if_pos sameSect, nextOff]
        have written : entryWritten state k inodeNr name (entryOff k + 4 + name.length) =
            name.getD name.length 0 := writeEntry_name (Nat.le_refl _)
        rw [full] at written
        rw [Nat.add_zero, written, List.getD_eq_default _ _ (by omega)]
  · intro room
    have inBuffer : ¬sectorSize < entryOff k + 4 + name.length + 1 := by
      unfold RoomForName maxFilenameLen at room
      unfold maxFilenameLen at short
      rcases room with fits | clear
      · omega
      · have inner := last.not.mpr (clear k taken).1
        unfold entryOff entriesPerSect sectorSize dirEntrySize at *
        omega
    refine ⟨_, k, by rw [newDirEntry_eq taken, if_neg inBuffer], ?_⟩
    exact storeDir_added placed taken number short (room.imp_right fun clear => (clear k taken).2)

/-- A directory of so many entries, on a disk that is full of one byte. -/
def uniformDir (byte : Byte) (count : Nat) : FsState :=
  { withTable (fun _ =>
      { mode := iDirectory
        size := dirEntrySize * count
        startSect := (newSuperBlock 32768).n1stSect
        nrSects := nrDefaultFileSects
        cnt := 1
        num := 1 }) with disk := fun _ _ => byte }

theorem uniformDir_placed {byte : Byte} {count : Nat} (few : count ≤ 31) :
    DirPlaced (uniformDir byte count) := by
  have entries : (uniformDir byte count).nrEntries = count := by
    exact Nat.mul_div_cancel_left count (by decide)
  have first : entrySect count = 0 := by
    unfold entrySect entriesPerSect sectorSize dirEntrySize
    omega
  refine ⟨newSuperBlock_inodeArray (by decide : 32768 < 2 ^ 32), Nat.le_refl 1, ?_,
    Nat.le_refl _, ?_⟩
  · exact (by decide : 1 ≤ 4096)
  · rw [entries, first]
    exact (by decide : (newSuperBlock 32768).n1stSect + 0 < 2 ^ 22)

def shortPath : Path := ⟨chars "/ABCDEFGHIJK", by decide, by decide⟩

def longPath : Path := ⟨chars "/ABCDEFGHIJKL", by decide, by decide⟩

theorem newDirEntry_added_short :
    ∃ next k, newDirEntry (uniformDir 1 31) 5 (chars "ABCDEFGHIJK") = some next ∧
      EntryAdded (uniformDir 1 31) next k 5 (chars "ABCDEFGHIJK") :=
  (newDirEntry_added (uniformDir_placed (Nat.le_refl 31))
    (by decide : stripPath shortPath = some (chars "ABCDEFGHIJK")) (by decide)).mpr
      (.inl (by decide))

/-- The terminator of a name of twelve in the last entry of a sector. -/
theorem newDirEntry_overflow :
    stripPath longPath = some (chars "ABCDEFGHIJKL") ∧
      ¬∃ next k, newDirEntry (uniformDir 1 31) 5 (chars "ABCDEFGHIJKL") = some next ∧
        EntryAdded (uniformDir 1 31) next k 5 (chars "ABCDEFGHIJKL") := by
  refine ⟨by decide, ?_⟩
  rintro ⟨next, k, made, _⟩
  have none : newDirEntry (uniformDir 1 31) 5 (chars "ABCDEFGHIJKL") = none := rfl
  rw [none] at made
  cases made

end AempOS.Fs
