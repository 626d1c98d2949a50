import AempOS.Fs.DirectoryProperties
import AempOS.Fs.MkfsProperties
import AempOS.Fs.References
import AempOS.Fs.SoundProperties

/-! When `do_open` does all or nothing. A descriptor is reserved before the name is
looked at and is never given back, so a refusal leaves a trace as long as there is a
free descriptor; and what full tables print does not stop the call. -/

set_option autoImplicit false

namespace AempOS.Fs

open Lib

/-- The maps, the inode array and the root directory are where `mkfs` puts them, and the
root directory is in the table of inodes and marked in the map. -/
structure Mounted (state : FsState) : Prop where
  layout : Layout state.sb
  root : RootHeld state
  marked : inodeBit state.disk 1 = true

theorem Coherent.mounted {state : FsState} (coherent : Coherent state) : Mounted state where
  layout := coherent.layout
  root := coherent.root
  marked := by
    have reserved := coherent.extents.reserved 1 (by decide)
    rwa [volume_imap state (by decide : 1 < 4096)] at reserved

section Frames

variable {state next : FsState} {sb : SuperBlock} {disk : Disk} {r n p : Nat}

theorem allocImapBit_other (other : r ≠ 2) : (allocImapBit sb disk).2 r = disk r := by
  unfold allocImapBit
  simp only
  split
  next => rfl
  next =>
    split
    next => rfl
    next => exact wrSect_other (by decide) other

theorem allocSects_other {rounds i freeSectNr left : Nat}
    (apart : ∀ j, i ≤ j → j < i + rounds → hdSector (1 + 1 + sb.nrImapSects + j) ≠ r) :
    (allocSects sb rounds i disk freeSectNr left).2 r = disk r := by
  induction rounds generalizing i disk freeSectNr left with
  | zero => rfl
  | succ rounds ih =>
      have here := apart i (Nat.le_refl i) (by omega)
      have stored (fsbuf : Buffer) (met : Nat) :
          (if met = 0 then disk else wrSect disk (1 + 1 + sb.nrImapSects + i) fsbuf) r = disk r := by
        split
        next => rfl
        next => exact Function.update_of_ne here.symm _ _
      rw [allocSects]
      split
      next => exact stored _ _
      next => rw [ih fun j low high => apart j (by omega) (by omega), stored]

theorem allocSmapBit_other (maps : MapsAt sb) {count : Nat} (behind : 3 + sb.nrSmapSects ≤ r) :
    (allocSmapBit sb disk count).2 r = disk r := by
  refine allocSects_other fun j _ high same => ?_
  have small := maps.small
  rw [maps.imap, hdSector_small (by omega)] at same
  omega

theorem syncInode_behind (layout : Layout state.sb) (high : (state.inodeTable p).num ≤ sectorBits)
    (behind : state.sb.n1stSect ≤ r) : (syncInode state p).disk r = state.disk r := by
  have imap := layout.imap
  have first := layout.first
  have small := layout.small
  have inside : inodeSect state.sb (state.inodeTable p).num < state.sb.n1stSect := by
    unfold inodeSect sectorSize inodeSize
    unfold sectorBits at high
    omega
  exact wrSect_other (by omega) (by omega)

/-- `get_inode` has a result when there is a slot for the inode. -/
theorem getInode_slot (state : FsState) (nonzero : n ≠ 0) :
    getInode state n = none ∧ (∀ p, ¬SlotFor state n p) ∨
      ∃ p inode, getInode state n = some (state.setInode p inode, some p) ∧ SlotFor state n p ∧
        inode.num = n := by
  cases got : getInode state n with
  | none =>
      refine .inl ⟨rfl, fun p slot => ?_⟩
      rw [getInode, if_neg nonzero] at got
      simp only at got
      split at got
      next => cases got
      next missed =>
        split at got
        next => cases got
        next full =>
          rcases slot with ⟨inside, ⟨used, same⟩ | ⟨free, _⟩⟩
          · have fails := firstFrom_none missed (Nat.zero_le p) (by omega)
            simp [used, same] at fails
          · have fails := firstFrom_none full (Nat.zero_le p) (by omega)
            simp [free] at fails
  | some result =>
      obtain ⟨next, pin⟩ := result
      rcases getInode_cases got with ⟨zero, _⟩ | ⟨p, _, rfl, slot, ⟨used, rfl⟩ | ⟨_, rfl⟩⟩
      · exact absurd zero nonzero
      · refine .inr ⟨p, _, rfl, slot, ?_⟩
        rcases slot.2 with ⟨_, same⟩ | ⟨free, _⟩
        · exact same
        · exact absurd free used
      · exact .inr ⟨p, _, rfl, slot, rfl⟩

/-- `new_inode` follows the null pointer for inode 0, and needs a slot for another one. -/
theorem newInode_slot (state : FsState) (layout : Layout state.sb) (high : n ≤ sectorBits) (startSect : Nat) :
    newInode state n startSect = none ∧ (n = 0 ∨ ∀ p, ¬SlotFor state n p) ∨
      ∃ p after, n ≠ 0 ∧ SlotFor state n p ∧
        newInode state n startSect = some ({ state with
          disk := after
          inodeTable := Function.update state.inodeTable p (freshInode n startSect) }, p) ∧
        ∀ r, state.sb.n1stSect ≤ r → after r = state.disk r := by
  by_cases zero : n = 0
  · subst zero
    exact .inl ⟨rfl, .inl rfl⟩
  rcases getInode_slot state zero with ⟨none, full⟩ | ⟨p, inode, got, slot, _⟩
  · refine .inl ⟨?_, .inr full⟩
    rw [newInode, none]
  · have ran : newInode state n startSect =
        some (syncInode (state.setInode p (freshInode n startSect)) p, p) := by
      rw [newInode, got]
      simp only [FsState.setInode, Function.update_idem]
      rfl
    refine .inr ⟨p, _, zero, slot, ran, fun r behind => ?_⟩
    refine syncInode_behind layout ?_ behind
    simp only [FsState.setInode, Function.update_self]
    exact high

end Frames

section Create

variable {state : FsState} {path : Path} {name : List Byte}

/-- The number that a new file gets, 0 when the map is full. -/
def newNumber (state : FsState) : Nat := (allocImapBit state.sb state.disk).1

/-- The name does not have twelve characters in the last entry of a sector. -/
def NameFits (state : FsState) (path : Path) : Prop :=
  ∀ name k, stripPath path = some name → TakenSlot state k →
    ¬(name.length = maxFilenameLen ∧ k % entriesPerSect = 31)

/-- `create_file` runs through. -/
structure Creatable (state : FsState) (path : Path) : Prop where
  clear : newNumber state ≠ 0
  slot : ∃ p, SlotFor state (newNumber state) p
  fits : NameFits state path

theorem newNumber_cases (mounted : Mounted state) :
    newNumber state = 0 ∨ newNumber state ≤ sectorBits ∧ newNumber state ≠ 1 := by
  by_cases clear : ∃ n < sectorBits, inodeBit state.disk n = false
  · obtain ⟨n, next, found, inside, free, _⟩ := allocImapBit_clear mounted.layout.maps clear
    right
    rw [newNumber, found]
    refine ⟨Nat.le_of_lt inside, ?_⟩
    rintro rfl
    rw [mounted.marked] at free
    cases free
  · left
    rw [newNumber, allocImapBit_full mounted.layout.maps fun n inside => ?_]
    by_contra zero
    exact clear ⟨n, inside, by simpa using zero⟩

theorem nameFits_iff (valid : stripPath path = some name) {k : Nat} (taken : TakenSlot state k) :
    NameFits state path ↔ ¬sectorSize < entryOff k + 4 + name.length + 1 := by
  have short := (stripPath_bounds valid).1
  have last := entryOff_last k
  have inside := entryOff_lt k
  constructor
  · intro fits beyond
    refine fits name k valid taken ⟨?_, last.mp ?_⟩
    · unfold maxFilenameLen at *
      omega
    · unfold maxFilenameLen at short
      unfold entryOff entriesPerSect sectorSize dirEntrySize at *
      omega
  · rintro within other l same alsoTaken ⟨full, atEnd⟩
    rw [valid] at same
    cases same
    cases taken.unique alsoTaken
    have off := last.mpr atEnd
    unfold maxFilenameLen at full
    omega

/-- Sectors of the maps and of the inode array are none of the directory. -/
theorem takenSlot_congr (mounted : Mounted state) {other : FsState} (dir : other.dir = state.dir)
    (same : ∀ r, state.sb.n1stSect ≤ r → other.disk r = state.disk r) {k : Nat}
    (taken : TakenSlot state k) : TakenSlot other k := by
  have small := mounted.layout.small
  have number : other.nrEntries = state.nrEntries := by rw [FsState.nrEntries, dir]; rfl
  have bounded := mounted.root.nrEntries_lt
  have entry (l : Nat) (inside : l ≤ state.nrEntries) :
      entryInode other.disk other.dir.startSect l = entryInode state.disk state.dir.startSect l := by
    have sect := entrySect_lt (Nat.lt_of_le_of_lt inside bounded)
    unfold entryInode entryBuf
    rw [dir, mounted.root.start, rdSect_small _ (by omega), rdSect_small _ (by omega),
      same _ (Nat.le_add_right _ _)]
  refine ⟨fun l before inside => ?_, ?_⟩
  · rw [number] at inside
    rw [entry l (Nat.le_of_lt inside)]
    exact taken.1 l before inside
  · rw [number]
    rcases taken.2 with ⟨inside, zero⟩ | past
    · exact .inl ⟨inside, by rw [entry k (Nat.le_of_lt inside), zero]⟩
    · exact .inr past

theorem storeDir_num (state : FsState) (k : Nat) (fsbuf : Buffer) (size p : Nat) :
    ((storeDir state k fsbuf size).inodeTable p).num = (state.inodeTable p).num := by
  simp only [storeDir, syncInode, FsState.setInode]
  by_cases here : p = state.rootInode
  · rw [here, Function.update_self]
    rfl
  · rw [Function.update_of_ne here]

theorem createFile_creatable (mounted : Mounted state) (valid : stripPath path = some name) :
    createFile state path = none ∧ ¬Creatable state path ∨
      ∃ next p, createFile state path = some (next, some p) ∧ Creatable state path ∧
        p < nrInode ∧ (next.inodeTable p).num = newNumber state := by
  have numbered := newNumber_cases mounted
  have high : newNumber state ≤ sectorBits := by
    rcases numbered with zero | ⟨high, _⟩
    · rw [zero]
      exact Nat.zero_le _
    · exact high
  obtain ⟨k, taken⟩ : ∃ k, TakenSlot state k := ⟨_, takenSlot_hole⟩
  unfold createFile
  simp only [valid]
  generalize smap : allocSmapBit state.sb (allocImapBit state.sb state.disk).2 nrDefaultFileSects =
    freeSectNr
  have mapped (r : Nat) (behind : state.sb.n1stSect ≤ r) : freeSectNr.2 r = state.disk r := by
    have first := mounted.layout.first
    rw [← smap, allocSmapBit_other mounted.layout.maps (by omega), allocImapBit_other (by omega)]
  rcases newInode_slot { state with disk := freeSectNr.2 } mounted.layout high
    freeSectNr.1 with ⟨none, stuck⟩ | ⟨p, after, nonzero, slot, made, stored⟩
  · rw [newNumber] at none
    simp only [none]
    refine .inl ⟨trivial, fun creatable => ?_⟩
    rcases stuck with zero | full
    · exact creatable.clear zero
    · obtain ⟨p, slot⟩ := creatable.slot
      exact full p slot
  · rw [newNumber] at made
    simp only [made, Function.update_self]
    have slot : SlotFor state (newNumber state) p := slot
    have apart : p ≠ state.rootInode :=
      slot.ne_root mounted.root (numbered.resolve_left nonzero).2
    have keptDir : Function.update state.inodeTable p (freshInode (allocImapBit state.sb state.disk).1
        freeSectNr.1) state.rootInode = state.dir := Function.update_of_ne apart.symm _ _
    have keptTaken : TakenSlot { state with
        disk := after
        inodeTable := Function.update state.inodeTable p
          (freshInode (allocImapBit state.sb state.disk).1 freeSectNr.1) } k := by
      refine takenSlot_congr mounted ?_ ?_ taken
      · exact keptDir
      · exact fun r behind => (stored r behind).trans (mapped r behind)
    rw [newDirEntry_eq keptTaken]
    by_cases beyond : sectorSize < entryOff k + 4 + name.length + 1
    · rw [if_pos beyond]
      exact .inl ⟨rfl, fun creatable => (nameFits_iff valid taken).mp creatable.fits beyond⟩
    · rw [if_neg beyond]
      refine .inr ⟨_, p, rfl, ⟨nonzero, ⟨p, slot⟩, (nameFits_iff valid taken).mpr beyond⟩, slot.1, ?_⟩
      rw [storeDir_num]
      simp only [Function.update_self]
      rfl

end Create

section Open

variable {state next : FsState} {pid flags : Nat} {path : Path}

/-- The call turns the path down: `O_CREAT` of a file that is there, no `O_CREAT` for one
that is not, or no path of a file. -/
def Refused (state : FsState) (path : Path) (flags : Nat) : Prop :=
  stripPath path = none ∨
    if oCreat flags then searchFile state path ≠ 0 else searchFile state path = 0

/-- The number of the inode that the call opens. -/
def openedNumber (state : FsState) (path : Path) (flags : Nat) : Nat :=
  if oCreat flags then newNumber state else searchFile state path

/-- The inode of the path gets into the table. -/
def Obtainable (state : FsState) (path : Path) (flags : Nat) : Prop :=
  if oCreat flags then Creatable state path else ∃ p, SlotFor state (searchFile state path) p

/-- An open that gives out `fd`, with the descriptor `d` and the inode in slot `p`. -/
structure Opens (state : FsState) (pid : Nat) (path : Path) (flags : Nat) (next : FsState)
    (fd d p : Nat) : Prop where
  least : 3 ≤ fd
  most : fd < nrFiles
  unused : state.filp pid fd = none
  inside : d < nrFileDesc
  free : (state.fDescTable d).inode = .free
  filp : next.filp = Function.update state.filp pid (Function.update (state.filp pid) fd (some d))
  descs : next.fDescTable = Function.update state.fDescTable d
    { mode := flags, pos := 0, inode := .slot p }
  slot : p < nrInode
  inode : (next.inodeTable p).num = openedNumber state path flags

/-- Either a descriptor of the file, or -1 and everything as before. -/
def AllOrNothing (state : FsState) (pid : Nat) (path : Path) (flags : Nat) : Prop :=
  (∃ (next : FsState) (fd d p : Nat), doOpen state pid path flags = some (next, (fd : Int)) ∧
    Opens state pid path flags next fd d p) ∨
  doOpen state pid path flags = some (state, -1)

/-- What gets the inode: `create_file`, or `get_inode` on the number that was found. -/
def obtainInode (state : FsState) (path : Path) (flags : Nat) : Option (FsState × Option Nat) :=
  if oCreat flags then
    if searchFile state path ≠ 0 then some (state, none) else createFile state path
  else
    match stripPath path with
    | none => some (state, none)
    | some _ => getInode state (searchFile state path)

theorem doOpen_eq : doOpen state pid path flags =
    match obtainInode (reserveDesc state (freeDesc state)) path flags with
    | none => none
    | some (state, none) => some (state, -1)
    | some (mid, some pin) => linkDesc mid pid flags pin (freeFilp state pid) (freeDesc state) := by
  unfold doOpen obtainInode
  simp only
  split
  next =>
    split
    next => rfl
    next =>
      split
      next none => rw [none]
      next made => rw [made]
      next none => rw [none]
  next =>
    cases stripPath path with
    | none => rfl
    | some name =>
        simp only
        split
        next none => rw [none]
        next made => rw [made]
        next none => rw [none]

theorem Mounted.retable (mounted : Mounted state) (table : Nat → FileDesc) :
    Mounted { state with fDescTable := table } := by
  have root := mounted.root
  exact ⟨mounted.layout, ⟨root.slot, root.used, root.num, root.start, root.fits, root.whole,
    root.bounded⟩, mounted.marked⟩

/-- With any descriptors, as the inode does not depend on them. -/
theorem obtainInode_cases (mounted : Mounted state) (table : Nat → FileDesc) :
    Refused state path flags ∧ obtainInode { state with fDescTable := table } path flags =
        some ({ state with fDescTable := table }, none) ∨
      ¬Refused state path flags ∧
        (obtainInode { state with fDescTable := table } path flags = none ∧
            ¬Obtainable state path flags ∨
          ∃ mid p, obtainInode { state with fDescTable := table } path flags = some (mid, some p) ∧
            Obtainable state path flags ∧ p < nrInode ∧
            (mid.inodeTable p).num = openedNumber state path flags ∧ mid.filp = state.filp ∧
            mid.fDescTable = table) := by
  have search : searchFile { state with fDescTable := table } path = searchFile state path := rfl
  unfold obtainInode Refused Obtainable openedNumber
  rw [search]
  cases valid : stripPath path with
  | none =>
      refine .inl ⟨.inl rfl, ?_⟩
      split
      next =>
        split
        next => rfl
        next => rw [createFile, valid]
      next => rfl
  | some name =>
      simp only [reduceCtorEq, false_or]
      by_cases creates : oCreat flags = true
      · simp only [creates, if_true]
        by_cases there : searchFile state path ≠ 0
        · exact .inl ⟨there, if_pos there⟩
        · rw [if_neg there]
          refine .inr ⟨there, ?_⟩
          rcases createFile_creatable (mounted.retable table) valid with
            ⟨none, stuck⟩ | ⟨next, p, made, creatable, inside, number⟩
          · exact .inl ⟨none, fun creatable => stuck ⟨creatable.clear, creatable.slot, creatable.fits⟩⟩
          · rcases createFile_recounted made with ⟨wrong, _⟩ | ⟨q, same, _, _, recounted⟩
            · cases wrong
            · exact .inr ⟨next, p, made, ⟨creatable.clear, creatable.slot, creatable.fits⟩, inside,
                number, recounted.filp, recounted.descs⟩
      · simp only [creates, Bool.false_eq_true, if_false]
        by_cases absent : searchFile state path = 0
        · refine .inl ⟨absent, ?_⟩
          rw [getInode, if_pos absent]
        · refine .inr ⟨absent, ?_⟩
          rcases getInode_slot { state with fDescTable := table } absent with
            ⟨none, full⟩ | ⟨p, inode, got, slot, number⟩
          · refine .inl ⟨none, ?_⟩
            rintro ⟨p, slot⟩
            exact full p slot
          · refine .inr ⟨_, p, got, ⟨p, slot⟩, slot.1, ?_, rfl, rfl⟩
            simp only [FsState.setInode, Function.update_self]
            exact number

/-- A store outside a table, or through a null pointer. -/
theorem not_allOrNothing (astray : doOpen state pid path flags = none) :
    ¬AllOrNothing state pid path flags := by
  unfold AllOrNothing
  rw [astray]
  rintro (⟨_, _, _, _, same, _⟩ | same)
  · cases same
  · cases same

theorem refused_allOrNothing
    (refused : doOpen state pid path flags = some (reserveDesc state (freeDesc state), -1)) :
    AllOrNothing state pid path flags ↔ freeDesc state = none := by
  unfold AllOrNothing
  rw [refused]
  constructor
  · rintro (⟨_, fd, _, _, same, _⟩ | same)
    · simp only [Option.some.injEq, Prod.mk.injEq] at same
      omega
    · simp only [Option.some.injEq, Prod.mk.injEq, and_true] at same
      cases found : freeDesc state with
      | none => rfl
      | some d =>
          have free := (freeDesc_some found).2
          rw [← same, found, reserveDesc, FsState.setDesc] at free
          simp only [Function.update_self] at free
          cases free
  · intro none
    rw [none]
    exact .inr rfl

theorem doOpen_allOrNothing (mounted : Mounted state) :
    AllOrNothing state pid path flags ↔
      (Refused state path flags → freeDesc state = none) ∧
        (¬Refused state path flags →
          freeFilp state pid ≠ none ∧ freeDesc state ≠ none ∧ Obtainable state path flags) := by
  obtain ⟨table, isReserved⟩ := reserveDesc_rest state (freeDesc state)
  have result : doOpen state pid path flags = _ := doOpen_eq
  rcases obtainInode_cases mounted table with ⟨refused, outcome⟩ | ⟨goesOn, ⟨outcome, stuck⟩ |
    ⟨mid, p, outcome, obtainable, inside, number, filp, descs⟩⟩
  · rw [isReserved, outcome] at result
    rw [← isReserved] at result
    rw [refused_allOrNothing result]
    exact ⟨fun none => ⟨fun _ => none, fun goesOn => absurd refused goesOn⟩, fun all => all.1 refused⟩
  · rw [isReserved, outcome] at result
    exact ⟨fun opens => absurd opens (not_allOrNothing result),
      fun all => absurd (all.2 goesOn).2.2 stuck⟩
  · rw [isReserved, outcome] at result
    simp only at result
    cases place : freeFilp state pid with
    | none =>
        rw [place] at result
        exact ⟨fun opens => absurd opens (not_allOrNothing result),
          fun all => absurd rfl (all.2 goesOn).1⟩
    | some fd =>
        cases found : freeDesc state with
        | none =>
            rw [place, found] at result
            exact ⟨fun opens => absurd opens (not_allOrNothing result),
              fun all => absurd rfl (all.2 goesOn).2.1⟩
        | some d =>
            rw [place, found] at result
            refine ⟨fun _ => ⟨fun refused => absurd refused goesOn, fun _ => ⟨by simp, by simp,
              obtainable⟩⟩, fun _ => .inl ⟨_, fd, d, p, result, ?_⟩⟩
            obtain ⟨least, below, _, _⟩ := firstFrom_some place
            obtain ⟨insideDesc, free⟩ := freeDesc_some found
            refine ⟨least, by unfold nrFiles at *; omega, freeFilp_some place, insideDesc, free, ?_, ?_,
              inside, number⟩
            · simp only [FsState.setDesc, FsState.setFilp, filp]
            · have isTable : Function.update state.fDescTable d
                  { state.fDescTable d with inode := .reserved } = table := by
                have tables := congrArg FsState.fDescTable isReserved
                rwa [found] at tables
              simp only [FsState.setDesc, FsState.setFilp, descs, ← isTable, Function.update_idem]

/-- A directory of four entries with other names in slot 0, and the other slots free. -/
def rootOnly : FsState :=
  { uniformDir 3 4 with
    inodeTable := fun i =>
      if i = 0 then (uniformDir 3 4).dir else { (uniformDir 3 4).dir with cnt := 0, num := 0 } }

theorem rootOnly_mounted : Mounted rootOnly where
  layout := Addressable.layout (by unfold Addressable; omega)
  root := by
    refine ⟨by decide, by decide, rfl, rfl, ⟨by decide, by decide, by decide, by decide⟩, ?_, ?_⟩
    · exact (by decide : dirEntrySize * 4 = dirEntrySize * 4 / dirEntrySize * dirEntrySize)
    · exact (by decide : dirEntrySize * 4 / dirEntrySize < maxEntries)
  marked := by decide

theorem doOpen_allOrNothing_create : AllOrNothing rootOnly 0 shortPath 3 := by
  refine (doOpen_allOrNothing rootOnly_mounted).mpr ⟨fun refused => ?_, fun _ => ⟨by decide, by decide, ?_⟩⟩
  · have missing : searchFile rootOnly shortPath = 0 := by decide
    rcases refused with invalid | there
    · exact absurd invalid (by decide)
    · exact absurd missing there
  · have number : newNumber rootOnly = 2 := by decide
    refine ⟨by rw [number]; decide, ⟨1, by decide, .inr ⟨rfl, fun i _ used => ?_⟩⟩, ?_⟩
    · rw [number]
      by_cases first : i = 0
      · rw [first]
        decide
      · simp only [rootOnly, if_neg first] at used
        exact absurd rfl used
    · rintro name k valid _ ⟨long, _⟩
      have short : stripPath shortPath = some (chars "ABCDEFGHIJK") := by decide
      rw [short] at valid
      cases valid
      exact absurd long (by decide)

/-- An open without `O_CREAT` of a file that is not there. -/
theorem doOpen_leaves_reserved :
    Mounted rootOnly ∧ searchFile rootOnly shortPath = 0 ∧ ¬AllOrNothing rootOnly 0 shortPath 2 := by
  have result : doOpen rootOnly 0 shortPath 2 =
      some (reserveDesc rootOnly (freeDesc rootOnly), -1) := rfl
  refine ⟨rootOnly_mounted, by decide, fun opens => ?_⟩
  have full := (refused_allOrNothing result).mp opens
  exact absurd full (by decide)

end Open

end AempOS.Fs
