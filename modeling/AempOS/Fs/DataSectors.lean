import AempOS.Fs.OpenProperties

/-! The sectors of files lie behind those of the root directory. Making, opening and
removing a file leaves all of them as they were; only a write stores into them. -/

set_option autoImplicit false

namespace AempOS.Fs

open Lib

/-- The first sector that a file may have. -/
def FsState.dataSect (state : FsState) : Nat := state.sb.n1stSect + nrDefaultFileSects

/-- The sectors of files are as they were. -/
def DataKept (state next : FsState) : Prop :=
  ∀ r, state.dataSect ≤ r → next.disk r = state.disk r

section Kept

variable {state middle next : FsState} {path : Path} {pid flags n p : Nat} {ret : Int}

theorem DataKept.refl (state : FsState) : DataKept state state := fun _ _ => rfl

theorem DataKept.trans (first : DataKept state middle) (second : DataKept middle next)
    (sb : middle.sb = state.sb) : DataKept state next := by
  intro r behind
  have again : middle.dataSect ≤ r := by
    rw [FsState.dataSect, sb]
    exact behind
  exact (second r again).trans (first r behind)

theorem DataKept.of_disk (same : next.disk = state.disk) : DataKept state next :=
  fun r _ => congrFun same r

theorem DataKept.of_first (same : ∀ r, state.sb.n1stSect ≤ r → next.disk r = state.disk r) :
    DataKept state next :=
  fun r behind => same r (Nat.le_trans (Nat.le_add_right _ _) behind)

/-- A sector of the root directory with an entry is written. -/
theorem wrSect_entry_kept (layout : Layout state.sb) (root : RootHeld state) {k : Nat}
    (inside : k < maxEntries) (fsbuf : Buffer) :
    DataKept state { state with
      disk := wrSect state.disk (state.dir.startSect + entrySect k) fsbuf } := by
  intro r behind
  have below := entrySect_lt inside
  have small := layout.small
  unfold FsState.dataSect at behind
  rw [root.start]
  exact wrSect_other (by omega) (by omega)

theorem storeDir_kept (layout : Layout state.sb) (root : RootHeld state) {k : Nat}
    (inside : k < maxEntries) (fsbuf : Buffer) (size : Nat) :
    DataKept state (storeDir state k fsbuf size) := by
  have num : (state.inodeTable state.rootInode).num = 1 := root.num
  have entered := wrSect_entry_kept layout root inside fsbuf
  refine entered.trans (DataKept.of_first fun r behind => ?_) rfl
  refine syncInode_behind layout ?_ behind
  have held : (Function.update state.inodeTable state.rootInode { state.dir with size := size }
      state.rootInode).num = 1 := by
    rw [Function.update_self]
    exact num
  exact Nat.le_trans (Nat.le_of_eq held) (by decide)

theorem newDirEntry_kept (layout : Layout state.sb) (root : RootHeld state) {name : List Byte}
    (done : newDirEntry state n name = some next) : DataKept state next := by
  unfold newDirEntry at done
  simp only at done
  have inside : (firstFrom (fun k => entryInode state.disk state.dir.startSect k == 0)
      (state.dir.size / dirEntrySize) 0).getD (state.dir.size / dirEntrySize) < maxEntries := by
    have bounded := root.bounded
    cases hole : firstFrom (fun k => entryInode state.disk state.dir.startSect k == 0)
      (state.dir.size / dirEntrySize) 0 with
    | none => exact bounded
    | some k =>
        have below := (firstFrom_some hole).2.1
        simp only [Option.getD_some]
        omega
  split at done
  next => cases done
  next =>
    cases done
    exact storeDir_kept layout root inside _ _

theorem removeDirEntry_kept (layout : Layout state.sb) (root : RootHeld state) (n : Nat) :
    DataKept state (removeDirEntry state n) := by
  unfold removeDirEntry
  simp only
  have bounded := root.bounded
  split
  next => exact .refl state
  next k found =>
    have inside : k < maxEntries := by
      have below := (firstFrom_some found).2.1
      omega
    split
    next => exact storeDir_kept layout root inside _ _
    next => exact wrSect_entry_kept layout root inside _

theorem createFile_kept (mounted : Mounted state) {pin : Option Nat}
    (made : createFile state path = some (next, pin)) : DataKept state next := by
  have numbered := newNumber_cases mounted
  have layout := mounted.layout
  have first := layout.first
  unfold createFile at made
  cases valid : stripPath path with
  | none =>
      simp only [valid] at made
      cases made
      exact .refl state
  | some name =>
      simp only [valid] at made
      generalize smap : allocSmapBit state.sb (allocImapBit state.sb state.disk).2
        nrDefaultFileSects = freeSectNr at made
      have mapped : ∀ r, state.sb.n1stSect ≤ r → freeSectNr.2 r = state.disk r := by
        intro r behind
        rw [← smap, allocSmapBit_other layout.maps (by omega), allocImapBit_other (by omega)]
      have high : newNumber state ≤ sectorBits := by
        rcases numbered with zero | ⟨high, _⟩
        · rw [zero]
          exact Nat.zero_le _
        · exact high
      rcases newInode_slot { state with disk := freeSectNr.2 } layout high freeSectNr.1 with
        ⟨none, _⟩ | ⟨q, after, nonzero, slot, found, stored⟩
      · rw [newNumber] at none
        simp only [none] at made
        cases made
      · rw [newNumber] at found
        simp only [found] at made
        obtain ⟨last, entered, same⟩ := Option.map_eq_some_iff.mp made
        cases same
        have slot : SlotFor state (newNumber state) q := slot
        have apart := slot.ne_root mounted.root (numbered.resolve_left nonzero).2
        have kept : DataKept state { state with
            disk := after
            inodeTable := Function.update state.inodeTable q
              (freshInode (newNumber state) freeSectNr.1) } :=
          .of_first fun r behind => (stored r behind).trans (mapped r behind)
        exact kept.trans (newDirEntry_kept layout (mounted.root.other after apart _) entered) rfl

theorem getInode_kept {pin : Option Nat} (got : getInode state n = some (next, pin)) :
    DataKept state next := by
  apply DataKept.of_disk
  rcases getInode_cases got with ⟨_, _, rfl⟩ | ⟨q, _, _, _, ⟨_, rfl⟩ | ⟨_, rfl⟩⟩
  · rfl
  · rfl
  · rfl

theorem doOpen_kept (mounted : Mounted state) (ran : doOpen state pid path flags = some (next, ret)) :
    DataKept state next := by
  obtain ⟨table, reserved⟩ := reserveDesc_rest state (freeDesc state)
  rw [doOpen_eq, reserved] at ran
  have again : Mounted { state with fDescTable := table } := by
    have root := mounted.root
    exact ⟨mounted.layout, ⟨root.slot, root.used, root.num, root.start, root.fits, root.whole,
      root.bounded⟩, mounted.marked⟩
  have obtained : ∀ {middle : FsState} {pin : Option Nat},
      obtainInode { state with fDescTable := table } path flags = some (middle, pin) →
      DataKept state middle := by
    intro middle pin got
    unfold obtainInode at got
    split at got
    next =>
      split at got
      next =>
        cases got
        exact .refl state
      next =>
        have kept := createFile_kept again got
        exact kept
    next =>
      split at got
      next =>
        cases got
        exact .refl state
      next =>
        have kept := getInode_kept got
        exact kept
  cases got : obtainInode { state with fDescTable := table } path flags with
  | none => simp [got] at ran
  | some result =>
      obtain ⟨middle, pin⟩ := result
      have kept := obtained got
      cases pin with
      | none =>
          simp only [got, Option.some.injEq, Prod.mk.injEq] at ran
          exact ran.1 ▸ kept
      | some q =>
          simp only [got] at ran
          cases place : freeFilp state pid with
          | none => simp [place, linkDesc] at ran
          | some fd =>
              cases desc : freeDesc state with
              | none => simp [place, desc, linkDesc] at ran
              | some d =>
                  simp only [place, desc, linkDesc, Option.some.injEq, Prod.mk.injEq] at ran
                  exact ran.1 ▸ kept

/-- Before `sync_inode`, when the maps are freed and the inode is cleared. -/
def FsState.erasing (state : FsState) (n p : Nat) : FsState :=
  let inode := state.inodeTable p
  { state with
    disk := freeSmapBits state.sb (freeImapBit state.disk n) inode.startSect inode.nrSects }.setInode p
      { inode with mode := 0, size := 0, startSect := 0, nrSects := 0 }

/-- A removal of a file whose sectors are a run of the data area. -/
theorem removeFile_kept (layout : Layout state.sb) (root : RootHeld state)
    (apart : p ≠ state.rootInode) (high : (state.inodeTable p).num ≤ sectorBits) {j : Nat}
    (start : (state.inodeTable p).startSect = state.sb.n1stSect + 2048 * j)
    (sects : (state.inodeTable p).nrSects = 2048)
    (fits : (state.inodeTable p).startSect + 2048 ≤ state.sb.nrSects) :
    DataKept state (removeFile state n p) := by
  have first := layout.first
  have covers := layout.covers
  have freed : ∀ r, state.sb.n1stSect ≤ r →
      freeSmapBits state.sb (freeImapBit state.disk n) (state.inodeTable p).startSect
        (state.inodeTable p).nrSects r = state.disk r := by
    intro r behind
    have place : (state.inodeTable p).startSect = 1 + 2048 * j + state.sb.n1stSect - 1 := by omega
    have spec := (freeSmapBits_spec (freeImapBit state.disk n) layout.maps
      (by omega : 1 ≤ 1 + 2048 * j) (by decide : 0 < 2048) (by omega)).2 r (by omega)
    rw [sects, place, spec, freeImapBit_other (by omega)]
  have num : ((state.erasing n p).inodeTable p).num ≤ sectorBits := by
    simp only [FsState.erasing, FsState.setInode, Function.update_self]
    exact high
  obtain ⟨disk, same, kept⟩ : ∃ disk, removeFile state n p = removeDirEntry { state with
        disk := disk
        inodeTable := Function.update state.inodeTable p (state.inodeTable p).erased } n ∧
      ∀ r, state.sb.n1stSect ≤ r → disk r = state.disk r := by
    refine ⟨(syncInode (state.erasing n p) p).disk, ?_, fun r behind => ?_⟩
    · unfold removeFile
      simp only [syncInode, putInode, FsState.erasing, FsState.setInode, Function.update_self,
        Function.update_idem, Inode.erased, emptyRecord]
    · have synced : (syncInode (state.erasing n p) p).disk r = (state.erasing n p).disk r :=
        syncInode_behind layout num behind
      exact synced.trans (freed r behind)
  have before : DataKept state { state with
      disk := disk
      inodeTable := Function.update state.inodeTable p (state.inodeTable p).erased } := .of_first kept
  have heldRoot := root.other disk apart (state.inodeTable p).erased
  have mounted : Layout { state with
      disk := disk
      inodeTable := Function.update state.inodeTable p (state.inodeTable p).erased }.sb := layout
  rw [same]
  exact before.trans (removeDirEntry_kept mounted heldRoot n) rfl

theorem doUnlink_kept (sound : Sound state) (ran : doUnlink state path = some (next, ret)) :
    DataKept state next := by
  rcases doUnlink_cases sound.cached.counted ran with ⟨_, rfl | ⟨q, _, _, ⟨_, rfl⟩ | ⟨_, rfl⟩⟩⟩ |
    ⟨_, q, name, _, found, slot, _, regular, rfl⟩
  · exact .refl _
  · exact .of_disk rfl
  · exact .of_disk rfl
  · obtain ⟨low, high, file⟩ := sound.search_named found
    have records := volume_records state low (Nat.le_of_lt high)
    have live := file (records ▸ regular)
    obtain ⟨j, run⟩ := sound.extents.run _ live
    rw [records] at run
    have apart := slot.ne_root sound.root (show searchFile state path ≠ 1 by have := live.1; omega)
    have held : (state.setInode q (loadedInode state (searchFile state path))).inodeTable q =
        loadedInode state (searchFile state path) := Function.update_self _ _ _
    have removed : DataKept (state.setInode q (loadedInode state (searchFile state path)))
        (removeFile (state.setInode q (loadedInode state (searchFile state path)))
          (searchFile state path) q) := by
      refine removeFile_kept (j := j) sound.layout (sound.root.other state.disk apart _) apart ?_ ?_ ?_ ?_
      · rw [held]
        exact Nat.le_of_lt high
      · rw [held]
        exact run.start
      · rw [held]
        exact run.sects
      · rw [held]
        exact run.fits
    exact removed

end Kept

end AempOS.Fs
