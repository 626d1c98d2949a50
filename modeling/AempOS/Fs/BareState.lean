import AempOS.Fs.FileCalls

/-! The file system without its descriptors. What a file is open for does not matter to
the maps, the inodes and the directory, so each call keeps them sound whatever processes
have open. -/

set_option autoImplicit false

namespace AempOS.Fs

open Lib

def freeDescriptor : FileDesc := { mode := 0, pos := 0, inode := .free }

/-- No descriptor is in use. -/
def FsState.bare (state : FsState) : FsState :=
  { state with fDescTable := fun _ => freeDescriptor, filp := fun _ _ => none }

/-- Descriptor `d` is the only one in use, behind one `fd` of one process. -/
def FsState.alone (state : FsState) (d : Nat) : FsState :=
  { state with
    fDescTable := Function.update (fun _ => freeDescriptor) d (state.fDescTable d)
    filp := Function.update (fun _ _ => none) 0 (Function.update (fun _ => none) 3 (some d)) }

variable {state next : FsState} {path : Path} {pid fd flags n p d : Nat} {name : List Byte}
  {ret : Int}

private theorem opened_none {volume : Volume} {table : Nat → Inode} :
    Opened volume table (fun _ => freeDescriptor) (fun _ _ => none) :=
  ⟨(fun _ _ points => by cases points), (fun _ _ _ points => by cases points),
    (fun _ _ _ link => by cases link), (fun _ _ _ _ _ link => by cases link)⟩

theorem Sound.bare (sound : Sound state) : Sound state.bare :=
  ⟨⟨sound.layout, sound.addressed, ⟨sound.root.slot, sound.root.used, sound.root.num,
    sound.root.start, sound.root.fits, sound.root.whole, sound.root.bounded⟩, sound.extents,
    sound.cached, opened_none⟩, sound.listed⟩

theorem Sound.bareRoot (sound : Sound state.bare) : RootHeld state :=
  ⟨sound.root.slot, sound.root.used, sound.root.num, sound.root.start, sound.root.fits,
    sound.root.whole, sound.root.bounded⟩

/-- A create gets the same inode and sectors with no descriptor in use. -/
theorem FileCreated.bare {b k size : Nat}
    (created : FileCreated state pid flags name next n b p k size fd d) :
    ∃ other, FileCreated state.bare 0 flags name other n b p k size 3 0 ∧
      other.bare = next.bare := by
  obtain ⟨disk, rfl, volume⟩ := created.effect
  exact ⟨_, ⟨created.inode, created.run, created.slot, created.place, rfl, rfl, disk, rfl, volume⟩,
    rfl⟩

theorem Sound.bareCreate (sound : Sound state.bare) (space : SpaceLeft state) {b k size : Nat}
    (created : FileCreated state pid flags name next n b p k size fd d) : Sound next.bare := by
  obtain ⟨other, made, same⟩ := created.bare
  have kept := sound.create space made
  exact same ▸ kept.bare

theorem Sound.bareRefer (sound : Sound state.bare) (low : 1 ≤ n) (high : n < 4096)
    (referenced : Referenced state n next) : Sound next.bare := by
  obtain ⟨q, nonzero, slot, ⟨used, rfl⟩ | ⟨free, rfl⟩⟩ := referenced
  · exact (sound.refer low high ⟨q, nonzero, slot, .inl ⟨used, rfl⟩⟩).bare
  · exact (sound.refer low high ⟨q, nonzero, slot, .inr ⟨free, rfl⟩⟩).bare

/-- Another count of an inode in the table, which the root directory may not lose. -/
theorem Sound.recount (sound : Sound state.bare) (inside : p < 64)
    (used : (state.inodeTable p).cnt ≠ 0) {count : Int} (nonneg : 0 ≤ count)
    (rooted : p = state.rootInode → 0 < count) :
    Sound (state.setInode p { state.inodeTable p with cnt := count }).bare := by
  have root := sound.root
  have dir : (Function.update state.inodeTable p { state.inodeTable p with cnt := count }
        state.rootInode).toInodeRecord = state.dir.toInodeRecord ∧
      (Function.update state.inodeTable p { state.inodeTable p with cnt := count }
        state.rootInode).num = state.dir.num ∧
      0 < (Function.update state.inodeTable p { state.inodeTable p with cnt := count }
        state.rootInode).cnt := by
    by_cases here : state.rootInode = p
    · rw [here, Function.update_self]
      refine ⟨?_, ?_, rooted here.symm⟩
      · rw [FsState.dir, here]
      · rw [FsState.dir, here]
    · rw [Function.update_of_ne here]
      exact ⟨rfl, rfl, root.used⟩
  obtain ⟨record, num, positive⟩ := dir
  have sizes : (Function.update state.inodeTable p { state.inodeTable p with cnt := count }
      state.rootInode).size = state.dir.size := congrArg InodeRecord.size record
  have held : RootHeld (state.setInode p { state.inodeTable p with cnt := count }).bare :=
    ⟨root.slot, positive, num.trans root.num, (congrArg InodeRecord.startSect record).trans root.start,
      record ▸ root.fits, sizes ▸ root.whole, sizes ▸ root.bounded⟩
  refine ⟨⟨sound.layout, sound.addressed, held, sound.extents, ?_, opened_none⟩, ?_⟩
  · refine sound.cached.put (fun _ _ _ _ => rfl) nonneg (fun _ => sound.cached.agrees p inside used)
      fun _ i within apart held same => apart (sound.cached.unique i within p inside held used same)
  · have number : FsState.nrEntries (state.setInode p { state.inodeTable p with cnt := count }).bare =
        state.nrEntries := by
      show (Function.update state.inodeTable p { state.inodeTable p with cnt := count }
        state.rootInode).size / dirEntrySize = state.dir.size / dirEntrySize
      rw [sizes]
    rw [number]
    exact sound.listed

/-- The file behind a descriptor, with no other descriptor in use. -/
theorem Sound.alone (sound : Sound state.bare) {pin : Nat}
    (points : (state.fDescTable d).inode = .slot pin) (inside : d < 64) (slot : pin < 64)
    (used : (state.inodeTable pin).cnt ≠ 0) (live : Live state.volume (state.inodeTable pin).num) :
    Sound (state.alone d) ∧ opened (state.alone d) 0 3 = some (d, pin) := by
  have root := sound.root
  have linked := @Opened.link _ _ _ _ opened_none 0 3 d pin _ points inside rfl slot used live
    fun _ points => by cases points
  have target : ((state.alone d).fDescTable d).inode = .slot pin := by
    simp only [FsState.alone, Function.update_self]
    exact points
  refine ⟨⟨⟨sound.layout, sound.addressed, ⟨root.slot, root.used, root.num, root.start, root.fits,
    root.whole, root.bounded⟩, sound.extents, sound.cached, linked⟩, sound.listed⟩,
    opened_iff.mpr ⟨by decide, ?_, target⟩⟩
  simp only [FsState.alone, Function.update_self]

theorem doWrite_alone {pin : Nat} {data : List Byte} (link : opened state pid fd = some (d, pin))
    (single : opened (state.alone d) 0 3 = some (d, pin))
    (ran : doWrite state pid fd data = some (next, ret)) :
    ∃ other, doWrite (state.alone d) 0 3 data = some (other, ret) ∧ other.bare = next.bare := by
  have desc : (state.alone d).fDescTable d = state.fDescTable d := by
    simp only [FsState.alone, Function.update_self]
  have table : (state.alone d).inodeTable = state.inodeTable := rfl
  unfold doWrite at ran ⊢
  simp only [link] at ran
  simp only [single, desc, table]
  split at ran
  next refused =>
    cases ran
    exact ⟨_, if_pos refused, rfl⟩
  next updates =>
    split at ran
    next => cases ran
    next file =>
      rw [if_neg updates, if_neg file]
      split at ran
      next grows =>
        cases ran
        exact ⟨_, if_pos grows, rfl⟩
      next kept =>
        cases ran
        exact ⟨_, if_neg kept, rfl⟩

theorem Sound.bareWrite (sound : Sound state.bare) {pin : Nat} {data : List Byte}
    (link : opened state pid fd = some (d, pin)) (inside : d < 64) (slot : pin < 64)
    (used : (state.inodeTable pin).cnt ≠ 0) (live : Live state.volume (state.inodeTable pin).num)
    (capacity : WithinCapacity state pid fd data.length)
    (ran : doWrite state pid fd data = some (next, ret)) : Sound next.bare := by
  obtain ⟨single, opens⟩ := sound.alone (opened_iff.mp link).2.2 inside slot used live
  obtain ⟨other, wrote, same⟩ := doWrite_alone link opens ran
  have fits : WithinCapacity (state.alone d) 0 3 data.length := by
    intro e q behind
    rw [opens] at behind
    cases behind
    have held := capacity d pin link
    simpa [FsState.alone] using held
  exact same ▸ (single.write fits wrote).bare

/-! Removals do not look at descriptors. -/

theorem getInode_bare (state : FsState) (n : Nat) :
    getInode state.bare n = (getInode state n).map fun result => (result.1.bare, result.2) := by
  unfold getInode
  simp only
  have table : state.bare.inodeTable = state.inodeTable := rfl
  simp only [table]
  split
  next => rfl
  next =>
    split
    next => rfl
    next =>
      split
      next => rfl
      next => rfl

theorem removeDirEntry_bare (state : FsState) (n : Nat) :
    removeDirEntry state.bare n = (removeDirEntry state n).bare := by
  have dir : state.bare.dir = state.dir := rfl
  have disk : state.bare.disk = state.disk := rfl
  unfold removeDirEntry
  simp only [dir, disk]
  split
  next => rfl
  next =>
    split
    next => rfl
    next => rfl

theorem removeFile_bare (state : FsState) (n p : Nat) :
    removeFile state.bare n p = (removeFile state n p).bare := by
  unfold removeFile
  simp only
  rw [← removeDirEntry_bare]
  rfl

theorem doUnlink_bare (ran : doUnlink state path = some (next, ret)) :
    doUnlink state.bare path = some (next.bare, ret) := by
  have search : searchFile state.bare path = searchFile state path := rfl
  unfold doUnlink at ran ⊢
  simp only [search, getInode_bare]
  split at ran
  next isRoot =>
    cases ran
    exact if_pos isRoot
  next notRoot =>
    rw [if_neg notRoot]
    simp only at ran
    split at ran
    next missing =>
      cases ran
      exact if_pos missing
    next found =>
      rw [if_neg found]
      split at ran
      next none =>
        cases ran
        exact if_pos none
      next valid =>
        rw [if_neg valid]
        cases got : getInode state (searchFile state path) with
        | none => simp [got] at ran
        | some result =>
            obtain ⟨middle, pin⟩ := result
            cases pin with
            | none => simp [got] at ran
            | some q =>
                simp only [got, Option.map_some] at ran ⊢
                have table : middle.bare.inodeTable = middle.inodeTable := rfl
                simp only [table]
                split at ran
                next special =>
                  cases ran
                  exact if_pos special
                next regular =>
                  rw [if_neg regular]
                  split at ran
                  next open' =>
                    cases ran
                    exact if_pos open'
                  next closed =>
                    rw [if_neg closed]
                    cases ran
                    rw [removeFile_bare]

theorem Sound.bareUnlink (sound : Sound state.bare) (ran : doUnlink state path = some (next, ret)) :
    Sound next.bare := by
  have bare := doUnlink_bare ran
  exact (@Sound.perform _ _ sound (.unlink path) trivial _ bare).bare

end AempOS.Fs
