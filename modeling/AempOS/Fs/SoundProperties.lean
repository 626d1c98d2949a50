import AempOS.Fs.Consistency

/-! Each call keeps the file system sound, as long as a create finds space. -/

set_option autoImplicit false

namespace AempOS.Fs

open Lib

/-- The inode map has a clear bit, and the partition has a run of
`NR_DEFAULT_FILE_SECTS` data sectors that are not allocated. -/
def SpaceLeft (state : FsState) : Prop :=
  (∃ n < sectorBits, inodeBit state.disk n = false) ∧
    ∃ sect, state.sb.n1stSect ≤ sect ∧ sect + nrDefaultFileSects ≤ state.sb.nrSects ∧
      ∀ s, sect ≤ s → s < sect + nrDefaultFileSects →
        sectorBit state.disk (s - state.sb.n1stSect + 1) = false

section Space

variable {state : FsState}

theorem volume_imap (state : FsState) {n : Nat} (inside : n < 4096) :
    state.volume.imap n = inodeBit state.disk n := by
  have small : n < sectorBits := inside
  simp only [FsState.volume, volumeOf, decide_eq_true small, Bool.true_and]

theorem volume_smap (state : FsState) {c : Nat} (inside : c < state.sb.nrSmapSects * 4096) :
    state.volume.smap c = sectorBit state.disk c := by
  have small : c < state.sb.nrSmapSects * sectorBits := inside
  simp only [FsState.volume, volumeOf, decide_eq_true small, Bool.true_and]

theorem volume_records (state : FsState) {n : Nat} (low : 1 ≤ n) (high : n ≤ 4096) :
    state.volume.records n = recordOf state.sb state.disk n := by
  have inside : 1 ≤ n ∧ n ≤ sectorBits := ⟨low, high⟩
  simp only [FsState.volume, volumeOf, if_pos inside]

theorem SpaceLeft.volume (space : SpaceLeft state) (layout : Layout state.sb) :
    (∃ n < 4096, state.volume.imap n = false) ∧
      ∃ sect, state.sb.n1stSect ≤ sect ∧ sect + 2048 ≤ state.sb.nrSects ∧
        ∀ s, sect ≤ s → s < sect + 2048 →
          state.volume.smap (s - state.sb.n1stSect + 1) = false := by
  obtain ⟨⟨n, inside, free⟩, sect, low, high, clear⟩ := space
  have covers := layout.covers
  unfold sectorBits at covers
  unfold nrDefaultFileSects at high clear
  refine ⟨⟨n, inside, by rw [volume_imap state inside, free]⟩, sect, low, high, fun s from' upto => ?_⟩
  have bound : s - state.sb.n1stSect + 1 < state.sb.nrSmapSects * 4096 := by
    have first := layout.first
    omega
  rw [volume_smap state bound]
  exact clear s from' upto

theorem SpaceLeft.someClear (space : SpaceLeft state) (layout : Layout state.sb) :
    SomeClear state := by
  obtain ⟨inodes, sect, low, high, clear⟩ := space.volume layout
  have covers := layout.covers
  have first := layout.first
  refine ⟨inodes, sect - state.sb.n1stSect + 1, by omega, clear sect (Nat.le_refl _) (by omega)⟩

end Space

section Steps

variable {state next : FsState}

/-- Descriptors that are reserved or free point to nothing. -/
theorem Sound.reserve (sound : Sound state) : Sound (reserveDesc state (freeDesc state)) := by
  cases slot : freeDesc state with
  | none => exact sound
  | some d =>
      have free : (state.fDescTable d).inode = .free := by
        have passes := (firstFrom_some slot).2.2.1
        simpa using passes
      have opened := sound.opened
      refine ⟨⟨sound.layout, sound.addressed, ?_, sound.extents, sound.cached, ?_⟩, sound.listed⟩
      · have root := sound.root
        exact ⟨root.slot, root.used, root.num, root.start, root.fits, root.whole, root.bounded⟩
      · have held (e q : Nat) (points : (Function.update state.fDescTable d
            { state.fDescTable d with inode := .reserved } e).inode = .slot q) :
            (state.fDescTable e).inode = .slot q := by
          by_cases here : e = d
          · subst here
            rw [Function.update_self] at points
            cases points
          · rwa [Function.update_of_ne here] at points
        refine ⟨fun e q points => opened.live e q (held e q points),
          fun e f q left right => opened.single e f q (held e q left) (held f q right),
          fun pid fd e link => ?_, opened.once⟩
        obtain ⟨q, points⟩ := opened.linked pid fd e link
        have apart : e ≠ d := by
          rintro rfl
          rw [free] at points
          cases points
        refine ⟨q, ?_⟩
        show (Function.update state.fDescTable d _ e).inode = .slot q
        rw [Function.update_of_ne apart]
        exact points

variable {pid flags n b p k size fd d : Nat} {name : List Byte}

/-- The run of a new file: the least one that no file has. -/
theorem Sound.newRun (sound : Sound state) (space : SpaceLeft state)
    (created : FileCreated state pid flags name next n b p k size fd d) :
    ∃ j, b = 1 + 2048 * j ∧
      RunRecord state.sb (freshInode n (b + state.sb.n1stSect - 1)).toInodeRecord j ∧
      (∀ m, Live state.volume m → (state.volume.records m).startSect ≠ b + state.sb.n1stSect - 1) ∧
      min nrDefaultFileSects (state.sb.nrSmapSects * sectorBits - b) = 2048 := by
  obtain ⟨inside, free, _⟩ := created.inode
  obtain ⟨j, rfl, low, high, fits, unused⟩ := sound.extents.least_run sound.layout free inside
    created.run (space.volume sound.layout).2
  have covers := sound.layout.covers
  have start : 1 + 2048 * j + state.sb.n1stSect - 1 = state.sb.n1stSect + 2048 * j := by omega
  rw [start]
  refine ⟨j, rfl, ⟨rfl, rfl, rfl, low, high, fits⟩, unused, ?_⟩
  unfold nrDefaultFileSects
  have first := sound.layout.first
  omega

/-- The volume with the new file, before its directory entry. -/
def FsState.grown (state : FsState) (n b : Nat) : Volume :=
  state.volume.withFile n b (min nrDefaultFileSects (state.sb.nrSmapSects * sectorBits - b))
    (freshInode n (b + state.sb.n1stSect - 1)).toInodeRecord

theorem Sound.newExtents (sound : Sound state) (space : SpaceLeft state)
    (created : FileCreated state pid flags name next n b p k size fd d) :
    Extents state.sb (state.grown n b) := by
  obtain ⟨j, aligned, record, unused, whole⟩ := sound.newRun space created
  rw [FsState.grown, whole]
  subst aligned
  exact sound.extents.take created.inode.2.1 created.inode.1 record unused

theorem Sound.newSize (sound : Sound state)
    (created : FileCreated state pid flags name next n b p k size fd d) :
    size = size / dirEntrySize * dirEntrySize ∧ size / dirEntrySize < maxEntries ∧
      (k < state.nrEntries ∧ size / dirEntrySize = state.nrEntries ∨
        k = state.nrEntries ∧ size / dirEntrySize = state.nrEntries + 1) := by
  obtain ⟨inside, free, _⟩ := created.inode
  have whole := sound.root.whole
  have bounded := sound.root.nrEntries_lt
  have number : state.nrEntries = state.dir.size / dirEntrySize := rfl
  unfold maxEntries at bounded ⊢
  unfold dirEntrySize at whole number ⊢
  rcases created.place with ⟨below, _, same⟩ | ⟨behind, full, grown⟩
  · omega
  · have room := sound.listed.room sound.extents full (Nat.le_of_lt bounded) free inside
    unfold dirEntrySize at grown
    omega

theorem RootHeld.resize (root : RootHeld state) {table : Nat → Inode}
    (dir : table state.rootInode = resized state.dir size)
    (whole : size = size / dirEntrySize * dirEntrySize) (bounded : size / dirEntrySize < maxEntries)
    (disk : Disk) (descs : Nat → FileDesc) (filp : Nat → Nat → Option Nat) :
    RootHeld { state with
      disk := disk
      inodeTable := table
      fDescTable := descs
      filp := filp } := by
  have held := root.fits
  have small : size < 2 ^ 32 := by
    unfold maxEntries at bounded
    unfold dirEntrySize at whole bounded
    omega
  have fits : (resized state.dir size).toInodeRecord.Fits :=
    { mode := held.mode
      size := small
      startSect := held.startSect
      nrSects := held.nrSects }
  have here : FsState.dir { state with
      disk := disk
      inodeTable := table
      fDescTable := descs
      filp := filp } = resized state.dir size := dir
  exact ⟨root.slot, here ▸ root.used, here ▸ root.num, here ▸ root.start, here ▸ fits, here ▸ whole,
    here ▸ bounded⟩

/-- A changed size of the directory keeps the table in step with the disk. -/
theorem Cached.resizeRoot {volume : Volume} {table : Nat → Inode} (cached : Cached volume table)
    {root : Nat} (slot : root < 64) (used : (table root).cnt ≠ 0) (num : (table root).num = 1)
    (size k : Nat) (entry : DirEntry) :
    Cached ((volume.putEntry k entry).putRecord 1 (resized (table root) size).toInodeRecord)
      (Function.update table root (resized (table root) size)) := by
  have alone : ∀ i < 64, i ≠ root → (table i).cnt ≠ 0 → (table i).num ≠ 1 :=
    fun i inside apart held same => apart (cached.unique i inside root slot held used (same.trans num.symm))
  refine cached.put (fun i inside apart held => ?_) (cached.counted root slot) (fun _ => ?_)
    fun _ i inside apart held => num ▸ alone i inside apart held
  · exact Volume.putRecord_other (alone i inside apart held)
  · have numbered : (resized (table root) size).num = 1 := num
    rw [numbered]
    exact ⟨by omega, by omega, Volume.putRecord_self.symm⟩

theorem Coherent.rootRecord (coherent : Coherent state) :
    state.dir.toInodeRecord = state.volume.records 1 := by
  have agrees := coherent.cached.agrees state.rootInode coherent.root.slot (ne_of_gt coherent.root.used)
  exact agrees.2.2.trans (congrArg _ coherent.root.num)

theorem FileCreated.volume_eq (created : FileCreated state pid flags name next n b p k size fd d) :
    next.volume = ((state.grown n b).putEntry k ((state.volume.entries k).renamed n name)).putRecord 1
      (resized state.dir size).toInodeRecord := by
  obtain ⟨disk, rfl, volume⟩ := created.effect
  exact volume

theorem FileCreated.nrEntries_eq (created : FileCreated state pid flags name next n b p k size fd d) :
    next.nrEntries = size / dirEntrySize := by
  obtain ⟨disk, rfl, _⟩ := created.effect
  simp only [FsState.nrEntries, FsState.dir, Function.update_self]
  rfl

theorem FileCreated.dir (created : FileCreated state pid flags name next n b p k size fd d)
    (sound : Sound state) (inode : Inode) :
    p ≠ state.rootInode ∧
      Function.update state.inodeTable p inode state.rootInode = state.dir := by
  have five := sound.extents.five created.inode.2.1
  have apart := created.slot.ne_root sound.root (by omega)
  exact ⟨apart, Function.update_of_ne apart.symm _ _⟩

theorem FileCreated.cached (created : FileCreated state pid flags name next n b p k size fd d)
    (sound : Sound state) (entry : DirEntry) :
    Cached (((state.grown n b).putEntry k entry).putRecord 1
        (resized state.dir size).toInodeRecord)
      (Function.update (Function.update state.inodeTable p
        (freshInode n (b + state.sb.n1stSect - 1))) state.rootInode (resized state.dir size)) := by
  have foreign := created.slot.others sound.cached
  have five := sound.extents.five created.inode.2.1
  obtain ⟨_, dir⟩ := created.dir sound (freshInode n (b + state.sb.n1stSect - 1))
  have filed : Cached (state.grown n b) (Function.update state.inodeTable p
      (freshInode n (b + state.sb.n1stSect - 1))) := by
    refine sound.cached.put (fun i small away used => ?_) Int.one_nonneg (fun _ => ?_)
      fun _ i small away used => foreign i small away used
    · exact Volume.withFile_other (foreign i small away used)
    · exact ⟨by show 1 ≤ n; omega, created.inode.1, Volume.withFile_self.symm⟩
  have resizedRoot := filed.resizeRoot sound.root.slot (by rw [dir]; exact ne_of_gt sound.root.used)
    (by rw [dir]; exact sound.root.num) size k entry
  rw [dir] at resizedRoot
  exact resizedRoot

/-- Growing the volume by a file keeps the files there were. -/
theorem Sound.grown_live (sound : Sound state) (free : state.volume.imap n = false) (b m : Nat) :
    Live (state.grown n b) m ↔ Live state.volume m ∨ m = n :=
  live_withFile state.volume (sound.extents.five free) _ _ _ m

theorem FileCreated.opened (created : FileCreated state pid flags name next n b p k size fd d)
    (sound : Sound state) (entry : DirEntry) :
    Opened (((state.grown n b).putEntry k entry).putRecord 1
        (resized state.dir size).toInodeRecord)
      (Function.update (Function.update state.inodeTable p
        (freshInode n (b + state.sb.n1stSect - 1))) state.rootInode (resized state.dir size))
      (Function.update state.fDescTable d { mode := flags, pos := 0, inode := .slot p })
      (Function.update state.filp pid (Function.update (state.filp pid) fd (some d))) := by
  obtain ⟨_, free, _⟩ := created.inode
  obtain ⟨apart, dir⟩ := created.dir sound (freshInode n (b + state.sb.n1stSect - 1))
  have lives := sound.grown_live free b
  have alone (e : Nat) : (state.fDescTable e).inode ≠ .slot p := by
    intro points
    obtain ⟨_, _, used, live⟩ := sound.opened.live e p points
    rcases created.slot.2 with ⟨_, same⟩ | ⟨empty, _⟩
    · exact live.ne_of_free free same
    · exact used empty
  have descFree : (state.fDescTable d).inode = .free := by
    have passes := (firstFrom_some created.desc).2.2.1
    simpa using passes
  have descInside : d < 64 := by
    have below := (firstFrom_some created.desc).2.1
    unfold nrFileDesc at below
    omega
  refine (sound.opened.keep (fun _ => rfl) fun e q points inside used live => ?_).link rfl descInside
    descFree created.slot.1 ?_ ?_ alone
  · have away : q ≠ p := by
      rintro rfl
      exact alone e points
    by_cases here : q = state.rootInode
    · have num := sound.root.num
      have five := live.1
      rw [here] at five
      unfold FsState.dir at num
      omega
    · rw [Function.update_of_ne here, Function.update_of_ne away]
      exact ⟨used, (lives _).mpr (.inl live)⟩
  · rw [Function.update_of_ne apart, Function.update_self]
    exact Int.one_ne_zero
  · rw [Function.update_of_ne apart, Function.update_self]
    exact (lives n).mpr (.inr rfl)

theorem FileCreated.listed (created : FileCreated state pid flags name next n b p k size fd d)
    (sound : Sound state) :
    Listed (((state.grown n b).putEntry k ((state.volume.entries k).renamed n name)).putRecord 1
      (resized state.dir size).toInodeRecord) (size / dirEntrySize) := by
  obtain ⟨inside, free, _⟩ := created.inode
  have five := sound.extents.five free
  have lives := sound.grown_live free b
  refine sound.listed.add five free ((lives n).mpr (.inr rfl)) inside ?_ (fun l away => ?_)
    (fun m live => (lives m).mpr (.inl live)) (fun m away => ?_) (sound.newSize created).2.2
  · exact congrArg DirEntry.inodeNr Volume.putEntry_self
  · exact Volume.putEntry_other away
  · by_cases first : m = 1
    · subst first
      rw [Volume.putRecord_self, ← sound.rootRecord]
      rfl
    · rw [Volume.putRecord_other first]
      exact congrArg InodeRecord.mode (Volume.withFile_other away)

theorem Sound.create (sound : Sound state) (space : SpaceLeft state)
    (created : FileCreated state pid flags name next n b p k size fd d) : Sound next := by
  obtain ⟨whole, bounded, _⟩ := sound.newSize created
  have extents := sound.newExtents space created
  have cached := created.cached sound ((state.volume.entries k).renamed n name)
  have opened := created.opened sound ((state.volume.entries k).renamed n name)
  have listed := created.listed sound
  have five := sound.extents.five created.inode.2.1
  obtain ⟨_, dir⟩ := created.dir sound (freshInode n (b + state.sb.n1stSect - 1))
  have same := created.volume_eq
  have number := created.nrEntries_eq
  rw [← same] at cached opened listed
  rw [← number] at listed
  obtain ⟨disk, rfl, _⟩ := created.effect
  refine ⟨⟨sound.layout, sound.addressed,
    sound.root.resize (Function.update_self _ _ _) whole bounded _ _ _, ?_, cached, opened⟩, listed⟩
  rw [same]
  refine extents.resize rfl rfl fun m => ?_
  by_cases first : m = 1
  · subst first
    have away : (1 : Nat) ≠ n := by omega
    have before : (state.grown n b).records 1 = state.dir.toInodeRecord :=
      (Volume.withFile_other away).trans sound.rootRecord.symm
    rw [before, Volume.putRecord_self]
    exact ⟨rfl, rfl, rfl⟩
  · rw [Volume.putRecord_other first]
    exact ⟨rfl, rfl, rfl⟩

theorem Sound.refer_cases (sound : Sound state) (low : 1 ≤ n) (high : n < 4096)
    (referenced : Referenced state n next) :
    ∃ p inode, SlotFor state n p ∧ next = state.setInode p inode ∧ 0 < inode.cnt ∧ inode.num = n ∧
      inode.toInodeRecord = state.volume.records n ∧
      (p = state.rootInode → inode = state.dir.held) := by
  obtain ⟨p, _, slot, moved⟩ := referenced
  have counted := sound.cached.counted p slot.1
  have rootCount : 0 < (state.inodeTable state.rootInode).cnt := sound.root.used
  rcases moved with ⟨used, rfl⟩ | ⟨free, rfl⟩
  · have same : (state.inodeTable p).num = n := by
      rcases slot.2 with ⟨_, same⟩ | ⟨empty, _⟩
      · exact same
      · exact absurd empty used
    have agrees := (sound.cached.agrees p slot.1 used).2.2
    refine ⟨p, _, slot, rfl, by simp only [Inode.held]; omega, same, same ▸ agrees, ?_⟩
    rintro rfl
    rfl
  · refine ⟨p, _, slot, rfl, Int.one_pos, rfl, (volume_records state low (Nat.le_of_lt high)).symm, ?_⟩
    rintro rfl
    omega

/-- The directory in memory with another slot of the table, or with one more
reference. -/
private theorem dir_setInode {inode : Inode} (held : p = state.rootInode → inode = state.dir.held) :
    FsState.dir (state.setInode p inode) = state.dir ∨
      FsState.dir (state.setInode p inode) = state.dir.held := by
  by_cases here : p = state.rootInode
  · refine .inr ?_
    rw [held here, here]
    simp only [FsState.dir, FsState.setInode, Function.update_self]
  · refine .inl ?_
    simp only [FsState.dir, FsState.setInode, Function.update_of_ne (Ne.symm here)]

/-- A kept reference changes nothing of the directory. -/
theorem Sound.refer_entries (sound : Sound state) (low : 1 ≤ n) (high : n < 4096)
    (referenced : Referenced state n next) :
    next.volume = state.volume ∧ next.nrEntries = state.nrEntries := by
  obtain ⟨p, inode, _, rfl, _, _, _, held⟩ := sound.refer_cases low high referenced
  refine ⟨rfl, ?_⟩
  unfold FsState.nrEntries
  rcases dir_setInode held with same | same
  · rw [same]
  · rw [same]
    rfl

theorem Sound.refer (sound : Sound state) (low : 1 ≤ n) (high : n < 4096)
    (referenced : Referenced state n next) : Sound next := by
  obtain ⟨_, entries⟩ := sound.refer_entries low high referenced
  obtain ⟨p, inode, slot, rfl, positive, num, record, held⟩ := sound.refer_cases low high referenced
  have foreign := slot.others sound.cached
  have root := sound.root
  refine ⟨⟨sound.layout, sound.addressed, ?_, sound.extents, ?_, ?_⟩, ?_⟩
  · rcases dir_setInode held with same | same
    · exact ⟨root.slot, same ▸ root.used, same ▸ root.num, same ▸ root.start, same ▸ root.fits,
        same ▸ root.whole, same ▸ root.bounded⟩
    · have more : 0 < state.dir.held.cnt := by
        have used := root.used
        simp only [Inode.held]
        omega
      exact ⟨root.slot, same ▸ more, same ▸ root.num, same ▸ root.start, same ▸ root.fits,
        same ▸ root.whole, same ▸ root.bounded⟩
  · refine sound.cached.put (fun _ _ _ _ => rfl) (Int.le_of_lt positive) (fun _ => ?_)
      fun _ i inside apart used => num ▸ foreign i inside apart used
    rw [num]
    exact ⟨low, high, record⟩
  · refine sound.opened.keep (fun _ => rfl) fun e q points inside used live => ?_
    show (Function.update state.inodeTable p inode q).cnt ≠ 0 ∧
      Live state.volume (Function.update state.inodeTable p inode q).num
    by_cases here : q = p
    · subst here
      rw [Function.update_self]
      rcases slot.2 with ⟨_, same⟩ | ⟨empty, _⟩
      · exact ⟨ne_of_gt positive, by rw [num, ← same]; exact live⟩
      · exact absurd empty used
    · rw [Function.update_of_ne here]
      exact ⟨used, live⟩
  · rw [entries]
    exact sound.listed

theorem Sound.live_slot (sound : Sound state) {q : Nat}
    (live : Live state.volume (state.inodeTable q).num) : q ≠ state.rootInode := by
  rintro rfl
  have num : (state.inodeTable state.rootInode).num = 1 := sound.root.num
  have five := live.1
  omega

/-- A close is of a file, whose slot is not that of the directory. -/
theorem Sound.close_cases (sound : Sound state) {ret : Int}
    (ran : doClose state pid fd = some (next, ret)) :
    ∃ i pin, state.filp pid fd = some i ∧ (state.fDescTable i).inode = .slot pin ∧ pin < 64 ∧
      (state.inodeTable pin).cnt ≠ 0 ∧
      Function.update state.inodeTable pin (state.inodeTable pin).released state.rootInode = state.dir ∧
      next = { state with
        inodeTable := Function.update state.inodeTable pin (state.inodeTable pin).released
        fDescTable := Function.update state.fDescTable i { state.fDescTable i with inode := .free }
        filp := Function.update state.filp pid (Function.update (state.filp pid) fd none) } := by
  obtain ⟨i, pin, link, same⟩ := doClose_cases ran
  obtain ⟨_, filp, points⟩ := opened_iff.mp link
  obtain ⟨_, slot, used, live⟩ := sound.opened.live i pin points
  exact ⟨i, pin, filp, points, slot, used,
    Function.update_of_ne (sound.live_slot live).symm _ _, same⟩

theorem Sound.close_entries (sound : Sound state) {ret : Int}
    (ran : doClose state pid fd = some (next, ret)) :
    next.volume = state.volume ∧ next.nrEntries = state.nrEntries := by
  obtain ⟨i, pin, _, _, _, _, dir, rfl⟩ := sound.close_cases ran
  refine ⟨rfl, ?_⟩
  simp only [FsState.nrEntries, FsState.dir, dir]

theorem Sound.close (sound : Sound state) {ret : Int}
    (ran : doClose state pid fd = some (next, ret)) : Sound next := by
  obtain ⟨_, entries⟩ := sound.close_entries ran
  obtain ⟨i, pin, filp, points, slot, used, dir, rfl⟩ := sound.close_cases ran
  have counted := sound.cached.counted pin slot
  have opened := sound.opened.unlink filp
  refine ⟨⟨sound.layout, sound.addressed,
    sound.root.resize dir sound.root.whole sound.root.bounded _ _ _, sound.extents, ?_, ?_⟩, ?_⟩
  · refine sound.cached.put (fun _ _ _ _ => rfl) (by simp only [Inode.released]; omega)
      (fun _ => sound.cached.agrees pin slot used)
      fun _ j inside away held same => away (sound.cached.unique j inside pin slot held used same)
  · refine opened.keep (fun _ => rfl) fun e q held inside referenced file => ?_
    have away : q ≠ pin := by
      rintro rfl
      by_cases here : e = i
      · subst here
        rw [Function.update_self] at held
        cases held
      · rw [Function.update_of_ne here] at held
        exact here (sound.opened.single e i q held points)
    show (Function.update state.inodeTable pin (state.inodeTable pin).released q).cnt ≠ 0 ∧
      Live state.volume (Function.update state.inodeTable pin (state.inodeTable pin).released q).num
    rw [Function.update_of_ne away]
    exact ⟨referenced, file⟩
  · rw [entries]
    exact sound.listed

/-- A write that stays inside the capacity of the file. -/
def WithinCapacity (state : FsState) (pid fd length : Nat) : Prop :=
  ∀ i pin, opened state pid fd = some (i, pin) →
    (state.fDescTable i).pos + length ≤ (state.inodeTable pin).nrSects * sectorSize

/-- A write changes the size of one file, in memory and on the disk. -/
structure FileWritten (state : FsState) (i pin size pos : Nat) (disk : Disk) (next : FsState) : Prop where
  slot : pin < 64
  used : (state.inodeTable pin).cnt ≠ 0
  dir : Function.update state.inodeTable pin (resized (state.inodeTable pin) size) state.rootInode =
    state.dir
  effect : next = { state with
    disk := disk
    inodeTable := Function.update state.inodeTable pin (resized (state.inodeTable pin) size)
    fDescTable := Function.update state.fDescTable i { state.fDescTable i with pos := pos } }
  volume : volumeOf state.sb disk = state.volume.putRecord (state.inodeTable pin).num
    (resized (state.inodeTable pin) size).toInodeRecord

theorem Sound.write_cases (sound : Sound state) {data : List Byte} {ret : Int}
    (capacity : WithinCapacity state pid fd data.length)
    (ran : doWrite state pid fd data = some (next, ret)) :
    ∃ i pin size pos disk, FileWritten state i pin size pos disk next := by
  obtain ⟨⟨i, pin⟩, link⟩ : ∃ pair, opened state pid fd = some pair := by
    cases link : opened state pid fd with
    | none => rw [doWrite, link] at ran; cases ran
    | some pair => exact ⟨pair, rfl⟩
  obtain ⟨_, _, points⟩ := opened_iff.mp link
  obtain ⟨_, slot, used, live⟩ := sound.opened.live i pin points
  obtain ⟨lowNum, highNum, agrees⟩ := sound.cached.agrees pin slot used
  obtain ⟨j, run⟩ := sound.extents.run _ live
  rw [← agrees] at run
  have start := run.start
  have sects := run.sects
  have low := run.low
  have high := run.high
  have addressed := sound.addressed
  have fits : (state.inodeTable pin).toInodeRecord.Fits := by
    rw [agrees, volume_records state lowNum (Nat.le_of_lt highNum)]
    exact readRecord_fits _ _
  obtain ⟨size, pos, disk, effect, _, volume⟩ := doWrite_cases ran sound.layout link
    (by unfold nrDefaultFileSects; omega) (by omega) (capacity i pin link)
    ⟨lowNum, Nat.le_of_lt highNum⟩ fits agrees
  exact ⟨i, pin, size, pos, disk, slot, used,
    Function.update_of_ne (sound.live_slot live).symm _ _, effect, volume⟩

theorem FileWritten.entries {i pin pos : Nat} {disk : Disk}
    (written : FileWritten state i pin size pos disk next) :
    next.volume.entries = state.volume.entries ∧ next.nrEntries = state.nrEntries := by
  have dir := written.dir
  have volume := written.volume
  have effect := written.effect
  subst effect
  constructor
  · show (volumeOf state.sb disk).entries = state.volume.entries
    rw [volume]
    rfl
  · simp only [FsState.nrEntries, FsState.dir, dir]

theorem Sound.write (sound : Sound state) {data : List Byte} {ret : Int}
    (capacity : WithinCapacity state pid fd data.length)
    (ran : doWrite state pid fd data = some (next, ret)) : Sound next := by
  obtain ⟨i, pin, size, pos, disk, written⟩ := sound.write_cases capacity ran
  obtain ⟨entries, count⟩ := written.entries
  obtain ⟨slot, used, dir, rfl, volume⟩ := written
  obtain ⟨lowNum, highNum, agrees⟩ := sound.cached.agrees pin slot used
  have same (m : Nat) : ((volumeOf state.sb disk).records m).mode = (state.volume.records m).mode ∧
      ((volumeOf state.sb disk).records m).startSect = (state.volume.records m).startSect ∧
      ((volumeOf state.sb disk).records m).nrSects = (state.volume.records m).nrSects := by
    rw [volume]
    by_cases here : m = (state.inodeTable pin).num
    · rw [here, Volume.putRecord_self, ← agrees]
      exact ⟨rfl, rfl, rfl⟩
    · rw [Volume.putRecord_other here]
      exact ⟨rfl, rfl, rfl⟩
  have imap : (volumeOf state.sb disk).imap = state.volume.imap := by rw [volume]; rfl
  have smap : (volumeOf state.sb disk).smap = state.volume.smap := by rw [volume]; rfl
  refine ⟨⟨sound.layout, sound.addressed,
    sound.root.resize dir sound.root.whole sound.root.bounded _ _ _,
    sound.extents.resize imap smap same, ?_, ?_⟩, ?_⟩
  · have alone (j : Nat) (inside : j < 64) (away : j ≠ pin) (held : (state.inodeTable j).cnt ≠ 0) :
        (state.inodeTable j).num ≠ (state.inodeTable pin).num :=
      fun eq => away (sound.cached.unique j inside pin slot held used eq)
    show Cached (volumeOf state.sb disk) _
    rw [volume]
    refine sound.cached.put (fun j inside away held => ?_) (sound.cached.counted pin slot)
      (fun _ => ⟨lowNum, highNum, Volume.putRecord_self.symm⟩)
      fun _ j inside away held => alone j inside away held
    exact Volume.putRecord_other (alone j inside away held)
  · refine sound.opened.keep (fun e => ?_) fun e q held inside referenced file => ?_
    · show (Function.update state.fDescTable i _ e).inode = (state.fDescTable e).inode
      by_cases here : e = i
      · rw [here, Function.update_self]
      · rw [Function.update_of_ne here]
    · have kept : Live (volumeOf state.sb disk) (state.inodeTable q).num := ⟨file.1, imap ▸ file.2⟩
      show (Function.update state.inodeTable pin (resized (state.inodeTable pin) size) q).cnt ≠ 0 ∧
        Live (volumeOf state.sb disk)
          (Function.update state.inodeTable pin (resized (state.inodeTable pin) size) q).num
      by_cases here : q = pin
      · rw [here, Function.update_self]
        exact ⟨used, here ▸ kept⟩
      · rw [Function.update_of_ne here]
        exact ⟨referenced, kept⟩
  · rw [count]
    exact sound.listed.same imap entries fun m => (same m).1

/-- A search ends at the root itself or at an entry of the directory. -/
theorem searchFile_cases (root : RootHeld state) (path : Path) :
    searchFile state path = 0 ∨ searchFile state path = 1 ∨
      ∃ k < maxEntries, searchFile state path = state.listed k := by
  have bounded := root.nrEntries_lt
  have number : state.nrEntries = state.dir.size / dirEntrySize := rfl
  unfold searchFile
  cases stripPath path with
  | none => exact .inl rfl
  | some name =>
      by_cases empty : name = []
      · simp only [if_pos empty]
        exact .inr (.inl root.num)
      · simp only [if_neg empty]
        split
        next k found =>
          obtain ⟨_, below, _⟩ := firstFrom_some found
          have inside : k < maxEntries := by omega
          exact .inr (.inr ⟨k, inside, root.entryInode_eq inside⟩)
        next => exact .inl rfl

/-- What a search finds is an inode number, and a regular one only of a file. -/
theorem Sound.search_named (sound : Sound state) {path : Path} (found : searchFile state path ≠ 0) :
    1 ≤ searchFile state path ∧ searchFile state path < 4096 ∧
      ((state.volume.records (searchFile state path)).mode = iRegular →
        Live state.volume (searchFile state path)) := by
  rcases searchFile_cases sound.root path with zero | one | ⟨k, inside, same⟩
  · exact absurd zero found
  · rw [one]
    refine ⟨by omega, by omega, fun regular => ?_⟩
    exact absurd regular (sound.extents.special 1 (by omega) (by omega)).1
  · rw [same] at found ⊢
    obtain ⟨small, kind⟩ := sound.listed.named k inside found
    exact ⟨Nat.one_le_iff_ne_zero.mpr found, small, fun regular =>
      kind.resolve_right fun other => other regular⟩

/-- After the maps and the inode array, before the directory. -/
theorem Sound.erase (sound : Sound state) (live : Live state.volume n) {j : Nat}
    (record : RunRecord state.sb (state.volume.records n) j) (slot : SlotFor state n p)
    (free : (state.inodeTable p).cnt = 0) {disk : Disk}
    (volume : volumeOf state.sb disk = state.volume.withoutFile n (1 + 2048 * j) 2048)
    {inode : Inode} (count : inode.cnt = 0) :
    Coherent { state with
      disk := disk
      inodeTable := Function.update state.inodeTable p inode } := by
  have five := live.1
  have apart := slot.ne_root sound.root (show n ≠ 1 by omega)
  have foreign := slot.others sound.cached
  refine ⟨sound.layout, sound.addressed, sound.root.other disk apart inode, ?_, ?_, ?_⟩
  · show Extents state.sb (volumeOf state.sb disk)
    rw [volume]
    exact sound.extents.release live record
  · show Cached (volumeOf state.sb disk) _
    rw [volume]
    refine sound.cached.put (fun i inside away used => ?_) (Int.le_of_eq count.symm)
      (fun used => absurd count used) fun used => absurd count used
    exact Volume.withoutFile_other (foreign i inside away used)
  · refine sound.opened.keep (fun _ => rfl) fun e q points inside used file => ?_
    have away : q ≠ p := by
      rintro rfl
      exact used free
    show (Function.update state.inodeTable p inode q).cnt ≠ 0 ∧
      Live (volumeOf state.sb disk) (Function.update state.inodeTable p inode q).num
    rw [Function.update_of_ne away, volume, live_withoutFile]
    exact ⟨used, file, foreign q inside away used⟩

/-- Another directory entry and another size of the directory. -/
theorem Coherent.relist (coherent : Coherent state) {disk : Disk} {entry : DirEntry}
    (whole : size = size / dirEntrySize * dirEntrySize) (bounded : size / dirEntrySize < maxEntries)
    (volume : volumeOf state.sb disk = (state.volume.putEntry k entry).putRecord 1
      (resized state.dir size).toInodeRecord) :
    Coherent { state with
      disk := disk
      inodeTable := Function.update state.inodeTable state.rootInode (resized state.dir size) } := by
  have root := coherent.root
  have agrees := coherent.rootRecord
  refine ⟨coherent.layout, coherent.addressed,
    root.resize (Function.update_self _ _ _) whole bounded _ _ _, ?_, ?_, ?_⟩
  · show Extents state.sb (volumeOf state.sb disk)
    rw [volume]
    refine coherent.extents.resize rfl rfl fun m => ?_
    by_cases first : m = 1
    · rw [first, Volume.putRecord_self, ← agrees]
      exact ⟨rfl, rfl, rfl⟩
    · rw [Volume.putRecord_other first]
      exact ⟨rfl, rfl, rfl⟩
  · show Cached (volumeOf state.sb disk) _
    rw [volume]
    exact coherent.cached.resizeRoot root.slot (ne_of_gt root.used) root.num size k entry
  · refine coherent.opened.keep (fun _ => rfl) fun e q points inside used file => ?_
    have kept : Live (volumeOf state.sb disk) (state.inodeTable q).num := by
      rw [volume]
      exact file
    show (Function.update state.inodeTable state.rootInode (resized state.dir size) q).cnt ≠ 0 ∧
      Live (volumeOf state.sb disk)
        (Function.update state.inodeTable state.rootInode (resized state.dir size) q).num
    by_cases here : q = state.rootInode
    · rw [here] at kept ⊢
      rw [Function.update_self]
      exact ⟨ne_of_gt root.used, kept⟩
    · rw [Function.update_of_ne here]
      exact ⟨used, kept⟩

theorem Coherent.reentry (coherent : Coherent state) {disk : Disk} {entry : DirEntry}
    (volume : volumeOf state.sb disk = state.volume.putEntry k entry) :
    Coherent { state with disk := disk } := by
  have same : resized state.dir state.dir.size = state.dir := rfl
  have again : (state.volume.putEntry k entry).putRecord 1
      (resized state.dir state.dir.size).toInodeRecord = state.volume.putEntry k entry := by
    rw [same, coherent.rootRecord, Volume.putRecord]
    exact congrArg (fun records => { state.volume.putEntry k entry with records := records })
      (Function.update_eq_self 1 state.volume.records)
  have listed := coherent.relist coherent.root.whole coherent.root.bounded
    (volume.trans again.symm)
  have table : Function.update state.inodeTable state.rootInode
      (resized state.dir state.dir.size) = state.inodeTable := Function.update_eq_self _ _
  rw [table] at listed
  exact listed

/-- What a successful unlink does, up to the directory. -/
structure FileErased (state : FsState) (n j : Nat) (middle : FsState) : Prop where
  coherent : Coherent middle
  live : Live state.volume n
  volume : middle.volume = state.volume.withoutFile n (1 + 2048 * j) 2048
  sb : middle.sb = state.sb
  dir : middle.dir = state.dir
  tables : middle.rootInode = state.rootInode ∧ middle.fDescTable = state.fDescTable ∧
    middle.filp = state.filp ∧
    ∀ i, (state.inodeTable i).cnt = 0 → (middle.inodeTable i).cnt = 0

theorem FileErased.listed {middle : FsState} {j : Nat} (erased : FileErased state n j middle) :
    middle.listed = state.listed ∧ middle.nrEntries = state.nrEntries := by
  constructor
  · funext k
    rw [FsState.listed, erased.volume]
    rfl
  · rw [FsState.nrEntries, erased.dir]
    rfl

theorem Sound.unlink_cases (sound : Sound state) {path : Path} {ret : Int}
    (ran : doUnlink state path = some (next, ret)) :
    (ret = -1 ∧ (next = state ∨ Referenced state (searchFile state path) next)) ∨
      ret = 0 ∧ ∃ name j middle, stripPath path = some name ∧ searchFile state path ≠ 0 ∧
        FileErased state (searchFile state path) j middle ∧
        next = removeDirEntry middle (searchFile state path) := by
  rcases doUnlink_cases sound.cached.counted ran with refused | ⟨done, p, name, valid, found, slot,
    free, regular, rfl⟩
  · exact .inl refused
  · obtain ⟨low, high, file⟩ := sound.search_named found
    generalize searchFile state path = n at *
    have records := volume_records state low (Nat.le_of_lt high)
    have live := file (records ▸ regular)
    obtain ⟨j, record⟩ := sound.extents.run n live
    have start := record.start
    have sects := record.sects
    have fits := record.fits
    have covers := sound.layout.covers
    rw [records] at start sects fits
    have table : (state.setInode p (loadedInode state n)).inodeTable p = loadedInode state n :=
      Function.update_self _ _ _
    have place : ((state.setInode p (loadedInode state n)).inodeTable p).startSect =
        1 + 2048 * j + state.sb.n1stSect - 1 := by
      rw [table]
      show (recordOf state.sb state.disk n).startSect = _
      omega
    have count : ((state.setInode p (loadedInode state n)).inodeTable p).nrSects = 2048 := by
      rw [table]
      exact sects
    have number : ((state.setInode p (loadedInode state n)).inodeTable p).num = n := by
      rw [table]
      rfl
    obtain ⟨disk, same, volume⟩ := removeFile_eq number sound.layout place count ⟨low, high⟩
      (show 1 ≤ 1 + 2048 * j ∧ 0 < 2048 ∧
        1 + 2048 * j + 2048 ≤ state.sb.nrSmapSects * sectorBits by omega)
    have apart := slot.ne_root sound.root (show n ≠ 1 by have := live.1; omega)
    refine .inr ⟨done, name, j, { state with
        disk := disk
        inodeTable := Function.update state.inodeTable p (loadedInode state n).erased }, valid, found,
      ⟨sound.erase live record slot free volume rfl, live, volume, rfl,
        Function.update_of_ne apart.symm _ _, rfl, rfl, rfl, fun i unused => ?_⟩, ?_⟩
    · show (Function.update state.inodeTable p (loadedInode state n).erased i).cnt = 0
      by_cases here : i = p
      · rw [here, Function.update_self]
        rfl
      · rw [Function.update_of_ne here]
        exact unused
    · rw [same, table]
      simp only [FsState.setInode, Function.update_idem]

/-- The list of files after a removal: inode `n` is in no entry any more. -/
theorem FileErased.relist {middle : FsState} {j count : Nat} (erased : FileErased state n j middle)
    (sound : Sound state) {volume : Volume} (fewer : count ≤ state.nrEntries)
    (imap : volume.imap = middle.volume.imap)
    (modes : ∀ m, (volume.records m).mode = (middle.volume.records m).mode)
    (entries : ∀ l, (volume.entries l).inodeNr = state.listed l ∨ (volume.entries l).inodeNr = 0)
    (clean : ∀ l < count, (volume.entries l).inodeNr ≠ n) : Listed volume count := by
  have lives (m : Nat) : Live volume m ↔ Live state.volume m ∧ m ≠ n := by
    rw [← live_withoutFile, ← erased.volume, Live, Live, imap]
  refine sound.listed.remove fewer entries clean (fun m apart live => (lives m).mpr ⟨live, apart⟩) ?_
    fun m apart => ?_
  · rw [modes, erased.volume, Volume.withoutFile_self]
    decide
  · rw [modes, erased.volume, Volume.withoutFile_other apart]

theorem Sound.remove (sound : Sound state) {j : Nat} {middle : FsState}
    (erased : FileErased state n j middle) : Sound (removeDirEntry middle n) := by
  have coherent := erased.coherent
  obtain ⟨listed, number⟩ := erased.listed
  have nonzero : n ≠ 0 := by
    have five := erased.live.1
    omega
  -- an entry other than the one that is emptied names another inode
  have alone {k l : Nat} (here : k < state.nrEntries) (same : state.listed k = n) (apart : l ≠ k)
      (inside : l < state.nrEntries) : state.listed l ≠ n := by
    intro also
    exact apart (sound.listed.distinct l inside k here (by rw [← also] at nonzero; exact nonzero)
      (also.trans same.symm))
  have emptied {k l : Nat} (same : l = k ∨ state.listed l ≠ n) :
      ((middle.volume.putEntry k emptyEntry).entries l).inodeNr ≠ n := by
    by_cases here : l = k
    · rw [here, Volume.putEntry_self]
      exact nonzero.symm
    · rw [Volume.putEntry_other here]
      intro named
      exact same.resolve_left here ((congrFun listed l).symm.trans named)
  have either (k l : Nat) : ((middle.volume.putEntry k emptyEntry).entries l).inodeNr =
      state.listed l ∨ ((middle.volume.putEntry k emptyEntry).entries l).inodeNr = 0 := by
    by_cases here : l = k
    · rw [here, Volume.putEntry_self]
      exact .inr rfl
    · rw [Volume.putEntry_other here]
      exact .inl (congrFun listed l)
  rcases removeDirEntry_cases coherent.layout coherent.root n with ⟨absent, same⟩ |
    ⟨k, inside, found, ⟨_, disk, same, volume⟩ | ⟨last, disk, same, volume⟩⟩
  · rw [same]
    refine ⟨coherent, erased.relist sound (Nat.le_of_eq number) rfl (fun _ => rfl)
      (fun l => .inl (congrFun listed l)) absent⟩
  · rw [same]
    rw [listed] at found
    rw [number] at inside
    have held : FsState.volume { middle with disk := disk } = _ := volume
    refine ⟨coherent.reentry volume, ?_⟩
    rw [held]
    refine erased.relist sound (Nat.le_of_eq number) rfl (fun _ => rfl) (either k) fun l below => ?_
    by_cases here : l = k
    · exact emptied (.inl here)
    · exact emptied (.inr (alone inside found here (Nat.lt_of_lt_of_eq below number)))
  · rw [same]
    rw [listed] at found
    rw [number] at inside last
    have used := usedBefore_le middle k
    have bounded := coherent.root.nrEntries_lt
    have count : dirEntrySize * middle.usedBefore k / dirEntrySize = middle.usedBefore k :=
      Nat.mul_div_cancel_left _ (by decide)
    have whole : dirEntrySize * middle.usedBefore k =
        dirEntrySize * middle.usedBefore k / dirEntrySize * dirEntrySize := by
      rw [count, Nat.mul_comm]
    refine ⟨coherent.relist whole (by omega) volume, ?_⟩
    have entries : FsState.nrEntries { middle with
        disk := disk
        inodeTable := Function.update middle.inodeTable middle.rootInode
          (resized middle.dir (dirEntrySize * middle.usedBefore k)) } = middle.usedBefore k := by
      simp only [FsState.nrEntries, FsState.dir, Function.update_self, resized]
      exact count
    have held : FsState.volume { middle with
        disk := disk
        inodeTable := Function.update middle.inodeTable middle.rootInode
          (resized middle.dir (dirEntrySize * middle.usedBefore k)) } = _ := volume
    rw [entries, held]
    refine erased.relist sound (by omega) rfl (fun m => ?_) (either k) fun l below => ?_
    · by_cases first : m = 1
      · rw [first, Volume.putRecord_self, ← coherent.rootRecord]
        rfl
      · rw [Volume.putRecord_other first]
        rfl
    · exact emptied (.inr (alone inside found (by omega) (by omega)))

end Steps

end AempOS.Fs
