import AempOS.Fs.SpaceProperties

/-! Lookups follow the history of creates and unlinks. Unlinking the last entry
cuts the directory down to the number of entries that are left, and so loses
every file behind a hole; without such unlinks the directory says what the
history says. -/

set_option autoImplicit false

namespace AempOS.Fs

open Lib

/-- The inode number that a name has, 0 for none. -/
abbrev History := List Byte → Nat

structure ValidName (name : List Byte) : Prop where
  nonempty : name ≠ []
  short : name.length < maxFilenameLen
  noNul : 0 ∉ name

/-- The directory is in step with the history. -/
structure Recorded (volume : Volume) (count : Nat) (history : History) : Prop where
  hole : ∀ k, count ≤ k ∨ (volume.entries k).inodeNr = 0 → volume.entries k = emptyEntry
  entry : ∀ k < count, (volume.entries k).inodeNr ≠ 0 → ∃ name, ValidName name ∧
    (volume.entries k).name = padded name ∧ history name = (volume.entries k).inodeNr
  found : ∀ name, history name ≠ 0 → 0 ∉ name ∧ ∃ k < count,
    (volume.entries k).inodeNr = history name ∧ (volume.entries k).name = padded name

section Names

variable {name other : List Byte}

theorem padded_get {i : Nat} (inside : i < name.length) : padded name i = name[i] :=
  List.getD_eq_getElem _ _ inside

theorem padded_length_le (left : 0 ∉ name) (same : padded name = padded other) :
    name.length ≤ other.length := by
  by_contra longer
  have here := congrFun same other.length
  have beyond : padded other other.length = 0 := List.getD_eq_default _ _ (Nat.le_refl _)
  rw [padded_get (by omega), beyond] at here
  exact left (here ▸ List.getElem_mem _)

theorem padded_injective (left : 0 ∉ name) (right : 0 ∉ other) (same : padded name = padded other) :
    name = other := by
  have length : name.length = other.length :=
    Nat.le_antisymm (padded_length_le left same) (padded_length_le right same.symm)
  refine List.ext_getElem length fun i low high => ?_
  rw [← padded_get low, ← padded_get high, same]

theorem padded_nonzero (nonempty : name ≠ []) (noNul : 0 ∉ name) : emptyEntry.name ≠ padded name := by
  intro same
  have empty : ([] : List Byte) = name := padded_injective (List.not_mem_nil) noNul same
  exact nonempty empty.symm

end Names

section Directory

variable {volume other : Volume} {count : Nat} {history : History}

theorem Recorded.same (recorded : Recorded volume count history)
    (entries : other.entries = volume.entries) : Recorded other count history := by
  refine ⟨?_, ?_, ?_⟩
  · rw [entries]
    exact recorded.hole
  · rw [entries]
    exact recorded.entry
  · rw [entries]
    exact recorded.found

/-- Each valid name is in one entry at most, and its inode is that of the history. -/
theorem Recorded.entry_named (recorded : Recorded volume count history) {name : List Byte} {k : Nat}
    (nonempty : name ≠ []) (noNul : 0 ∉ name) (named : (volume.entries k).name = padded name) :
    k < count ∧ (volume.entries k).inodeNr ≠ 0 ∧ history name = (volume.entries k).inodeNr := by
  have used : ¬(count ≤ k ∨ (volume.entries k).inodeNr = 0) := by
    intro unused
    rw [recorded.hole k unused] at named
    exact padded_nonzero nonempty noNul named
  obtain ⟨inside, nonzero⟩ := not_or.mp used
  obtain ⟨held, valid, same, history⟩ := recorded.entry k (by omega) nonzero
  cases padded_injective valid.noNul noNul (same.symm.trans named)
  exact ⟨by omega, nonzero, history⟩

theorem Recorded.search {state : FsState} (recorded : Recorded state.volume state.nrEntries history)
    (sound : Sound state) {path : Path} {name : List Byte} (valid : stripPath path = some name)
    (nonempty : name ≠ []) : searchFile state path = history name := by
  have noNul := (stripPath_bounds valid).2
  by_cases absent : history name = 0
  · rw [absent]
    refine sound.root.search_missing valid nonempty fun k _ named => ?_
    obtain ⟨_, nonzero, same⟩ := recorded.entry_named nonempty noNul named
    exact nonzero (same.symm.trans absent)
  · obtain ⟨_, k, inside, number, named⟩ := recorded.found name absent
    rw [← number]
    refine sound.root.search_unique valid nonempty inside named fun l _ also => ?_
    obtain ⟨below, nonzero, same⟩ := recorded.entry_named nonempty noNul also
    exact sound.listed.distinct l below k inside nonzero (same.symm.trans number.symm)

theorem Recorded.add (recorded : Recorded volume count history) {name : List Byte} {n k next : Nat}
    (valid : ValidName name) (new : history name = 0) (nonzero : n ≠ 0)
    (place : k < count ∧ next = count ∧ (volume.entries k).inodeNr = 0 ∨ k = count ∧ next = count + 1)
    (here : other.entries k = { inodeNr := n, name := padded name })
    (there : ∀ l, l ≠ k → other.entries l = volume.entries l) :
    Recorded other next (Function.update history name n) := by
  have inside : k < next := by omega
  have old {l : Nat} (apart : l ≠ k) (below : l < next) : l < count := by omega
  refine ⟨fun l unused => ?_, fun l below used => ?_, fun sought known => ?_⟩
  · have apart : l ≠ k := by
      rintro rfl
      rcases unused with beyond | zero
      · omega
      · rw [here] at zero
        exact nonzero zero
    rw [there l apart] at unused ⊢
    refine recorded.hole l (unused.imp_left fun beyond => ?_)
    omega
  · by_cases apart : l = k
    · subst apart
      rw [here]
      exact ⟨name, valid, rfl, Function.update_self _ _ _⟩
    · rw [there l apart] at used ⊢
      obtain ⟨held, fine, named, number⟩ := recorded.entry l (old apart below) used
      refine ⟨held, fine, named, ?_⟩
      rw [Function.update_of_ne, number]
      rintro rfl
      exact used (number.symm.trans new)
  · by_cases same : sought = name
    · subst same
      refine ⟨valid.noNul, k, inside, ?_⟩
      rw [here, Function.update_self]
      exact ⟨rfl, rfl⟩
    · rw [Function.update_of_ne same] at known ⊢
      obtain ⟨noNul, l, below, number, named⟩ := recorded.found sought known
      have apart : l ≠ k := by
        rintro rfl
        rcases place with ⟨_, _, zero⟩ | ⟨behind, _⟩
        · exact known (number.symm.trans zero)
        · omega
      exact ⟨noNul, l, by omega, (there l apart).symm ▸ number, (there l apart).symm ▸ named⟩

/-- A name is gone. What is cut off behind `next` was empty. -/
theorem Recorded.remove (recorded : Recorded volume count history) {name : List Byte} {k next : Nat}
    (inside : k < count) (used : (volume.entries k).inodeNr = history name)
    (known : history name ≠ 0)
    (distinct : ∀ l < count, (volume.entries l).inodeNr = history name → l = k)
    (shorter : next ≤ count)
    (cut : ∀ l, next ≤ l → l < count → l ≠ k → (volume.entries l).inodeNr = 0)
    (here : other.entries k = emptyEntry) (there : ∀ l, l ≠ k → other.entries l = volume.entries l) :
    Recorded other next (Function.update history name 0) := by
  refine ⟨fun l unused => ?_, fun l below filled => ?_, fun sought listed => ?_⟩
  · by_cases apart : l = k
    · rw [apart]
      exact here
    · rw [there l apart] at unused ⊢
      refine recorded.hole l ?_
      by_cases beyond : count ≤ l
      · exact .inl beyond
      · exact .inr (unused.elim (fun past => cut l past (by omega) apart) id)
  · have apart : l ≠ k := by
      rintro rfl
      rw [here] at filled
      exact filled rfl
    rw [there l apart] at filled ⊢
    obtain ⟨held, fine, named, number⟩ := recorded.entry l (by omega) filled
    refine ⟨held, fine, named, ?_⟩
    rw [Function.update_of_ne, number]
    rintro rfl
    exact apart (distinct l (by omega) number.symm)
  · have apart : sought ≠ name := by
      rintro rfl
      rw [Function.update_self] at listed
      exact listed rfl
    rw [Function.update_of_ne apart] at listed ⊢
    obtain ⟨fine, l, below, number, named⟩ := recorded.found sought listed
    obtain ⟨noNul, m, within, held, namedHeld⟩ := recorded.found name known
    have away : l ≠ k := by
      rintro rfl
      rw [distinct m within held] at namedHeld
      exact apart (padded_injective fine noNul (named.symm.trans namedHeld))
    refine ⟨fine, l, ?_, (there l away).symm ▸ number, (there l away).symm ▸ named⟩
    by_contra past
    rw [cut l (by omega) below away] at number
    exact listed number.symm

end Directory

/-- The inode that an open got for the descriptor it returned. -/
def allocated (state : FsState) (pid : Nat) (fd : Int) : Nat :=
  match opened state pid fd.toNat with
  | some (_, pin) => (state.inodeTable pin).num
  | none => 0

/-- What a call that returned `ret` in state `next` adds to the history. -/
def History.log (history : History) (next : FsState) (ret : Int) : FsCall → History
  | .create pid path _ =>
      if ret = -1 then history
      else Function.update history ((stripPath path).getD []) (allocated next pid ret)
  | .unlink path =>
      if ret = 0 then Function.update history ((stripPath path).getD []) 0 else history
  | .close _ _ => history
  | .write _ _ _ => history

/-- The names that `mkfs` makes. -/
def mkfsHistory : History := fun name =>
  match firstFrom (fun k => name == mkfsName k) 4 0 with
  | some k => k + 1
  | none => 0

/-- The file system together with the history of its names. -/
def lookupMachine (size : Nat) (disk : Disk) : Machine (FsState × History) FsCall where
  initial pair := (fsMachine size disk).initial pair.1 ∧ pair.2 = mkfsHistory
  step pair call :=
    (perform pair.1 call).map fun result => (result.1, pair.2.log result.1 result.2 call)

/-- The last entry is not unlinked while an entry before it lies behind a hole. -/
def NothingCutOff (state : FsState) : FsCall → Prop
  | .unlink path => ∀ k, k + 1 = state.nrEntries → state.listed k = searchFile state path →
      ∀ i j, i < j → j < k → state.listed i = 0 → state.listed j = 0
  | _ => True

def KeepsNames (pair : FsState × History) (call : FsCall) : Prop :=
  Fits pair.1 call ∧ NothingCutOff pair.1 call

section Steps

variable {state next : FsState} {history : History} {pid flags : Nat} {path : Path}

theorem FileCreated.recorded {n b p k size fd d : Nat} {name : List Byte}
    (created : FileCreated state pid flags name next n b p k size fd d) (sound : Sound state)
    (recorded : Recorded state.volume state.nrEntries history) (valid : ValidName name)
    (new : history name = 0) :
    Recorded next.volume next.nrEntries (Function.update history name n) := by
  have five := sound.extents.five created.inode.2.1
  have place := (sound.newSize created).2.2
  have unused : state.volume.entries k = emptyEntry := by
    rcases created.place with ⟨_, zero, _⟩ | ⟨behind, _⟩
    · exact recorded.hole k (.inr zero)
    · exact recorded.hole k (.inl (Nat.le_of_eq behind.symm))
  have entries : next.volume.entries =
      Function.update state.volume.entries k ((state.volume.entries k).renamed n name) := by
    rw [created.volume_eq]
    rfl
  rw [created.nrEntries_eq]
  have added : k < state.nrEntries ∧ size / dirEntrySize = state.nrEntries ∧
      (state.volume.entries k).inodeNr = 0 ∨
      k = state.nrEntries ∧ size / dirEntrySize = state.nrEntries + 1 := by
    rcases place with ⟨below, same⟩ | behind
    · refine .inl ⟨below, same, ?_⟩
      rw [unused]
      rfl
    · exact .inr behind
  refine recorded.add valid new (show n ≠ 0 by omega) added ?_ fun l apart => ?_
  · rw [entries, Function.update_self, unused, DirEntry.renamed_empty rfl]
  · rw [entries, Function.update_of_ne apart]

theorem FileCreated.allocated_eq {n b p k size fd d : Nat} {name : List Byte}
    (created : FileCreated state pid flags name next n b p k size fd d) (sound : Sound state) :
    allocated next pid (fd : Int) = n := by
  obtain ⟨e, q, link, num⟩ := created.behindFd sound
  simp only [allocated, Int.toNat_natCast, link, num]

/-- Without an entry behind a hole, the entries in use come first. -/
theorem usedBefore_packed {k : Nat}
    (packed : ∀ i j, i < j → j < k → state.listed i = 0 → state.listed j = 0) {l : Nat}
    (low : state.usedBefore k ≤ l) (high : l < k) : state.listed l = 0 := by
  by_contra used
  have all : ((List.range (l + 1)).filter fun i => state.listed i != 0) = List.range (l + 1) := by
    rw [List.filter_eq_self]
    intro i member
    have below : i < l + 1 := List.mem_range.mp member
    by_cases same : i = l
    · rw [same]
      simpa using used
    · have nonzero : state.listed i ≠ 0 := fun zero => used (packed i l (by omega) high zero)
      simpa using nonzero
  have prefixed : (List.range (l + 1)).Sublist (List.range k) :=
    List.range_sublist.mpr (by omega)
  have fewer := (prefixed.filter fun i => state.listed i != 0).length_le
  rw [all, List.length_range] at fewer
  unfold FsState.usedBefore at low
  omega

/-- What `do_unlink` leaves of the directory. -/
theorem FileErased.directory {n j : Nat} {middle : FsState} (erased : FileErased state n j middle)
    (found : ∃ k < state.nrEntries, state.listed k = n) :
    ∃ k < state.nrEntries, state.listed k = n ∧
      (removeDirEntry middle n).volume.entries = Function.update state.volume.entries k emptyEntry ∧
      (k + 1 ≠ state.nrEntries → (removeDirEntry middle n).nrEntries = state.nrEntries) ∧
      (k + 1 = state.nrEntries → (removeDirEntry middle n).nrEntries = state.usedBefore k) := by
  obtain ⟨listed, number⟩ := erased.listed
  have entries : middle.volume.entries = state.volume.entries := by
    rw [erased.volume]
    rfl
  rcases removeDirEntry_cases erased.coherent.layout erased.coherent.root n with
    ⟨absent, _⟩ | ⟨k, inside, here, ⟨inner, disk, same, volume⟩ | ⟨last, disk, same, volume⟩⟩
  · obtain ⟨k, inside, held⟩ := found
    refine absurd ?_ (absent k (number ▸ inside))
    rw [listed]
    exact held
  · rw [number] at inside inner
    rw [listed] at here
    refine ⟨k, inside, here, ?_, fun _ => ?_, fun last => absurd last inner⟩
    · rw [same, ← entries]
      exact congrArg Volume.entries volume
    · rw [same, ← number]
      rfl
  · rw [number] at inside last
    rw [listed] at here
    refine ⟨k, inside, here, ?_, fun inner => absurd last inner, fun _ => ?_⟩
    · rw [same, ← entries]
      exact congrArg Volume.entries volume
    · have used : middle.usedBefore k = state.usedBefore k := by
        unfold FsState.usedBefore
        rw [listed]
      rw [same, ← used]
      simp only [FsState.nrEntries, FsState.dir, Function.update_self, resized]
      exact Nat.mul_div_cancel_left _ (by decide)

theorem FileErased.recorded {j : Nat} {middle : FsState} {name : List Byte}
    (erased : FileErased state (history name) j middle) (sound : Sound state)
    (recorded : Recorded state.volume state.nrEntries history)
    (packed : ∀ k, k + 1 = state.nrEntries → state.listed k = history name →
      ∀ i l, i < l → l < k → state.listed i = 0 → state.listed l = 0) :
    Recorded (removeDirEntry middle (history name)).volume
      (removeDirEntry middle (history name)).nrEntries (Function.update history name 0) := by
  have known : history name ≠ 0 := by
    have five := erased.live.1
    omega
  obtain ⟨_, l, below, held, _⟩ := recorded.found name known
  obtain ⟨k, inside, found, entries, inner, last⟩ := erased.directory ⟨l, below, held⟩
  have distinct : ∀ l < state.nrEntries, (state.volume.entries l).inodeNr = history name → l = k :=
    fun l below same => sound.listed.distinct l below k inside (same ▸ known) (same.trans found.symm)
  have bound := usedBefore_le state k
  refine recorded.remove inside found known distinct ?_ (fun l past below apart => ?_) ?_ fun l apart => ?_
  · by_cases ends : k + 1 = state.nrEntries
    · rw [last ends]
      omega
    · rw [inner ends]
  · by_cases ends : k + 1 = state.nrEntries
    · rw [last ends] at past
      exact usedBefore_packed (packed k ends found) past (by omega)
    · rw [inner ends] at past
      omega
  · rw [entries, Function.update_self]
  · rw [entries, Function.update_of_ne apart]

/-- Every call keeps the directory in step with the history. -/
theorem Recorded.perform (recorded : Recorded state.volume state.nrEntries history)
    (sound : Sound state) {call : FsCall} (fits : Fits state call) (whole : NothingCutOff state call)
    {ret : Int} (ran : perform state call = some (next, ret)) :
    Recorded next.volume next.nrEntries (history.log next ret call) := by
  cases call with
  | create pid path flags =>
      simp only [Fs.perform] at ran
      split at ran
      next creates =>
        by_cases new : NewName state path
        · have space := fits.2 new
          rcases sound.doOpen_made (space.someClear sound.layout) new fits.1 creates with ⟨none, _⟩ |
            ⟨made, name, n, b, p, k, size, fd, d, valid, opens, created⟩
          · rw [none] at ran
            cases ran
          · rw [opens] at ran
            cases ran
            have nonempty : name ≠ [] := by
              rintro rfl
              have root := new.1
              simp only [searchFile, valid, if_true, sound.root.num] at root
              omega
            have fresh : history name = 0 := (recorded.search sound valid nonempty).symm.trans new.1
            have done : ((fd : Int) = -1) = False := eq_false (by omega)
            simp only [History.log, done, if_false, valid, Option.getD_some,
              created.allocated_eq sound]
            exact created.recorded sound recorded
              ⟨nonempty, fits.1 name valid, (stripPath_bounds valid).2⟩ fresh
        · rw [doOpen_old creates new] at ran
          cases ran
          simp only [History.log, if_true]
          cases freeDesc state with
          | none => exact recorded
          | some d => exact recorded
      next => cases ran
  | close pid fd =>
      obtain ⟨volume, number⟩ := sound.close_entries ran
      rw [volume, number]
      exact recorded
  | write pid fd data =>
      obtain ⟨i, pin, size, pos, disk, written⟩ := sound.write_cases fits ran
      obtain ⟨entries, number⟩ := written.entries
      rw [number]
      exact recorded.same entries
  | unlink path =>
      rcases sound.unlink_cases ran with ⟨failed, kept⟩ | ⟨done, name, j, middle, valid, found, erased, rfl⟩
      · have log : history.log next ret (.unlink path) = history := by
          simp only [History.log, failed]
          exact if_neg (by omega)
        rw [log]
        rcases kept with rfl | referenced
        · exact recorded
        · obtain ⟨p, nonzero, _⟩ := id referenced
          obtain ⟨low, high, _⟩ := sound.search_named nonzero
          obtain ⟨volume, number⟩ := sound.refer_entries low high referenced
          rw [volume, number]
          exact recorded
      · have nonempty : name ≠ [] := by
          rintro rfl
          have root : searchFile state path = 1 := by
            simp only [searchFile, valid, if_true, sound.root.num]
          have five := erased.live.1
          omega
        have known := recorded.search sound valid nonempty
        have packed := whole
        simp only [NothingCutOff, known] at packed
        rw [known] at erased ⊢
        simp only [History.log, done, if_true, valid, Option.getD_some]
        exact erased.recorded sound recorded packed

end Steps

section Runs

variable {size : Nat} {disk : Disk}

theorem mkfsName_valid {k : Nat} (inside : k < 4) : ValidName (mkfsName k) := by
  obtain rfl | rfl | rfl | rfl : k = 0 ∨ k = 1 ∨ k = 2 ∨ k = 3 := by omega
  · exact ⟨by decide, by decide, by decide⟩
  · exact ⟨by decide, by decide, by decide⟩
  · exact ⟨by decide, by decide, by decide⟩
  · exact ⟨by decide, by decide, by decide⟩

theorem mkfsHistory_name {k : Nat} (inside : k < 4) : mkfsHistory (mkfsName k) = k + 1 := by
  obtain rfl | rfl | rfl | rfl : k = 0 ∨ k = 1 ∨ k = 2 ∨ k = 3 := by omega
  · decide
  · decide
  · decide
  · decide

theorem Started.recorded {state : FsState} (started : Started size disk state)
    (bounded : Addressable size) (clean : CleanDirectory size disk) :
    Recorded state.volume state.nrEntries mkfsHistory := by
  have entries := started.entry bounded clean
  rw [started.nrEntries]
  refine ⟨fun k unused => ?_, fun k inside _ => ?_, fun name known => ?_⟩
  · rw [entries] at unused ⊢
    split
    next early =>
      rw [if_pos early] at unused
      rcases unused with beyond | zero
      · omega
      · cases zero
    next => rfl
  · rw [entries, if_pos inside]
    exact ⟨mkfsName k, mkfsName_valid inside, rfl, mkfsHistory_name inside⟩
  · cases found : firstFrom (fun k => name == mkfsName k) 4 0 with
    | none =>
        simp only [mkfsHistory, found] at known
        exact absurd rfl known
    | some k =>
        obtain ⟨_, inside, same, _⟩ := firstFrom_some found
        simp only [beq_iff_eq] at same
        subst same
        refine ⟨(mkfsName_valid (by omega)).noNul, k, by omega, ?_⟩
        rw [entries, if_pos (by omega), mkfsHistory_name (by omega)]
        exact ⟨rfl, rfl⟩

/-- What holds of the file system and its history between two calls. -/
def InStep (pair : FsState × History) : Prop :=
  Sound pair.1 ∧ Recorded pair.1.volume pair.1.nrEntries pair.2

theorem lookupMachine_inStep (bounded : Addressable size) (clean : CleanDirectory size disk)
    {pair : FsState × History} (reached : (lookupMachine size disk).ReachableWhen KeepsNames pair) :
    InStep pair := by
  refine reached.invariant (fun pair start => ?_) fun pair call next held guarded moved => ?_
  · obtain ⟨initial, history⟩ := start
    have started := fsMachine_started bounded initial
    unfold InStep
    rw [history]
    exact ⟨started.sound bounded clean, started.recorded bounded clean⟩
  · obtain ⟨⟨after, ret⟩, ran, rfl⟩ := Option.map_eq_some_iff.mp moved
    obtain ⟨sound, recorded⟩ := held
    exact ⟨sound.perform guarded.1 ran, recorded.perform sound guarded.1 guarded.2 ran⟩

/-- A search returns the inode that the latest create of the name got, unless the
name was unlinked since. -/
theorem lookup_follows_history (bounded : Addressable size) (clean : CleanDirectory size disk)
    {state : FsState} {history : History}
    (reached : (lookupMachine size disk).ReachableWhen KeepsNames (state, history)) {path : Path}
    {name : List Byte} (valid : stripPath path = some name) (nonempty : name ≠ []) :
    searchFile state path = history name := by
  obtain ⟨sound, recorded⟩ := lookupMachine_inStep bounded clean reached
  exact recorded.search sound valid nonempty

end Runs

/-! A file behind two holes is lost when the last entry is unlinked. -/

section LostFile

variable {state next : FsState} {path : Path} {pid flags n b p k size fd d : Nat} {name : List Byte}

theorem FileCreated.close (created : FileCreated state pid flags name next n b p k size fd d)
    (idle : Idle state) (sound : Sound state) :
    ∃ after, doClose next pid fd = some (after, 0) ∧ Idle after ∧ after.volume = next.volume ∧
      after.nrEntries = next.nrEntries ∧ after.sb = next.sb := by
  obtain ⟨link, inode⟩ := created.link sound
  obtain ⟨after, ran⟩ : ∃ after, doClose next pid fd = some (after, 0) := by
    rw [doClose, link]
    exact ⟨_, rfl⟩
  obtain ⟨e, q, same, effect⟩ := doClose_cases ran
  rw [link] at same
  cases same
  obtain ⟨apart, _⟩ := created.dir sound (freshInode n (b + state.sb.n1stSect - 1))
  have root : next.rootInode = state.rootInode := by
    obtain ⟨disk, rfl, _⟩ := created.effect
    rfl
  have descs : next.fDescTable = Function.update state.fDescTable d
      { mode := flags, pos := 0, inode := .slot p } := by
    obtain ⟨disk, rfl, _⟩ := created.effect
    rfl
  have filp : next.filp = Function.update state.filp pid (Function.update (state.filp pid) fd (some d)) := by
    obtain ⟨disk, rfl, _⟩ := created.effect
    rfl
  have slots (i : Nat) (other : i ≠ state.rootInode) (away : i ≠ p) :
      next.inodeTable i = state.inodeTable i := by
    obtain ⟨disk, rfl, _⟩ := created.effect
    simp only [Function.update_of_ne other, Function.update_of_ne away]
  refine ⟨after, ran, ?_⟩
  rw [effect]
  refine ⟨⟨fun i other => ?_, fun e => ?_, fun other place => ?_⟩, rfl, ?_, rfl⟩
  · show (Function.update next.inodeTable p (next.inodeTable p).released i).cnt = 0
    by_cases here : i = p
    · rw [here, Function.update_self, inode]
      rfl
    · rw [Function.update_of_ne here, slots i (root ▸ other) here]
      exact idle.slots i (root ▸ other)
  · show (Function.update next.fDescTable d { next.fDescTable d with inode := .free } e).inode = .free
    by_cases here : e = d
    · rw [here, Function.update_self]
    · rw [Function.update_of_ne here, descs, Function.update_of_ne here]
      exact idle.descs e
  · show Function.update next.filp pid (Function.update (next.filp pid) fd none) other place = none
    by_cases same : other = pid
    · rw [same, Function.update_self, filp, Function.update_self]
      by_cases here : place = fd
      · rw [here, Function.update_self]
      · rw [Function.update_of_ne here, Function.update_of_ne here]
        exact idle.filp pid place
    · rw [Function.update_of_ne same, filp, Function.update_of_ne same]
      exact idle.filp other place
  · simp only [FsState.nrEntries, FsState.dir, root, Function.update_of_ne apart.symm]

theorem Idle.unlink_returns (idle : Idle state) (sound : Sound state)
    (live : Live state.volume (searchFile state path)) (valid : stripPath path = some name)
    (below : path.text ≠ [slash]) : ∃ next, doUnlink state path = some (next, 0) := by
  have five := live.1
  have inside := sound.extents.inside _ live.2
  obtain ⟨j, run⟩ := sound.extents.run _ live
  have mode := run.mode
  rw [volume_records state (by omega) (Nat.le_of_lt inside)] at mode
  obtain ⟨middle, p, got⟩ := getInode_isSome (show searchFile state path ≠ 0 by omega) (idle.room 0).1
  rcases getInode_cases got with ⟨zero, _⟩ | ⟨q, _, same, slot, ⟨used, _⟩ | ⟨_, rfl⟩⟩
  · omega
  · have root : q = state.rootInode := by
      by_contra other
      exact used (idle.slots q other)
    exact absurd root (slot.ne_root sound.root (by omega))
  · cases same
    have table : (state.setInode p (loadedInode state (searchFile state path))).inodeTable p =
        loadedInode state (searchFile state path) := Function.update_self _ _ _
    refine ⟨removeFile (state.setInode p (loadedInode state (searchFile state path)))
      (searchFile state path) p, ?_⟩
    simp only [doUnlink, if_neg below, if_neg (show searchFile state path ≠ 0 by omega), valid,
      reduceCtorEq, if_false, got, table]
    have regular : (loadedInode state (searchFile state path)).mode = iRegular := mode
    have single : ¬1 < (loadedInode state (searchFile state path)).cnt := Int.lt_irrefl 1
    rw [if_neg (not_not.mpr regular), if_neg single]

theorem FileErased.idle {middle : FsState} {j : Nat} (erased : FileErased state n j middle)
    (idle : Idle state) : Idle (removeDirEntry middle n) := by
  obtain ⟨root, descs, filp, slots⟩ := erased.tables
  have unused (i : Nat) (other : i ≠ middle.rootInode) : (middle.inodeTable i).cnt = 0 :=
    slots i (idle.slots i (root ▸ other))
  rcases removeDirEntry_cases erased.coherent.layout erased.coherent.root n with ⟨_, same⟩ |
    ⟨k, _, _, ⟨_, disk, same, _⟩ | ⟨_, disk, same, _⟩⟩
  · rw [same]
    exact ⟨unused, descs ▸ idle.descs, filp ▸ idle.filp⟩
  · rw [same]
    exact ⟨unused, descs ▸ idle.descs, filp ▸ idle.filp⟩
  · rw [same]
    refine ⟨fun i other => ?_, descs ▸ idle.descs, filp ▸ idle.filp⟩
    show (Function.update middle.inodeTable middle.rootInode _ i).cnt = 0
    rw [Function.update_of_ne other]
    exact unused i other

theorem Recorded.unlink_step {history : History}
    (recorded : Recorded state.volume state.nrEntries history) (sound : Sound state) (idle : Idle state)
    (valid : stripPath path = some name) (nonempty : name ≠ []) (below : path.text ≠ [slash])
    (file : 5 ≤ history name) :
    ∃ next, Fs.perform state (.unlink path) = some (next, 0) ∧ Idle next ∧
      ∃ k < state.nrEntries, state.listed k = history name ∧
      next.volume.entries = Function.update state.volume.entries k emptyEntry ∧
      (k + 1 ≠ state.nrEntries → next.nrEntries = state.nrEntries) ∧
      (k + 1 = state.nrEntries → next.nrEntries = state.usedBefore k) := by
  have found := recorded.search sound valid nonempty
  obtain ⟨_, k, inside, number, _⟩ := recorded.found name (show history name ≠ 0 by omega)
  have live : Live state.volume (searchFile state path) := by
    rw [found, ← number]
    refine (sound.listed.live k inside ?_).resolve_left ?_
    · omega
    · omega
  obtain ⟨next, ran⟩ := idle.unlink_returns sound live valid below
  rcases sound.unlink_cases ran with ⟨failed, _⟩ | ⟨_, _, j, middle, _, _, erased, rfl⟩
  · omega
  · rw [found] at erased ran
    exact ⟨_, ran, erased.idle idle, erased.directory ⟨k, inside, number⟩⟩

/-- After `m` creates in a row on a partition of 32768 sectors, each file closed. -/
structure Packed (state : FsState) (m : Nat) : Prop where
  sound : Sound state
  idle : Idle state
  sb : state.sb = newSuperBlock 32768
  imap : ∀ n < 4096, state.volume.imap n = decide (n < 5 + m)
  smap : ∀ c < 36864, state.volume.smap c = decide (c < 2049 + 2048 * m)
  number : state.nrEntries = 4 + m
  listed : ∀ k < 4 + m, state.listed k = k + 1

theorem Packed.space {m : Nat} (packed : Packed state m) (few : m ≤ 8) : SpaceLeft state := by
  have first : (newSuperBlock 32768).n1stSect = 268 := by decide
  have maps : (newSuperBlock 32768).nrSmapSects = 9 := by decide
  refine ⟨⟨5 + m, by unfold sectorBits; omega, ?_⟩, 268 + 2048 * (m + 1), ?_⟩
  · rw [← volume_imap state (by omega), packed.imap _ (by omega), decide_eq_false (by omega)]
  · rw [packed.sb, first]
    unfold nrDefaultFileSects
    refine ⟨by omega, show _ ≤ 32768 by omega, fun s low high => ?_⟩
    rw [← volume_smap state (by rw [packed.sb, maps]; omega), packed.smap _ (by omega),
      decide_eq_false (by omega)]

theorem Packed.create {m : Nat} (packed : Packed state m) (few : m ≤ 8) (new : NewName state path)
    (short : ShortName path) :
    ∃ (middle next : FsState) (fd : Nat), perform state (.create 0 path 3) = some (middle, (fd : Int)) ∧
      perform middle (.close 0 fd) = some (next, 0) ∧ allocated middle 0 fd = 5 + m ∧
      Packed next (m + 1) := by
  have sound := packed.sound
  have space := packed.space few
  have maps : state.sb.nrSmapSects = 9 := by rw [packed.sb]; decide
  rcases sound.doOpen_made (space.someClear sound.layout) new short (show oCreat 3 = true by decide) with
    ⟨_, full⟩ | ⟨middle, name, n, b, p, k, size, fd, d, valid, opens, created⟩
  · exact absurd (packed.idle.room 0) full
  · obtain ⟨after, closes, idle, volume, number, sb⟩ := created.close packed.idle sound
    have middleSb : middle.sb = state.sb := by
      obtain ⟨disk, rfl, _⟩ := created.effect
      rfl
    -- the least clear bits are those behind the files made so far
    have inode : n = 5 + m := by
      obtain ⟨inside, free, least⟩ := created.inode
      unfold sectorBits at inside
      rw [packed.imap n inside, decide_eq_false_iff_not] at free
      by_contra other
      have set := least (5 + m) (by omega)
      rw [packed.imap _ (by omega), decide_eq_true_eq] at set
      omega
    have run : b = 2049 + 2048 * m := by
      obtain ⟨inside, free, least⟩ := created.run
      unfold sectorBits at inside
      rw [packed.smap b (by omega), decide_eq_false_iff_not] at free
      by_contra other
      have set := least (2049 + 2048 * m) (by omega)
      rw [packed.smap _ (by omega), decide_eq_true_eq] at set
      omega
    have place : k = 4 + m ∧ middle.nrEntries = 4 + m + 1 := by
      rw [created.nrEntries_eq]
      have size := (sound.newSize created).2.2
      have count := packed.number
      rcases created.place with ⟨below, zero, _⟩ | ⟨behind, _⟩
      · rw [packed.listed k (by omega)] at zero
        cases zero
      · omega
    have middleSound := sound.create space created
    have sounder : Sound after := middleSound.close closes
    refine ⟨middle, after, fd, by simp only [perform, opens]; rfl, closes,
      (created.allocated_eq sound).trans inode, sounder, idle, ?_, fun l below => ?_, fun c below => ?_,
      number.trans place.2, fun l below => ?_⟩
    · rw [sb, middleSb, packed.sb]
    · have bit : after.volume.imap l = (state.volume.imap l || decide (l = n)) := by
        rw [volume, created.volume_eq]
        rfl
      rw [bit, packed.imap l below, inode, ← Bool.decide_or, decide_eq_decide]
      omega
    · have bit : after.volume.smap c = (state.volume.smap c ||
          decide (b ≤ c ∧ c < b + min nrDefaultFileSects (state.sb.nrSmapSects * sectorBits - b))) := by
        rw [volume, created.volume_eq]
        rfl
      rw [bit, packed.smap c below, ← Bool.decide_or, decide_eq_decide, run, maps]
      unfold nrDefaultFileSects sectorBits
      omega
    · have entries : after.volume.entries =
          Function.update state.volume.entries k ((state.volume.entries k).renamed n name) := by
        rw [volume, created.volume_eq]
        rfl
      rw [FsState.listed, entries]
      by_cases here : l = k
      · rw [here, Function.update_self, place.1]
        show n = 4 + m + 1
        omega
      · rw [Function.update_of_ne here]
        exact packed.listed l (by omega)

theorem Started.packed (started : Started 32768 zeroDisk state) : Packed state 0 := by
  have bounded : Addressable 32768 := by unfold Addressable; omega
  have maps : (newSuperBlock 32768).nrSmapSects = 9 := by decide
  refine ⟨started.sound bounded (zeroDisk_clean _), started.idle, started.sb, fun n _ => ?_,
    fun c below => ?_, started.nrEntries, fun k below => ?_⟩
  · rw [started.volume, started.formatted.imap_bit]
  · rw [started.volume, started.formatted.smap_bit (by rw [maps]; omega)]
  · rw [FsState.listed, started.entry bounded (zeroDisk_clean _), if_pos (by omega)]

/-- The machine of these runs. -/
abbrev exampleMachine : Machine (FsState × History) FsCall := lookupMachine 32768 zeroDisk

theorem exampleMachine_inStep {history : History}
    (reached : exampleMachine.ReachableWhen KeepsNames (state, history)) :
    Sound state ∧ Recorded state.volume state.nrEntries history :=
  lookupMachine_inStep (by unfold Addressable; omega) (zeroDisk_clean _) reached

theorem Packed.make {m : Nat} {history : History} (packed : Packed state m) (few : m ≤ 8)
    (reached : exampleMachine.ReachableWhen KeepsNames (state, history))
    (valid : stripPath path = some name) (short : name.length < maxFilenameLen) (nonempty : name ≠ [])
    (unknown : history name = 0) :
    ∃ next, exampleMachine.ReachableWhen KeepsNames (next, Function.update history name (5 + m)) ∧
      Packed next (m + 1) := by
  obtain ⟨sound, recorded⟩ := exampleMachine_inStep reached
  have new : NewName state path := by
    refine ⟨(recorded.search sound valid nonempty).trans unknown, ?_⟩
    rw [valid]
    exact Option.some_ne_none _
  have brief : ShortName path := by
    intro other same
    rw [valid] at same
    cases same
    exact short
  obtain ⟨middle, next, fd, opens, closes, number, more⟩ := packed.create few new brief
  have logged : history.log middle (fd : Int) (.create 0 path 3) =
      Function.update history name (5 + m) := by
    have done : ((fd : Int) = -1) = False := eq_false (by omega)
    simp only [History.log, done, if_false, valid, Option.getD_some, number]
  have created : exampleMachine.step (state, history) (.create 0 path 3) =
      some (middle, Function.update history name (5 + m)) := by
    simp only [exampleMachine, lookupMachine, opens, Option.map_some, logged]
  have closed : exampleMachine.step (middle, Function.update history name (5 + m)) (.close 0 fd) =
      some (next, Function.update history name (5 + m)) := by
    simp only [exampleMachine, lookupMachine, closes, Option.map_some, History.log]
  have fits : KeepsNames (state, history) (.create 0 path 3) :=
    ⟨⟨brief, fun _ => packed.space few⟩, trivial⟩
  have open' : KeepsNames (middle, Function.update history name (5 + m)) (.close 0 fd) :=
    ⟨trivial, trivial⟩
  exact ⟨next, (reached.step fits created).step open' closed, more⟩

def pathB : Path := ⟨chars "B", by decide, by decide⟩

def pathC : Path := ⟨chars "C", by decide, by decide⟩

def pathD : Path := ⟨chars "D", by decide, by decide⟩

/-- The names after four creates. -/
def fourFiles : History :=
  Function.update (Function.update (Function.update (Function.update mkfsHistory
    (chars "A") 5) (chars "B") 6) (chars "C") 7) (chars "D") 8

theorem fourFiles_made : ∃ state, exampleMachine.ReachableWhen KeepsNames (state, fourFiles) ∧
    Packed state 4 := by
  have bounded : Addressable 32768 := by unfold Addressable; omega
  obtain ⟨state, ran, started⟩ := initFs_started zeroDisk_unformatted bounded
  have start : exampleMachine.ReachableWhen KeepsNames (state, mkfsHistory) :=
    .initial ⟨⟨zeroDisk_unformatted, ran⟩, rfl⟩
  obtain ⟨one, reached, packed⟩ := started.packed.make (by omega) start pathA_strip (by decide)
    (by decide) (by decide)
  obtain ⟨two, reached, packed⟩ := packed.make (by omega) reached
    (show stripPath pathB = some (chars "B") by decide) (by decide) (by decide) (by decide)
  obtain ⟨three, reached, packed⟩ := packed.make (by omega) reached
    (show stripPath pathC = some (chars "C") by decide) (by decide) (by decide) (by decide)
  obtain ⟨four, reached, packed⟩ := packed.make (by omega) reached
    (show stripPath pathD = some (chars "D") by decide) (by decide) (by decide) (by decide)
  exact ⟨four, reached, packed⟩

/-- An entry that is not the last one is unlinked, in step with the history. -/
theorem unlink_inner {history : History}
    (reached : exampleMachine.ReachableWhen KeepsNames (state, history)) (idle : Idle state)
    (valid : stripPath path = some name) (nonempty : name ≠ []) (below : path.text ≠ [slash])
    (file : 5 ≤ history name) (inner : ∀ k, k + 1 = state.nrEntries → state.listed k ≠ history name) :
    ∃ next, exampleMachine.ReachableWhen KeepsNames (next, Function.update history name 0) ∧ Idle next ∧
      next.nrEntries = state.nrEntries ∧ ∃ k < state.nrEntries, state.listed k = history name ∧
        next.listed = Function.update state.listed k 0 := by
  obtain ⟨sound, recorded⟩ := exampleMachine_inStep reached
  obtain ⟨next, ran, free, k, inside, found, entries, same, _⟩ :=
    recorded.unlink_step sound idle valid nonempty below file
  have moved : exampleMachine.step (state, history) (.unlink path) =
      some (next, Function.update history name 0) := by
    simp only [exampleMachine, lookupMachine, ran, Option.map_some, History.log, if_true, valid,
      Option.getD_some]
  have keeps : KeepsNames (state, history) (.unlink path) := by
    refine ⟨trivial, fun l last held => absurd ?_ (inner l last)⟩
    exact held.trans (recorded.search sound valid nonempty)
  refine ⟨next, reached.step keeps moved, free, same fun last => inner k last found, k, inside, found, ?_⟩
  funext l
  rw [FsState.listed, entries]
  by_cases here : l = k
  · rw [here, Function.update_self, Function.update_self]
    rfl
  · rw [Function.update_of_ne here, Function.update_of_ne here]
    rfl

theorem lookup_follows_history_four : ∃ state,
    exampleMachine.ReachableWhen KeepsNames (state, fourFiles) ∧ searchFile state pathC = 7 := by
  obtain ⟨state, reached, _⟩ := fourFiles_made
  have follows := lookup_follows_history (by unfold Addressable; omega) (zeroDisk_clean _) reached
    (show stripPath pathC = some (chars "C") by decide) (by decide)
  exact ⟨state, reached, follows.trans (by decide)⟩

/-- Unlinking the files 5, 6 and 8 of four cuts the directory to five entries,
and file 7 in the seventh is not found again. -/
theorem lookup_loses_file : ∃ state history,
    exampleMachine.ReachableWhen (fun pair call => Fits pair.1 call) (state, history) ∧
      history (chars "C") = 7 ∧ searchFile state pathC = 0 := by
  obtain ⟨four, reached, packed⟩ := fourFiles_made
  have number := packed.number
  have listed := packed.listed
  -- A in entry 4
  obtain ⟨three, reached, idle, number3, k, inside, found, listed3⟩ := unlink_inner reached packed.idle
    pathA_strip (by decide) (by decide) (by decide) fun k last => by
      rw [listed k (by omega)]
      exact fun same => absurd (same.trans (show fourFiles (chars "A") = 5 by decide)) (by omega)
  obtain rfl : k = 4 := by
    rw [listed k (by omega)] at found
    have same := found.trans (show fourFiles (chars "A") = 5 by decide)
    omega
  -- B in entry 5
  obtain ⟨two, reached, idle, number2, k, inside, found, listed2⟩ := unlink_inner reached idle
    (show stripPath pathB = some (chars "B") by decide) (by decide) (by decide) (by decide)
    fun k last => by
      rw [listed3, Function.update_of_ne (by omega), listed k (by omega)]
      exact fun same => absurd (same.trans (show Function.update fourFiles (chars "A") 0 (chars "B") = 6
        by decide)) (by omega)
  obtain rfl : k = 5 := by
    have same := found.trans (show Function.update fourFiles (chars "A") 0 (chars "B") = 6 by decide)
    rw [listed3] at same
    by_cases hole : k = 4
    · rw [hole, Function.update_self] at same
      cases same
    · rw [Function.update_of_ne hole, listed k (by omega)] at same
      omega
  have entry (k : Nat) (inside : k < 8) : two.listed k = if k = 4 ∨ k = 5 then 0 else k + 1 := by
    rw [listed2, listed3]
    by_cases second : k = 5
    · rw [second, Function.update_self]
      rfl
    · rw [Function.update_of_ne second]
      by_cases first : k = 4
      · rw [first, Function.update_self]
        rfl
      · rw [Function.update_of_ne first, if_neg (by omega), listed k (by omega)]
  -- D in the last entry
  obtain ⟨sound, recorded⟩ := exampleMachine_inStep reached
  obtain ⟨one, ran, _, k, inside, found, entries, _, cut⟩ := recorded.unlink_step sound idle
    (show stripPath pathD = some (chars "D") by decide) (by decide) (by decide) (by decide)
  obtain rfl : k = 7 := by
    have same := found.trans (show Function.update (Function.update fourFiles (chars "A") 0)
      (chars "B") 0 (chars "D") = 8 by decide)
    rw [entry k (by omega)] at same
    split at same
    next => cases same
    next => omega
  have used : two.usedBefore 7 = 5 := by
    unfold FsState.usedBefore
    simp [List.range_succ, entry]
  have moved : exampleMachine.step (two, Function.update (Function.update fourFiles (chars "A") 0)
      (chars "B") 0) (.unlink pathD) = some (one, Function.update (Function.update (Function.update
        fourFiles (chars "A") 0) (chars "B") 0) (chars "D") 0) := by
    simp only [exampleMachine, lookupMachine, ran, Option.map_some, History.log, if_true,
      show stripPath pathD = some (chars "D") by decide, Option.getD_some]
  have fits : Fits two (.unlink pathD) := trivial
  have shorter : Sound one := sound.perform fits ran
  refine ⟨one, _, (reached.mono fun _ _ keeps => keeps.1).step fits moved, by decide, ?_⟩
  refine shorter.root.search_missing (show stripPath pathC = some (chars "C") by decide) (by decide)
    fun k below named => ?_
  rw [cut (by omega), used] at below
  rw [entries, Function.update_of_ne (by omega)] at named
  obtain ⟨_, _, same⟩ := recorded.entry_named (by decide) (by decide) named
  have seven : two.listed k = 7 := same.symm.trans (by decide)
  rw [entry k (by omega)] at seven
  split at seven
  next => cases seven
  next => omega

end LostFile

end AempOS.Fs
