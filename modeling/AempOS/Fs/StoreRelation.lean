import AempOS.Fs.Accounts
import AempOS.Fs.BareState

/-! When the file system stands for a store of named files: names find what the directory
finds, files hold the bytes of their extents, and handles are what descriptors point to. -/

set_option autoImplicit false

namespace AempOS.Fs

open Lib

abbrev Store := FileStore (List Byte) Byte Nat

/-- The numbers that names find, 0 for none. -/
def numbers (store : Store) : History := fun name => (store.find name).getD 0

structure Holds (size : Nat) (state : FsState) (store : Store) : Prop where
  sb : state.sb = newSuperBlock size
  sound : Sound state.bare
  recorded : Recorded state.volume state.nrEntries (numbers store)
  named : ∀ name, store.find name ≠ some 0
  content : store.content = state.content
  handle : store.handle = state.handle
  balanced : Balanced state.accounts (Live state.volume) store.kept
  sized : ∀ n, Live state.volume n →
    (state.volume.records n).size ≤ nrDefaultFileSects * sectorSize
  inside : ∀ d p, (state.fDescTable d).inode = .slot p → 5 ≤ (state.inodeTable p).num →
    (state.fDescTable d).pos ≤ (state.inodeTable p).size

variable {size : Nat} {state next : FsState} {store : Store} {path : Path} {name : List Byte}
  {pid fd d p n : Nat}

section Names

theorem numbers_setName (store : Store) (name : List Byte) (n : Nat) :
    numbers (store.setName name (some n)) = Function.update (numbers store) name n := by
  funext other
  by_cases same : other = name
  · simp [numbers, FileStore.setName, same]
  · simp [numbers, FileStore.setName, same]

theorem numbers_clearName (store : Store) (name : List Byte) :
    numbers (store.setName name none) = Function.update (numbers store) name 0 := by
  funext other
  by_cases same : other = name
  · simp [numbers, FileStore.setName, same]
  · simp [numbers, FileStore.setName, same]

theorem Holds.search (holds : Holds size state store) (valid : stripPath path = some name)
    (nonempty : name ≠ []) : searchFile state path = (store.find name).getD 0 := by
  have recorded : Recorded state.bare.volume state.bare.nrEntries (numbers store) := holds.recorded
  exact recorded.search holds.sound valid nonempty

theorem Holds.find_none (holds : Holds size state store) (valid : stripPath path = some name)
    (nonempty : name ≠ []) : store.find name = none ↔ searchFile state path = 0 := by
  have search := holds.search valid nonempty
  have named := holds.named name
  cases found : store.find name with
  | none => simp [search, found]
  | some n =>
      rw [found] at named
      simpa [search, found] using named

/-- A name finds a file, or an inode that `mkfs` makes. -/
theorem Holds.find_some (holds : Holds size state store) (found : store.find name = some n) :
    1 ≤ n ∧ n < 4096 ∧ (n < 5 ∨ Live state.volume n) := by
  have number : numbers store name = n := by simp [numbers, found]
  have nonzero : n ≠ 0 := by
    rintro rfl
    exact holds.named name found
  obtain ⟨_, k, below, entry, _⟩ := holds.recorded.found name (number ▸ nonzero)
  rw [number] at entry
  have used : (state.volume.entries k).inodeNr ≠ 0 := entry ▸ nonzero
  have bounded : state.nrEntries < maxEntries := holds.sound.root.nrEntries_lt
  have listed : Listed state.volume state.nrEntries := holds.sound.listed
  have kind := listed.live k below used
  have small := (listed.named k (Nat.lt_trans below bounded) used).1
  rw [entry] at small kind
  exact ⟨Nat.one_le_iff_ne_zero.mpr nonzero, small, kind⟩

end Names

section Handles

/-- What is behind an `fd` depends on the descriptor and on the inode in its slot. -/
theorem handle_congr (links : next.filp pid fd = state.filp pid fd)
    (same : ∀ e, state.filp pid fd = some e → next.fDescTable e = state.fDescTable e ∧
      ∀ q, (state.fDescTable e).inode = .slot q →
        (next.inodeTable q).num = (state.inodeTable q).num) :
    next.handle pid fd = state.handle pid fd := by
  unfold FsState.handle opened
  rw [links]
  split
  next => rfl
  next =>
    cases link : state.filp pid fd with
    | none => rfl
    | some e =>
        obtain ⟨desc, nums⟩ := same e link
        cases target : (state.fDescTable e).inode with
        | free => simp [desc, target]
        | reserved => simp [desc, target]
        | slot q => simp [desc, target, nums q target]

theorem handle_of_link (small : fd < nrFiles) (link : state.filp pid fd = some d)
    (points : (state.fDescTable d).inode = .slot p) :
    state.handle pid fd = some
      { file := (state.inodeTable p).num
        pos := (state.fDescTable d).pos
        mode := (state.fDescTable d).mode } := by
  have opens : opened state pid fd = some (d, p) := opened_iff.mpr ⟨small, link, points⟩
  simp [FsState.handle, opens]

theorem handle_none (unused : state.filp pid fd = none) : state.handle pid fd = none := by
  unfold FsState.handle opened
  split
  next => rfl
  next => simp [unused]

theorem handle_some {handle : Handle Nat} (held : state.handle pid fd = some handle) :
    ∃ d p, opened state pid fd = some (d, p) ∧ handle =
      { file := (state.inodeTable p).num
        pos := (state.fDescTable d).pos
        mode := (state.fDescTable d).mode } := by
  obtain ⟨⟨d, p⟩, opens, same⟩ := Option.map_eq_some_iff.mp held
  exact ⟨d, p, opens, same.symm⟩

variable {file : Nat → Prop} {kept : Nat → Nat}

/-- The handles after a new one is given out. -/
theorem handle_linked (balanced : Balanced state.accounts file kept) (small : fd < nrFiles)
    (free : (state.fDescTable d).inode = .free) {flags : Nat}
    (descs : next.fDescTable = Function.update state.fDescTable d
      { mode := flags, pos := 0, inode := .slot p })
    (filp : next.filp =
      Function.update state.filp pid (Function.update (state.filp pid) fd (some d)))
    (nums : ∀ q, state.counts q ≠ 0 → (next.inodeTable q).num = (state.inodeTable q).num)
    (num : (next.inodeTable p).num = n) :
    next.handle = Function.update state.handle pid
      (Function.update (state.handle pid) fd (some ⟨n, 0, flags⟩)) := by
  have rest (one spot : Nat) (links : next.filp one spot = state.filp one spot) :
      next.handle one spot = state.handle one spot := by
    refine handle_congr links fun e link => ?_
    obtain ⟨_, q, target⟩ := balanced.linked one spot e link
    have apart : e ≠ d := by
      rintro rfl
      have points : (state.fDescTable e).inode = .slot q := target
      rw [free] at points
      cases points
    refine ⟨by rw [descs, Function.update_of_ne apart], fun r points => nums r ?_⟩
    exact (balanced.target e r points).2.2
  have here : next.handle pid fd = some ⟨n, 0, flags⟩ := by
    have link : next.filp pid fd = some d := by
      simp only [filp, Function.update_self]
    have target : (next.fDescTable d).inode = .slot p := by
      simp only [descs, Function.update_self]
    rw [handle_of_link small link target, num]
    simp only [descs, Function.update_self]
  funext one spot
  by_cases same : one = pid
  · subst same
    by_cases place : spot = fd
    · rw [place, here, Function.update_self, Function.update_self]
    · rw [Function.update_self, Function.update_of_ne place, rest]
      rw [filp, Function.update_self, Function.update_of_ne place]
  · rw [Function.update_of_ne same, rest]
    rw [filp, Function.update_of_ne same]

/-- The handles after one is given back. -/
theorem handle_released (balanced : Balanced state.accounts file kept)
    (link : state.filp pid fd = some d)
    (descs : next.fDescTable =
      Function.update state.fDescTable d { state.fDescTable d with inode := .free })
    (filp : next.filp = Function.update state.filp pid (Function.update (state.filp pid) fd none))
    (nums : ∀ q, (next.inodeTable q).num = (state.inodeTable q).num) :
    next.handle = Function.update state.handle pid (Function.update (state.handle pid) fd none) := by
  have rest (one spot : Nat) (links : next.filp one spot = state.filp one spot)
      (other : ¬(one = pid ∧ spot = fd)) : next.handle one spot = state.handle one spot := by
    refine handle_congr links fun e behind => ⟨?_, fun q _ => nums q⟩
    have apart : e ≠ d := by
      rintro rfl
      exact other (balanced.once one spot pid fd e behind link)
    rw [descs, Function.update_of_ne apart]
  funext one spot
  by_cases same : one = pid
  · subst same
    by_cases place : spot = fd
    · subst place
      rw [Function.update_self, Function.update_self]
      apply handle_none
      simp only [filp, Function.update_self]
    · rw [Function.update_self, Function.update_of_ne place, rest _ _ _ fun both => place both.2]
      rw [filp, Function.update_self, Function.update_of_ne place]
  · rw [Function.update_of_ne same, rest _ _ _ fun both => same both.1]
    rw [filp, Function.update_of_ne same]

/-- The handles after a position is set. -/
theorem handle_moved (balanced : Balanced state.accounts file kept)
    (opens : opened state pid fd = some (d, p)) {pos : Nat}
    (descs : next.fDescTable =
      Function.update state.fDescTable d { state.fDescTable d with pos := pos })
    (filp : next.filp = state.filp)
    (nums : ∀ q, (next.inodeTable q).num = (state.inodeTable q).num) :
    next.handle = Function.update state.handle pid (Function.update (state.handle pid) fd (some
      { file := (state.inodeTable p).num
        pos := pos
        mode := (state.fDescTable d).mode })) := by
  obtain ⟨small, link, points⟩ := opened_iff.mp opens
  have rest (one spot : Nat) (other : ¬(one = pid ∧ spot = fd)) :
      next.handle one spot = state.handle one spot := by
    refine handle_congr (by rw [filp]) fun e behind => ⟨?_, fun q _ => nums q⟩
    have apart : e ≠ d := by
      rintro rfl
      exact other (balanced.once one spot pid fd e behind link)
    rw [descs, Function.update_of_ne apart]
  have here : next.handle pid fd = some
      { file := (state.inodeTable p).num
        pos := pos
        mode := (state.fDescTable d).mode } := by
    have target : (next.fDescTable d).inode = .slot p := by
      simp only [descs, Function.update_self]
      exact points
    rw [handle_of_link small (by rw [filp, link]) target, nums]
    simp only [descs, Function.update_self]
  funext one spot
  by_cases same : one = pid
  · subst same
    by_cases place : spot = fd
    · rw [place, here, Function.update_self, Function.update_self]
    · rw [Function.update_self, Function.update_of_ne place, rest _ _ fun both => place both.2]
  · rw [Function.update_of_ne same, rest _ _ fun both => same both.1]

end Handles

section Contents

/-- A file whose record and sectors are as they were holds what it held. -/
theorem content_kept (extents : Extents state.sb state.volume) (kept : DataKept state next)
    (live : Live next.volume n ↔ Live state.volume n)
    (record : Live state.volume n → next.volume.records n = state.volume.records n) :
    next.content n = state.content n := by
  unfold FsState.content
  by_cases file : Live state.volume n
  · rw [if_pos file, if_pos (live.mpr file), record file]
    obtain ⟨j, run⟩ := extents.run n file
    have start := run.start
    have low := run.low
    unfold extentBytes
    congr 1
    apply List.map_congr_left
    intro i _
    have behind : state.dataSect ≤
        ((state.volume.records n).startSect * sectorSize + i) / sectorSize := by
      unfold FsState.dataSect nrDefaultFileSects sectorSize
      omega
    rw [diskByte, diskByte, kept _ behind]
  · rw [if_neg file, if_neg fun wrong => file (live.mp wrong)]

theorem content_length {text : List Byte} (held : state.content n = some text) :
    Live state.volume n ∧ text.length = (state.volume.records n).size := by
  unfold FsState.content at held
  split at held
  next live =>
    cases held
    exact ⟨live, by simp [extentBytes]⟩
  next => cases held

end Contents

/-! ## Inodes in use -/

theorem Holds.handle_use (holds : Holds size state store) {handle : Handle Nat}
    (held : store.handle pid fd = some handle) :
    ∃ q < nrInode, state.counts q ≠ 0 ∧ (state.inodeTable q).num = handle.file := by
  rw [holds.handle] at held
  obtain ⟨e, q, opens, rfl⟩ := handle_some held
  obtain ⟨_, inside, used⟩ := holds.balanced.target e q (opened_iff.mp opens).2.2
  exact ⟨q, inside, used, rfl⟩

/-- A file is in use exactly when it is in the table of inodes. -/
theorem Holds.inUse_iff (holds : Holds size state store) (five : 5 ≤ n) :
    store.InUse n ↔ InTable state n := by
  constructor
  · rintro (kept | ⟨one, spot, handle, held, rfl⟩)
    · exact holds.balanced.found n kept
    · exact holds.handle_use held
  · rintro ⟨q, inside, used, num⟩
    by_cases kept : store.kept n = 0
    · right
      have sum : state.counts q = _ := holds.balanced.balance q inside used
      have root : (state.inodeTable state.rootInode).num = 1 := holds.sound.root.num
      have apart : q ≠ state.rootInode := by
        rintro rfl
        omega
      have fixed : state.accounts.fixed q = 0 := if_neg apart
      have none : store.kept (state.accounts.num q) = 0 := by
        rw [← kept, ← num]
        rfl
      rw [fixed, none] at sum
      obtain ⟨e, _, points⟩ := @users_some state.accounts q (by omega)
      obtain ⟨one, spot, link⟩ := holds.balanced.owner e q points
      have small := (holds.balanced.linked one spot e link).1
      have held : state.handle one spot = some _ := handle_of_link small link points
      exact ⟨one, spot, _, (congrFun (congrFun holds.handle one) spot).trans held, num⟩
    · exact .inl kept

end AempOS.Fs
