import AempOS.Fs.StoreRelation

/-! Each call that makes, opens, closes, positions or removes a file is a call on the
store of named files. -/

set_option autoImplicit false

namespace AempOS.Fs

open Lib

variable {size : Nat} {state next : FsState} {store : Store} {path : Path} {name : List Byte}
  {pid fd d p n flags : Nat} {ret : Int}

theorem ProperPath.nonempty (proper : ProperPath path) (valid : stripPath path = some name) :
    name ≠ [] :=
  (proper name valid).nonempty

theorem target_setDesc (state : FsState) (d : Nat) (desc : FileDesc) :
    (fun e => (Function.update state.fDescTable d desc e).inode) =
      Function.update (fun e => (state.fDescTable e).inode) d desc.inode := by
  funext e
  by_cases here : e = d
  · simp [here]
  · simp [here]

theorem freeFilp_small (place : freeFilp state pid = some fd) : fd < nrFiles := by
  have below := (firstFrom_some place).2.1
  unfold nrFiles at below ⊢
  omega

/-! ## Refused opens -/

theorem Holds.reserve (holds : Holds size state store) :
    Holds size (reserveDesc state (freeDesc state)) store := by
  cases slot : freeDesc state with
  | none => exact holds
  | some d =>
      obtain ⟨inside, free⟩ := freeDesc_some slot
      have apart {e q : Nat} (points : (state.fDescTable e).inode = .slot q) : e ≠ d := by
        rintro rfl
        rw [free] at points
        cases points
      refine ⟨holds.sb, holds.sound, holds.recorded, holds.named, holds.content, ?_, ?_,
        holds.sized, fun e q points => ?_⟩
      · rw [holds.handle]
        funext one spot
        symm
        apply handle_congr
        · rfl
        intro e link
        obtain ⟨_, q, points⟩ := holds.balanced.linked one spot e link
        exact ⟨Function.update_of_ne (apart points) _ _, fun _ _ => rfl⟩
      · have reserved := holds.balanced.reserve inside free
        have same : FsState.accounts (reserveDesc state (some d)) =
            { state.accounts with
              target := Function.update state.accounts.target d .reserved } :=
          Accounts.ext rfl rfl (target_setDesc state d _) rfl rfl
        rw [same]
        exact reserved
      · have old : (state.fDescTable e).inode = .slot q := by
          by_cases here : e = d
          · simp [reserveDesc, FsState.setDesc, here] at points
          · simpa [reserveDesc, FsState.setDesc, here] using points
        have kept : (reserveDesc state (some d)).fDescTable e = state.fDescTable e :=
          Function.update_of_ne (apart old) _ _
        rw [kept]
        exact holds.inside e q old

/-! ## Opens of files that are there -/

/-- `get_inode` found the inode in slot `p` or loaded it there. -/
def Obtained (state : FsState) (n p : Nat) (inode : Inode) : Prop :=
  (state.inodeTable p).cnt ≠ 0 ∧ inode = (state.inodeTable p).held ∨
    (state.inodeTable p).cnt = 0 ∧ inode = loadedInode state n

theorem Obtained.cnt {inode : Inode} (obtained : Obtained state n p inode) :
    inode.cnt = (state.inodeTable p).cnt + 1 := by
  rcases obtained with ⟨_, rfl⟩ | ⟨free, rfl⟩
  · rfl
  · rw [free]
    rfl

theorem Obtained.num {inode : Inode} (obtained : Obtained state n p inode)
    (slot : SlotFor state n p) : inode.num = n := by
  rcases obtained with ⟨used, rfl⟩ | ⟨_, rfl⟩
  · rcases slot.2 with ⟨_, same⟩ | ⟨free, _⟩
    · exact same
    · exact absurd free used
  · rfl

theorem Obtained.kept {inode : Inode} (obtained : Obtained state n p inode) {q : Nat}
    (used : state.counts q ≠ 0) :
    (Function.update state.inodeTable p inode q).toInodeRecord =
        (state.inodeTable q).toInodeRecord ∧
      (Function.update state.inodeTable p inode q).num = (state.inodeTable q).num := by
  by_cases here : q = p
  · rw [here, Function.update_self]
    rcases obtained with ⟨_, rfl⟩ | ⟨free, _⟩
    · exact ⟨rfl, rfl⟩
    · exact absurd free (here ▸ used)
  · rw [Function.update_of_ne here]
    exact ⟨rfl, rfl⟩

/-- The tables after descriptor `d` of slot `p` is put behind an `fd`. -/
def FsState.given (state : FsState) (pid fd d p flags : Nat) : FsState :=
  { state with
    fDescTable := Function.update state.fDescTable d { mode := flags, pos := 0, inode := .slot p }
    filp := Function.update state.filp pid (Function.update (state.filp pid) fd (some d)) }

theorem doOpen_plain (plain : ¬oCreat flags = true)
    (ran : doOpen state pid path flags = some (next, ret)) :
    (next = reserveDesc state (freeDesc state) ∧ ret = -1 ∧
        (stripPath path = none ∨ searchFile state path = 0)) ∨
      ∃ (fd d p : Nat) (inode : Inode), freeFilp state pid = some fd ∧ freeDesc state = some d ∧
        searchFile state path ≠ 0 ∧ SlotFor state (searchFile state path) p ∧
        Obtained state (searchFile state path) p inode ∧ ret = fd ∧
        next = (state.setInode p inode).given pid fd d p flags := by
  obtain ⟨table, reserved⟩ := reserveDesc_rest state (freeDesc state)
  have search : searchFile { state with fDescTable := table } path = searchFile state path := rfl
  unfold doOpen at ran
  simp only [plain, if_false, reserved, search, Bool.false_eq_true] at ran
  cases valid : stripPath path with
  | none =>
      simp only [valid, Option.some.injEq, Prod.mk.injEq] at ran
      exact .inl ⟨reserved ▸ ran.1.symm, ran.2.symm, .inl rfl⟩
  | some name =>
      simp only [valid] at ran
      cases got : getInode { state with fDescTable := table } (searchFile state path) with
      | none => simp [got] at ran
      | some found =>
          obtain ⟨mid, pin⟩ := found
          simp only [got] at ran
          rcases getInode_cases got with ⟨zero, rfl, rfl⟩ | ⟨q, nonzero, rfl, slot, moved⟩
          · simp only [Option.some.injEq, Prod.mk.injEq] at ran
            exact .inl ⟨reserved ▸ ran.1.symm, ran.2.symm, .inr zero⟩
          · obtain ⟨inode, obtained, rfl⟩ : ∃ inode,
                Obtained state (searchFile state path) q inode ∧
                mid = FsState.setInode { state with fDescTable := table } q inode := by
              rcases moved with ⟨used, same⟩ | ⟨free, same⟩
              · exact ⟨_, .inl ⟨used, rfl⟩, same⟩
              · exact ⟨_, .inr ⟨free, rfl⟩, same⟩
            cases place : freeFilp state pid with
            | none => simp [place, linkDesc] at ran
            | some fd =>
                cases desc : freeDesc state with
                | none => simp [place, desc, linkDesc] at ran
                | some d =>
                    simp only [place, desc, linkDesc, Option.some.injEq, Prod.mk.injEq] at ran
                    have names : table =
                        Function.update state.fDescTable d
                          { state.fDescTable d with inode := .reserved } := by
                      rw [desc] at reserved
                      exact (congrArg FsState.fDescTable reserved).symm
                    refine .inr ⟨fd, d, q, inode, rfl, rfl, nonzero, slot, obtained, ran.2.symm, ?_⟩
                    rw [← ran.1, names]
                    simp only [FsState.given, FsState.setInode, FsState.setFilp, FsState.setDesc,
                      Function.update_idem]

/-- The slot for an inode that a name finds. -/
theorem Holds.taken (holds : Holds size state store) (slot : SlotFor state n p) :
    Balanced.Taken state.accounts store.kept n p := by
  refine ⟨slot.1, slot.2.imp id ?_⟩
  rintro ⟨free, absent⟩
  refine ⟨free, ?_, ?_⟩
  · rintro rfl
    have used : 0 < (state.inodeTable state.rootInode).cnt := holds.sound.root.used
    have free' : (state.inodeTable state.rootInode).cnt = 0 := free
    omega
  · by_contra kept
    obtain ⟨q, inside, used, num⟩ := holds.balanced.found n kept
    exact absent q inside used num

theorem accounts_setInode (state : FsState) (p : Nat) (inode : Inode) :
    (state.setInode p inode).accounts =
      { state.accounts with
        count := Function.update state.accounts.count p inode.cnt
        num := Function.update state.accounts.num p inode.num } := by
  refine Accounts.ext (setInode_counts state p inode) ?_ rfl rfl rfl
  funext q
  by_cases here : q = p
  · simp [FsState.accounts, FsState.setInode, here]
  · simp [FsState.accounts, FsState.setInode, here]

theorem Holds.openFound (holds : Holds size state store) (proper : ProperPath path)
    (plain : ¬oCreat flags = true) (ran : doOpen state pid path flags = some (next, ret)) :
    ∃ moved, FileStore.Answers store (.open pid (stripPath path) flags) ⟨ret, []⟩ moved ∧
      Holds size next moved := by
  rcases doOpen_plain plain ran with ⟨rfl, rfl, missing⟩ |
    ⟨fd, d, p, inode, place, desc, found, slot, obtained, rfl, rfl⟩
  · refine ⟨store, .openRefused fun name valid => ?_, holds.reserve⟩
    rcases missing with none | zero
    · rw [none] at valid
      cases valid
    · exact (holds.find_none valid (proper.nonempty valid)).mpr zero
  · have valid : ∃ name, stripPath path = some name := by
      cases strip : stripPath path with
      | none => exact absurd (by simp [searchFile, strip]) found
      | some name => exact ⟨name, rfl⟩
    obtain ⟨name, valid⟩ := valid
    have nonempty := proper.nonempty valid
    have known : store.find name = some (searchFile state path) := by
      have search := holds.search valid nonempty
      cases find : store.find name with
      | none => exact absurd ((holds.find_none valid nonempty).mp find) found
      | some m => rw [search, find, Option.getD_some]
    generalize searchFile state path = n at *
    obtain ⟨low, high, kind⟩ := holds.find_some known
    obtain ⟨inside, free⟩ := freeDesc_some desc
    have unused := freeFilp_some place
    have small := freeFilp_small place
    have taken := holds.taken slot
    have referenced : Referenced state n (state.setInode p inode) := by
      rcases obtained with ⟨used, rfl⟩ | ⟨free, rfl⟩
      · exact ⟨p, Nat.ne_of_gt low, slot, .inl ⟨used, rfl⟩⟩
      · exact ⟨p, Nat.ne_of_gt low, slot, .inr ⟨free, rfl⟩⟩
    have number : FsState.nrEntries (state.setInode p inode) = state.nrEntries := by
      have used : state.counts state.rootInode ≠ 0 := ne_of_gt holds.sound.root.used
      exact congrArg (fun record => InodeRecord.size record / dirEntrySize) (obtained.kept used).1
    have num : (((state.setInode p inode).given pid fd d p flags).inodeTable p).num = n := by
      show (Function.update state.inodeTable p inode p).num = n
      rw [Function.update_self, obtained.num slot]
    have handles : ((state.setInode p inode).given pid fd d p flags).handle = _ :=
      handle_linked holds.balanced small free rfl rfl (fun q used => (obtained.kept used).2) num
    have sound := holds.sound.bareRefer low high referenced
    have accounts : FsState.accounts ((state.setInode p inode).given pid fd d p flags) =
        { count := Function.update state.accounts.count p (state.accounts.count p + 1)
          num := Function.update state.accounts.num p n
          target := Function.update state.accounts.target d (.slot p)
          filp := Function.update state.accounts.filp pid
            (Function.update (state.accounts.filp pid) fd (some d))
          root := state.accounts.root } := by
      have table := accounts_setInode state p inode
      have counts : (state.setInode p inode).accounts.count =
          Function.update state.accounts.count p (state.accounts.count p + 1) := by
        rw [table, obtained.cnt]
        rfl
      have nums : (state.setInode p inode).accounts.num = Function.update state.accounts.num p n := by
        rw [table, obtained.num slot]
      exact Accounts.ext counts nums (target_setDesc state d _) rfl rfl
    refine ⟨store.setHandle pid fd (some ⟨n, 0, flags⟩), ?_, holds.sb,
      sound, ?_, holds.named, holds.content, ?_, ?_, holds.sized, fun e q points => ?_⟩
    · rw [valid]
      refine .opened known ?_
      rw [holds.handle]
      exact handle_none unused
    · show Recorded state.volume (FsState.nrEntries (state.setInode p inode)) (numbers store)
      rw [number]
      exact holds.recorded
    · rw [handles, FileStore.setHandle, holds.handle]
    · rw [accounts]
      exact holds.balanced.link taken kind (fun _ => id) inside free small unused
    · simp only [FsState.given, FsState.setInode] at points ⊢
      by_cases here : e = d
      · subst here
        simp only [Function.update_self]
        exact fun _ => Nat.zero_le _
      · simp only [Function.update_of_ne here] at points ⊢
        have used := (holds.balanced.target e q points).2.2
        obtain ⟨record, num⟩ := obtained.kept used
        rw [num, congrArg InodeRecord.size record]
        exact holds.inside e q points

/-! ## Creates -/

theorem Holds.mounted (holds : Holds size state store) : Mounted state := by
  have mounted := holds.sound.mounted
  exact ⟨mounted.layout, holds.sound.bareRoot, mounted.marked⟩

theorem FileCreated.live_iff {b k count : Nat}
    (created : FileCreated state pid flags name next n b p k count fd d)
    (sound : Sound state.bare) (m : Nat) :
    Live next.volume m ↔ Live state.volume m ∨ m = n := by
  have grown : Live (state.bare.grown n b) m ↔ Live state.bare.volume m ∨ m = n :=
    sound.grown_live created.inode.2.1 b m
  rw [created.volume_eq]
  exact grown

theorem FileCreated.record {b k count : Nat}
    (created : FileCreated state pid flags name next n b p k count fd d) {m : Nat} (other : m ≠ 1) :
    next.volume.records m =
      if m = n then (freshInode n (b + state.sb.n1stSect - 1)).toInodeRecord
      else state.volume.records m := by
  rw [created.volume_eq, Volume.putRecord_other other]
  show (state.grown n b).records m = _
  split
  next same =>
    rw [same]
    exact Volume.withFile_self
  next apart => exact Volume.withFile_other apart

/-- The slot that a new inode gets was free. -/
theorem Holds.freeSlot (holds : Holds size state store) (five : 5 ≤ n)
    (free : state.volume.imap n = false) (slot : SlotFor state n p) : state.counts p = 0 := by
  rcases slot.2 with ⟨used, same⟩ | ⟨empty, _⟩
  · have held : state.accounts.num p < 5 ∨ Live state.volume (state.accounts.num p) :=
      holds.balanced.held p slot.1 used
    have num : state.accounts.num p = n := same
    rw [num] at held
    rcases held with small | live
    · omega
    · exact absurd rfl (live.ne_of_free free)
  · exact empty

theorem Holds.created (holds : Holds size state store) {b k count : Nat}
    (valid : stripPath path = some name) (nonempty : name ≠ []) (proper : ValidName name)
    (absent : searchFile state path = 0) (space : SpaceLeft state)
    (ran : doOpen state pid path flags = some (next, (fd : Int)))
    (created : FileCreated state pid flags name next n b p k count fd d) :
    FileStore.Answers store (.create pid (some name) flags) ⟨fd, []⟩
        (((store.setName name (some n)).setContent n (some [])).setHandle pid fd
          (some ⟨n, 0, flags⟩)) ∧
      Holds size next (((store.setName name (some n)).setContent n (some [])).setHandle pid fd
        (some ⟨n, 0, flags⟩)) := by
  have unknown := (holds.find_none valid nonempty).mpr absent
  have free := created.inode.2.1
  have five : 5 ≤ n := holds.sound.extents.five free
  have inside : n < 4096 := created.inode.1
  have live := created.live_iff holds.sound
  have empty := holds.freeSlot five free created.slot
  have unused := freeFilp_some created.filp
  have small := freeFilp_small created.filp
  obtain ⟨within, freeTarget⟩ := freeDesc_some created.desc
  have kept := doOpen_kept holds.mounted ran
  have notLive : ¬Live state.volume n := fun held => held.ne_of_free free rfl
  have idle : ¬store.InUse n := by
    rw [holds.inUse_iff five]
    rintro ⟨q, low, used, num⟩
    rcases holds.balanced.held q low used with few | file
    · have few : (state.inodeTable q).num < 5 := few
      omega
    · have file : Live state.volume (state.inodeTable q).num := file
      exact notLive (num ▸ file)
  have sound := holds.sound.bareCreate space created
  have apart : p ≠ state.rootInode := created.slot.ne_root holds.sound.bareRoot (by omega)
  obtain ⟨disk, same, _⟩ := created.effect
  have table : next.inodeTable = Function.update (Function.update state.inodeTable p
      (freshInode n (b + state.sb.n1stSect - 1))) state.rootInode (resized state.dir count) := by
    rw [same]
  have descs : next.fDescTable = Function.update state.fDescTable d
      { mode := flags, pos := 0, inode := .slot p } := by rw [same]
  have filp : next.filp = Function.update state.filp pid
      (Function.update (state.filp pid) fd (some d)) := by rw [same]
  have counts : next.counts = Function.update state.counts p (state.counts p + 1) := by
    funext q
    rw [FsState.counts, table, empty]
    by_cases here : q = state.rootInode
    · rw [here, Function.update_self, Function.update_of_ne apart.symm]
      rfl
    · rw [Function.update_of_ne here]
      by_cases new : q = p
      · rw [new, Function.update_self, Function.update_self]
        rfl
      · rw [Function.update_of_ne new, Function.update_of_ne new]
        rfl
  have nums : (fun q => (next.inodeTable q).num) =
      Function.update (fun q => (state.inodeTable q).num) p n := by
    funext q
    rw [table]
    by_cases here : q = state.rootInode
    · rw [here, Function.update_self, Function.update_of_ne apart.symm]
      rfl
    · rw [Function.update_of_ne here]
      by_cases new : q = p
      · rw [new, Function.update_self, Function.update_self]
        rfl
      · rw [Function.update_of_ne new, Function.update_of_ne new]
  have sizes {q : Nat} (used : state.counts q ≠ 0) (other : q ≠ state.rootInode) :
      next.inodeTable q = state.inodeTable q := by
    have old : q ≠ p := by
      rintro rfl
      exact used empty
    rw [table, Function.update_of_ne other, Function.update_of_ne old]
  have accounts : next.accounts =
      { count := Function.update state.accounts.count p (state.accounts.count p + 1)
        num := Function.update state.accounts.num p n
        target := Function.update state.accounts.target d (.slot p)
        filp := Function.update state.accounts.filp pid
          (Function.update (state.accounts.filp pid) fd (some d))
        root := state.accounts.root } := by
    have targets : (fun e => (next.fDescTable e).inode) =
        Function.update (fun e => (state.fDescTable e).inode) d (.slot p) := by
      rw [descs]
      exact target_setDesc state d _
    have root : next.rootInode = state.rootInode := by rw [same]
    exact Accounts.ext counts nums targets filp root
  have handles := handle_linked holds.balanced small freeTarget descs filp
    (fun q used => by
      have old : q ≠ p := by
        rintro rfl
        exact used empty
      have num := congrFun nums q
      rwa [Function.update_of_ne old] at num)
    ((congrFun nums p).trans (Function.update_self _ _ _))
  have none : store.content n = none := by
    rw [holds.content, FsState.content, if_neg notLive]
  have openHandle : store.handle pid fd = Option.none := by
    rw [holds.handle]
    exact handle_none unused
  refine ⟨.created unknown none idle openHandle, ?_⟩
  obtain ⟨other, made, alike⟩ := created.bare
  have volume : other.volume = next.volume :=
    show other.bare.volume = next.bare.volume from congrArg FsState.volume alike
  have number : other.nrEntries = next.nrEntries :=
    show other.bare.nrEntries = next.bare.nrEntries from congrArg FsState.nrEntries alike
  have recorded : Recorded other.volume other.nrEntries
      (Function.update (numbers store) name n) :=
    made.recorded holds.sound holds.recorded proper (by simp [numbers, unknown])
  refine ⟨by rw [same]; exact holds.sb, sound, ?_, fun sought => ?_, ?_, ?_, ?_, fun m held => ?_,
    fun e q points five' => ?_⟩
  · show Recorded next.volume next.nrEntries (numbers (store.setName name (some n)))
    rw [numbers_setName, ← volume, ← number]
    exact recorded
  · show Function.update store.find name (some n) sought ≠ some 0
    by_cases here : sought = name
    · rw [here, Function.update_self, Ne, Option.some.injEq]
      omega
    · rw [Function.update_of_ne here]
      exact holds.named sought
  · show Function.update store.content n (some []) = next.content
    funext m
    by_cases here : m = n
    · have record : next.volume.records n = (freshInode n (b + state.sb.n1stSect - 1)).toInodeRecord := by
        rw [created.record (by omega), if_pos rfl]
      rw [here, Function.update_self, FsState.content, if_pos ((live n).mpr (.inr rfl)), record]
      rfl
    · rw [Function.update_of_ne here, holds.content]
      symm
      refine content_kept holds.sound.extents kept ?_ fun file => ?_
      · rw [live]
        exact or_iff_left here
      · have low := file.1
        rw [created.record (by omega), if_neg here]
  · show Function.update store.handle pid _ = next.handle
    rw [handles, ← holds.handle]
    rfl
  · rw [accounts]
    exact holds.balanced.link (holds.taken created.slot) (.inr ((live n).mpr (.inr rfl)))
      (fun m file => (live m).mpr (.inl file)) within freeTarget small unused
  · rcases (live m).mp held with file | rfl
    · have old : m ≠ n := file.ne_of_free free
      have low := file.1
      rw [created.record (by omega), if_neg old]
      exact holds.sized m file
    · rw [created.record (by omega), if_pos rfl]
      exact Nat.zero_le _
  · rw [descs] at points ⊢
    by_cases here : e = d
    · rw [here, Function.update_self]
      exact Nat.zero_le _
    · rw [Function.update_of_ne here] at points ⊢
      have used := (holds.balanced.target e q points).2.2
      have num := congrFun nums q
      have rootNum : (state.inodeTable state.rootInode).num = 1 := holds.sound.root.num
      have other' : q ≠ state.rootInode := by
        rintro rfl
        simp only [Function.update_of_ne apart.symm] at num
        omega
      rw [sizes used other'] at five' ⊢
      exact holds.inside e q points five'

theorem Holds.create (holds : Holds size state store) (proper : ProperPath path)
    (creates : oCreat flags = true) (space : NewName state path → SpaceLeft state)
    (ran : doOpen state pid path flags = some (next, ret)) :
    ∃ moved, FileStore.Answers store (.create pid (stripPath path) flags) ⟨ret, []⟩ moved ∧
      Holds size next moved := by
  by_cases new : NewName state path
  · obtain ⟨absent, some⟩ := id new
    obtain ⟨name, valid⟩ := Option.ne_none_iff_exists'.mp some
    have left := space new
    have layout : Layout state.sb := holds.sound.layout
    have reserved : ∀ m < 5, state.volume.imap m = true := holds.sound.extents.reserved
    rcases doOpen_created layout holds.sound.bareRoot reserved (left.someClear layout) creates absent
      valid (proper name valid).short with
      ⟨none, _⟩ | ⟨made, n, b, p, k, count, fd, d, opens, created⟩
    · rw [none] at ran
      cases ran
    · rw [opens] at ran
      cases ran
      rw [valid]
      exact ⟨_, holds.created valid (proper.nonempty valid) (proper name valid) absent left opens
        created⟩
  · rw [doOpen_old creates new] at ran
    cases ran
    refine ⟨store, .createRefused fun name valid => ?_, holds.reserve⟩
    rw [Ne, holds.find_none valid (proper.nonempty valid)]
    exact fun absent => new ⟨absent, by simp [valid]⟩

end AempOS.Fs
