import AempOS.Memory.ForkCopies

/-! Pages that stay mapped. What the kernel does to address spaces is a sequence of
mapped pages, page faults and filled frames; an entry behind a table from the pool
of pages survives it unless it is mapped anew. So the pages of the kernel that
`init_page_pte` gives a child survive `sys_fork` exactly when none of its loops
visits them. -/

set_option autoImplicit false

namespace AempOS.Memory

open Lib

variable {state mid next : PageState} {dirs : List Nat} {ppid pid parent child dir page : Nat}
  {found : Nat × Nat}

/-! ## Sequences of small changes -/

/-- Directories whose absent entries are empty. -/
structure Spaces (dirs : List Nat) (state : PageState) : Prop where
  tables : Tables state dirs
  absent : ∀ dir ∈ dirs, EmptyAbsent state dir

/-- A sequence of mapped pages, page faults and filled frames. A page may be mapped
anew only where `touched` allows it. -/
inductive Touches (dirs : List Nat) (touched : Nat → Nat → Prop) : PageState → PageState → Prop where
  | refl {state : PageState} : Touches dirs touched state state
  | mapped {state mid last next : PageState} {dir lin phy pdeAttr pteAttr table : Nat} :
      Touches dirs touched state mid → dir ∈ dirs →
      Mapped mid dir lin phy pdeAttr pteAttr last table next → lin / 4096 < 1048576 →
      phy = failed ∨ touched dir (lin / 4096) → Touches dirs touched state next
  | faulted {state mid next : PageState} {dir lin : Nat} :
      Touches dirs touched state mid → dir ∈ dirs → pdeIndex lin < 1024 → Faulted mid dir lin next →
      Touches dirs touched state next
  | filled {state mid next : PageState} {frame : Nat} :
      Touches dirs touched state mid → Content dirs mid frame → Filled dirs frame mid next →
      Touches dirs touched state next

/-- A page of an address space is present, and its table is from the pool of pages. -/
structure Pinned (state : PageState) (dir page : Nat) (found : Nat × Nat) : Prop where
  entry : state.entry dir page = some found
  low : ∀ table, PointsTo state dir (page / 1024) table → memStart ≤ table

theorem Faulted.absent_other {lin other : Nat} (faulted : Faulted state dir lin next) (held : Tables state dirs)
    (member : dir ∈ dirs) (index : pdeIndex lin < 1024) (absent : EmptyAbsent state dir)
    (otherMember : other ∈ dirs) (otherAbsent : EmptyAbsent state other) : EmptyAbsent next other := by
  by_cases same : other = dir
  · subst same
    exact faulted.still_absent held member index absent
  · intro i inside isAbsent
    rcases faulted.word_dir held member index otherMember inside with word | ⟨isSame, _⟩
    · rw [word] at isAbsent ⊢
      exact otherAbsent i inside isAbsent
    · exact absurd (Prod.mk.inj isSame).1 same

namespace Touches

variable {touched : Nat → Nat → Prop}

theorem spaces (touches : Touches dirs touched state next) (held : Spaces dirs state) : Spaces dirs next := by
  induction touches with
  | refl => exact held
  | mapped _ member mapped _ _ ih =>
      obtain ⟨tables, absent⟩ := ih
      exact ⟨(mapped.keeps tables member).tables,
        fun other otherMember => mapped.emptyAbsent tables member otherMember (absent other otherMember)⟩
  | faulted _ member index faulted ih =>
      obtain ⟨tables, absent⟩ := ih
      exact ⟨faulted.tables tables member index (absent _ member), fun other otherMember =>
        faulted.absent_other tables member index (absent _ member) otherMember (absent other otherMember)⟩
  | filled _ content filled ih =>
      obtain ⟨tables, absent⟩ := ih
      refine ⟨filled.tables tables content, fun other otherMember i inside isAbsent => ?_⟩
      rw [filled.word_dir tables content otherMember inside] at isAbsent ⊢
      exact absent other otherMember i inside isAbsent

theorem trans (first : Touches dirs touched state mid) (second : Touches dirs touched mid next) :
    Touches dirs touched state next := by
  induction second with
  | refl => exact first
  | mapped _ member mapped inside may ih => exact .mapped ih member mapped inside may
  | faulted _ member index faulted ih => exact .faulted ih member index faulted
  | filled _ content filled ih => exact .filled ih content filled

theorem mono {other : Nat → Nat → Prop} (touches : Touches dirs touched state next)
    (weaker : ∀ dir page, touched dir page → other dir page) : Touches dirs other state next := by
  induction touches with
  | refl => exact .refl
  | mapped _ member mapped inside may ih => exact .mapped ih member mapped inside (may.imp_right (weaker _ _))
  | faulted _ member index faulted ih => exact .faulted ih member index faulted
  | filled _ content filled ih => exact .filled ih content filled

theorem cr3 (touches : Touches dirs touched state next) (held : Spaces dirs state) : next.cr3 = state.cr3 := by
  induction touches with
  | refl => rfl
  | mapped before member mapped _ _ ih =>
      exact (mapped.keeps (before.spaces held).tables member).cr3.trans ih
  | faulted _ _ _ faulted ih => exact faulted.cr3.trans ih
  | filled _ _ filled ih => exact filled.cr3.trans ih

end Touches

/-! ## Pinned pages -/

namespace Pinned

variable {lin phy pdeAttr pteAttr table frame other : Nat}

/-- The second half of `lin_mapping_phy` writes to no directory. -/
theorem midLow {last : PageState} (mapped : Mapped state other lin phy pdeAttr pteAttr last table next)
    (held : Tables state dirs) (otherMember : other ∈ dirs) (member : dir ∈ dirs)
    (low : ∀ base, PointsTo next dir (page / 1024) base → memStart ≤ base) :
    PointsTo last dir (page / 1024) table → memStart ≤ table := by
  intro points
  have word := mapped.midWord held otherMember member points.index
  exact low table ⟨points.index, word ▸ points.present, word ▸ points.base⟩

theorem mapped {last : PageState} (pinned : Pinned state dir page found)
    (mapped : Mapped state other lin phy pdeAttr pteAttr last table next) (held : Tables state dirs)
    (otherMember : other ∈ dirs) (member : dir ∈ dirs) (inside : page < 1048576)
    (linInside : lin / 4096 < 1048576) (spared : phy = failed ∨ (dir, page) ≠ (other, lin / 4096)) :
    Pinned next dir page found := by
  have low : ∀ base, PointsTo next dir (page / 1024) base → memStart ≤ base := by
    intro base points
    rcases (mapped.keeps held otherMember).points dir member _ base points with before | ⟨low, _⟩
    · exact pinned.low base before
    · exact low
  refine ⟨?_, low⟩
  by_cases same : (dir, page) = (other, lin / 4096)
  · obtain ⟨rfl, rfl⟩ := Prod.mk.inj same
    have isMax := spared.resolve_right fun apart => apart rfl
    rcases mapped.entry_max held member isMax linInside with ⟨_, _, isMid, isState⟩ | ⟨absent, _⟩
    · rw [isMid, isState]
      exact pinned.entry
    · rw [pinned.entry] at absent
      cases absent
  · rw [mapped.entry_other held otherMember member inside same (midLow mapped held otherMember member low)]
    exact pinned.entry

theorem faulted (pinned : Pinned state dir page found) (faulted : Faulted state other lin next)
    (inside : page < 1048576) : Pinned next dir page found := by
  refine ⟨faulted.entry_present pinned.entry inside, fun base points => ?_⟩
  obtain ⟨table, isTable, _⟩ := entry_some pinned.entry inside
  have word := faulted.word_present isTable.present
  exact pinned.low base ⟨points.index, isTable.present, word ▸ points.base⟩

theorem filled (pinned : Pinned state dir page found) (filled : Filled dirs frame state next)
    (held : Tables state dirs) (content : Content dirs state frame) (member : dir ∈ dirs)
    (inside : page < 1048576) : Pinned next dir page found := by
  refine ⟨(filled.entry held content member inside).trans pinned.entry, fun base points => ?_⟩
  exact pinned.low base (filled.points held content member points)

theorem touches {touched : Nat → Nat → Prop} (pinned : Pinned state dir page found)
    (touches : Touches dirs touched state next) (held : Spaces dirs state) (member : dir ∈ dirs)
    (inside : page < 1048576) (spared : ¬touched dir page) : Pinned next dir page found := by
  induction touches with
  | refl => exact pinned
  | mapped before otherMember mapped linInside may ih =>
      refine ih.mapped mapped (before.spaces held).tables otherMember member inside linInside ?_
      refine may.imp_right fun isTouched same => ?_
      obtain ⟨rfl, rfl⟩ := Prod.mk.inj same
      exact spared isTouched
  | faulted _ _ _ faulted ih => exact ih.faulted faulted inside
  | filled before content filled ih =>
      exact ih.filled filled (before.spaces held).tables content member inside

end Pinned

/-! ## States with the same memory -/

section

variable {other : PageState} (mem : other.mem = state.mem)

include mem

theorem word_congr (page i : Nat) : other.word page i = state.word page i := by
  unfold PageState.word
  rw [mem]

theorem entry_congr (dir page : Nat) : other.entry dir page = state.entry dir page := by
  unfold PageState.entry
  simp only [word_congr mem]

theorem PointsTo.congr {i table : Nat} (points : PointsTo other dir i table) : PointsTo state dir i table := by
  have word := word_congr mem dir i
  exact ⟨points.index, word ▸ points.present, word ▸ points.base⟩

theorem Content.congr {frame : Nat} (content : Content dirs state frame) (man : other.man = state.man) :
    Content dirs other frame :=
  ⟨content.aligned, man ▸ content.used, content.notDir, fun dir member i points =>
    content.notTable dir member i (points.congr mem)⟩

theorem Pinned.congr (pinned : Pinned state dir page found) : Pinned other dir page found :=
  ⟨(entry_congr mem dir page).trans pinned.entry, fun table points => pinned.low table (points.congr mem)⟩

theorem EmptyAbsent.congr (absent : EmptyAbsent state dir) : EmptyAbsent other dir := by
  intro i inside isAbsent
  rw [word_congr mem] at isAbsent ⊢
  exact absent i inside isAbsent

theorem Tables.congr (held : Tables state dirs) (man : other.man = state.man)
    (cr3 : ∀ i, other.cr3 i ≠ 0 → other.cr3 i ∈ dirs) : Tables other dirs := by
  refine ⟨held.low, held.aligned, fun dir member => ?_, cr3, fun dir member i table leads => ?_,
    fun dir member i table leads low => ?_, fun dir member second secondMember i j table low left right => ?_⟩
  · rw [man]
    exact held.used dir member
  · exact held.outside dir member i table (leads.congr mem)
  · rw [man]
    exact held.held dir member i table (leads.congr mem) low
  · exact held.unique dir member second secondMember i j table low (left.congr mem) (right.congr mem)

theorem Spaces.congr (held : Spaces dirs state) (man : other.man = state.man)
    (cr3 : ∀ i, other.cr3 i ≠ 0 → other.cr3 i ∈ dirs) : Spaces dirs other :=
  ⟨held.tables.congr mem man cr3, fun dir member => (held.absent dir member).congr mem⟩

/-- Another process in the address space of the first. -/
theorem Process.congr {who : Nat} (held : Process dirs pid state) (man : other.man = state.man)
    (cr3 : ∀ i, other.cr3 i ≠ 0 → other.cr3 i ∈ dirs) (same : other.cr3 who = state.cr3 pid) :
    Process dirs who other := by
  refine ⟨held.tables.congr mem man cr3, man ▸ held.trusted, same ▸ held.alive, fun i table points => ?_, ?_⟩
  · rw [same] at points
    exact held.proper i table (points.congr mem)
  · rw [same]
    exact held.absent.congr mem

theorem Loaded.congr {map : LinMemmap} (loaded : Loaded dirs ppid map state) (man : other.man = state.man)
    (cr3 : ∀ i, other.cr3 i ≠ 0 → other.cr3 i ∈ dirs) (same : other.cr3 ppid = state.cr3 ppid)
    (limit : other.heapLimit ppid = state.heapLimit ppid) : Loaded dirs ppid map other := by
  refine ⟨loaded.toProcess.congr mem man cr3 same, fun page inside used => ?_, fun page inside isKernel => ?_⟩
  · rw [limit] at used
    obtain ⟨frame, attr, found, content⟩ := loaded.pages page inside used
    refine ⟨frame, attr, ?_, content.congr mem man⟩
    rw [entry_congr mem, same]
    exact found
  · rw [entry_congr mem, same]
    exact loaded.kernel page inside isKernel

theorem UserFrames.congr {who : Nat} (frames : UserFrames dirs pid state) (man : other.man = state.man)
    (same : other.cr3 who = state.cr3 pid) : UserFrames dirs who other := by
  intro page inside isUser frame attr found
  rw [entry_congr mem, same] at found
  exact (frames page inside isUser frame attr found).congr mem man

end

theorem ensureTable_current {current other lin attr table : Nat}
    (done : state.ensureTable current lin pid attr = some (next, some table)) :
    state.ensureTable other lin pid attr = some (next, some table) := by
  unfold PageState.ensureTable at done ⊢
  split at done
  next present => rwa [if_pos present]
  next absent =>
      rw [if_neg absent]
      simp only at done ⊢
      split at done
      next =>
          obtain ⟨_, _, wrong⟩ := Option.map_eq_some_iff.mp done
          cases wrong
      next notFailed => rwa [if_neg notFailed]

theorem mapOk_current {current other lin phy pdeAttr pteAttr : Nat}
    (done : state.mapOk current lin phy pid pdeAttr pteAttr = some next) :
    state.mapOk other lin phy pid pdeAttr pteAttr = some next := by
  have called := mapOk_eq done
  simp only [PageState.linMappingPhy, Option.bind_eq_bind, Option.bind_eq_some_iff] at called
  obtain ⟨⟨mid, found⟩, ensured, mapped⟩ := called
  cases found with
  | none => cases mapped
  | some table =>
      have same : state.linMappingPhy other lin phy pid pdeAttr pteAttr = some (next, 0) := by
        simp only [PageState.linMappingPhy, ensureTable_current ensured, Option.bind_eq_bind, Option.bind_some]
        exact mapped
      simp only [PageState.mapOk, same]

/-! ## Loops that map fresh pages -/

/-- A loop that maps pages, but changes none that is present. -/
theorem mapLoop_touches {touched : Nat → Nat → Prop} {final : PageState} {current who : Nat} {addrs : List Nat}
    (held : Spaces dirs state) (trusted : Trusted state.man) (alive : state.cr3 who ≠ 0)
    (addresses : ∀ addr ∈ addrs, addr < 4294967296)
    (done : addrs.foldlM (fun state lin =>
      state.mapOk current lin failed who (pgP + pgUsu + pgRww) (pgP + pgUsu + pgRww)) state = some final) :
    Touches dirs touched state final ∧ Trusted final.man := by
  induction addrs generalizing state with
  | nil =>
      cases done
      exact ⟨.refl, trusted⟩
  | cons addr rest ih =>
      simp only [List.foldlM_cons, Option.bind_eq_bind, Option.bind_eq_some_iff] at done
      obtain ⟨mid, moved, done⟩ := done
      have address := addresses addr (by simp)
      have call := mapOk_eq moved
      obtain ⟨_, _, mapped⟩ :=
        linMappingPhy_mapped held.tables (trusted 2) alive address (by decide) (by decide) call
      have first : Touches dirs touched state mid :=
        .mapped .refl (held.tables.cr3 who alive) mapped (by omega) (.inl rfl)
      have midAlive : mid.cr3 who ≠ 0 := by rwa [first.cr3 held]
      obtain ⟨later, finalTrusted⟩ := ih (first.spaces held)
        (linMappingPhy_trusted held.tables trusted alive address call (.inl rfl)) midAlive
        (fun other member => addresses other (by simp [member])) done
      exact ⟨first.trans later, finalTrusted⟩

/-! ## The touches of `sys_fork` -/

theorem access_touches {touched : Nat → Nat → Prop} {who lin faults : Nat} (held : Spaces dirs state)
    (alive : state.cr3 who ≠ 0) (address : lin < 4294967296)
    (done : state.kernelAccess who lin faults = some next) : Touches dirs touched state next := by
  induction faults generalizing state with
  | zero => cases done
  | succ faults ih =>
      simp only [PageState.kernelAccess] at done
      split at done
      · cases done
        exact .refl
      · simp only [Option.bind_eq_some_iff] at done
        obtain ⟨mid, handled, done⟩ := done
        have faulted := pageFaultHandler_faulted held.tables alive address handled
        have first : Touches dirs touched state mid :=
          .faulted .refl (held.tables.cr3 who alive) (pdeIndex_lt address) faulted
        have midAlive : mid.cr3 who ≠ 0 := by rwa [faulted.cr3]
        exact first.trans (ih (first.spaces held) midAlive done)

theorem Forking.mapOk_touches {touched : Nat → Nat → Prop} {who lin phy attr : Nat}
    (held : Forking dirs ppid pid parent child state) (isDir : state.cr3 who = dir) (member : dir ∈ dirs)
    (address : lin < 4294967296) (may : phy = failed ∨ touched dir (lin / 4096))
    (done : state.mapOk ppid lin phy who (pgP + pgUsu + pgRww) attr = some next) :
    Touches dirs touched state next := by
  obtain ⟨_, _, _, mapped⟩ := held.mapOk isDir member address done
  exact .mapped .refl member mapped (by omega) may

/-- The page of the child that a round of a loop maps, and the share page. -/
def RoundTouches (parent child lin dir page : Nat) : Prop :=
  dir = parent ∧ page = shareNumber ∨ dir = child ∧ page = lin / 4096

theorem Forking.sharePage_touches {lin : Nat} (held : Forking dirs ppid pid parent child state)
    (address : lin < 4294967296) (done : PageState.sharePage ppid pid state lin = some next) :
    Touches dirs (RoundTouches parent child lin) state next :=
  held.mapOk_touches held.childDir held.childMember address (.inr (.inr ⟨rfl, rfl⟩)) done

theorem Forking.copyPage_touches {lin : Nat} (held : Forking dirs ppid pid parent child state)
    (spaces : Spaces dirs state) (address : lin < 4294967296)
    (done : PageState.copyPage ppid pid state lin = some next) :
    Touches dirs (RoundTouches parent child lin) state next := by
  obtain ⟨cleared, taken, copied, isCleared, isTaken, isCopied, isMapped⟩ := copyPage_parts done
  have shareAddress : sharePageBase < 4294967296 := by decide
  have inside : shareNumber < 1048576 := by decide
  have source : pageBase lin < 4294967296 := by
    unfold pageBase
    omega
  have first : Touches dirs (RoundTouches parent child lin) state cleared :=
    held.mapOk_touches held.parentDir held.parentMember shareAddress (.inr (.inl ⟨rfl, rfl⟩)) isCleared
  obtain ⟨clearedHeld, _⟩ := held.mapOk held.parentDir held.parentMember shareAddress isCleared
  have second : Touches dirs (RoundTouches parent child lin) cleared taken :=
    clearedHeld.mapOk_touches clearedHeld.parentDir held.parentMember shareAddress (.inl rfl) isTaken
  obtain ⟨takenHeld, frame, takenShare, low, _, takenContent⟩ := held.takeShare isCleared isTaken
  have toTaken := first.trans second
  obtain ⟨accessed, isAccessed, filled, _⟩ : ∃ accessed, taken.kernelAccess ppid (pageBase lin) 3 = some accessed ∧
      Filled dirs (accessed.pagePhyAddr ppid sharePageBase) accessed copied ∧ _ := memcpyPage_filled isCopied
  have alive : taken.cr3 ppid ≠ 0 := takenHeld.parentDir ▸ takenHeld.tables.ne_zero held.parentMember
  have toAccessed := toTaken.trans (access_touches (toTaken.spaces spaces) alive source isAccessed)
  obtain ⟨accessedHeld, entries, contents⟩ := takenHeld.access source isAccessed
  have accessedShare := entries parent shareNumber _ inside takenShare
  have content := contents frame takenContent low
  rw [accessedHeld.frame shareAddress accessedShare] at filled
  have copiedHeld := accessedHeld.filled filled content
  have toCopied : Touches dirs (RoundTouches parent child lin) state copied := .filled toAccessed content filled
  exact toCopied.trans
    (copiedHeld.mapOk_touches copiedHeld.childDir held.childMember address (.inr (.inr ⟨rfl, rfl⟩)) isMapped)

/-- The body of one of the loops. -/
structure Round (dirs : List Nat) (ppid pid parent child : Nat) (body : PageState → Nat → Option PageState) :
    Prop where
  forking : ∀ {lin state next}, Forking dirs ppid pid parent child state → lin < 4294967296 →
    body state lin = some next → Forking dirs ppid pid parent child next
  touches : ∀ {lin state next}, Forking dirs ppid pid parent child state → Spaces dirs state →
    lin < 4294967296 → body state lin = some next → Touches dirs (RoundTouches parent child lin) state next
  user : ∀ {lin state next}, Forking dirs ppid pid parent child state → lin < 4294967296 →
    body state lin = some next → ∃ frame attr, next.entry child (lin / 4096) = some (frame, attr) ∧ UserBit attr

theorem Forking.sharePage_user {lin : Nat} (held : Forking dirs ppid pid parent child state)
    (address : lin < 4294967296) (done : PageState.sharePage ppid pid state lin = some next) :
    ∃ frame attr, next.entry child (lin / 4096) = some (frame, attr) ∧ UserBit attr := by
  obtain ⟨_, _, _, mapped⟩ := held.mapOk held.childDir held.childMember address done
  have aligned : state.pagePhyAddr ppid lin % 4096 = 0 := pageBase_mod _
  have notMax : state.pagePhyAddr ppid lin ≠ failed := by
    unfold failed
    omega
  have set := mapped.entry_set held.tables held.childMember notMax
  rw [reads_makeEntry aligned (by decide) (by decide)] at set
  exact ⟨_, _, set, by decide⟩

theorem sharePage_round : Round dirs ppid pid parent child (PageState.sharePage ppid pid) where
  forking held address done := held.shareText address done
  touches held _ address done := held.sharePage_touches address done
  user held address done := held.sharePage_user address done

theorem copyPage_round : Round dirs ppid pid parent child (PageState.copyPage ppid pid) where
  forking held address done := (held.copyPage address done).1
  touches held spaces address done := held.copyPage_touches spaces address done
  user held address done := by
    obtain ⟨_, frame, _, isChild⟩ := held.copyPage address done
    exact ⟨frame, _, isChild, by decide⟩

/-- What a loop may map: the share page, and the pages of the child that it
visits. -/
def LoopTouches (parent child : Nat) (addrs : List Nat) (dir page : Nat) : Prop :=
  dir = parent ∧ page = shareNumber ∨ dir = child ∧ Reached addrs page

section

variable {body : PageState → Nat → Option PageState} {addrs : List Nat}

theorem Round.loop (round : Round dirs ppid pid parent child body)
    (held : Forking dirs ppid pid parent child state) (spaces : Spaces dirs state)
    (addresses : ∀ addr ∈ addrs, addr < 4294967296) (done : addrs.foldlM body state = some next) :
    Forking dirs ppid pid parent child next ∧ Touches dirs (LoopTouches parent child addrs) state next := by
  induction addrs generalizing state with
  | nil =>
      cases done
      exact ⟨held, .refl⟩
  | cons addr rest ih =>
      simp only [List.foldlM_cons, Option.bind_eq_bind, Option.bind_eq_some_iff] at done
      obtain ⟨mid, moved, done⟩ := done
      have address := addresses addr (by simp)
      have first := round.touches held spaces address moved
      obtain ⟨nextHeld, later⟩ := ih (round.forking held address moved) (first.spaces spaces)
        (fun other member => addresses other (by simp [member])) done
      refine ⟨nextHeld, (first.mono fun dir page touched => ?_).trans (later.mono fun dir page touched => ?_)⟩
      · exact touched.imp_right fun isChild => ⟨isChild.1, addr, by simp, isChild.2.symm⟩
      · refine touched.imp_right fun isChild => ?_
        obtain ⟨other, member, isPage⟩ := isChild.2
        exact ⟨isChild.1, other, by simp [member], isPage⟩

/-- The page of the child is open to the user. -/
def UserPage (state : PageState) (dir page : Nat) : Prop :=
  ∃ frame attr, state.entry dir page = some (frame, attr) ∧ UserBit attr

/-- A page of the child that was open to the user, or is visited, is open to the
user. -/
theorem Round.user_loop (round : Round dirs ppid pid parent child body)
    (held : Forking dirs ppid pid parent child state) (spaces : Spaces dirs state)
    (addresses : ∀ addr ∈ addrs, addr < 4294967296) (inside : page < 1048576)
    (visited : UserPage state child page ∨ Reached addrs page)
    (done : addrs.foldlM body state = some next) : UserPage next child page := by
  induction addrs generalizing state with
  | nil =>
      cases done
      rcases visited with isUser | ⟨_, wrong, _⟩
      · exact isUser
      · cases wrong
  | cons addr rest ih =>
      simp only [List.foldlM_cons, Option.bind_eq_bind, Option.bind_eq_some_iff] at done
      obtain ⟨mid, moved, done⟩ := done
      have address := addresses addr (by simp)
      have first := round.touches held spaces address moved
      refine ih (round.forking held address moved) (first.spaces spaces)
        (fun other member => addresses other (by simp [member])) ?_ done
      by_cases here : addr / 4096 = page
      · exact .inl (here ▸ round.user held address moved)
      · rcases visited with ⟨frame, attr, isFound, isUser⟩ | ⟨other, member, isPage⟩
        · have pinned : Pinned state child page (frame, attr) := ⟨isFound, fun table points => held.proper _ table points⟩
          refine .inl ⟨frame, attr, (pinned.touches first spaces held.childMember inside ?_).entry, isUser⟩
          rintro (⟨isParent, _⟩ | ⟨_, isHere⟩)
          · exact held.differ isParent.symm
          · exact here isHere.symm
        · rcases List.mem_cons.mp member with rfl | inRest
          · exact absurd isPage here
          · exact .inr ⟨other, inRest, isPage⟩

end

/-! ## Whole calls -/

/-- The address space that `init_page_pte` adds. -/
theorem NewSpace.spaces {dir : Nat} (space : NewSpace dirs pid dir state next) (held : Spaces dirs state) :
    Spaces (dir :: dirs) next := by
  refine ⟨space.tables, fun other member => ?_⟩
  rcases List.mem_cons.mp member with rfl | old
  · exact space.absent
  · intro i inside isAbsent
    rw [space.dirWords other old i inside] at isAbsent ⊢
    exact held.absent other old i inside isAbsent

theorem Pinned.newSpace {added : Nat} (pinned : Pinned state dir page found)
    (space : NewSpace dirs pid added state next) (member : dir ∈ dirs) (inside : page < 1048576) :
    Pinned next dir page found := by
  refine ⟨(space.old dir member page inside).trans pinned.entry, fun table points => ?_⟩
  rcases space.points dir member _ table points with before | ⟨low, _⟩
  · exact pinned.low table before
  · exact low

theorem KernelPage.inside (isKernel : KernelPage page) : page < 1048576 := by
  have high := isKernel.2
  unfold kernelPage kernelLinBase kernelSize at high
  omega

theorem KernelPage.entry (isKernel : KernelPage page) :
    kernelEntry page = some (4096 * (page - kernelPage), pgP + pgRww) :=
  if_pos isKernel

/-- The addresses that the loops of `fork_mem_cpy` visit. -/
def LinMemmap.Visited (map : LinMemmap) (heapLimit addr : Nat) : Prop :=
  VisitedUp map.textLinBase map.textLinLimit addr ∨ map.Copied heapLimit addr

/-- What `sys_fork` may map. -/
def ForkTouches (map : LinMemmap) (heapLimit parent child dir page : Nat) : Prop :=
  dir = parent ∧ page = shareNumber ∨ dir = child ∧ ∃ addr, map.Visited heapLimit addr ∧ addr / 4096 = page

theorem Loops.reached_visited {map : LinMemmap} {heapLimit page : Nat} {shared copied : List Nat}
    (loops : Loops map heapLimit shared copied) (fits : map.Fits) :
    Reached shared page ∨ Reached copied page ↔ ∃ addr, map.Visited heapLimit addr ∧ addr / 4096 = page := by
  rw [loops.reached_shared fits, loops.reached_copied fits]
  simp only [ReachedUp, LinMemmap.CopyReached, LinMemmap.Visited, or_and_right, exists_or]

section

variable {map : LinMemmap} (ready : Forkable dirs ppid pid state) (spaces : Spaces dirs state) (fits : map.Fits)
  (done : state.sysFork map ppid pid = some next)

include ready spaces fits done

/-- `sys_fork` makes an address space and runs its loops. -/
theorem sysFork_touches :
    ∃ made, NewSpace dirs pid (alloc4k .kernel state.man).2 state made ∧
      Forking ((alloc4k .kernel state.man).2 :: dirs) ppid pid (state.cr3 ppid) (alloc4k .kernel state.man).2 next ∧
      Touches ((alloc4k .kernel state.man).2 :: dirs)
        (ForkTouches map (state.heapLimit ppid) (state.cr3 ppid) (alloc4k .kernel state.man).2)
        (made.inherit ppid pid) next ∧
      ∀ page < 1048576, (∃ addr, map.Visited (state.heapLimit ppid) addr ∧ addr / 4096 = page) →
        UserPage next (alloc4k .kernel state.man).2 page := by
  obtain ⟨made, isMade, done⟩ := sysFork_parts done
  obtain ⟨shared, copied, text, loops, ranText, ranCopies⟩ := forkMemCpy_loops done
  rw [ready.inherit_heapLimit isMade] at loops
  have space := initPagePte_space ready.tables ready.trusted isMade
  have start := ready.start isMade
  have newSpaces : Spaces ((alloc4k .kernel state.man).2 :: dirs) (made.inherit ppid pid) :=
    ⟨space.tables.inherit, (space.spaces spaces).absent⟩
  have isShared := loops.shared_address fits
  have isCopied := loops.copied_address fits ready.limits
  obtain ⟨textHeld, first⟩ := sharePage_round.loop start newSpaces isShared ranText
  have textSpaces := first.spaces newSpaces
  obtain ⟨held, second⟩ := copyPage_round.loop textHeld textSpaces isCopied ranCopies
  have visited : ∀ page, Reached shared page ∨ Reached copied page ↔
      ∃ addr, map.Visited (state.heapLimit ppid) addr ∧ addr / 4096 = page := fun _ => loops.reached_visited fits
  refine ⟨made, space, held, (first.mono fun dir page touched => ?_).trans
    (second.mono fun dir page touched => ?_), fun page inside reached => ?_⟩
  · exact touched.imp_right fun isChild => ⟨isChild.1, (visited page).mp (.inl isChild.2)⟩
  · exact touched.imp_right fun isChild => ⟨isChild.1, (visited page).mp (.inr isChild.2)⟩
  · refine copyPage_round.user_loop textHeld textSpaces isCopied inside ?_ ranCopies
    rcases (visited page).mpr reached with isText | isCopy
    · exact .inl (sharePage_round.user_loop start newSpaces isShared inside (.inr isText) ranText)
    · exact .inr isCopy

/-- The child has the pages of the kernel as `init_page_pte` makes them exactly when
no loop visits one of them. -/
theorem fork_kernel_pages :
    (∀ page, KernelPage page → next.entry (next.cr3 pid) page = kernelEntry page) ↔
      ∀ addr, map.Visited (state.heapLimit ppid) addr → ¬KernelPage (addr / 4096) := by
  obtain ⟨made, space, held, touches, user⟩ := sysFork_touches ready spaces fits done
  rw [held.childDir]
  constructor
  · intro kept addr visited isKernel
    obtain ⟨frame, attr, isFound, isUser⟩ := user _ isKernel.inside ⟨addr, visited, rfl⟩
    rw [kept _ isKernel, isKernel.entry] at isFound
    obtain ⟨_, rfl⟩ := Prod.mk.inj (Option.some.inj isFound)
    exact absurd isUser (by decide)
  · intro spared page isKernel
    have pinned : Pinned (made.inherit ppid pid) (alloc4k .kernel state.man).2 page
        (4096 * (page - kernelPage), pgP + pgRww) := by
      refine ⟨?_, fun table points => space.proper _ table ⟨points.index, points.present, points.base⟩⟩
      rw [← isKernel.entry]
      exact space.new page isKernel.inside
    rw [isKernel.entry]
    refine (pinned.touches touches ⟨space.tables.inherit, (space.spaces spaces).absent⟩ (by simp)
      isKernel.inside ?_).entry
    rintro (⟨isParent, _⟩ | ⟨_, addr, visited, rfl⟩)
    · exact held.differ isParent.symm
    · exact spared addr visited isKernel

end

end AempOS.Memory
