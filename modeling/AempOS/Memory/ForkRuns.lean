import AempOS.Memory.ForkSteps

/-! Whole calls of `sys_fork`: how they start, what their two loops have done after
some rounds, and that they succeed when there are enough pages. -/

set_option autoImplicit false

namespace AempOS.Memory

open Lib

variable {state next : PageState} {dirs : List Nat} {ppid pid parent child : Nat}

/-! ## The start of a call -/

/-- A process that may call `sys_fork`, and the slot for its child. -/
structure Forkable (dirs : List Nat) (ppid pid : Nat) (state : PageState) : Prop where
  tables : Tables state dirs
  trusted : Trusted state.man
  alive : state.cr3 ppid ≠ 0
  differ : ppid ≠ pid
  absent : EmptyAbsent state (state.cr3 ppid)
  limits : state.heapLimit ppid < 4294967296

/-- The child that `sys_fork` starts with. -/
def PageState.inherit (made : PageState) (ppid pid : Nat) : PageState :=
  { made with heapLimit := Function.update made.heapLimit pid (made.heapLimit ppid) }

theorem sysFork_parts {map : LinMemmap} (done : state.sysFork map ppid pid = some next) :
    ∃ made, state.initPagePte ppid pid = some (made, 0) ∧
      (made.inherit ppid pid).forkMemCpy map ppid pid = some next := by
  simp only [PageState.sysFork] at done
  split at done
  next made result => exact ⟨made, result, done⟩
  next => cases done

theorem Tables.inherit (held : Tables state dirs) : Tables (state.inherit ppid pid) dirs :=
  held.same (fun _ _ _ _ => rfl) rfl fun _ free => free

theorem Content.inherit {frame : Nat} (content : Content dirs state frame) :
    Content dirs (state.inherit ppid pid) frame :=
  ⟨content.aligned, content.used, content.notDir, fun dir member i points =>
    content.notTable dir member i ⟨points.index, points.present, points.base⟩⟩

theorem Forkable.start (ready : Forkable dirs ppid pid state) {made : PageState}
    (done : state.initPagePte ppid pid = some (made, 0)) :
    Forking ((alloc4k .kernel state.man).2 :: dirs) ppid pid (state.cr3 ppid)
      (alloc4k .kernel state.man).2 (made.inherit ppid pid) := by
  have space := initPagePte_space ready.tables ready.trusted done
  have member := ready.tables.cr3 ppid ready.alive
  have differ : state.cr3 ppid ≠ (alloc4k .kernel state.man).2 := fun same =>
    (ready.tables.free_outside space.fresh space.low).1 (same ▸ member)
  refine ⟨space.tables.inherit, space.trusted, List.mem_cons_of_mem _ member, by simp, differ, ?_, ?_,
    fun i table points => space.proper i table ⟨points.index, points.present, points.base⟩,
    fun i inside isAbsent => ?_⟩
  · have cr3 : made.cr3 ppid = state.cr3 ppid := by
      rw [space.cr3]
      exact Function.update_of_ne ready.differ _ _
    exact cr3
  · have cr3 : made.cr3 pid = (alloc4k .kernel state.man).2 := by
      rw [space.cr3]
      exact Function.update_self ..
    exact cr3
  · have word : (made.inherit ppid pid).word (state.cr3 ppid) i = state.word (state.cr3 ppid) i :=
      space.dirWords _ member i inside
    rw [word] at isAbsent ⊢
    exact ready.absent i inside isAbsent

/-- The loops keep parent and child as they should be. -/
theorem Forking.loop (held : Forking dirs ppid pid parent child state) {addrs : List Nat}
    {body : PageState → Nat → Option PageState} (addresses : ∀ addr ∈ addrs, addr < 4294967296)
    (keep : ∀ addr < 4294967296, ∀ state next, Forking dirs ppid pid parent child state →
      body state addr = some next → Forking dirs ppid pid parent child next)
    (done : addrs.foldlM body state = some next) : Forking dirs ppid pid parent child next := by
  induction addrs generalizing state with
  | nil =>
      cases done
      exact held
  | cons addr rest ih =>
      simp only [List.foldlM_cons, Option.bind_eq_bind, Option.bind_eq_some_iff] at done
      obtain ⟨mid, moved, done⟩ := done
      exact ih (keep addr (addresses addr (by simp)) state mid held moved)
        (fun other member => addresses other (by simp [member])) done

theorem Forkable.inherit_heapLimit (ready : Forkable dirs ppid pid state) {made : PageState}
    (done : state.initPagePte ppid pid = some (made, 0)) :
    (made.inherit ppid pid).heapLimit ppid = state.heapLimit ppid := by
  have space := initPagePte_space ready.tables ready.trusted done
  rw [← space.heapLimit]
  exact Function.update_of_ne ready.differ _ _

theorem sysFork_forking {map : LinMemmap} (ready : Forkable dirs ppid pid state) (fits : map.Fits)
    (done : state.sysFork map ppid pid = some next) :
    Forking (next.cr3 pid :: dirs) ppid pid (state.cr3 ppid) (next.cr3 pid) next := by
  obtain ⟨made, isMade, done⟩ := sysFork_parts done
  obtain ⟨shared, copied, text, loops, ranText, ranCopies⟩ := forkMemCpy_loops done
  rw [ready.inherit_heapLimit isMade] at loops
  have textHeld := (ready.start isMade).loop (loops.shared_address fits)
    (fun addr address state next held moved => held.shareText address moved) ranText
  have held := textHeld.loop (loops.copied_address fits ready.limits)
    (fun addr address state next held moved => (held.copyPage address moved).1) ranCopies
  rw [held.childDir]
  exact held

/-! ## What the loops have done -/

/-- One of the addresses lies in the page. -/
def Reached (addrs : List Nat) (page : Nat) : Prop := ∃ addr ∈ addrs, addr / 4096 = page

theorem reached_concat {addrs : List Nat} {addr page : Nat} :
    Reached (addrs ++ [addr]) page ↔ Reached addrs page ∨ addr / 4096 = page := by
  simp [Reached, or_and_right, exists_or]

/-- The page of the child is a copy, on a fresh frame, of the parent's page. -/
def CopyOf (dirs : List Nat) (parent child : Nat) (start state : PageState) (page : Nat) : Prop :=
  ∃ frame, state.entry child page = some (frame, pgP + pgUsu + pgRww) ∧ Content dirs state frame ∧
    FreePage start.man frame ∧
    ∀ source attr, page ≠ shareNumber → start.entry parent page = some (source, attr) →
      Content dirs start source → ∀ j < 1024, state.word frame j = start.word source j

/-- The loops have shared and copied the pages of some addresses. -/
structure SoFar (dirs : List Nat) (parent child : Nat) (start : PageState) (shared copied : List Nat)
    (state : PageState) : Prop where
  parentProper : Proper state parent
  parentPages : ∀ page < 1048576, page ≠ shareNumber ∨ copied = [] →
    state.entry parent page = start.entry parent page
  content : ∀ frame, Content dirs start frame →
    Content dirs state frame ∧ ∀ j < 1024, state.word frame j = start.word frame j
  free : ∀ frame, FreePage state.man frame → FreePage start.man frame
  copies : ∀ page < 1048576, Reached copied page → CopyOf dirs parent child start state page
  shares : ∀ page < 1048576, ¬Reached copied page → Reached shared page →
    ∀ source attr, start.entry parent page = some (source, attr) →
      state.entry child page = some (source, pgP + pgUsu)
  rest : ∀ page < 1048576, ¬Reached copied page → ¬Reached shared page →
    state.entry child page = start.entry child page

variable {start : PageState} {shared copied : List Nat}

theorem SoFar.refl (proper : Proper start parent) : SoFar dirs parent child start [] [] start where
  parentProper := proper
  parentPages _ _ _ := rfl
  content _ content := ⟨content, fun _ _ => rfl⟩
  free _ free := free
  copies _ _ reached := by
    obtain ⟨_, wrong, _⟩ := reached
    cases wrong
  shares _ _ _ reached := by
    obtain ⟨_, wrong, _⟩ := reached
    cases wrong
  rest _ _ _ _ := rfl

theorem SoFar.share (soFar : SoFar dirs parent child start shared [] state)
    (held : Forking dirs ppid pid parent child state) {lin : Nat} (address : lin < 4294967296)
    (done : PageState.sharePage ppid pid state lin = some next) :
    SoFar dirs parent child start (shared ++ [lin]) [] next := by
  obtain ⟨_, _, _, mapped⟩ := held.mapOk held.childDir held.childMember address done
  have only := mapped.onlyPage held.tables held.childMember held.proper
  have nothing : ∀ page, ¬Reached [] page := by
    rintro page ⟨_, wrong, _⟩
    cases wrong
  refine ⟨only.proper parent held.parentMember soFar.parentProper, fun page inside _ => ?_,
    fun frame content => ?_, fun frame free => soFar.free frame (only.free frame free),
    fun page _ reached => absurd reached (nothing page), fun page inside _ reached source attr found => ?_,
    fun page inside _ apart => ?_⟩
  · rw [only.entries parent held.parentMember page inside fun same => held.differ (Prod.mk.inj same).1]
    exact soFar.parentPages page inside (.inr rfl)
  · obtain ⟨before, words⟩ := soFar.content frame content
    obtain ⟨after, same⟩ := only.content frame before
    exact ⟨after, fun j bound => (same j bound).trans (words j bound)⟩
  · by_cases here : lin / 4096 = page
    · subst here
      have source_found := (soFar.parentPages _ inside (.inr rfl)).trans found
      have isFrame := held.frame address source_found
      have aligned : state.pagePhyAddr ppid lin % 4096 = 0 := pageBase_mod _
      have notMax : state.pagePhyAddr ppid lin ≠ failed := by
        unfold failed
        omega
      have set := mapped.entry_set held.tables held.childMember notMax
      rw [reads_makeEntry aligned (by decide) (by decide), isFrame] at set
      exact set
    · have earlier := (reached_concat.mp reached).resolve_right here
      rw [only.entries child held.childMember page inside fun same => here (Prod.mk.inj same).2.symm]
      exact soFar.shares page inside (nothing page) earlier source attr found
  · have here : lin / 4096 ≠ page := fun same => apart (reached_concat.mpr (.inr same))
    rw [only.entries child held.childMember page inside fun same => here (Prod.mk.inj same).2.symm]
    exact soFar.rest page inside (nothing page) fun earlier => apart (reached_concat.mpr (.inl earlier))

theorem SoFar.copy (soFar : SoFar dirs parent child start shared copied state)
    (held : Forking dirs ppid pid parent child state) {lin : Nat} (address : lin < 4294967296)
    (present : lin / 4096 = shareNumber ∨ ∃ found, start.entry parent (lin / 4096) = some found)
    (done : PageState.copyPage ppid pid state lin = some next) :
    SoFar dirs parent child start shared (copied ++ [lin]) next := by
  have here : lin / 4096 = shareNumber ∨ ∃ found, state.entry parent (lin / 4096) = some found := by
    by_cases isShare : lin / 4096 = shareNumber
    · exact .inl isShare
    · rw [soFar.parentPages _ (by omega) (.inl isShare)]
      exact present
  have step := held.copyPage_copied soFar.parentProper address here done
  have content : ∀ frame, Content dirs start frame →
      Content dirs next frame ∧ ∀ j < 1024, next.word frame j = start.word frame j := by
    intro frame content
    obtain ⟨before, words⟩ := soFar.content frame content
    obtain ⟨after, same⟩ := step.content frame before
    exact ⟨after, fun j bound => (same j bound).trans (words j bound)⟩
  refine ⟨step.parentProper, fun page inside apart => ?_, content,
    fun frame free => soFar.free frame (step.free frame free), fun page inside reached => ?_,
    fun page inside apart reached source attr found => ?_, fun page inside apart unshared => ?_⟩
  · have apart : page ≠ shareNumber := apart.resolve_right (by simp)
    rw [step.parentPages page inside apart]
    exact soFar.parentPages page inside (.inl apart)
  · by_cases now : lin / 4096 = page
    · subst now
      obtain ⟨frame, isChild, own, fresh, words⟩ := step.page
      refine ⟨frame, isChild, own, soFar.free frame fresh, fun source attr apart found isContent j bound => ?_⟩
      have found := (soFar.parentPages _ inside (.inl apart)).trans found
      rw [words source attr apart found (soFar.content source isContent).1 j bound]
      exact (soFar.content source isContent).2 j bound
    · have earlier := (reached_concat.mp reached).resolve_right now
      obtain ⟨frame, isChild, own, fresh, words⟩ := soFar.copies page inside earlier
      obtain ⟨after, same⟩ := step.content frame own
      refine ⟨frame, ?_, after, fresh, fun source attr apart found isContent j bound => ?_⟩
      · rw [step.childPages page inside fun isPage => now isPage.symm]
        exact isChild
      · rw [same j bound]
        exact words source attr apart found isContent j bound
  · have now : page ≠ lin / 4096 := fun isPage => apart (reached_concat.mpr (.inr isPage.symm))
    rw [step.childPages page inside now]
    exact soFar.shares page inside (fun earlier => apart (reached_concat.mpr (.inl earlier))) reached source
      attr found
  · have now : page ≠ lin / 4096 := fun isPage => apart (reached_concat.mpr (.inr isPage.symm))
    rw [step.childPages page inside now]
    exact soFar.rest page inside (fun earlier => apart (reached_concat.mpr (.inl earlier))) unshared

theorem Forking.shareAll (held : Forking dirs ppid pid parent child start) (proper : Proper start parent)
    (addresses : ∀ addr ∈ shared, addr < 4294967296)
    (ran : shared.foldlM (PageState.sharePage ppid pid) start = some next) :
    Forking dirs ppid pid parent child next ∧ SoFar dirs parent child start shared [] next := by
  refine foldlM_invariant
    (fun left state => Forking dirs ppid pid parent child state ∧ SoFar dirs parent child start left [] state)
    ⟨held, .refl proper⟩ (fun left lin right state next whole before moved => ?_) ran
  have address := addresses lin (by simp [whole])
  exact ⟨before.1.shareText address moved, before.2.share before.1 address moved⟩

/-- The share page lies on a frame that is in use for it. -/
def ShareBacked (dirs : List Nat) (parent : Nat) (state : PageState) : Prop :=
  ∃ frame attr, state.entry parent shareNumber = some (frame, attr) ∧ Content dirs state frame

theorem SoFar.copyAll (soFar : SoFar dirs parent child start shared [] state)
    (held : Forking dirs ppid pid parent child state) (addresses : ∀ addr ∈ copied, addr < 4294967296)
    (present : ∀ addr ∈ copied, addr / 4096 = shareNumber ∨
      ∃ found, start.entry parent (addr / 4096) = some found)
    (ran : copied.foldlM (PageState.copyPage ppid pid) state = some next) :
    Forking dirs ppid pid parent child next ∧ SoFar dirs parent child start shared copied next ∧
      (copied = [] ∨ ShareBacked dirs parent next) := by
  refine foldlM_invariant
    (fun left state => Forking dirs ppid pid parent child state ∧ SoFar dirs parent child start shared left state ∧
      (left = [] ∨ ShareBacked dirs parent state))
    ⟨held, soFar, .inl rfl⟩ (fun left lin right state next whole before moved => ?_) ran
  have address := addresses lin (by simp [whole])
  obtain ⟨after, frame, isShare, isChild⟩ := before.1.copyPage address moved
  have soFarNext := before.2.1.copy before.1 address (present lin (by simp [whole])) moved
  obtain ⟨own, isOwn, content, _⟩ := soFarNext.copies (lin / 4096) (by omega) ⟨lin, by simp, rfl⟩
  obtain ⟨rfl, _⟩ := Prod.mk.inj (Option.some.inj (isChild.symm.trans isOwn))
  exact ⟨after, soFarNext, .inr ⟨_, _, isShare, content⟩⟩

/-! ## Enough pages for a copy -/

theorem mapOk_of {current lin phy who pdeAttr pteAttr kernel user : Nat}
    (returns : ∃ next, state.linMappingPhy current lin phy who pdeAttr pteAttr = some (next, 0) ∧
      Room kernel user next.man) :
    ∃ next, state.mapOk current lin phy who pdeAttr pteAttr = some next ∧ Room kernel user next.man := by
  obtain ⟨next, called, room⟩ := returns
  refine ⟨next, ?_, room⟩
  simp only [PageState.mapOk, called]

theorem Forking.copyPage_returns (held : Forking dirs ppid pid parent child state)
    (proper : Proper state parent) {lin kernel user : Nat} (address : lin < 4294967296)
    (present : lin / 4096 = shareNumber ∨ ∃ found, state.entry parent (lin / 4096) = some found)
    (room : Room (kernel + 3) (user + 1) state.man) :
    ∃ next, PageState.copyPage ppid pid state lin = some next ∧ Room kernel user next.man := by
  have shareAddress : sharePageBase < 4294967296 := by decide
  have source : pageBase lin < 4294967296 := by
    unfold pageBase
    omega
  have samePage : pageBase lin / 4096 = lin / 4096 := by
    unfold pageBase
    omega
  obtain ⟨cleared, isCleared, clearedRoom⟩ : ∃ cleared,
      state.mapOk ppid sharePageBase 0 ppid (pgP + pgUsu + pgRww) 0 = some cleared ∧
        Room (kernel + 2) (user + 1) cleared.man := mapOk_of (linMappingPhy_room_set held.trusted room rfl)
  obtain ⟨clearedHeld, _⟩ := held.mapOk held.parentDir held.parentMember shareAddress isCleared
  have alive : cleared.cr3 ppid ≠ 0 :=
    clearedHeld.parentDir ▸ clearedHeld.tables.ne_zero held.parentMember
  obtain ⟨taken, isTaken, takenRoom⟩ : ∃ taken,
      cleared.mapOk ppid sharePageBase failed ppid (pgP + pgUsu + pgRww) (pgP + pgUsu + pgRww) = some taken ∧
        Room (kernel + 1) user taken.man :=
    mapOk_of (linMappingPhy_room_max clearedHeld.tables clearedHeld.trusted alive (by decide) clearedRoom)
  obtain ⟨takenHeld, frame, takenShare, _⟩ := held.takeShare isCleared isTaken
  obtain ⟨first, second⟩ := held.takeShare_only proper isCleared isTaken
  obtain ⟨found, isFound⟩ : ∃ found, taken.entry parent (pageBase lin / 4096) = some found := by
    rw [samePage]
    by_cases isShare : lin / 4096 = shareNumber
    · exact ⟨_, isShare ▸ takenShare⟩
    · rw [(first.trans second).entries parent held.parentMember _ (by omega)
        fun same => isShare (Prod.mk.inj same).2]
      exact present.resolve_left isShare
  have accessed : taken.kernelAccess ppid (pageBase lin) 3 = some taken :=
    takenHeld.access_present source isFound
  obtain ⟨copied, isCopied, man⟩ : ∃ copied,
      taken.memcpyPage ppid sharePageBase (pageBase lin) = some copied ∧ copied.man = taken.man := by
    simp only [PageState.memcpyPage, accessed, Option.map_some]
    exact ⟨_, rfl, rfl⟩
  simp only [PageState.copyPage, isCleared, isTaken, isCopied, Option.bind_eq_bind, Option.bind_some]
  rw [← man] at takenRoom
  exact mapOk_of (linMappingPhy_room_set (man ▸ takenHeld.trusted) takenRoom (pageBase_mod _))

theorem Forking.copies_return (held : Forking dirs ppid pid parent child state)
    (proper : Proper state parent) {addrs : List Nat} {kernel user : Nat}
    (addresses : ∀ addr ∈ addrs, addr < 4294967296)
    (present : ∀ addr ∈ addrs, addr / 4096 = shareNumber ∨
      ∃ found, state.entry parent (addr / 4096) = some found)
    (room : Room (kernel + 3 * addrs.length) (user + addrs.length) state.man) :
    ∃ next, addrs.foldlM (PageState.copyPage ppid pid) state = some next ∧ Room kernel user next.man := by
  induction addrs generalizing state with
  | nil => exact ⟨state, rfl, room⟩
  | cons addr rest ih =>
      have address := addresses addr (by simp)
      have here := present addr (by simp)
      have enough : Room (kernel + 3 * rest.length + 3) (user + rest.length + 1) state.man :=
        room.le (by rw [List.length_cons]; omega) (by rw [List.length_cons]; omega)
      obtain ⟨mid, moved, midRoom⟩ := held.copyPage_returns proper address here enough
      have copied := held.copyPage_copied proper address here moved
      obtain ⟨next, ran, nextRoom⟩ := ih (held.copyPage address moved).1 copied.parentProper
        (fun other member => addresses other (by simp [member]))
        (fun other member => by
          have bound := addresses other (by simp [member])
          by_cases isShare : other / 4096 = shareNumber
          · exact .inl isShare
          · rw [copied.parentPages _ (by omega) isShare]
            exact present other (by simp [member]))
        midRoom
      refine ⟨next, ?_, nextRoom⟩
      simp only [List.foldlM_cons, moved, Option.bind_eq_bind, Option.bind_some]
      exact ran

theorem Forking.shares_return (held : Forking dirs ppid pid parent child state) {addrs : List Nat}
    {kernel user : Nat} (addresses : ∀ addr ∈ addrs, addr < 4294967296)
    (room : Room (kernel + addrs.length) user state.man) :
    ∃ next, addrs.foldlM (PageState.sharePage ppid pid) state = some next ∧ Room kernel user next.man := by
  induction addrs generalizing state with
  | nil => exact ⟨state, rfl, room⟩
  | cons addr rest ih =>
      have address := addresses addr (by simp)
      obtain ⟨mid, moved, midRoom⟩ : ∃ mid, PageState.sharePage ppid pid state addr = some mid ∧
          Room (kernel + rest.length) user mid.man :=
        mapOk_of (linMappingPhy_room_set held.trusted room (pageBase_mod _))
      obtain ⟨next, ran, nextRoom⟩ := ih (held.shareText address moved)
        (fun other member => addresses other (by simp [member])) midRoom
      refine ⟨next, ?_, nextRoom⟩
      simp only [List.foldlM_cons, moved, Option.bind_eq_bind, Option.bind_some]
      exact ran

/-! ## A process with pages of its own -/

/-- A process with an address space. -/
structure Process (dirs : List Nat) (pid : Nat) (state : PageState) : Prop where
  tables : Tables state dirs
  trusted : Trusted state.man
  alive : state.cr3 pid ≠ 0
  proper : Proper state (state.cr3 pid)
  absent : EmptyAbsent state (state.cr3 pid)

/-- The page is present, on a frame of its own. -/
def Backed (dirs : List Nat) (pid : Nat) (state : PageState) (page : Nat) : Prop :=
  ∃ frame attr, state.entry (state.cr3 pid) page = some (frame, attr) ∧ Content dirs state frame

theorem Backed.present {page : Nat} (backed : Backed dirs pid state page) :
    ∃ found, state.entry (state.cr3 pid) page = some found := by
  obtain ⟨frame, attr, found, _⟩ := backed
  exact ⟨_, found⟩

theorem OnlyPage.backed {page other : Nat} (only : OnlyPage dirs (state.cr3 pid) page state next)
    (cr3 : next.cr3 = state.cr3) (member : state.cr3 pid ∈ dirs) (inside : other < 1048576)
    (apart : other ≠ page) (backed : Backed dirs pid state other) : Backed dirs pid next other := by
  obtain ⟨frame, attr, found, content⟩ := backed
  refine ⟨frame, attr, ?_, (only.content frame content).1⟩
  rw [cr3, only.entries _ member other inside fun same => apart (Prod.mk.inj same).2]
  exact found

/-- A page that is absent or backed is backed after the call. -/
theorem Process.mapFresh {attr lin kernel user : Nat} (held : Process dirs pid state)
    (below : lin < kernelLinBase) (small : attr < 4096) (odd : attr % 2 = 1)
    (room : Room (kernel + 1) (user + 1) state.man)
    (open_page : state.entry (state.cr3 pid) (lin / 4096) = none ∨ Backed dirs pid state (lin / 4096)) :
    ∃ next, PageState.mapFresh pid attr state lin = some next ∧ Process dirs pid next ∧
      Room kernel user next.man ∧ next.cr3 = state.cr3 ∧ next.heapLimit = state.heapLimit ∧
      OnlyPage dirs (state.cr3 pid) (lin / 4096) state next ∧ Backed dirs pid next (lin / 4096) := by
  have address : lin < 4294967296 := by
    unfold kernelLinBase at below
    omega
  have member := held.tables.cr3 pid held.alive
  obtain ⟨next, isNext, nextRoom⟩ : ∃ next, PageState.mapFresh pid attr state lin = some next ∧
      Room kernel user next.man :=
    mapOk_of (linMappingPhy_room_max held.tables held.trusted held.alive below room)
  have called := mapOk_eq isNext
  obtain ⟨mid, table, mapped⟩ :=
    linMappingPhy_mapped held.tables (held.trusted 2) held.alive address (by decide) (by decide) called
  have keeps := mapped.keeps held.tables member
  have only := mapped.onlyPage held.tables member held.proper
  refine ⟨next, isNext, ?_, nextRoom, keeps.cr3, keeps.heapLimit, only, ?_⟩
  · refine ⟨keeps.tables, linMappingPhy_trusted held.tables held.trusted held.alive address called (.inl rfl),
      keeps.cr3 ▸ held.alive, ?_, ?_⟩
    · rw [keeps.cr3]
      exact only.proper _ member held.proper
    · rw [keeps.cr3]
      exact mapped.emptyAbsent held.tables member member held.absent
  · rcases mapped.entry_max held.tables member rfl (by omega) with
      ⟨found, isFound, rfl, rfl⟩ | ⟨_, frame, set, _, _, content⟩
    · rcases open_page with absent | backed
      · rw [absent] at isFound
        cases isFound
      · exact backed
    · rw [reads_makeEntry content.aligned small odd] at set
      exact ⟨frame, attr, keeps.cr3 ▸ set, content⟩

theorem Process.load {attr kernel user : Nat} {addrs : List Nat} (held : Process dirs pid state)
    (below : ∀ addr ∈ addrs, addr < kernelLinBase) (small : attr < 4096) (odd : attr % 2 = 1)
    (room : Room (kernel + addrs.length) (user + addrs.length) state.man)
    (open_pages : ∀ addr ∈ addrs, state.entry (state.cr3 pid) (addr / 4096) = none ∨
      Backed dirs pid state (addr / 4096)) :
    ∃ next, addrs.foldlM (PageState.mapFresh pid attr) state = some next ∧ Process dirs pid next ∧
      Room kernel user next.man ∧ next.cr3 = state.cr3 ∧ next.heapLimit = state.heapLimit ∧
      (∀ page < 1048576, Backed dirs pid state page ∨ (∃ addr ∈ addrs, addr / 4096 = page) →
        Backed dirs pid next page) ∧
      ∀ page < 1048576, (∀ addr ∈ addrs, addr / 4096 ≠ page) →
        next.entry (state.cr3 pid) page = state.entry (state.cr3 pid) page := by
  induction addrs generalizing state with
  | nil =>
      refine ⟨state, rfl, held, room, rfl, rfl, fun page _ backed => ?_, fun _ _ _ => rfl⟩
      rcases backed with backed | ⟨addr, wrong, _⟩
      · exact backed
      · cases wrong
  | cons addr rest ih =>
      have member := held.tables.cr3 pid held.alive
      obtain ⟨mid, moved, midHeld, midRoom, cr3, limit, only, backed⟩ :=
        held.mapFresh (below addr (by simp)) small odd room (open_pages addr (by simp))
      have addrInside : addr / 4096 < 1048576 := by
        have := below addr (by simp)
        unfold kernelLinBase at this
        omega
      have keep : ∀ page < 1048576, Backed dirs pid state page → Backed dirs pid mid page := by
        intro page inside before
        by_cases same : page = addr / 4096
        · exact same ▸ backed
        · exact only.backed cr3 member inside same before
      obtain ⟨next, ran, nextHeld, nextRoom, nextCr3, nextLimit, backs, others⟩ := ih midHeld
        (fun other inRest => below other (by simp [inRest])) midRoom fun other inRest => by
          have otherInside : other / 4096 < 1048576 := by
            have := below other (by simp [inRest])
            unfold kernelLinBase at this
            omega
          by_cases same : other / 4096 = addr / 4096
          · exact .inr (same ▸ backed)
          · rcases open_pages other (by simp [inRest]) with absent | before
            · rw [cr3, only.entries _ member _ otherInside fun isSame => same (Prod.mk.inj isSame).2]
              exact .inl absent
            · exact .inr (keep _ otherInside before)
      refine ⟨next, ?_, nextHeld, nextRoom, nextCr3.trans cr3, nextLimit.trans limit,
        fun page inside known => ?_, fun page inside apart => ?_⟩
      · simp only [List.foldlM_cons, moved, Option.bind_eq_bind, Option.bind_some]
        exact ran
      · rcases known with before | ⟨other, otherMember, isPage⟩
        · exact backs page inside (.inl (keep page inside before))
        · rcases List.mem_cons.mp otherMember with rfl | inRest
          · exact backs page inside (.inl (isPage ▸ backed))
          · exact backs page inside (.inr ⟨other, inRest, isPage⟩)
      · have onRest := others page inside fun other inRest => apart other (by simp [inRest])
        rw [cr3] at onRest
        rw [onRest]
        exact only.entries _ member page inside fun same =>
          apart addr (by simp) (Prod.mk.inj same).2.symm

/-- The first process, after the pages of some addresses were mapped. -/
theorem first_process {attr : Nat} (addrs : List Nat) (below : ∀ addr ∈ addrs, addr < kernelLinBase)
    (few : addrs.length ≤ 400) (small : attr < 4096) (odd : attr % 2 = 1) :
    ∃ made state, cleanPages.initPagePte 1 1 = some (made, 0) ∧
      addrs.foldlM (PageState.mapFresh 1 attr) made = some state ∧ Process [0x00400000] 1 state ∧
      Room (497 - addrs.length) (4000 - addrs.length) state.man ∧ state.cr3 1 = 0x00400000 ∧
      state.heapLimit 1 = heapLinBase ∧
      (∀ addr ∈ addrs, Backed [0x00400000] 1 state (addr / 4096)) ∧
      (∀ page < 1048576, kernelPage ≤ page → state.entry 0x00400000 page = kernelEntry page) ∧
      ∀ page < kernelPage, (∀ addr ∈ addrs, addr / 4096 ≠ page) → state.entry 0x00400000 page = none := by
  obtain ⟨made, done, room, space⟩ := cleanPages_space
  have isDir : made.cr3 1 = 0x00400000 := by
    rw [space.cr3]
    rfl
  have process : Process [0x00400000] 1 made := by
    refine ⟨space.tables, space.trusted, ?_, ?_, ?_⟩
    · rw [isDir]
      decide
    · rw [isDir]
      exact space.proper
    · rw [isDir]
      exact space.absent
  have page_below : ∀ addr ∈ addrs, addr / 4096 < kernelPage := by
    intro addr member
    have := below addr member
    unfold kernelPage
    unfold kernelLinBase at *
    omega
  have absent : ∀ addr ∈ addrs, made.entry (made.cr3 1) (addr / 4096) = none ∨
      Backed [0x00400000] 1 made (addr / 4096) := by
    intro addr member
    have low := page_below addr member
    have inside : addr / 4096 < 1048576 := Nat.lt_trans low (by decide)
    refine .inl ?_
    rw [isDir, space.new _ inside]
    exact if_neg fun high => by omega
  have enough : Room (497 - addrs.length + addrs.length) (4000 - addrs.length + addrs.length) made.man :=
    room.le (by omega) (by omega)
  obtain ⟨state, ran, held, left, cr3, limit, backs, others⟩ := process.load below small odd enough absent
  refine ⟨made, state, done, ran, held, left, by rw [cr3, isDir], ?_, fun addr member => ?_,
    fun page inside high => ?_, fun page low apart => ?_⟩
  · rw [limit, space.heapLimit]
    rfl
  · exact backs _ (Nat.lt_trans (page_below addr member) (by decide)) (.inr ⟨addr, member, rfl⟩)
  · rw [isDir] at others
    rw [others page inside fun addr member same => by
      have := page_below addr member
      omega]
    exact space.new page inside
  · have inside : page < 1048576 := Nat.lt_trans low (by decide)
    rw [isDir] at others
    rw [others page inside apart, space.new page inside]
    exact if_neg fun high => by omega

/-! ## Processes that fork -/

theorem Process.forkable (held : Process dirs ppid state) (differ : ppid ≠ pid)
    (limits : state.heapLimit ppid < 4294967296) : Forkable dirs ppid pid state :=
  ⟨held.tables, held.trusted, held.alive, differ, held.absent, limits⟩

theorem Process.start_proper (held : Process dirs ppid state) {made : PageState}
    (isMade : state.initPagePte ppid pid = some (made, 0)) :
    Proper (made.inherit ppid pid) (state.cr3 ppid) := by
  have space := initPagePte_space held.tables held.trusted isMade
  have member := held.tables.cr3 ppid held.alive
  intro i table points
  rcases space.points _ member i table ⟨points.index, points.present, points.base⟩ with before | ⟨low, _⟩
  · exact held.proper i table before
  · exact low

/-- With enough pages, and all pages that it reads present, `sys_fork` succeeds. -/
theorem Process.fork_returns {map : LinMemmap} {shared copied : List Nat} (held : Process dirs ppid state)
    (differ : ppid ≠ pid) (limits : state.heapLimit ppid < 4294967296) (fits : map.Fits)
    (loops : Loops map (state.heapLimit ppid) shared copied)
    (present : ∀ addr ∈ copied, ∃ found, state.entry (state.cr3 ppid) (addr / 4096) = some found)
    (room : Room (0 + 3 * copied.length + shared.length + 3) (0 + copied.length) state.man) :
    ∃ next, state.sysFork map ppid pid = some next := by
  have ready : Forkable dirs ppid pid state := held.forkable differ limits
  have member := held.tables.cr3 ppid held.alive
  obtain ⟨made, isMade, madeRoom⟩ : ∃ made, state.initPagePte ppid pid = some (made, 0) ∧
      Room (0 + 3 * copied.length + shared.length) (0 + copied.length) made.man :=
    initPagePte_returns held.tables held.trusted room
  have space := initPagePte_space held.tables held.trusted isMade
  have start := ready.start isMade
  have address := loops.copied_address fits limits
  rw [← ready.inherit_heapLimit isMade] at loops
  have startProper := held.start_proper isMade
  have startPresent : ∀ addr ∈ copied, addr / 4096 = shareNumber ∨
      ∃ found, (made.inherit ppid pid).entry (state.cr3 ppid) (addr / 4096) = some found := by
    intro addr isCopied
    have bound := address addr isCopied
    obtain ⟨found, isFound⟩ := present addr isCopied
    exact .inr ⟨found, (space.old _ member _ (by omega)).trans isFound⟩
  obtain ⟨text, ranText, textRoom⟩ := start.shares_return (loops.shared_address fits) madeRoom
  obtain ⟨textHeld, soFar⟩ := start.shareAll startProper (loops.shared_address fits) ranText
  obtain ⟨next, ranCopies, _⟩ := textHeld.copies_return soFar.parentProper address
    (fun addr isCopied => by
      have bound := address addr isCopied
      rw [soFar.parentPages _ (by omega) (.inr rfl)]
      exact startPresent addr isCopied)
    textRoom
  refine ⟨next, ?_⟩
  simp only [PageState.sysFork, isMade]
  exact loops.forkMemCpy ranText ranCopies

end AempOS.Memory
