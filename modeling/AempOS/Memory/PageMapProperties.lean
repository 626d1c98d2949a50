import AempOS.Memory.AddressSpace

/-! `lin_mapping_phy` refines the update of a map. The map takes an address space,
known by its page directory, and a page to a frame and attributes. The page
directories and tables are those that any run of `init_page_pte` and
`lin_mapping_phy` built, while everything else changes at will. -/

set_option autoImplicit false

namespace AempOS.Memory

open Lib

/-! ## The map and its update -/

/-- From an address space and a page to a frame and attributes. -/
abbrev PageMap := Nat × Nat → Option (Nat × Nat)

/-- The update that a call asks for. `failed` stands for `MAX_UNSIGNED_INT`: a page
that is present is kept, and another one gets a frame that is fresh. -/
inductive Updates (Unused : Nat → Prop) (before : PageMap) (space : Nat × Nat) (phy attr : Nat) :
    PageMap → Prop where
  | set : phy ≠ failed →
      Updates Unused before space phy attr (Function.update before space (some (phy, attr)))
  | kept {found : Nat × Nat} : phy = failed → before space = some found →
      Updates Unused before space phy attr before
  | fresh {frame : Nat} : phy = failed → before space = none → Unused frame →
      Updates Unused before space phy attr (Function.update before space (some (frame, attr)))

/-! ## Runs that build page tables -/

/-- The memory with the page directories that were made. -/
structure MapState where
  pages : PageState
  dirs : List Nat

/-- The map that the directories and tables stand for. -/
def MapState.view (state : MapState) : PageMap := fun space =>
  if space.1 ∈ state.dirs ∧ space.2 < 1048576 then state.pages.entry space.1 space.2 else none

inductive MapAction where
  | initPagePte (current pid : Nat)
  | linMappingPhy (current lin phy pid pdeAttr pteAttr : Nat)
  /-- Whatever the kernel and the processes do besides. -/
  | other (pages : PageState)

def MapState.step (state : MapState) : MapAction → Option MapState
  | .initPagePte current pid =>
      match state.pages.initPagePte current pid with
      | some (pages, 0) => some ⟨pages, pages.cr3 pid :: state.dirs⟩
      | _ => none
  | .linMappingPhy current lin phy pid pdeAttr pteAttr =>
      (state.pages.linMappingPhy current lin phy pid pdeAttr pteAttr).map fun result =>
        ⟨result.1, state.dirs⟩
  | .other pages => some ⟨pages, state.dirs⟩

def mapSystem : Machine MapState MapAction where
  initial state := state.dirs = [] ∧ ∀ pid, state.pages.cr3 pid = 0
  step := MapState.step

/-- Directories and tables are neither written nor released, and processes have
directories that were made. -/
structure Elsewhere (state : MapState) (pages : PageState) : Prop where
  cr3 : ∀ pid, pages.cr3 pid ≠ 0 → pages.cr3 pid ∈ state.dirs
  dirs : ∀ dir ∈ state.dirs, ∀ i < 1024, pages.word dir i = state.pages.word dir i
  tables : ∀ dir ∈ state.dirs, ∀ i table, PointsTo state.pages dir i table →
    ∀ j < 1024, pages.word table j = state.pages.word table j
  usedDirs : ∀ dir ∈ state.dirs, ¬FreePage pages.man dir
  usedTables : ∀ dir ∈ state.dirs, ∀ i table, PointsTo state.pages dir i table → ¬FreePage pages.man table

/-- The pages that the manager hands out are fresh, and there is one for a table.
Attributes are the low bits of an entry. -/
def Assumed (state : MapState) : MapAction → Prop
  | .initPagePte _ _ => Trusted state.pages.man
  | .linMappingPhy _ lin _ pid pdeAttr pteAttr =>
      Trusted state.pages.man ∧ (alloc4k .kernel state.pages.man).2 ≠ failed ∧
        state.pages.cr3 pid ≠ 0 ∧ lin < 4294967296 ∧ pdeAttr < 4096 ∧ pteAttr < 4096
  | .other pages => Elsewhere state pages

/-- No table is shared, and every table is a page in use. -/
structure Built (state : MapState) : Prop where
  tables : Tables state.pages state.dirs
  proper : ∀ dir ∈ state.dirs, Proper state.pages dir

variable {state next : MapState}

theorem initPagePte_built {current pid : Nat} {pages : PageState} (held : Built state)
    (trusted : Trusted state.pages.man) (done : state.pages.initPagePte current pid = some (pages, 0)) :
    Built ⟨pages, pages.cr3 pid :: state.dirs⟩ := by
  have space := initPagePte_space held.tables trusted done
  have isDir : pages.cr3 pid = (alloc4k .kernel state.pages.man).2 := by
    rw [space.cr3]
    exact Function.update_self ..
  rw [isDir]
  refine ⟨space.tables, fun dir member => ?_⟩
  rcases List.mem_cons.mp member with rfl | old
  · exact space.proper
  · intro i table points
    rcases space.points dir old i table points with before | ⟨low, _⟩
    · exact held.proper dir old i table before
    · exact low

theorem linked_built {dir i attr table : Nat} {mid : PageState} (held : Built state)
    (member : dir ∈ state.dirs) (index : i < 1024) (small : attr < 4096)
    (linked : Linked state.pages dir i attr mid table) : Built ⟨mid, state.dirs⟩ := by
  refine ⟨linked.tables held.tables member index small, fun other otherMember j base points => ?_⟩
  by_cases same : (other, j) = (dir, i)
  · cases same
    have isTable : table = base := (linked.base small).symm.trans points.base
    subst isTable
    cases linked with
    | found before => exact held.proper dir member i table before
    | made _ _ _ low => exact low
  · have word := linked.word_dir held.tables member index otherMember points.index same
    exact held.proper other otherMember j base
      ⟨points.index, word ▸ points.present, word ▸ points.base⟩

theorem placed_built {dir i lin phy table attr : Nat} {mid pages : PageState} (before : Built state)
    (held : Built ⟨mid, state.dirs⟩) (member : dir ∈ state.dirs)
    (linked : Linked state.pages dir i attr mid table) {pteAttr : Nat}
    (placed : Placed mid lin phy table pteAttr pages) : Built ⟨pages, state.dirs⟩ := by
  have notDir := linked.notDir before.tables member
  refine ⟨placed.tables held.tables linked.aligned notDir, fun other otherMember j base points => ?_⟩
  have word := placed.word_other linked.aligned (before.tables.aligned other otherMember)
    (fun same => notDir (same ▸ otherMember)) points.index
  exact held.proper other otherMember j base ⟨points.index, word ▸ points.present, word ▸ points.base⟩

theorem other_built {pages : PageState} (held : Built state) (elsewhere : Elsewhere state pages) :
    Built ⟨pages, state.dirs⟩ := by
  have before : ∀ dir ∈ state.dirs, ∀ i table, PointsTo pages dir i table →
      PointsTo state.pages dir i table := by
    intro dir member i table points
    have word := elsewhere.dirs dir member i points.index
    exact ⟨points.index, word ▸ points.present, word ▸ points.base⟩
  refine ⟨⟨held.tables.low, held.tables.aligned, elsewhere.usedDirs, elsewhere.cr3, ?_, ?_, ?_⟩, ?_⟩
  · exact fun dir member i table points =>
      held.tables.outside dir member i table (before dir member i table points)
  · exact fun dir member i table points _ =>
      elsewhere.usedTables dir member i table (before dir member i table points)
  · exact fun dir member other otherMember i j table low left right =>
      held.tables.unique dir member other otherMember i j table low (before dir member i table left)
        (before other otherMember j table right)
  · exact fun dir member i table points =>
      held.proper dir member i table (before dir member i table points)

theorem step_built {action : MapAction} (held : Built state) (assumed : Assumed state action)
    (moved : state.step action = some next) : Built next := by
  cases action with
  | initPagePte current pid =>
      simp only [MapState.step] at moved
      split at moved
      next pages done =>
          cases moved
          exact initPagePte_built held assumed done
      next => cases moved
  | linMappingPhy current lin phy pid pdeAttr pteAttr =>
      obtain ⟨trusted, notFailed, alive, address, small, _⟩ := assumed
      simp only [MapState.step, Option.map_eq_some_iff] at moved
      obtain ⟨⟨pages, result⟩, done, rfl⟩ := moved
      have member := held.tables.cr3 pid alive
      obtain ⟨mid, table, linked, ends⟩ :=
        linMappingPhy_cases held.tables (trusted 2) alive address done (.inr notFailed)
      have midHeld := linked_built held member (pdeIndex_lt address) small linked
      rcases ends with ⟨_, placed⟩ | ⟨_, rfl⟩
      · exact placed_built held midHeld member linked placed
      · exact midHeld
  | other pages =>
      cases moved
      exact other_built held assumed

theorem reachable_built (reached : mapSystem.ReachableWhen Assumed state) : Built state := by
  have start : ∀ state, mapSystem.initial state → Built state := by
    rintro state ⟨empty, none⟩
    refine ⟨⟨?_, ?_, ?_, fun pid alive => absurd (none pid) alive, ?_, ?_, ?_⟩, ?_⟩ <;> simp [empty]
  exact reached.invariant start fun state action next held assumed moved => step_built held assumed moved

/-! ## The refinement -/

theorem view_of {dir page : Nat} (member : dir ∈ state.dirs) (inside : page < 1048576) :
    state.view (dir, page) = state.pages.entry dir page :=
  if_pos ⟨member, inside⟩

theorem view_update {pages : PageState} {dir page : Nat} {found : Option (Nat × Nat)}
    (member : dir ∈ state.dirs) (inside : page < 1048576) (set : pages.entry dir page = found)
    (others : ∀ other ∈ state.dirs, ∀ q < 1048576, (other, q) ≠ (dir, page) →
      pages.entry other q = state.pages.entry other q) :
    MapState.view ⟨pages, state.dirs⟩ = Function.update state.view (dir, page) found := by
  funext space
  by_cases same : space = (dir, page)
  · subst same
    rw [Function.update_self, ← set]
    exact if_pos ⟨member, inside⟩
  · rw [Function.update_of_ne same]
    obtain ⟨other, q⟩ := space
    simp only [MapState.view]
    split
    next both => exact others other both.1 q both.2 same
    next => rfl

/-- In every state whose directories and tables were built by `init_page_pte` and
`lin_mapping_phy`, a call of `lin_mapping_phy` with `PG_P` in its attributes
returns and updates the map at the page of the address, where
`get_page_phy_addr` then finds the frame. -/
theorem linMappingPhy_refines {current lin phy pid pdeAttr pteAttr : Nat}
    (reached : mapSystem.ReachableWhen Assumed state) (serves : Serves 2 state.pages.man)
    (alive : state.pages.cr3 pid ≠ 0) (address : lin < 4294967296) (asked : phy = failed ∨ phy % 4096 = 0)
    (pdeSmall : pdeAttr < 4096) (pdePresent : pdeAttr % 2 = 1)
    (pteSmall : pteAttr < 4096) (ptePresent : pteAttr % 2 = 1) :
    ∃ pages, state.pages.linMappingPhy current lin phy pid pdeAttr pteAttr = some (pages, 0) ∧
      Updates (fun frame => frame % 4096 = 0 ∧ FreePage state.pages.man frame ∧ ¬FreePage pages.man frame)
        state.view (state.pages.cr3 pid, lin / 4096) phy pteAttr (MapState.view ⟨pages, state.dirs⟩) ∧
      ∃ attr, MapState.view ⟨pages, state.dirs⟩ (state.pages.cr3 pid, lin / 4096) =
        some (pages.pagePhyAddr pid lin, attr) := by
  have held := reachable_built reached
  have member := held.tables.cr3 pid alive
  have inside : lin / 4096 < 1048576 := by omega
  obtain ⟨pages, done⟩ : ∃ pages,
      state.pages.linMappingPhy current lin phy pid pdeAttr pteAttr = some (pages, 0) :=
    linMappingPhy_returns held.tables serves alive address asked
  obtain ⟨mid, table, mapped⟩ :=
    linMappingPhy_mapped held.tables serves.honest alive address pdeSmall pdePresent done
  have keeps := mapped.keeps held.tables member
  have midBuilt := linked_built held member mapped.index pdeSmall mapped.linked
  have others : ∀ other ∈ state.dirs, ∀ q < 1048576, (other, q) ≠ (state.pages.cr3 pid, lin / 4096) →
      pages.entry other q = state.pages.entry other q :=
    fun other otherMember q bound apart => mapped.entry_other held.tables member otherMember bound apart
      fun points => midBuilt.proper other otherMember _ table points
  have nextAlive : pages.cr3 pid ≠ 0 := by rwa [keeps.cr3]
  have reads : ∀ {found}, pages.entry (state.pages.cr3 pid) (lin / 4096) = some found →
      ∃ attr, MapState.view ⟨pages, state.dirs⟩ (state.pages.cr3 pid, lin / 4096) =
        some (pages.pagePhyAddr pid lin, attr) := by
    intro found isFound
    have isView : MapState.view ⟨pages, state.dirs⟩ (state.pages.cr3 pid, lin / 4096) =
        pages.entry (state.pages.cr3 pid) (lin / 4096) := if_pos ⟨member, inside⟩
    rw [isView, isFound]
    rw [← keeps.cr3] at isFound
    exact ⟨found.2, by rw [pagePhyAddr_eq keeps.tables nextAlive inside isFound]⟩
  refine ⟨pages, done, ?_⟩
  by_cases isMax : phy = failed
  · rcases mapped.entry_max held.tables member isMax inside with
      ⟨found, isFound, rfl, rfl⟩ | ⟨absent, frame, set, low, free, content⟩
    · have isView := (view_of member inside).trans isFound
      exact ⟨.kept isMax isView, reads isFound⟩
    · rw [reads_makeEntry content.aligned pteSmall ptePresent] at set
      refine ⟨?_, reads set⟩
      rw [view_update member inside set others]
      refine .fresh isMax ?_ ⟨content.aligned, mapped.linked.free free, content.used⟩
      rw [view_of member inside, absent]
  · have aligned : phy % 4096 = 0 := asked.resolve_left isMax
    have set := mapped.entry_set held.tables member isMax
    rw [reads_makeEntry aligned pteSmall ptePresent] at set
    refine ⟨?_, reads set⟩
    rw [view_update member inside set others]
    exact .set isMax

theorem Room.serves {n : Nat} {man : Memman} (trusted : Trusted man) (room : Room n n man) :
    Serves n man := by
  induction n generalizing man with
  | zero => trivial
  | succ n ih =>
      intro pool
      have served : (alloc4k pool man).2 ≠ failed ∧ Room n n (alloc4k pool man).1 := by
        cases pool with
        | kernel =>
            obtain ⟨notFailed, less⟩ := room.kernelPage
            exact ⟨notFailed, less.le (Nat.le_refl _) (by omega)⟩
        | user =>
            obtain ⟨notFailed, less⟩ := room.userPage
            exact ⟨notFailed, less.le (by omega) (Nat.le_refl _)⟩
      obtain ⟨fresh, restTrusted⟩ := trusted.alloc pool served.1
      exact ⟨fresh, ih restTrusted served.2⟩

theorem reached_initPagePte {current pid : Nat} {pages : PageState} (start : mapSystem.initial state)
    (trusted : Trusted state.pages.man) (done : state.pages.initPagePte current pid = some (pages, 0)) :
    mapSystem.ReachableWhen Assumed ⟨pages, pages.cr3 pid :: state.dirs⟩ := by
  have moved : mapSystem.step state (.initPagePte current pid) =
      some ⟨pages, pages.cr3 pid :: state.dirs⟩ := by
    simp only [mapSystem, MapState.step, done]
  have assumed : Assumed state (.initPagePte current pid) := trusted
  exact .step (.initial start) assumed moved

/-- Process 1 gets an address space, in which a page of the heap is mapped to a
fresh frame. -/
theorem linMappingPhy_refines_heap :
    ∃ state pages frame, mapSystem.ReachableWhen Assumed state ∧ state.pages.cr3 1 = 0x00400000 ∧
      state.pages.linMappingPhy 1 0x48000000 failed 1 7 7 = some (pages, 0) ∧
      FreePage state.pages.man frame ∧ ¬FreePage pages.man frame ∧
      MapState.view ⟨pages, state.dirs⟩ = Function.update state.view (0x00400000, 0x48000) (some (frame, 7)) ∧
      pages.pagePhyAddr 1 0x48000000 = frame := by
  obtain ⟨made, done, room, space⟩ := cleanPages_space
  have isDir : made.cr3 1 = 0x00400000 := by
    rw [space.cr3]
    decide
  have start : mapSystem.initial ⟨cleanPages, []⟩ := ⟨rfl, fun _ => rfl⟩
  have reached : mapSystem.ReachableWhen Assumed ⟨made, made.cr3 1 :: []⟩ :=
    reached_initPagePte start cleanMan_trusted done
  have serves : Serves 2 made.man := Room.serves space.trusted (room.le (by decide) (by decide))
  have alive : made.cr3 1 ≠ 0 := by
    rw [isDir]
    decide
  have refines : ∃ pages, made.linMappingPhy 1 0x48000000 failed 1 7 7 = some (pages, 0) ∧ _ :=
    linMappingPhy_refines reached serves alive (by decide) (.inl rfl) (by decide) (by decide) (by decide)
      (by decide)
  rw [isDir] at reached refines
  obtain ⟨pages, mapped, updates, attr, found⟩ := refines
  have absent : MapState.view ⟨made, 0x00400000 :: []⟩ (0x00400000, 0x48000) = none := by
    refine (if_pos ⟨by simp, by decide⟩).trans ?_
    exact (space.new 0x48000 (by decide)).trans (by decide)
  generalize isAfter : MapState.view ⟨pages, 0x00400000 :: []⟩ = after at updates found
  cases updates with
  | set notMax => exact absurd rfl notMax
  | kept _ present =>
      rw [absent] at present
      cases present
  | @fresh frame _ _ unused =>
      simp only [Function.update_self, Option.some.injEq, Prod.mk.injEq] at found
      exact ⟨_, pages, frame, reached, isDir, mapped, unused.2.1, unused.2.2, isAfter, found.1.symm⟩

end AempOS.Memory
