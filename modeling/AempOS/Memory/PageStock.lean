import AempOS.Memory.MemmanProperties

/-! The memory manager as a stock of single pages: in the two zones from which
pages are taken every entry starts on a page border, so a page that is handed out
is a page of physical memory and no two of them overlap. -/

set_option autoImplicit false

namespace AempOS.Memory

open Lib Block

/-- The zones from which single pages are taken. -/
def PageZone (addr : Nat) : Prop := memStart ≤ addr ∧ addr < kWall ∨ uWall ≤ addr

/-- Blocks that start on a page border if they lie in a zone of single pages. -/
def OnPages (blocks : List FreeInfo) : Prop :=
  ∀ block ∈ blocks, PageZone block.addr → block.addr % 4096 = 0

/-- A manager whose entries can be handed out page by page. -/
structure Stock (domain : Nat → Prop) (man : Memman) (live : List FreeInfo) : Prop where
  booked : Booked domain man.entries live
  pages : OnPages man.entries

variable {domain : Nat → Prop} {man : Memman} {live : List FreeInfo}

/-- The entries that an allocator leaves start where one did, or behind the block
that was cut off. -/
theorem allocZone_onPages {lo hi size : Nat} (held : Booked domain man.entries live)
    (pages : OnPages man.entries)
    (cut : ∀ addr, lo ≤ addr → addr + size < hi → PageZone (addr + size) →
      (PageZone addr → addr % 4096 = 0) → (addr + size) % 4096 = 0) :
    OnPages (allocZone lo hi man size).1.entries := by
  obtain ⟨same, _⟩ | ⟨left, entry, right, whole, _, fits, _, _, made⟩ :=
    allocZone_cases lo hi man size
  · rw [same]
    exact pages
  · have bound := held.freeBound entry (by simp [whole])
    obtain ⟨low, high, fitting⟩ := fits
    unfold stop at bound
    rw [add32_small (by omega)] at high made
    intro other member zone
    rw [made] at member
    simp only [List.mem_append] at member
    rcases member with (inLeft | inCut) | inRight
    · exact pages other (by simp [whole, inLeft]) zone
    · split at inCut
      · cases inCut
      · obtain rfl := List.mem_singleton.mp inCut
        exact cut entry.addr low high zone (pages entry (by simp [whole]))
    · exact pages other (by simp [whole, inRight]) zone

/-- The entries that a release leaves start where one did, or at the block. -/
theorem memmanFree_onPages {addr size : Nat} (pages : OnPages man.entries)
    (block : PageZone addr → addr % 4096 = 0) :
    OnPages (memmanFree man addr size).1.entries := by
  by_cases empty : size = 0
  · simpa [memmanFree, empty] using pages
  · obtain ⟨left, right, lost, whole, _, _, ended, _⟩ := memmanFree_cases man addr empty
    rw [whole] at pages
    generalize (memmanFree man addr size).1.entries = result at ended
    intro entry member zone
    cases ended with
    | @both start p q rest isLeft isRight =>
        subst isLeft isRight
        simp only [List.mem_append, List.mem_cons] at member
        rcases member with inStart | rfl | inRest
        · exact pages entry (by simp [inStart]) zone
        · exact pages p (by simp) zone
        · exact pages entry (by simp [inRest]) zone
    | @front start p isLeft =>
        subst isLeft
        simp only [List.mem_append, List.mem_cons] at member
        rcases member with inStart | rfl | inRight
        · exact pages entry (by simp [inStart]) zone
        · exact pages p (by simp) zone
        · exact pages entry (by simp [inRight]) zone
    | @back q rest isRight =>
        subst isRight
        simp only [List.mem_append, List.mem_cons] at member
        rcases member with inLeft | rfl | inRest
        · exact pages entry (by simp [inLeft]) zone
        · exact block zone
        · exact pages entry (by simp [inRest]) zone
    | fresh =>
        simp only [List.mem_append, List.mem_cons] at member
        rcases member with inLeft | rfl | inRight
        · exact pages entry (by simp [inLeft]) zone
        · exact block zone
        · exact pages entry (by simp [inRight]) zone
    | lost => exact pages entry member zone

/-- What an allocator hands out starts where an entry did. -/
theorem allocZone_addr {lo hi size : Nat} (held : Booked domain man.entries live)
    (notFailed : (allocZone lo hi man size).2 ≠ failed) :
    ∃ entry ∈ man.entries, (allocZone lo hi man size).2 = entry.addr ∧ lo ≤ entry.addr ∧
      entry.addr + size < hi := by
  obtain ⟨same, _⟩ | ⟨left, entry, right, whole, _, fits, result, _⟩ :=
    allocZone_cases lo hi man size
  · exact absurd (by rw [same]) notFailed
  · have bound := held.freeBound entry (by simp [whole])
    obtain ⟨low, high, fitting⟩ := fits
    unfold stop at bound
    rw [add32_small (by omega)] at high
    exact ⟨entry, by simp [whole], result, low, high⟩

/-- The bounds of the two allocators of single pages. -/
def PageAllocator (lo hi : Nat) : Prop :=
  lo = memStart ∧ hi = kWall ∨ lo = uWall ∧ hi = memEnd

theorem PageAllocator.inside {lo hi addr : Nat} (zone : PageAllocator lo hi) (low : lo ≤ addr)
    (high : addr + 0x1000 < hi) : memStart ≤ addr ∧ PageZone addr := by
  simp only [PageAllocator, PageZone, memStart, kWall, uWall, memEnd] at *
  omega

private theorem cut_page {lo hi : Nat} (zone : PageAllocator lo hi) :
    ∀ addr, lo ≤ addr → addr + 0x1000 < hi → PageZone (addr + 0x1000) →
      (PageZone addr → addr % 4096 = 0) → (addr + 0x1000) % 4096 = 0 := by
  intro addr low high _ aligned
  have := aligned (zone.inside low high).2
  omega

/-- A page comes from the stock, or there is none left. -/
theorem Stock.alloc {lo hi : Nat} (stock : Stock domain man live) (zone : PageAllocator lo hi) :
    allocZone lo hi man 0x1000 = (man, failed) ∨
      ∃ rest page, allocZone lo hi man 0x1000 = (rest, page) ∧ page ≠ failed ∧
        memStart ≤ page ∧ page % 4096 = 0 ∧ Stock domain rest (⟨page, 4096⟩ :: live) := by
  obtain same | ⟨notFailed, booked, _⟩ := allocZone_booked lo hi stock.booked (by decide : SizeOk 0x1000)
  · exact .inl same
  · have pages := allocZone_onPages stock.booked stock.pages (cut_page zone)
    obtain ⟨entry, member, result, low, high⟩ := allocZone_addr stock.booked notFailed
    have inside := zone.inside low high
    refine .inr ⟨(allocZone lo hi man 0x1000).1, (allocZone lo hi man 0x1000).2, rfl, notFailed, ?_, ?_,
      booked, pages⟩
    · exact result ▸ inside.1
    · exact result ▸ stock.pages entry member inside.2

theorem Stock.free {page : Nat} (stock : Stock domain man live) (member : ⟨page, 4096⟩ ∈ live)
    (aligned : page % 4096 = 0) :
    Stock domain (memmanFree man page 0x1000).1 (live.erase ⟨page, 4096⟩) := by
  obtain ⟨_, booked, _⟩ := memmanFree_booked (stock.booked.perm (List.perm_cons_erase member))
  exact ⟨booked, memmanFree_onPages stock.pages fun _ => aligned⟩

theorem hand_onPages {lo hi size : Nat} {state : MemState}
    (held : Booked domain state.man.entries state.live) (pages : OnPages (state.man.entries ++ state.live))
    (cut : ∀ addr, lo ≤ addr → addr + size < hi → PageZone (addr + size) →
      (PageZone addr → addr % 4096 = 0) → (addr + size) % 4096 = 0) :
    OnPages ((state.hand (allocZone lo hi state.man size) size).man.entries ++
      (state.hand (allocZone lo hi state.man size) size).live) := by
  have oldFree : OnPages state.man.entries := fun entry member => pages entry (by simp [member])
  have oldLive : OnPages state.live := fun block member => pages block (by simp [member])
  have newFree := allocZone_onPages held oldFree cut
  intro block member zone
  rcases List.mem_append.mp member with inFree | inLive
  · exact newFree block inFree zone
  · simp only [MemState.hand] at inLive
    split at inLive
    next => exact oldLive block inLive zone
    next notFailed =>
        rcases List.mem_cons.mp inLive with rfl | old
        · obtain ⟨entry, inside, result, _⟩ := allocZone_addr held notFailed
          simp only [result] at zone ⊢
          exact oldFree entry inside zone
        · exact oldLive block old zone

/-- Blocks of other sizes are taken between the zones of single pages. -/
private theorem cut_between {lo hi size : Nat} (low : kWall ≤ lo) (high : hi ≤ uWall) :
    ∀ addr, lo ≤ addr → addr + size < hi → PageZone (addr + size) →
      (PageZone addr → addr % 4096 = 0) → (addr + size) % 4096 = 0 := by
  intro addr above below zone _
  unfold PageZone at zone
  omega

/-- Every run of the manager keeps the blocks of those zones on page borders. -/
theorem memSystem_stock {table : List Nat} {garbage : Memman} (loader : LoaderTable table)
    {state : MemState} (reached : (memSystem table garbage).Reachable state) :
    Stock (initialDomain (init table garbage).entries) state.man state.live := by
  have start : ∀ state, (memSystem table garbage).initial state →
      MemInv (initialDomain (init table garbage).entries) state ∧
        OnPages (state.man.entries ++ state.live) := by
    rintro state rfl
    refine ⟨(reachable_inv loader (.initial rfl)).1, fun block member _ => ?_⟩
    rw [initialMem, List.append_nil] at member
    exact (init_spaced loader garbage).1.aligned block member
  have kept := reached.invariant start ?_
  · exact ⟨kept.1.booked, fun entry member => kept.2 entry (by simp [member])⟩
  · rintro state action next ⟨held, pages⟩ moved
    refine ⟨(step_inv held moved).1, ?_⟩
    replace moved : state.step action = some next := moved
    cases action with
    | alloc size =>
        simp only [MemState.step] at moved
        split at moved
        next => cases moved; exact hand_onPages held.booked pages (cut_between (by decide) (by decide))
        next => cases moved
    | kalloc size =>
        simp only [MemState.step] at moved
        split at moved
        next => cases moved; exact hand_onPages held.booked pages (cut_between (by decide) (by decide))
        next => cases moved
    | alloc4k => cases moved; exact hand_onPages held.booked pages (cut_page (.inr ⟨rfl, rfl⟩))
    | kalloc4k => cases moved; exact hand_onPages held.booked pages (cut_page (.inl ⟨rfl, rfl⟩))
    | free block =>
        simp only [MemState.step] at moved
        split at moved
        next member =>
            cases moved
            have newFree : OnPages (memmanFree state.man block.addr block.size).1.entries :=
              memmanFree_onPages (fun entry inside => pages entry (by simp [inside]))
                (pages block (by simp [member]))
            intro other inside zone
            rcases List.mem_append.mp inside with inFree | inLive
            · exact newFree other inFree zone
            · exact pages other (by simp [List.mem_of_mem_erase inLive]) zone
        next => cases moved

end AempOS.Memory
