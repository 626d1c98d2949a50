import AempOS.Lib.Coalesced
import AempOS.Memory.MemmanEntries

/-! The free list as a set of addresses. A coalesced list is the only one of its
set, so a release adds its region in one way, whatever the order of the releases
is, and undoes the allocation that it follows. Sizes are `u32` values: the one
list that has no such form is a single entry of all `2 ^ 32` addresses. -/

set_option autoImplicit false

namespace AempOS.Memory

open Lib Block

variable {man : Memman} {block : FreeInfo}

/-- A coalesced free list that the array holds. -/
structure FreeList (man : Memman) : Prop where
  coalesced : Coalesced 4294967296 man.entries
  small : ∀ entry ∈ man.entries, entry.size < 4294967296
  room : man.frees ≤ memmanFrees

/-- A region that may be released: not empty, without wrap, apart from the
entries. -/
structure Region (man : Memman) (block : FreeInfo) : Prop where
  filled : 0 < block.size
  small : block.size < 4294967296
  bound : block.stop ≤ 4294967296
  apart : ∀ entry ∈ man.entries, Apart entry block

/-- The entry ends where the region starts, or starts where it ends. -/
def Adjoins (entry block : FreeInfo) : Prop := entry.stop = block.addr ∨ block.stop = entry.addr

/-! ## Sizes in `u32` -/

/-- An entry with its size as the array keeps it. -/
def asU32 (entry : FreeInfo) : FreeInfo := { entry with size := entry.size % 4294967296 }

theorem asU32_small {entry : FreeInfo} (small : entry.size < 4294967296) : asU32 entry = entry := by
  unfold asU32
  rw [Nat.mod_eq_of_lt small]

theorem map_asU32 {entries : List FreeInfo} (small : ∀ entry ∈ entries, entry.size < 4294967296) :
    entries.map asU32 = entries := by
  induction entries with
  | nil => rfl
  | cons entry rest ih =>
      rw [List.map_cons, asU32_small (small entry (by simp)),
        ih fun other member => small other (List.mem_cons_of_mem _ member)]

theorem map_asU32_around {left right : List FreeInfo} {entry stored : FreeInfo}
    (smallLeft : ∀ other ∈ left, other.size < 4294967296)
    (smallRight : ∀ other ∈ right, other.size < 4294967296) (form : asU32 entry = stored) :
    left ++ stored :: right = (left ++ entry :: right).map asU32 := by
  rw [List.map_append, List.map_cons, map_asU32 smallLeft, map_asU32 smallRight, form]

/-- Apart from the list of everything, every coalesced list has `u32` sizes. -/
theorem small_of_total {entries : List FreeInfo} (held : Coalesced 4294967296 entries)
    (notAll : totalSize entries ≠ 4294967296) : ∀ entry ∈ entries, entry.size < 4294967296 := by
  intro entry member
  have total := held.total_le
  have part := Coalesced.size_le_total member
  omega

theorem FreeList.total_lt (held : FreeList man) : totalSize man.entries < 4294967296 := by
  refine Nat.lt_of_le_of_ne held.coalesced.total_le fun all => ?_
  have whole := held.coalesced.total_full all (by decide)
  have small := held.small ⟨0, 4294967296⟩ (by simp [whole])
  exact absurd small (by decide)

/-! ## Release -/

section Release

variable {left right : List FreeInfo}

theorem touch_front (opening : Opening 4294967296 left right block) {p : FreeInfo} (member : p ∈ left) :
    add32 p.addr p.size = p.stop := by
  have ahead := opening.ahead p member
  have bound := opening.bound
  have filled := opening.filled
  unfold add32 stop at *
  omega

theorem touch_back (opening : Opening 4294967296 left right block) {q : FreeInfo} (member : q ∈ right) :
    add32 block.addr block.size = block.stop := by
  have behind := opening.behind q member
  have bound := opening.held.bound q (List.mem_append_right _ member)
  have filled := opening.held.filled q (List.mem_append_right _ member)
  unfold add32 stop at *
  omega

theorem notFront_stop (opening : Opening 4294967296 left right block)
    (notFront : ∀ p ∈ left.getLast?, add32 p.addr p.size ≠ block.addr) :
    ∀ p ∈ left.getLast?, p.stop ≠ block.addr := by
  intro p last
  rw [← touch_front opening (List.mem_of_getLast? last)]
  exact notFront p last

theorem notBack_stop (opening : Opening 4294967296 left right block)
    (notBack : ∀ q ∈ right.head?, add32 block.addr block.size ≠ q.addr) :
    ∀ q ∈ right.head?, block.stop ≠ q.addr := by
  intro q first
  rw [← touch_back opening (List.mem_of_head? first)]
  exact notBack q first

/-- A block that meets no edge of its two neighbours adjoins no entry at all. -/
theorem not_adjoins (opening : Opening 4294967296 left right block)
    (notFront : ∀ p ∈ left.getLast?, add32 p.addr p.size ≠ block.addr)
    (notBack : ∀ q ∈ right.head?, add32 block.addr block.size ≠ q.addr) :
    ∀ entry ∈ left ++ right, ¬Adjoins entry block := by
  intro entry member adjoins
  obtain ⟨heldLeft, heldRight, _⟩ := opening.held.of_append
  have before := heldLeft.gap_before opening.ahead (notFront_stop opening notFront)
  have behind := heldRight.gap_behind opening.behind (notBack_stop opening notBack)
  have filled := opening.filled
  unfold Adjoins at adjoins
  rcases List.mem_append.mp member with inLeft | inRight
  · have := before entry inLeft
    unfold stop at *
    omega
  · have := behind entry inRight
    unfold stop at *
    omega

/-- What `memman_free` does to the set of free addresses, with sizes over the
integers. -/
structure Released (man : Memman) (block : FreeInfo) (result : Memman × Nat)
    (ideal : List FreeInfo) : Prop where
  value : result.2 = 0
  losts : result.1.losts = man.losts
  lostsize : result.1.lostsize = man.lostsize
  coalesced : Coalesced 4294967296 ideal
  joins : Joins ideal man.entries block
  total : totalSize ideal = totalSize man.entries + block.size
  entries : result.1.entries = ideal.map asU32
  growth : ideal.length ≤ man.entries.length + 1
  room : ideal.length ≤ memmanFrees

/-- A call that finds the array full and no entry to grow. -/
structure Refused (man : Memman) (block : FreeInfo) (result : Memman × Nat) : Prop where
  value : result.2 = failed
  full : man.frees = memmanFrees
  apart : ∀ entry ∈ man.entries, ¬Adjoins entry block
  entries : result.1.entries = man.entries
  losts : result.1.losts = add32 man.losts 1
  lostsize : result.1.lostsize = add32 man.lostsize block.size

theorem memmanFree_released (held : FreeList man) (region : Region man block) :
    (∃ ideal, Released man block (memmanFree man block.addr block.size) ideal) ∨
      Refused man block (memmanFree man block.addr block.size) := by
  obtain ⟨left, right, lost, whole, ahead, behind, ended, lostsize, losts, value⟩ :=
    memmanFree_cases man block.addr (Nat.pos_iff_ne_zero.mp region.filled)
  have room := held.room
  rw [← entries_length, whole] at room
  have heldWhole := held.coalesced
  have apart := region.apart
  have small := held.small
  rw [whole] at heldWhole apart small
  have opening : Opening 4294967296 left right block :=
    .of_apart heldWhole region.filled region.bound apart ahead behind
  have smallLeft : ∀ entry ∈ left, entry.size < 4294967296 := fun entry member =>
    small entry (List.mem_append_left _ member)
  have smallRight : ∀ entry ∈ right, entry.size < 4294967296 := fun entry member =>
    small entry (List.mem_append_right _ member)
  generalize memmanFree man block.addr block.size = called at *
  generalize after : called.1.entries = entries at ended
  cases ended with
  | @both start p q rest isLeft isRight front back =>
      subst isLeft isRight
      rw [touch_front opening (by simp)] at front
      rw [touch_back opening List.mem_cons_self] at back
      obtain ⟨coalesced, joins⟩ := opening.both front back
      refine .inl ⟨_, value, losts, lostsize, coalesced, whole ▸ joins, ?_, ?_, ?_, ?_⟩
      · rw [whole]
        simp only [totalSize_append, totalSize_cons, totalSize_nil]
        omega
      · rw [after]
        refine map_asU32_around (fun other member => smallLeft other (List.mem_append_left _ member))
          (fun other member => smallRight other (List.mem_cons_of_mem _ member)) ?_
        simp [asU32, add32]
      · rw [whole]
        simp only [List.length_append, List.length_cons, List.length_nil]
        omega
      · simp only [List.length_append, List.length_cons, List.length_nil] at room ⊢
        omega
  | @front start p isLeft front notBack =>
      subst isLeft
      rw [touch_front opening (by simp)] at front
      obtain ⟨coalesced, joins⟩ := opening.front front (notBack_stop opening notBack)
      refine .inl ⟨_, value, losts, lostsize, coalesced, whole ▸ joins, ?_, ?_, ?_, ?_⟩
      · rw [whole]
        simp only [totalSize_append, totalSize_cons, totalSize_nil]
        omega
      · rw [after]
        exact map_asU32_around (fun other member => smallLeft other (List.mem_append_left _ member))
          smallRight rfl
      · rw [whole]
        simp only [List.length_append, List.length_cons, List.length_nil]
        omega
      · simp only [List.length_append, List.length_cons, List.length_nil] at room ⊢
        omega
  | @back q rest isRight notFront back =>
      subst isRight
      rw [touch_back opening List.mem_cons_self] at back
      obtain ⟨coalesced, joins⟩ := opening.back (notFront_stop opening notFront) back
      refine .inl ⟨_, value, losts, lostsize, coalesced, whole ▸ joins, ?_, ?_, ?_, ?_⟩
      · rw [whole]
        simp only [totalSize_append, totalSize_cons]
        omega
      · rw [after]
        exact map_asU32_around smallLeft
          (fun other member => smallRight other (List.mem_cons_of_mem _ member)) rfl
      · rw [whole]
        simp only [List.length_append, List.length_cons]
        omega
      · simp only [List.length_append, List.length_cons] at room ⊢
        omega
  | fresh notFront notBack free =>
      obtain ⟨coalesced, joins⟩ := opening.fresh (notFront_stop opening notFront)
        (notBack_stop opening notBack)
      refine .inl ⟨_, value, losts, lostsize, coalesced, whole ▸ joins, ?_, ?_, ?_, ?_⟩
      · rw [whole]
        simp only [totalSize_append, totalSize_cons]
        omega
      · rw [after]
        exact map_asU32_around smallLeft smallRight (asU32_small region.small)
      · rw [whole]
        simp only [List.length_append, List.length_cons]
        omega
      · simp only [List.length_append, List.length_cons]
        omega
  | lost notFront notBack full =>
      refine .inr ⟨value, ?_, whole ▸ not_adjoins opening notFront notBack,
        by rw [after, whole], losts, lostsize⟩
      rw [← entries_length, whole]
      rw [List.length_append] at room ⊢
      omega

end Release

/-- Short of all addresses together, what is released is a free list again. -/
theorem Released.freeList {called : Memman × Nat} {ideal : List FreeInfo}
    (released : Released man block called ideal)
    (notAll : totalSize man.entries + block.size ≠ 4294967296) :
    called.1.entries = ideal ∧ FreeList called.1 := by
  have small := small_of_total released.coalesced (released.total ▸ notAll)
  have same : called.1.entries = ideal := by rw [released.entries, map_asU32 small]
  refine ⟨same, ⟨same ▸ released.coalesced, same ▸ small, ?_⟩⟩
  rw [← entries_length, same]
  exact released.room

/-! ## Releases one after the other -/

/-- `memman_free` of the regions in turn. There is no result when a call fails. -/
def freeAll (man : Memman) : List FreeInfo → Option Memman
  | [] => some man
  | block :: rest =>
      let (next, result) := memmanFree man block.addr block.size
      if result = 0 then freeAll next rest else none

/-- Regions apart from the entries and from each other. -/
structure Regions (man : Memman) (blocks : List FreeInfo) : Prop where
  each : ∀ block ∈ blocks, Region man block
  apart : blocks.Pairwise Apart

theorem Regions.perm {blocks other : List FreeInfo} (held : Regions man blocks)
    (perm : blocks.Perm other) : Regions man other where
  each block member := held.each block (perm.mem_iff.mpr member)
  apart := (perm.pairwise_iff Apart.symm).mp held.apart

theorem joins_apart {result entries : List FreeInfo} {other : FreeInfo}
    (joins : Joins result entries block) (filled : 0 < other.size)
    (positive : ∀ entry ∈ result, 0 < entry.size) (old : ∀ entry ∈ entries, Apart entry other)
    (taken : Apart block other) : ∀ entry ∈ result, Apart entry other := by
  intro entry member
  refine apart_of_disjoint (positive entry member) filled fun x holds => ?_
  rcases (joins x).mp ⟨entry, member, holds⟩ with ⟨source, inside, holdsSource⟩ | holdsBlock
  · exact (old source inside).disjoint holdsSource
  · exact taken.disjoint holdsBlock

/-- With a region left to release, the list is not yet everything. -/
theorem Released.more {called : Memman × Nat} {ideal : List FreeInfo}
    (released : Released man block called ideal) {next : FreeInfo} (region : Region man next)
    (apart : Apart block next) : totalSize man.entries + block.size ≠ 4294967296 := by
  intro all
  have whole := released.coalesced.total_full (released.total.trans all) (by decide)
  have filled := region.filled
  have separate := joins_apart released.joins filled released.coalesced.filled region.apart apart
    ⟨0, 4294967296⟩ (by simp [whole])
  have bound := region.bound
  unfold Apart stop at *
  simp only at separate
  omega

theorem Released.rest {called : Memman × Nat} {ideal others : List FreeInfo} {next : FreeInfo}
    (released : Released man block called ideal) (regions : Regions man (block :: next :: others)) :
    called.1.entries = ideal ∧ FreeList called.1 ∧ Regions called.1 (next :: others) := by
  obtain ⟨apartRest, restApart⟩ := List.pairwise_cons.mp regions.apart
  obtain ⟨same, held⟩ := released.freeList
    (released.more (regions.each next (by simp)) (apartRest next (by simp)))
  refine ⟨same, held, fun other member => ?_, restApart⟩
  have old := regions.each other (List.mem_cons_of_mem _ member)
  refine ⟨old.filled, old.small, old.bound, ?_⟩
  rw [same]
  exact joins_apart released.joins old.filled released.coalesced.filled old.apart
    (apartRest other member)

theorem freeAll_covers {blocks : List FreeInfo} (held : FreeList man) (regions : Regions man blocks)
    {last : Memman} (freed : freeAll man blocks = some last) :
    ∃ ideal, Coalesced 4294967296 ideal ∧ last.entries = ideal.map asU32 ∧
      ∀ x, Covers ideal x ↔ Covers man.entries x ∨ Covers blocks x := by
  induction blocks generalizing man with
  | nil =>
      obtain rfl : man = last := by simpa [freeAll] using freed
      exact ⟨man.entries, held.coalesced, (map_asU32 held.small).symm, by simp⟩
  | cons block rest ih =>
      simp only [freeAll] at freed
      split at freed
      next value =>
          obtain ⟨ideal, released⟩ | refused :=
            memmanFree_released held (regions.each block (by simp))
          · cases rest with
            | nil =>
                obtain rfl : (memmanFree man block.addr block.size).1 = last := by
                  simpa [freeAll] using freed
                refine ⟨ideal, released.coalesced, released.entries, fun x => ?_⟩
                simpa using released.joins x
            | cons next others =>
                obtain ⟨same, nextHeld, nextRegions⟩ := released.rest regions
                obtain ⟨final, coalesced, entries, covers⟩ := ih nextHeld nextRegions freed
                refine ⟨final, coalesced, entries, fun x => ?_⟩
                rw [covers, same, released.joins x, covers_cons block, or_assoc]
          · rw [refused.value] at value
            exact absurd value (by decide)
      next => cases freed

theorem freeAll_total {blocks : List FreeInfo} (held : FreeList man) (regions : Regions man blocks)
    (room : man.frees + blocks.length ≤ memmanFrees) : ∃ last, freeAll man blocks = some last := by
  induction blocks generalizing man with
  | nil => exact ⟨man, rfl⟩
  | cons block rest ih =>
      rw [List.length_cons] at room
      obtain ⟨ideal, released⟩ | refused := memmanFree_released held (regions.each block (by simp))
      · simp only [freeAll, if_pos released.value]
        cases rest with
        | nil => exact ⟨_, rfl⟩
        | cons next others =>
            obtain ⟨same, nextHeld, nextRegions⟩ := released.rest regions
            have growth := released.growth
            rw [← same, entries_length, entries_length] at growth
            exact ih nextHeld nextRegions (by omega)
      · have full := refused.full
        omega

theorem covers_perm {blocks other : List FreeInfo} (perm : blocks.Perm other) (x : Nat) :
    Covers blocks x ↔ Covers other x := by
  simp [Covers, perm.mem_iff]

/-- Every order of the same releases leaves the same list. -/
theorem freeAll_perm {blocks other : List FreeInfo} (held : FreeList man)
    (regions : Regions man blocks) (perm : blocks.Perm other) {last final : Memman}
    (freed : freeAll man blocks = some last) (freedOther : freeAll man other = some final) :
    last.entries = final.entries := by
  obtain ⟨ideal, coalesced, entries, covers⟩ := freeAll_covers held regions freed
  obtain ⟨idealOther, coalescedOther, entriesOther, coversOther⟩ :=
    freeAll_covers held (regions.perm perm) freedOther
  have same : ideal = idealOther := coalesced.unique coalescedOther fun x => by
    rw [covers, coversOther, covers_perm perm]
  rw [entries, entriesOther, same]

/-! ## The canonical union -/

/-- A release that returns 0 adds the region to the set, if together they are not
all addresses; one that returns -1 found the array full and only counts a loss. -/
structure CanonicalFree (man : Memman) (block : FreeInfo) (result : Memman × Nat) : Prop where
  value : result.2 = 0 ∨ result.2 = failed
  added : result.2 = 0 → totalSize man.entries + block.size ≠ 4294967296 →
    FreeList result.1 ∧ Joins result.1.entries man.entries block
  refused : result.2 = failed → Refused man block result

theorem memmanFree_canonical (held : FreeList man) :
    (∀ block, Region man block →
      CanonicalFree man block (memmanFree man block.addr block.size)) ∧
    (∀ blocks, Regions man blocks → man.frees + blocks.length ≤ memmanFrees →
      ∃ last, freeAll man blocks = some last) ∧
    ∀ blocks other last final, Regions man blocks → blocks.Perm other →
      freeAll man blocks = some last → freeAll man other = some final →
      last.entries = final.entries := by
  refine ⟨fun block region => ?_, fun _ regions => freeAll_total held regions,
    fun _ _ _ _ regions perm => freeAll_perm held regions perm⟩
  obtain ⟨ideal, released⟩ | refused := memmanFree_released held region
  · refine ⟨.inl released.value, fun _ notAll => ?_, fun value => ?_⟩
    · obtain ⟨same, freeList⟩ := released.freeList notAll
      exact ⟨freeList, same ▸ released.joins⟩
    · rw [released.value] at value
      exact absurd value (by decide)
  · refine ⟨.inr refused.value, fun value => ?_, fun _ => refused⟩
    rw [refused.value] at value
    exact absurd value (by decide)

/-- A manager with one entry. -/
def oneEntry (entry : FreeInfo) : Memman where
  frees := 1
  maxfrees := 1
  lostsize := 0
  losts := 0
  free _ := entry

theorem oneEntry_freeList {entry : FreeInfo} (filled : 0 < entry.size)
    (small : entry.size < 4294967296) (bound : entry.stop ≤ 4294967296) :
    FreeList (oneEntry entry) := by
  have entries : (oneEntry entry).entries = [entry] := rfl
  constructor
  · rw [entries]
    exact Coalesced.nil.cons filled bound (by simp)
  · simpa [entries] using small
  · exact (by decide : 1 ≤ memmanFrees)

theorem memmanFree_canonical_page :
    (memmanFree (oneEntry ⟨0x1000, 0x1000⟩) 0x2000 0x1000).1.entries = [⟨0x1000, 0x2000⟩] ∧
      CanonicalFree (oneEntry ⟨0x1000, 0x1000⟩) ⟨0x2000, 0x1000⟩
        (memmanFree (oneEntry ⟨0x1000, 0x1000⟩) 0x2000 0x1000) ∧
      ∀ last final,
        freeAll (oneEntry ⟨0x1000, 0x1000⟩) [⟨0x2000, 0x1000⟩, ⟨0x4000, 0x1000⟩] = some last →
        freeAll (oneEntry ⟨0x1000, 0x1000⟩) [⟨0x4000, 0x1000⟩, ⟨0x2000, 0x1000⟩] = some final →
        last.entries = final.entries := by
  have held := oneEntry_freeList (by decide : 0 < Block.size ⟨0x1000, 0x1000⟩) (by decide) (by decide)
  have region : Region (oneEntry ⟨0x1000, 0x1000⟩) ⟨0x2000, 0x1000⟩ :=
    ⟨by decide, by decide, by decide, by simp [Memman.entries, oneEntry, cells, Apart, stop]⟩
  have regions : Regions (oneEntry ⟨0x1000, 0x1000⟩) [⟨0x2000, 0x1000⟩, ⟨0x4000, 0x1000⟩] := by
    refine ⟨fun block member => ?_, by simp [Apart, stop]⟩
    simp only [List.mem_cons, List.not_mem_nil, or_false] at member
    rcases member with rfl | rfl
    · exact region
    · exact ⟨by decide, by decide, by decide, by simp [Memman.entries, oneEntry, cells, Apart, stop]⟩
  obtain ⟨union, _, anyOrder⟩ := memmanFree_canonical held
  exact ⟨by decide, union _ region, fun _ _ => anyOrder _ _ _ _ regions (.swap _ _ _)⟩

/-- The upper half of the addresses joins the lower half: the size wraps to 0. -/
theorem memmanFree_all :
    FreeList (oneEntry ⟨0, 0x80000000⟩) ∧
      Region (oneEntry ⟨0, 0x80000000⟩) ⟨0x80000000, 0x80000000⟩ ∧
      (memmanFree (oneEntry ⟨0, 0x80000000⟩) 0x80000000 0x80000000).2 = 0 ∧
      (memmanFree (oneEntry ⟨0, 0x80000000⟩) 0x80000000 0x80000000).1.entries = [⟨0, 0⟩] ∧
      ¬FreeList (memmanFree (oneEntry ⟨0, 0x80000000⟩) 0x80000000 0x80000000).1 := by
  have entries : (memmanFree (oneEntry ⟨0, 0x80000000⟩) 0x80000000 0x80000000).1.entries =
      [⟨0, 0⟩] := by decide
  refine ⟨oneEntry_freeList (by decide) (by decide) (by decide),
    ⟨by decide, by decide, by decide, by simp [Memman.entries, oneEntry, cells, Apart, stop]⟩,
    by decide, entries, fun held => ?_⟩
  have filled := held.coalesced.filled ⟨0, 0⟩ (by simp [entries])
  exact absurd filled (by decide)

/-! ## The allocators -/

/-- An entry that an allocator of the zone may take, over the integers. -/
def InZone (lo hi size : Nat) (entry : FreeInfo) : Prop :=
  lo ≤ entry.addr ∧ entry.addr + size < hi ∧ size ≤ entry.size

/-- What an allocator of the zone is to do: refuse, or take the front of the first
entry that fits, so that the release of it undoes the call. -/
structure FirstFit (lo hi size : Nat) (man : Memman) (result : Memman × Nat) : Prop where
  refused : result = (man, failed) ↔ ∀ entry ∈ man.entries, ¬InZone lo hi size entry
  handed : ∀ left entry right, man.entries = left ++ entry :: right →
    (∀ other ∈ left, ¬InZone lo hi size other) → InZone lo hi size entry →
      result.2 = entry.addr ∧ FreeList result.1 ∧
      (∀ x, Covers result.1.entries x ↔
        Covers man.entries x ∧ ¬Block.Holds ⟨entry.addr, size⟩ x) ∧
      (memmanFree result.1 entry.addr size).2 = 0 ∧
      (memmanFree result.1 entry.addr size).1.entries = man.entries

/-- An entry of just this size at the end of the addresses. The sum of the zone
test wraps to 0 on it. -/
def EndsAtTop (lo size : Nat) (entry : FreeInfo) : Prop :=
  lo ≤ entry.addr ∧ entry.stop = 4294967296 ∧ entry.size = size

/-- Some entry fits, or none is taken for one that does. -/
def ZoneSafe (lo hi size : Nat) (man : Memman) : Prop :=
  (∃ entry ∈ man.entries, InZone lo hi size entry) ∨
    ∀ entry ∈ man.entries, ¬EndsAtTop lo size entry

section Zone

variable {lo hi size : Nat} {entry : FreeInfo} {left right : List FreeInfo}

/-- The zone test of the code takes one more entry than it should. -/
theorem fits_iff (held : FreeList man) (member : entry ∈ man.entries) (inRange : hi ≤ 4294967295)
    (some_hi : 0 < hi) :
    Fits lo hi size entry ↔ InZone lo hi size entry ∨ EndsAtTop lo size entry := by
  have bound := held.coalesced.bound entry member
  unfold Fits InZone EndsAtTop add32 stop at *
  omega

/-- Nothing lies behind an entry that ends at the top. -/
theorem endsAtTop_last (held : FreeList man) (whole : man.entries = left ++ entry :: right)
    (top : EndsAtTop lo size entry) : right = [] := by
  obtain ⟨_, heldRight, _, _, _, behind⟩ := (whole ▸ held.coalesced).around
  cases right with
  | nil => rfl
  | cons next rest =>
      have gap := behind next (by simp)
      have bound := heldRight.bound next (by simp)
      have ends := top.2.1
      unfold stop at *
      omega

theorem sub32_part {a b : Nat} (below : b ≤ a) (small : a < 4294967296) : sub32 a b = a - b := by
  unfold sub32
  omega

/-- The entry that the search of the code stops at is cut at its front. -/
theorem allocZone_taken (held : FreeList man) (sizeOk : SizeOk size)
    (whole : man.entries = left ++ entry :: right) (earlier : ∀ other ∈ left, ¬Fits lo hi size other)
    (fits : Fits lo hi size entry) :
    (allocZone lo hi man size).2 = entry.addr ∧
      (allocZone lo hi man size).1.entries = takeFront left entry right size := by
  obtain ⟨_, none⟩ | ⟨left', entry', right', whole', earlier', fits', result, _, made⟩ :=
    allocZone_cases lo hi man size
  · exact absurd fits (none entry (by simp [whole]))
  · obtain ⟨rfl, rfl, rfl⟩ := first_unique (whole'.symm.trans whole) earlier' earlier fits' fits
    refine ⟨result, ?_⟩
    have member : entry' ∈ man.entries := by simp [whole]
    have small := held.small entry' member
    have bound := held.coalesced.bound entry' member
    have fitting := fits.2.2
    have positive := sizeOk.1
    rw [made, takeFront, sub32_part fitting small]
    by_cases all : entry'.size = size
    · rw [if_pos (by omega), if_pos all]
    · have start : add32 entry'.addr size = entry'.addr + size := by
        unfold add32 stop at *
        omega
      rw [if_neg (by omega), if_neg all, start]

theorem allocZone_refused (held : FreeList man) (sizeOk : SizeOk size) :
    allocZone lo hi man size = (man, failed) ↔ ∀ entry ∈ man.entries, ¬Fits lo hi size entry := by
  obtain ⟨same, none⟩ | ⟨left, entry, right, whole, earlier, fits, _⟩ :=
    allocZone_cases lo hi man size
  · exact ⟨fun _ => none, fun _ => same⟩
  · constructor
    · intro same
      have taken := (allocZone_taken held sizeOk whole earlier fits).2
      rw [same] at taken
      -- The bytes that are handed out are no longer in the list.
      have member : entry ∈ man.entries := by simp [whole]
      have front := ((whole ▸ held.coalesced).takeFront fits.2.2).2 entry.addr
      rw [← whole] at front
      have positive := sizeOk.1
      have holds : Block.Holds ⟨entry.addr, size⟩ entry.addr :=
        ⟨Nat.le_refl _, Nat.lt_add_of_pos_right positive⟩
      have covered : Covers man.entries entry.addr :=
        ⟨entry, member, Nat.le_refl _,
          Nat.lt_add_of_pos_right (Nat.lt_of_lt_of_le positive fits.2.2)⟩
      rw [← taken] at front
      exact absurd holds (front.mp covered).2
    · intro none
      exact absurd fits (none entry (by simp [whole]))

theorem memmanFree_taken (held : FreeList man) (sizeOk : SizeOk size)
    (whole : man.entries = left ++ entry :: right) (fits : size ≤ entry.size) {next : Memman}
    (cut : next.entries = takeFront left entry right size) :
    FreeList next ∧ (memmanFree next entry.addr size).2 = 0 ∧
      (memmanFree next entry.addr size).1.entries = man.entries := by
  obtain ⟨coalesced, covers⟩ := (whole ▸ held.coalesced).takeFront fits
  obtain ⟨heldLeft, heldRight, filled, bound, ahead, behind⟩ := (whole ▸ held.coalesced).around
  rw [← whole] at covers
  have positive := sizeOk.1
  have totalOld := held.total_lt
  have total : totalSize next.entries + size = totalSize man.entries := by
    rw [cut, whole]
    unfold takeFront
    by_cases all : entry.size = size
    · rw [if_pos all]
      simp only [totalSize_append, totalSize_cons, totalSize_nil]
      omega
    · rw [if_neg all]
      simp only [totalSize_append, totalSize_cons, totalSize_nil]
      omega
  have length : next.frees ≤ man.frees ∧ (entry.size = size → next.frees < man.frees) := by
    rw [← entries_length next, ← entries_length man, cut, whole]
    unfold takeFront
    split
    next all => simp
    next notAll => simp [notAll]
  have nextHeld : FreeList next := by
    refine ⟨cut ▸ coalesced, small_of_total (cut ▸ coalesced) (by omega), ?_⟩
    exact Nat.le_trans length.1 held.room
  have member : entry ∈ man.entries := by simp [whole]
  have small := held.small entry member
  have region : Region next ⟨entry.addr, size⟩ := by
    refine ⟨positive, sizeOk.2, ?_, fun other inside => ?_⟩
    · unfold stop at *
      simp only
      omega
    · refine apart_of_disjoint (nextHeld.coalesced.filled other inside) positive fun x holds => ?_
      exact ((covers x).mp (cut ▸ ⟨other, inside, holds⟩)).2
  obtain ⟨ideal, released⟩ | refused := memmanFree_released nextHeld region
  · refine ⟨nextHeld, released.value, ?_⟩
    rw [(released.freeList (by simp only; omega)).1]
    refine released.coalesced.unique held.coalesced fun x => ?_
    have inside : Block.Holds ⟨entry.addr, size⟩ x → Covers man.entries x := fun holds => by
      refine ⟨entry, member, holds.1, Nat.lt_of_lt_of_le holds.2 ?_⟩
      exact Nat.add_le_add_left fits _
    rw [released.joins, cut, covers]
    grind
  · -- The array is full only if the entry was cut, and then its rest adjoins.
    exfalso
    have full := refused.full
    have room := held.room
    have notAll : entry.size ≠ size := fun all => by
      have := length.2 all
      omega
    refine refused.apart ⟨entry.addr + size, entry.size - size⟩ ?_ (.inr rfl)
    rw [cut, takeFront, if_neg notAll]
    simp

theorem firstFit_iff (held : FreeList man) (sizeOk : SizeOk size) (some_hi : 0 < hi)
    (inRange : hi ≤ failed) :
    FirstFit lo hi size man (allocZone lo hi man size) ↔ ZoneSafe lo hi size man := by
  have reads : ∀ entry ∈ man.entries,
      (Fits lo hi size entry ↔ InZone lo hi size entry ∨ EndsAtTop lo size entry) :=
    fun entry member => fits_iff held member inRange some_hi
  have refuses : allocZone lo hi man size = (man, failed) ↔
      ∀ entry ∈ man.entries, ¬Fits lo hi size entry := allocZone_refused held sizeOk
  constructor
  · intro firstFit
    by_contra notSafe
    unfold ZoneSafe at notSafe
    push Not at notSafe
    obtain ⟨none, entry, member, top⟩ := notSafe
    have refused := refuses.mp (firstFit.refused.mpr none)
    exact refused entry member ((reads entry member).mpr (.inr top))
  · intro safe
    constructor
    · rw [refuses]
      constructor
      · exact fun none entry member fits => none entry member ((reads entry member).mpr (.inl fits))
      · intro none entry member fits
        rcases safe with ⟨other, inside, inZone⟩ | noTop
        · exact none other inside inZone
        · rcases (reads entry member).mp fits with inZone | top
          · exact none entry member inZone
          · exact noTop entry member top
    · intro left entry right whole earlier inZone
      have member : entry ∈ man.entries := by simp [whole]
      have fits : Fits lo hi size entry := (reads entry member).mpr (.inl inZone)
      have codeEarlier : ∀ other ∈ left, ¬Fits lo hi size other := by
        intro other inLeft otherFits
        obtain ⟨before, behind, rfl⟩ := List.append_of_mem inLeft
        have inside : other ∈ man.entries := by simp [whole]
        rcases (reads other inside).mp otherFits with otherZone | top
        · exact earlier other inLeft otherZone
        · have last : behind ++ entry :: right = [] :=
            endsAtTop_last held (by simpa using whole) top
          simp at last
      obtain ⟨result, cut⟩ := allocZone_taken held sizeOk whole codeEarlier fits
      obtain ⟨nextHeld, value, restored⟩ := memmanFree_taken held sizeOk whole fits.2.2 cut
      refine ⟨result, nextHeld, ?_, value, restored⟩
      rw [cut, whole]
      exact ((whole ▸ held.coalesced).takeFront fits.2.2).2

end Zone

/-- The four allocators are first fit in their zones, each exactly where no entry
at the top of the addresses is taken for one of its zone. -/
theorem allocators_firstFit (held : FreeList man) {size : Nat} (sizeOk : SizeOk size) :
    (FirstFit wall uWall size man (memmanAlloc man size) ↔ ZoneSafe wall uWall size man) ∧
    (FirstFit kWall wall size man (memmanKalloc man size) ↔ ZoneSafe kWall wall size man) ∧
    (FirstFit uWall memEnd 0x1000 man (memmanAlloc4k man) ↔ ZoneSafe uWall memEnd 0x1000 man) ∧
    (FirstFit memStart kWall 0x1000 man (memmanKalloc4k man) ↔
      ZoneSafe memStart kWall 0x1000 man) := by
  have page : SizeOk 0x1000 := by decide
  exact ⟨firstFit_iff held sizeOk (by decide) (by decide),
    firstFit_iff held sizeOk (by decide) (by decide), firstFit_iff held page (by decide) (by decide),
    firstFit_iff held page (by decide) (by decide)⟩

theorem allocators_firstFit_page :
    FirstFit uWall memEnd 0x1000 (oneEntry ⟨0x01000000, 0x2000⟩)
      (memmanAlloc4k (oneEntry ⟨0x01000000, 0x2000⟩)) := by
  have held := oneEntry_freeList (by decide : 0 < Block.size ⟨0x01000000, 0x2000⟩) (by decide)
    (by decide)
  refine (allocators_firstFit held (by decide : SizeOk 0x1000)).2.2.1.mpr (.inl ?_)
  exact ⟨⟨0x01000000, 0x2000⟩, List.mem_cons_self, by unfold InZone; decide⟩

/-- The last page of the addresses is handed out as a page below 32M. -/
theorem memmanAlloc4k_top :
    FreeList (oneEntry ⟨0xFFFFF000, 0x1000⟩) ∧
      (memmanAlloc4k (oneEntry ⟨0xFFFFF000, 0x1000⟩)).2 = 0xFFFFF000 ∧
      ¬FirstFit uWall memEnd 0x1000 (oneEntry ⟨0xFFFFF000, 0x1000⟩)
        (memmanAlloc4k (oneEntry ⟨0xFFFFF000, 0x1000⟩)) := by
  have value : (memmanAlloc4k (oneEntry ⟨0xFFFFF000, 0x1000⟩)).2 = 0xFFFFF000 := by decide
  refine ⟨oneEntry_freeList (by decide) (by decide) (by decide), value, fun firstFit => ?_⟩
  have refused := firstFit.refused.mpr fun entry member inZone => by
    obtain rfl : entry = ⟨0xFFFFF000, 0x1000⟩ := by simpa [Memman.entries, oneEntry, cells] using member
    exact absurd inZone (by unfold InZone; decide)
  rw [refused] at value
  exact absurd value (by decide)

end AempOS.Memory
