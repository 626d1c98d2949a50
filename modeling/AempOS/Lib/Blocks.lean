import Mathlib.Algebra.GroupWithZero.Nat
import Mathlib.Data.List.Pairwise
import Mathlib.Data.List.Perm.Basic

/-! Blocks of addresses that are free or handed out. A ledger keeps the free
blocks in address order and apart from the live ones, all of them inside a fixed
domain. Every bookkeeping step of an allocator is made of four: cutting a free
block in two, joining two that touch, and moving a block between the lists. -/

set_option autoImplicit false

namespace AempOS.Lib

/-- The addresses from `addr` up to, and without, `addr + size`. -/
structure Block where
  addr : Nat
  size : Nat
  deriving DecidableEq

namespace Block

def stop (block : Block) : Nat := block.addr + block.size

def Holds (block : Block) (x : Nat) : Prop := block.addr ≤ x ∧ x < block.stop

/-- The blocks share no address, and neither starts inside the other. -/
def Apart (left right : Block) : Prop := left.stop ≤ right.addr ∨ right.stop ≤ left.addr

/-- One block starts and ends before the other one starts. -/
def Before (left right : Block) : Prop := left.addr < right.addr ∧ left.stop ≤ right.addr

theorem Apart.symm {left right : Block} (held : Apart left right) : Apart right left :=
  Or.symm held

/-- A block and the two parts it is cut into, the first of them not empty. -/
structure Cut (whole first second : Block) : Prop where
  start : first.addr = whole.addr
  middle : first.stop = second.addr
  stop : second.stop = whole.stop
  some_first : 0 < first.size

end Block

open Block

/-- The sizes of a list of blocks, added up. -/
def totalSize (blocks : List Block) : Nat := (blocks.map Block.size).sum

@[simp] theorem totalSize_nil : totalSize [] = 0 := rfl

@[simp] theorem totalSize_append (left right : List Block) :
    totalSize (left ++ right) = totalSize left + totalSize right := by
  simp [totalSize]

@[simp] theorem totalSize_cons (block : Block) (rest : List Block) :
    totalSize (block :: rest) = block.size + totalSize rest := by
  simp [totalSize]

theorem totalSize_perm {left right : List Block} (perm : left.Perm right) :
    totalSize left = totalSize right :=
  (perm.map Block.size).sum_nat

/-- Free blocks in order, live blocks apart from them and from each other, all of
them inside `domain` and below `limit`. A free block may be empty only where it
can meet no live block. -/
structure Ledger (domain : Nat → Prop) (limit : Nat) (free live : List Block) : Prop where
  sorted : free.Pairwise Before
  apart : live.Pairwise Apart
  separate : ∀ block ∈ free, ∀ used ∈ live, Apart block used
  freeInside : ∀ block ∈ free, ∀ x, block.Holds x → domain x
  liveInside : ∀ block ∈ live, ∀ x, block.Holds x → domain x
  hollow : ∀ block ∈ free, block.size = 0 → ¬domain block.addr
  filled : ∀ block ∈ live, 0 < block.size
  freeBound : ∀ block ∈ free, block.stop ≤ limit
  liveBound : ∀ block ∈ live, block.stop ≤ limit

namespace Ledger

variable {domain : Nat → Prop} {limit : Nat} {free live left right : List Block} {block : Block}

theorem perm {other : List Block} (held : Ledger domain limit free live)
    (same : live.Perm other) : Ledger domain limit free other where
  sorted := held.sorted
  apart := (same.pairwise_iff Apart.symm).mp held.apart
  separate b member used inside := held.separate b member used (same.mem_iff.mpr inside)
  freeInside := held.freeInside
  liveInside b member := held.liveInside b (same.mem_iff.mpr member)
  hollow := held.hollow
  filled b member := held.filled b (same.mem_iff.mpr member)
  freeBound := held.freeBound
  liveBound b member := held.liveBound b (same.mem_iff.mpr member)

/-- A live block that is forgotten. -/
theorem drop (held : Ledger domain limit free (block :: live)) : Ledger domain limit free live where
  sorted := held.sorted
  apart := held.apart.of_cons
  separate b member used inside := held.separate b member used (List.mem_cons_of_mem _ inside)
  freeInside := held.freeInside
  liveInside b member := held.liveInside b (List.mem_cons_of_mem _ member)
  hollow := held.hollow
  filled b member := held.filled b (List.mem_cons_of_mem _ member)
  freeBound := held.freeBound
  liveBound b member := held.liveBound b (List.mem_cons_of_mem _ member)

/-- A free block is handed out. -/
theorem remove (held : Ledger domain limit (left ++ block :: right) live)
    (some_size : 0 < block.size) : Ledger domain limit (left ++ right) (block :: live) := by
  have keep : ∀ {b}, b ∈ left ++ right → b ∈ left ++ block :: right := by
    intro b member
    rcases List.mem_append.mp member with inLeft | inRight
    · exact List.mem_append_left _ inLeft
    · exact List.mem_append_right _ (List.mem_cons_of_mem _ inRight)
  have itself : block ∈ left ++ block :: right := by simp
  have sorted := held.sorted
  rw [List.pairwise_append, List.pairwise_cons] at sorted
  obtain ⟨leftSorted, ⟨blockFirst, rightSorted⟩, across⟩ := sorted
  refine ⟨?_, ?_, ?_, fun b member => held.freeInside b (keep member), ?_,
    fun b member => held.hollow b (keep member), ?_, fun b member => held.freeBound b (keep member), ?_⟩
  · rw [List.pairwise_append]
    exact ⟨leftSorted, rightSorted, fun a inLeft b inRight =>
      across a inLeft b (List.mem_cons_of_mem _ inRight)⟩
  · exact List.pairwise_cons.mpr ⟨held.separate block itself, held.apart⟩
  · intro b member used inside
    rcases List.mem_cons.mp inside with rfl | inLive
    · rcases List.mem_append.mp member with inLeft | inRight
      · exact .inl (across b inLeft used (by simp)).2
      · exact .inr (blockFirst b inRight).2
    · exact held.separate b (keep member) used inLive
  · intro b member
    rcases List.mem_cons.mp member with rfl | inLive
    · exact held.freeInside b itself
    · exact held.liveInside b inLive
  · intro b member
    rcases List.mem_cons.mp member with rfl | inLive
    · exact some_size
    · exact held.filled b inLive
  · intro b member
    rcases List.mem_cons.mp member with rfl | inLive
    · exact held.freeBound b itself
    · exact held.liveBound b inLive

/-- A live block lies before the free blocks that start behind its start. -/
theorem before_right (held : Ledger domain limit free (block :: live)) {other : Block}
    (member : other ∈ free) (behind : block.addr < other.addr) : Before block other := by
  refine ⟨behind, ?_⟩
  rcases held.separate other member block (by simp) with early | late
  · unfold stop at early
    omega
  · exact late

/-- A live block lies behind the free blocks that do not start behind its start.
An empty block at the same address would be outside the domain. -/
theorem left_before (held : Ledger domain limit free (block :: live)) {other : Block}
    (member : other ∈ free) (ahead : other.addr ≤ block.addr) : Before other block := by
  have filled := held.filled block (by simp)
  rcases held.separate other member block (by simp) with early | late
  · refine ⟨Nat.lt_of_le_of_ne ahead fun same => ?_, early⟩
    have empty : other.size = 0 := by unfold stop at early; omega
    refine held.hollow other member empty (same ▸ held.liveInside block (by simp) block.addr ?_)
    exact ⟨Nat.le_refl _, by unfold stop; omega⟩
  · unfold stop at late
    omega

/-- A live block is given back at its place in the order. -/
theorem insert (held : Ledger domain limit (left ++ right) (block :: live))
    (ahead : ∀ other ∈ left, other.addr ≤ block.addr)
    (behind : ∀ other ∈ right, block.addr < other.addr) :
    Ledger domain limit (left ++ block :: right) live := by
  have filled := held.filled block (by simp)
  have cases_of : ∀ {b}, b ∈ left ++ block :: right → b ∈ left ++ right ∨ b = block := by
    intro b member
    simp only [List.mem_append, List.mem_cons] at member ⊢
    grind
  have sorted := held.sorted
  rw [List.pairwise_append] at sorted
  obtain ⟨leftSorted, rightSorted, across⟩ := sorted
  have lefts : ∀ other ∈ left, Before other block := fun other member =>
    held.left_before (List.mem_append_left _ member) (ahead other member)
  have rights : ∀ other ∈ right, Before block other := fun other member =>
    held.before_right (List.mem_append_right _ member) (behind other member)
  have live_apart := List.pairwise_cons.mp held.apart
  refine ⟨?_, live_apart.2, fun b member used inside => ?_, fun b member => ?_,
    held.drop.liveInside, fun b member empty => ?_, held.drop.filled, fun b member => ?_,
    held.drop.liveBound⟩
  · rw [List.pairwise_append, List.pairwise_cons]
    refine ⟨leftSorted, ⟨rights, rightSorted⟩, fun a inLeft b inRest => ?_⟩
    rcases List.mem_cons.mp inRest with rfl | inRight
    · exact lefts a inLeft
    · exact across a inLeft b inRight
  · rcases cases_of member with old | rfl
    · exact held.drop.separate b old used inside
    · exact live_apart.1 used inside
  · rcases cases_of member with old | rfl
    · exact held.freeInside b old
    · exact held.liveInside b (by simp)
  · rcases cases_of member with old | rfl
    · exact held.hollow b old empty
    · omega
  · rcases cases_of member with old | rfl
    · exact held.freeBound b old
    · exact held.liveBound b (by simp)

variable {whole first second : Block}

/-- Two free blocks that touch become one. -/
theorem merge (held : Ledger domain limit (left ++ first :: second :: right) live)
    (cut : Cut whole first second) : Ledger domain limit (left ++ whole :: right) live := by
  obtain ⟨start, middle, stop, some_first⟩ := cut
  unfold Block.stop at middle stop
  have cases_of : ∀ {b}, b ∈ left ++ whole :: right →
      b ∈ left ++ first :: second :: right ∨ b = whole := by
    intro b member
    simp only [List.mem_append, List.mem_cons] at member ⊢
    grind
  have firstIn : first ∈ left ++ first :: second :: right := by simp
  have secondIn : second ∈ left ++ first :: second :: right := by simp
  have sorted := held.sorted
  rw [List.pairwise_append, List.pairwise_cons, List.pairwise_cons] at sorted
  obtain ⟨leftSorted, ⟨_, secondFirst, rightSorted⟩, across⟩ := sorted
  refine ⟨?_, held.apart, fun b member used inside => ?_, fun b member x holds => ?_,
    held.liveInside, fun b member empty => ?_, held.filled, fun b member => ?_, held.liveBound⟩
  · rw [List.pairwise_append, List.pairwise_cons]
    refine ⟨leftSorted, ⟨fun b inRight => ?_, rightSorted⟩, fun a inLeft b inRest => ?_⟩
    · have after := secondFirst b inRight
      unfold Before Block.stop at after ⊢
      omega
    · rcases List.mem_cons.mp inRest with rfl | inRight
      · have ahead := across a inLeft first (by simp)
        unfold Before Block.stop at ahead ⊢
        omega
      · exact across a inLeft b (by simp [inRight])
  · rcases cases_of member with old | rfl
    · exact held.separate b old used inside
    · have filled := held.filled used inside
      have apartFirst := held.separate first firstIn used inside
      have apartSecond := held.separate second secondIn used inside
      unfold Apart Block.stop at apartFirst apartSecond ⊢
      omega
  · rcases cases_of member with old | rfl
    · exact held.freeInside b old x holds
    · unfold Holds Block.stop at holds
      by_cases early : x < second.addr
      · refine held.freeInside first firstIn x ⟨?_, ?_⟩
        · omega
        · unfold Block.stop; omega
      · refine held.freeInside second secondIn x ⟨?_, ?_⟩
        · omega
        · unfold Block.stop; omega
  · rcases cases_of member with old | rfl
    · exact held.hollow b old empty
    · omega
  · rcases cases_of member with old | rfl
    · exact held.freeBound b old
    · have bound := held.freeBound second secondIn
      unfold Block.stop at bound ⊢
      omega

/-- A free block is cut in two. -/
theorem split (held : Ledger domain limit (left ++ whole :: right) live)
    (cut : Cut whole first second) (some_second : 0 < second.size) :
    Ledger domain limit (left ++ first :: second :: right) live := by
  obtain ⟨start, middle, stop, some_first⟩ := cut
  unfold Block.stop at middle stop
  have cases_of : ∀ {b}, b ∈ left ++ first :: second :: right →
      b ∈ left ++ whole :: right ∨ b = first ∨ b = second := by
    intro b member
    simp only [List.mem_append, List.mem_cons] at member ⊢
    grind
  have wholeIn : whole ∈ left ++ whole :: right := by simp
  have sorted := held.sorted
  rw [List.pairwise_append, List.pairwise_cons] at sorted
  obtain ⟨leftSorted, ⟨wholeFirst, rightSorted⟩, across⟩ := sorted
  refine ⟨?_, held.apart, fun b member used inside => ?_, fun b member x holds => ?_,
    held.liveInside, fun b member empty => ?_, held.filled, fun b member => ?_, held.liveBound⟩
  · rw [List.pairwise_append, List.pairwise_cons, List.pairwise_cons]
    refine ⟨leftSorted, ⟨fun b inRest => ?_, fun b inRight => ?_, rightSorted⟩,
      fun a inLeft b inRest => ?_⟩
    · rcases List.mem_cons.mp inRest with rfl | inRight
      · unfold Before Block.stop
        omega
      · have after := wholeFirst b inRight
        unfold Before Block.stop at after ⊢
        omega
    · have after := wholeFirst b inRight
      unfold Before Block.stop at after ⊢
      omega
    · have ahead := across a inLeft whole (by simp)
      simp only [List.mem_cons] at inRest
      rcases inRest with rfl | rfl | inRight
      · unfold Before Block.stop at ahead ⊢
        omega
      · unfold Before Block.stop at ahead ⊢
        omega
      · exact across a inLeft b (by simp [inRight])
  · have apartWhole := held.separate whole wholeIn used inside
    unfold Apart Block.stop at apartWhole
    rcases cases_of member with old | rfl | rfl
    · exact held.separate b old used inside
    · unfold Apart Block.stop
      omega
    · unfold Apart Block.stop
      omega
  · rcases cases_of member with old | rfl | rfl
    · exact held.freeInside b old x holds
    · refine held.freeInside whole wholeIn x ?_
      unfold Holds Block.stop at holds ⊢
      omega
    · refine held.freeInside whole wholeIn x ?_
      unfold Holds Block.stop at holds ⊢
      omega
  · rcases cases_of member with old | rfl | rfl
    · exact held.hollow b old empty
    · omega
    · omega
  · have bound := held.freeBound whole wholeIn
    unfold Block.stop at bound
    rcases cases_of member with old | rfl | rfl
    · exact held.freeBound b old
    · unfold Block.stop
      omega
    · unfold Block.stop
      omega

end Ledger

/-! ## Blocks one after the other -/

/-- Blocks that follow each other from `base` without gaps, the last one first. -/
inductive Stacked (base : Nat) : List Block → Prop where
  | nil : Stacked base []
  | cons {block : Block} {rest : List Block} :
      block.addr = base + totalSize rest → Stacked base rest → Stacked base (block :: rest)

namespace Stacked

variable {base : Nat} {blocks : List Block}

theorem inside (stacked : Stacked base blocks) :
    ∀ block ∈ blocks, base ≤ block.addr ∧ block.stop ≤ base + totalSize blocks := by
  induction stacked with
  | nil => simp
  | cons start _ ih =>
      intro other member
      rw [totalSize_cons]
      cases member with
      | head =>
          unfold Block.stop
          omega
      | tail _ inRest =>
          obtain ⟨low, high⟩ := ih other inRest
          omega

theorem pairwise (stacked : Stacked base blocks) : blocks.Pairwise Apart := by
  induction stacked with
  | nil => exact .nil
  | cons start rest ih =>
      refine .cons (fun other inRest => ?_) ih
      have high := (rest.inside other inRest).2
      exact .inr (start ▸ high)

theorem apart (stacked : Stacked base blocks) {i j : Nat} (differ : i ≠ j) {left right : Block}
    (isLeft : blocks[i]? = some left) (isRight : blocks[j]? = some right) : Apart left right := by
  obtain ⟨insideLeft, rfl⟩ := List.getElem?_eq_some_iff.mp isLeft
  obtain ⟨insideRight, rfl⟩ := List.getElem?_eq_some_iff.mp isRight
  have ordered := List.pairwise_iff_getElem.mp stacked.pairwise
  rcases Nat.lt_or_gt_of_ne differ with before | after
  · exact ordered i j insideLeft insideRight before
  · exact (ordered j i insideRight insideLeft after).symm

end Stacked

end AempOS.Lib
