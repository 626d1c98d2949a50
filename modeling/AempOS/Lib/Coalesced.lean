import AempOS.Lib.Blocks

/-! Sets of addresses as lists of blocks. A list is coalesced when its blocks
stand in address order, none of them empty, with a gap between any two. Such a
list is determined by the addresses that it covers, so whatever computes the
right set in this form computes the right list. -/

set_option autoImplicit false

namespace AempOS.Lib

open Block

/-- An address of one of the blocks. -/
def Covers (blocks : List Block) (x : Nat) : Prop := ∃ block ∈ blocks, block.Holds x

@[simp] theorem covers_nil (x : Nat) : ¬Covers [] x := by
  rintro ⟨block, inside, _⟩
  cases inside

@[simp] theorem covers_cons (block : Block) (rest : List Block) (x : Nat) :
    Covers (block :: rest) x ↔ block.Holds x ∨ Covers rest x := by
  simp [Covers]

@[simp] theorem covers_append (left right : List Block) (x : Nat) :
    Covers (left ++ right) x ↔ Covers left x ∨ Covers right x := by
  simp [Covers, or_and_right, exists_or]

/-- Blocks that share no address, neither of them empty. -/
theorem apart_of_disjoint {left right : Block} (someLeft : 0 < left.size) (someRight : 0 < right.size)
    (disjoint : ∀ x, left.Holds x → ¬right.Holds x) : Apart left right := by
  by_contra meets
  -- The greater of the two starts lies in both blocks.
  refine disjoint (max left.addr right.addr) ?_ ?_
  · unfold Apart Holds stop at *
    omega
  · unfold Apart Holds stop at *
    omega

theorem Block.Apart.disjoint {left right : Block} (apart : Apart left right) {x : Nat}
    (holds : left.Holds x) : ¬right.Holds x := by
  unfold Apart Holds stop at *
  omega

/-- The bytes of the blocks, with none of them at `limit` or above. -/
structure Coalesced (limit : Nat) (blocks : List Block) : Prop where
  gaps : blocks.Pairwise fun left right => left.stop < right.addr
  filled : ∀ block ∈ blocks, 0 < block.size
  bound : ∀ block ∈ blocks, block.stop ≤ limit

namespace Coalesced

variable {limit : Nat} {block : Block} {left right rest other : List Block}

theorem nil : Coalesced limit [] := ⟨.nil, by simp, by simp⟩

theorem tail (held : Coalesced limit (block :: rest)) : Coalesced limit rest where
  gaps := held.gaps.of_cons
  filled b member := held.filled b (List.mem_cons_of_mem _ member)
  bound b member := held.bound b (List.mem_cons_of_mem _ member)

theorem head_gap (held : Coalesced limit (block :: rest)) :
    ∀ next ∈ rest, block.stop < next.addr := (List.pairwise_cons.mp held.gaps).1

/-- A list that is put together from two, all of the first one ahead. -/
theorem append (heldLeft : Coalesced limit left) (heldRight : Coalesced limit right)
    (across : ∀ a ∈ left, ∀ b ∈ right, a.stop < b.addr) : Coalesced limit (left ++ right) where
  gaps := List.pairwise_append.mpr ⟨heldLeft.gaps, heldRight.gaps, across⟩
  filled b member := (List.mem_append.mp member).elim (heldLeft.filled b) (heldRight.filled b)
  bound b member := (List.mem_append.mp member).elim (heldLeft.bound b) (heldRight.bound b)

theorem cons (held : Coalesced limit rest) (filled : 0 < block.size) (bound : block.stop ≤ limit)
    (gap : ∀ next ∈ rest, block.stop < next.addr) : Coalesced limit (block :: rest) where
  gaps := List.pairwise_cons.mpr ⟨gap, held.gaps⟩
  filled := by
    intro b member
    cases member with
    | head => exact filled
    | tail _ inRest => exact held.filled b inRest
  bound := by
    intro b member
    cases member with
    | head => exact bound
    | tail _ inRest => exact held.bound b inRest

theorem of_append (held : Coalesced limit (left ++ right)) :
    Coalesced limit left ∧ Coalesced limit right ∧ ∀ a ∈ left, ∀ b ∈ right, a.stop < b.addr := by
  obtain ⟨gapsLeft, gapsRight, across⟩ := List.pairwise_append.mp held.gaps
  constructor
  · exact ⟨gapsLeft, fun b member => held.filled b (List.mem_append_left _ member),
      fun b member => held.bound b (List.mem_append_left _ member)⟩
  · exact ⟨⟨gapsRight, fun b member => held.filled b (List.mem_append_right _ member),
      fun b member => held.bound b (List.mem_append_right _ member)⟩, across⟩

/-- One block between two lists. -/
theorem between (heldLeft : Coalesced limit left) (heldRight : Coalesced limit right)
    (filled : 0 < block.size) (bound : block.stop ≤ limit)
    (ahead : ∀ a ∈ left, a.stop < block.addr) (behind : ∀ b ∈ right, block.stop < b.addr) :
    Coalesced limit (left ++ block :: right) := by
  refine heldLeft.append (heldRight.cons filled bound behind) ?_
  intro a inLeft b member
  cases member with
  | head => exact ahead a inLeft
  | tail _ inRight =>
      have before := ahead a inLeft
      have after := behind b inRight
      unfold stop at *
      omega

/-- What stands around one block of a list. -/
theorem around (held : Coalesced limit (left ++ block :: right)) :
    Coalesced limit left ∧ Coalesced limit right ∧ 0 < block.size ∧ block.stop ≤ limit ∧
      (∀ a ∈ left, a.stop < block.addr) ∧ ∀ b ∈ right, block.stop < b.addr := by
  obtain ⟨heldLeft, heldRest, across⟩ := held.of_append
  exact ⟨heldLeft, heldRest.tail, heldRest.filled block (by simp), heldRest.bound block (by simp),
    fun a member => across a member block (by simp), heldRest.head_gap⟩

/-- The first block starts at the least address that is covered, and ends at the
next one that is not. -/
theorem head_covered (held : Coalesced limit (block :: rest)) {x : Nat}
    (covered : Covers (block :: rest) x) : block.addr ≤ x ∧ (x ≤ block.stop → x < block.stop) := by
  have filled := held.filled block (by simp)
  rcases (covers_cons _ _ _).mp covered with holds | ⟨next, inside, holds⟩
  · exact ⟨holds.1, fun _ => holds.2⟩
  · have gap := held.head_gap next inside
    unfold Holds stop at *
    omega

theorem rest_covered (held : Coalesced limit (block :: rest)) (x : Nat) :
    Covers rest x ↔ Covers (block :: rest) x ∧ block.stop < x := by
  constructor
  · rintro ⟨next, inside, holds⟩
    have gap := held.head_gap next inside
    refine ⟨(covers_cons _ _ _).mpr (.inr ⟨next, inside, holds⟩), ?_⟩
    exact Nat.lt_of_lt_of_le gap holds.1
  · rintro ⟨covered, behind⟩
    rcases (covers_cons _ _ _).mp covered with holds | inRest
    · exact absurd holds.2 (Nat.not_lt_of_lt behind)
    · exact inRest

/-- Two coalesced lists that cover the same addresses are the same list. -/
theorem unique (heldLeft : Coalesced limit left) (heldRight : Coalesced limit right)
    (same : ∀ x, Covers left x ↔ Covers right x) : left = right := by
  induction left generalizing right with
  | nil =>
      cases right with
      | nil => rfl
      | cons b right =>
          have filled := heldRight.filled b (by simp)
          have covered : Covers (b :: right) b.addr :=
            ⟨b, by simp, Nat.le_refl _, by unfold stop; omega⟩
          exact absurd ((same b.addr).mpr covered) (covers_nil _)
  | cons a left ih =>
      have filledA := heldLeft.filled a (by simp)
      have coveredA : ∀ x, a.Holds x → Covers (a :: left) x := fun x holds => ⟨a, by simp, holds⟩
      cases right with
      | nil =>
          have holds : a.Holds a.addr := ⟨Nat.le_refl _, by unfold stop; omega⟩
          exact absurd ((same a.addr).mp (coveredA _ holds)) (covers_nil _)
      | cons b right =>
          have filledB := heldRight.filled b (by simp)
          have coveredB : ∀ x, b.Holds x → Covers (b :: right) x := fun x holds => ⟨b, by simp, holds⟩
          have lowA := (heldLeft.head_covered ((same b.addr).mpr
            (coveredB _ ⟨Nat.le_refl _, by unfold stop; omega⟩))).1
          have lowB := (heldRight.head_covered ((same a.addr).mp
            (coveredA _ ⟨Nat.le_refl _, by unfold stop; omega⟩))).1
          have highA : ¬Covers (a :: left) a.stop := fun covered =>
            Nat.lt_irrefl _ ((heldLeft.head_covered covered).2 (Nat.le_refl _))
          have highB : ¬Covers (b :: right) b.stop := fun covered =>
            Nat.lt_irrefl _ ((heldRight.head_covered covered).2 (Nat.le_refl _))
          have sameStop : a.stop = b.stop := by
            rcases Nat.lt_trichotomy a.stop b.stop with before | equal | after
            · refine absurd ((same a.stop).mpr (coveredB _ ⟨?_, before⟩)) highA
              unfold stop
              omega
            · exact equal
            · refine absurd ((same b.stop).mp (coveredA _ ⟨?_, after⟩)) highB
              unfold stop
              omega
          have sameHead : a = b := by
            unfold stop at sameStop
            cases a
            cases b
            simp only [Block.mk.injEq] at *
            omega
          subst sameHead
          rw [ih heldLeft.tail heldRight.tail fun x => by
            rw [heldLeft.rest_covered, heldRight.rest_covered, same]]

/-! ## Sizes -/

/-- The blocks fit between their common lower bound and the limit; only one block
fills all of it. -/
theorem room {base : Nat} (held : Coalesced limit left) (below : base ≤ limit)
    (low : ∀ b ∈ left, base ≤ b.addr) :
    base + totalSize left ≤ limit ∧
      (base + totalSize left = limit → base < limit → left = [⟨base, limit - base⟩]) := by
  induction left generalizing base with
  | nil =>
      rw [totalSize_nil]
      exact ⟨below, fun full open' => by omega⟩
  | cons a rest ih =>
      have lowA := low a (by simp)
      have boundA := held.bound a (by simp)
      obtain ⟨fits, whole⟩ := ih held.tail boundA fun b member => Nat.le_of_lt (held.head_gap b member)
      rw [totalSize_cons]
      unfold stop at boundA fits whole
      refine ⟨by omega, fun full _ => ?_⟩
      have start : a.addr = base := by omega
      cases rest with
      | nil =>
          rw [totalSize_nil] at full
          cases a
          simp only [List.cons.injEq, Block.mk.injEq, and_true] at *
          omega
      | cons b rest =>
          have boundB := held.bound b (by simp)
          have filledB := held.filled b (by simp)
          have gap := held.head_gap b (by simp)
          have := (List.cons.inj (whole (by omega) (by unfold stop at *; omega))).1
          rw [this] at gap
          simp only [stop] at gap
          omega

theorem total_le (held : Coalesced limit left) : totalSize left ≤ limit := by
  have := (held.room (Nat.zero_le _) fun _ _ => Nat.zero_le _).1
  omega

/-- The only list that covers everything is one block. -/
theorem total_full (held : Coalesced limit left) (full : totalSize left = limit)
    (positive : 0 < limit) : left = [⟨0, limit⟩] := by
  have := (held.room (Nat.zero_le _) fun _ _ => Nat.zero_le _).2
  exact this (by omega) positive

theorem size_le_total (member : block ∈ left) : block.size ≤ totalSize left := by
  induction left with
  | nil => cases member
  | cons head rest ih =>
      rw [totalSize_cons]
      cases member with
      | head => omega
      | tail _ inRest =>
          have := ih inRest
          omega

/-! ## A block that is added -/

/-- Behind the last block that does not touch `x`, there is a gap before `x`. -/
theorem gap_before {x : Nat} (held : Coalesced limit left) (below : ∀ a ∈ left, a.stop ≤ x)
    (apart : ∀ p ∈ left.getLast?, p.stop ≠ x) : ∀ a ∈ left, a.stop < x := by
  intro a inside
  obtain ⟨start, p, rfl⟩ := (List.eq_nil_or_concat' left).resolve_left (List.ne_nil_of_mem inside)
  have lastBelow := below p (by simp)
  have lastApart := apart p (by simp)
  rcases List.mem_append.mp inside with inStart | last
  · have gap := held.around.2.2.2.2.1 a inStart
    unfold stop at *
    omega
  · obtain rfl := List.mem_singleton.mp last
    omega

theorem gap_behind {x : Nat} (held : Coalesced limit right) (above : ∀ b ∈ right, x ≤ b.addr)
    (apart : ∀ q ∈ right.head?, x ≠ q.addr) : ∀ b ∈ right, x < b.addr := by
  cases right with
  | nil => simp
  | cons q rest =>
      intro b inside
      have firstAbove := above q (by simp)
      have firstApart := apart q (by simp)
      cases inside with
      | head => omega
      | tail _ inRest =>
          have gap := held.head_gap b inRest
          unfold stop at gap
          omega

end Coalesced

/-- A block that shares no address with a coalesced list, between the blocks that
start ahead of it and the others. -/
structure Opening (limit : Nat) (left right : List Block) (block : Block) : Prop where
  held : Coalesced limit (left ++ right)
  filled : 0 < block.size
  bound : block.stop ≤ limit
  ahead : ∀ a ∈ left, a.stop ≤ block.addr
  behind : ∀ b ∈ right, block.stop ≤ b.addr

/-- The list covers what the other two cover. -/
def Joins (result blocks : List Block) (block : Block) : Prop :=
  ∀ x, Covers result x ↔ Covers blocks x ∨ block.Holds x

namespace Opening

variable {limit : Nat} {left right start rest : List Block} {block p q : Block}

/-- The place of a block among the blocks that start ahead of it and those that
start behind it. -/
theorem of_apart (held : Coalesced limit (left ++ right)) (filled : 0 < block.size)
    (bound : block.stop ≤ limit) (apart : ∀ b ∈ left ++ right, Apart b block)
    (ahead : ∀ a ∈ left, a.addr ≤ block.addr) (behind : ∀ q ∈ right.head?, block.addr < q.addr) :
    Opening limit left right block := by
  refine ⟨held, filled, bound, fun a inLeft => ?_, fun b inRight => ?_⟩
  · have low := ahead a inLeft
    rcases apart a (List.mem_append_left _ inLeft) with before | after
    · exact before
    · unfold stop at after
      omega
  · have filledB := held.filled b (List.mem_append_right _ inRight)
    have low : block.addr < b.addr := by
      cases right with
      | nil => cases inRight
      | cons q rest =>
          have first := behind q rfl
          cases inRight with
          | head => exact first
          | tail _ inRest =>
              have gap := held.of_append.2.1.head_gap b inRest
              unfold stop at gap
              omega
    rcases apart b (List.mem_append_right _ inRight) with before | after
    · unfold stop at before
      omega
    · exact after

/-- It touches no block. -/
theorem fresh (opening : Opening limit left right block)
    (notFront : ∀ p ∈ left.getLast?, p.stop ≠ block.addr)
    (notBack : ∀ q ∈ right.head?, block.stop ≠ q.addr) :
    Coalesced limit (left ++ block :: right) ∧
      Joins (left ++ block :: right) (left ++ right) block := by
  obtain ⟨heldLeft, heldRight, _⟩ := opening.held.of_append
  constructor
  · exact heldLeft.between heldRight opening.filled opening.bound
      (heldLeft.gap_before opening.ahead notFront) (heldRight.gap_behind opening.behind notBack)
  · intro x
    simp only [covers_append, covers_cons]
    grind

/-- It touches the block ahead of it. -/
theorem front (opening : Opening limit (start ++ [p]) right block) (touches : p.stop = block.addr)
    (notBack : ∀ q ∈ right.head?, block.stop ≠ q.addr) :
    Coalesced limit (start ++ ⟨p.addr, p.size + block.size⟩ :: right) ∧
      Joins (start ++ ⟨p.addr, p.size + block.size⟩ :: right) (start ++ [p] ++ right) block := by
  obtain ⟨heldLeft, heldRight, _⟩ := opening.held.of_append
  obtain ⟨heldStart, _, _, _, gaps, _⟩ := heldLeft.around
  have bound := opening.bound
  have filled := opening.filled
  have behind := heldRight.gap_behind opening.behind notBack
  have ends : Block.stop ⟨p.addr, p.size + block.size⟩ = block.stop := by
    unfold stop at *
    simp only
    omega
  constructor
  · exact heldStart.between heldRight (Nat.add_pos_right _ filled) (ends ▸ bound) gaps
      (ends ▸ behind)
  · intro x
    have holds : Block.Holds ⟨p.addr, p.size + block.size⟩ x ↔ p.Holds x ∨ block.Holds x := by
      unfold Holds
      rw [ends]
      unfold stop at *
      simp only
      omega
    simp only [covers_append, covers_cons, covers_nil, holds]
    grind

/-- It touches the block behind it. -/
theorem back (opening : Opening limit left (q :: rest) block)
    (notFront : ∀ p ∈ left.getLast?, p.stop ≠ block.addr) (touches : block.stop = q.addr) :
    Coalesced limit (left ++ ⟨block.addr, q.size + block.size⟩ :: rest) ∧
      Joins (left ++ ⟨block.addr, q.size + block.size⟩ :: rest) (left ++ q :: rest) block := by
  obtain ⟨heldLeft, heldRight, _⟩ := opening.held.of_append
  have bound := heldRight.bound q (by simp)
  have filled := opening.filled
  have ends : Block.stop ⟨block.addr, q.size + block.size⟩ = q.stop := by
    unfold stop at *
    simp only
    omega
  constructor
  · exact heldLeft.between heldRight.tail (Nat.add_pos_right _ filled) (ends ▸ bound)
      (heldLeft.gap_before opening.ahead notFront) (ends ▸ heldRight.head_gap)
  · intro x
    have holds : Block.Holds ⟨block.addr, q.size + block.size⟩ x ↔ block.Holds x ∨ q.Holds x := by
      unfold Holds
      rw [ends]
      unfold stop at *
      simp only
      omega
    simp only [covers_append, covers_cons, holds]
    grind

/-- It closes the gap between two blocks. -/
theorem both (opening : Opening limit (start ++ [p]) (q :: rest) block)
    (touchesFront : p.stop = block.addr) (touchesBack : block.stop = q.addr) :
    Coalesced limit (start ++ ⟨p.addr, p.size + block.size + q.size⟩ :: rest) ∧
      Joins (start ++ ⟨p.addr, p.size + block.size + q.size⟩ :: rest)
        (start ++ [p] ++ q :: rest) block := by
  obtain ⟨heldLeft, heldRight, _⟩ := opening.held.of_append
  obtain ⟨heldStart, _, _, _, gaps, _⟩ := heldLeft.around
  have bound := heldRight.bound q (by simp)
  have filled := opening.filled
  have ends : Block.stop ⟨p.addr, p.size + block.size + q.size⟩ = q.stop := by
    unfold stop at *
    simp only
    omega
  constructor
  · exact heldStart.between heldRight.tail (by simp only; omega) (ends ▸ bound) gaps
      (ends ▸ heldRight.head_gap)
  · intro x
    have holds : Block.Holds ⟨p.addr, p.size + block.size + q.size⟩ x ↔
        p.Holds x ∨ block.Holds x ∨ q.Holds x := by
      unfold Holds
      rw [ends]
      unfold stop at *
      simp only
      omega
    simp only [covers_append, covers_cons, covers_nil, holds]
    grind

end Opening

/-! ## A block that is taken -/

/-- The front of a block is cut off; the block goes when nothing is left of it. -/
def takeFront (left : List Block) (block : Block) (right : List Block) (size : Nat) : List Block :=
  left ++ (if block.size = size then [] else [⟨block.addr + size, block.size - size⟩]) ++ right

theorem Coalesced.takeFront {limit : Nat} {left right : List Block} {block : Block} {size : Nat}
    (held : Coalesced limit (left ++ block :: right)) (fits : size ≤ block.size) :
    Coalesced limit (takeFront left block right size) ∧
      (∀ x, Covers (takeFront left block right size) x ↔
        Covers (left ++ block :: right) x ∧ ¬Block.Holds ⟨block.addr, size⟩ x) := by
  obtain ⟨heldLeft, heldRight, filled, bound, ahead, behind⟩ := held.around
  have across : ∀ a ∈ left, ∀ b ∈ right, a.stop < b.addr := by
    intro a inLeft b inRight
    have before := ahead a inLeft
    have after := behind b inRight
    unfold stop at *
    omega
  have apartLeft : ∀ x, Covers left x → ¬Block.Holds ⟨block.addr, size⟩ x := by
    rintro x ⟨a, inLeft, holds⟩ taken
    have before := ahead a inLeft
    unfold Holds stop at *
    simp only at taken
    omega
  have apartRight : ∀ x, Covers right x → ¬Block.Holds ⟨block.addr, size⟩ x := by
    rintro x ⟨b, inRight, holds⟩ taken
    have after := behind b inRight
    unfold Holds stop at *
    simp only at taken
    omega
  unfold Lib.takeFront
  by_cases all : block.size = size
  · rw [if_pos all, List.append_nil]
    refine ⟨heldLeft.append heldRight across, fun x => ?_⟩
    have same : Block.Holds ⟨block.addr, size⟩ x ↔ block.Holds x := by
      unfold Holds stop
      rw [all]
    have inLeft := apartLeft x
    have inRight := apartRight x
    simp only [covers_append, covers_cons]
    grind
  · rw [if_neg all, List.append_assoc, List.singleton_append]
    have ends : Block.stop ⟨block.addr + size, block.size - size⟩ = block.stop := by
      simp only [stop]
      omega
    constructor
    · refine heldLeft.between heldRight (by simp only; omega) (ends ▸ bound) ?_ (ends ▸ behind)
      intro a inLeft
      exact Nat.lt_of_lt_of_le (ahead a inLeft) (Nat.le_add_right _ _)
    · intro x
      have parts : Block.Holds ⟨block.addr + size, block.size - size⟩ x ↔
          block.Holds x ∧ ¬Block.Holds ⟨block.addr, size⟩ x := by
        unfold Holds
        rw [ends]
        unfold stop
        simp only
        omega
      have inLeft := apartLeft x
      have inRight := apartRight x
      simp only [covers_append, covers_cons, parts]
      grind

end AempOS.Lib
