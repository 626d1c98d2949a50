import AempOS.Memory.Memman

/-! What the functions of the memory manager do to the list of the entries in
use. The array loops disappear here: later modules read these lemmas only. -/

set_option autoImplicit false

namespace AempOS.Memory

open Lib

variable {man : Memman}

@[simp] theorem entries_length (man : Memman) : man.entries.length = man.frees := by
  simp [Memman.entries]

theorem set_entries {left right : List FreeInfo} {old : FreeInfo}
    (whole : man.entries = left ++ old :: right) (entry : FreeInfo) :
    (man.set left.length entry).entries = left ++ entry :: right := by
  have updated := cells_update man.free man.frees left.length entry
  rw [← Memman.entries, whole] at updated
  simpa [Memman.entries, Memman.set] using updated

theorem remove_entries {left right : List FreeInfo} {old : FreeInfo}
    (whole : man.entries = left ++ old :: right) :
    (man.remove left.length).entries = left ++ right := by
  have inside : left.length < man.frees := by
    rw [← entries_length, whole]
    simp
  have shifted := cells_shiftDown man.free inside
  rw [← Memman.entries, whole] at shifted
  rw [Memman.remove, Memman.entries, shifted, List.eraseIdx_append_of_length_le (Nat.le_refl _)]
  simp

theorem insert_entries {left right : List FreeInfo}
    (whole : man.entries = left ++ right) (entry : FreeInfo) :
    (man.insert left.length entry).entries = left ++ entry :: right := by
  have inside : left.length ≤ man.frees := by
    rw [← entries_length, whole]
    simp
  have shifted := cells_shiftUp man.free inside entry
  rw [← Memman.entries, whole] at shifted
  rw [Memman.insert, Memman.entries, shifted]
  exact insertIdx_length left right entry

/-- What an allocator did: nothing, or it cut the first entry that fits. -/
theorem allocZone_cases (lo hi : Nat) (man : Memman) (size : Nat) :
    (allocZone lo hi man size = (man, failed) ∧ ∀ entry ∈ man.entries, ¬Fits lo hi size entry) ∨
      ∃ left entry right, man.entries = left ++ entry :: right ∧
        (∀ other ∈ left, ¬Fits lo hi size other) ∧ Fits lo hi size entry ∧
        (allocZone lo hi man size).2 = entry.addr ∧
        (allocZone lo hi man size).1.lostsize = man.lostsize ∧
        (allocZone lo hi man size).1.entries =
          left ++ (if sub32 entry.size size = 0 then []
            else [{ addr := add32 entry.addr size, size := sub32 entry.size size }]) ++ right := by
  unfold allocZone
  cases search : (List.range man.frees).find? fun i => decide (Fits lo hi size (man.free i)) with
  | none =>
      refine .inl ⟨rfl, fun entry member => ?_⟩
      simpa using find_cells_none (fun entry => decide (Fits lo hi size entry)) search entry member
  | some i =>
      obtain ⟨left, right, whole, rfl, fits, earlier⟩ :=
        find_cells_some (fun entry => decide (Fits lo hi size entry)) search
      refine .inr ⟨left, man.free left.length, right, whole, ?_, by simpa using fits, ?_⟩
      · exact fun other member => by simpa using earlier other member
      · have cut := set_entries whole
          { addr := add32 (man.free left.length).addr size
            size := sub32 (man.free left.length).size size }
        simp only [Memman.set, Function.update_self]
        split
        next =>
            refine ⟨rfl, rfl, ?_⟩
            rw [List.append_nil]
            exact remove_entries cut
        next =>
            refine ⟨rfl, rfl, ?_⟩
            rw [List.append_assoc, List.singleton_append]
            exact cut

theorem freePosition_spec (man : Memman) (addr : Nat) :
    ∃ left right, man.entries = left ++ right ∧ left.length = freePosition man addr ∧
      (∀ entry ∈ left, entry.addr ≤ addr) ∧ ∀ entry, right.head? = some entry → addr < entry.addr := by
  unfold freePosition
  cases search : (List.range man.frees).find? fun i => decide (addr < (man.free i).addr) with
  | none =>
      refine ⟨man.entries, [], by simp, by simp, fun entry member => ?_, by simp⟩
      simpa using find_cells_none (fun entry : FreeInfo => decide (addr < entry.addr)) search entry
        member
  | some i =>
      obtain ⟨left, right, whole, position, behind, earlier⟩ :=
        find_cells_some (fun entry : FreeInfo => decide (addr < entry.addr)) search
      refine ⟨left, man.free i :: right, whole, position, fun entry member => ?_, ?_⟩
      · simpa using earlier entry member
      · simpa using behind

/-- The five ways in which `memman_free` ends, with `left` the entries that do
not start behind the block and `right` those that do. -/
inductive FreeCase (addr size : Nat) (left right : List FreeInfo) : List FreeInfo → Bool → Prop where
  | both {start : List FreeInfo} {p q : FreeInfo} {rest : List FreeInfo} :
      left = start ++ [p] → right = q :: rest → add32 p.addr p.size = addr →
      add32 addr size = q.addr →
      FreeCase addr size left right
        (start ++ { p with size := add32 (add32 p.size size) q.size } :: rest) false
  | front {start : List FreeInfo} {p : FreeInfo} :
      left = start ++ [p] → add32 p.addr p.size = addr →
      (∀ q ∈ right.head?, add32 addr size ≠ q.addr) →
      FreeCase addr size left right (start ++ { p with size := add32 p.size size } :: right) false
  | back {q : FreeInfo} {rest : List FreeInfo} :
      right = q :: rest → (∀ p ∈ left.getLast?, add32 p.addr p.size ≠ addr) →
      add32 addr size = q.addr →
      FreeCase addr size left right (left ++ { addr, size := add32 q.size size } :: rest) false
  | fresh :
      (∀ p ∈ left.getLast?, add32 p.addr p.size ≠ addr) →
      (∀ q ∈ right.head?, add32 addr size ≠ q.addr) →
      left.length + right.length < memmanFrees →
      FreeCase addr size left right (left ++ { addr, size } :: right) false
  | lost :
      (∀ p ∈ left.getLast?, add32 p.addr p.size ≠ addr) →
      (∀ q ∈ right.head?, add32 addr size ≠ q.addr) →
      memmanFrees ≤ left.length + right.length →
      FreeCase addr size left right (left ++ right) true

/-- The last entry before the position, as the code reads it. -/
private theorem read_front {left right : List FreeInfo} (whole : man.entries = left ++ right) {p : FreeInfo}
    (last : left.getLast? = some p) : 0 < left.length ∧ man.free (left.length - 1) = p := by
  obtain ⟨start, rfl⟩ := List.getLast?_eq_some_iff.mp last
  refine ⟨by simp, ?_⟩
  have inside : start.length < man.frees := by
    rw [← entries_length, whole]
    simp
  have found := cells_getElem? man.free man.frees start.length
  rw [← Memman.entries, whole, if_pos inside] at found
  simpa using found.symm

/-- The first entry at the position, as the code reads it. -/
private theorem read_back {left right : List FreeInfo} (whole : man.entries = left ++ right) {q : FreeInfo}
    (first : right.head? = some q) : left.length < man.frees ∧ man.free left.length = q := by
  obtain ⟨rest, rfl⟩ := List.head?_eq_some_iff.mp first
  have inside : left.length < man.frees := by
    rw [← entries_length, whole]
    simp
  refine ⟨inside, ?_⟩
  have found := cells_getElem? man.free man.frees left.length
  rw [← Memman.entries, whole, if_pos inside] at found
  simpa using found.symm

/-- Two writes to an entry and the removal of the one behind it. -/
private theorem join_entries {start rest : List FreeInfo} {p q : FreeInfo}
    (whole : man.entries = start ++ p :: q :: rest) (once twice : FreeInfo) :
    (((man.set start.length once).set start.length twice).remove (start.length + 1)).entries =
      start ++ twice :: rest := by
  have both := set_entries (set_entries whole once) twice
  have around : ((man.set start.length once).set start.length twice).entries =
      (start ++ [twice]) ++ q :: rest := by simpa using both
  simpa using remove_entries around

theorem memmanFree_cases (man : Memman) (addr : Nat) {size : Nat} (some_size : size ≠ 0) :
    ∃ left right lost, man.entries = left ++ right ∧
      (∀ entry ∈ left, entry.addr ≤ addr) ∧
      (∀ entry ∈ right.head?, addr < entry.addr) ∧
      FreeCase addr size left right (memmanFree man addr size).1.entries lost ∧
      (memmanFree man addr size).1.lostsize =
        (if lost then add32 man.lostsize size else man.lostsize) ∧
      (memmanFree man addr size).1.losts = (if lost then add32 man.losts 1 else man.losts) ∧
      (memmanFree man addr size).2 = (if lost then failed else 0) := by
  obtain ⟨left, right, whole, position, ahead, behind⟩ := freePosition_spec man addr
  refine ⟨left, right, ?_⟩
  unfold memmanFree
  simp only [if_neg some_size, ← position]
  by_cases front : 0 < left.length ∧
      add32 (man.free (left.length - 1)).addr (man.free (left.length - 1)).size = addr
  · obtain ⟨start, p, split⟩ := (List.eq_nil_or_concat' left).resolve_left (by
      rintro rfl
      exact absurd front.1 (by simp))
    have isLast : man.free (left.length - 1) = p := (read_front whole (by simp [split])).2
    have touches : add32 p.addr p.size = addr := isLast ▸ front.2
    have place : left.length = start.length + 1 := by simp [split]
    have around : man.entries = start ++ p :: right := by simpa [split] using whole
    rw [if_pos front, isLast]
    simp only [place, Nat.add_sub_cancel, Memman.set, Function.update_self,
      Function.update_of_ne (Nat.succ_ne_self start.length)]
    by_cases back : start.length + 1 < man.frees ∧
        add32 addr size = (man.free (start.length + 1)).addr
    · rw [if_pos back]
      cases right with
      | nil =>
          have length := congrArg List.length around
          simp at length
          omega
      | cons q rest =>
          have isFirst : man.free left.length = q := (read_back whole rfl).2
          rw [place] at isFirst
          rw [isFirst] at back ⊢
          exact ⟨false, whole, ahead, by simpa using behind,
            (join_entries around _ _) ▸ .both split rfl touches back.2, rfl, rfl, rfl⟩
    · rw [if_neg back]
      refine ⟨false, whole, ahead, by simpa using behind, ?_, rfl, rfl, rfl⟩
      have joined := set_entries around { p with size := add32 p.size size }
      refine joined ▸ FreeCase.front split touches fun q first => ?_
      obtain ⟨inside, isFirst⟩ := read_back whole first
      rw [place] at inside isFirst
      exact fun touchesBack => back ⟨inside, isFirst ▸ touchesBack⟩
  · have notFront : ∀ p ∈ left.getLast?, add32 p.addr p.size ≠ addr := by
      intro p last touches
      obtain ⟨some_left, isLast⟩ := read_front whole last
      exact front ⟨some_left, isLast ▸ touches⟩
    rw [if_neg front]
    by_cases back : left.length < man.frees ∧ add32 addr size = (man.free left.length).addr
    · rw [if_pos back]
      cases right with
      | nil =>
          have length := congrArg List.length whole
          simp at length
          omega
      | cons q rest =>
          have isFirst : man.free left.length = q := (read_back whole rfl).2
          rw [isFirst] at back ⊢
          refine ⟨false, whole, ahead, by simpa using behind, ?_, rfl, rfl, rfl⟩
          exact (set_entries whole _) ▸ .back rfl notFront back.2
    · have notBack : ∀ q ∈ right.head?, add32 addr size ≠ q.addr := by
        intro q first touches
        obtain ⟨inside, isFirst⟩ := read_back whole first
        exact back ⟨inside, isFirst ▸ touches⟩
      rw [if_neg back]
      have length : left.length + right.length = man.frees := by
        rw [← List.length_append, ← whole, entries_length]
      by_cases room : man.frees < memmanFrees
      · rw [if_pos room]
        refine ⟨false, whole, ahead, by simpa using behind, ?_, rfl, rfl, rfl⟩
        exact (insert_entries whole _) ▸ .fresh notFront notBack (length ▸ room)
      · rw [if_neg room]
        refine ⟨true, whole, ahead, by simpa using behind, ?_, rfl, rfl, rfl⟩
        exact whole ▸ .lost notFront notBack (length ▸ Nat.le_of_not_lt room)

/-- What one of the splits of `init` does. -/
theorem splitAt_cases (w : Nat) (man : Memman) :
    (splitAt w man = man ∧
        ∀ entry ∈ man.entries, ¬(entry.addr ≤ w ∧ add32 entry.addr entry.size > w)) ∨
      ∃ left entry right, man.entries = left ++ entry :: right ∧
        (entry.addr ≤ w ∧ add32 entry.addr entry.size > w) ∧
        ((entry.addr = w ∧ splitAt w man = man) ∨
          entry.addr ≠ w ∧ (splitAt w man).lostsize = man.lostsize ∧
            (splitAt w man).entries =
              left ++ { entry with size := sub32 (sub32 w 0x1000) entry.addr } ::
                { addr := w, size := sub32 (add32 entry.addr entry.size) w } :: right) := by
  unfold splitAt
  cases search : (List.range man.frees).find? fun i =>
      decide ((man.free i).addr ≤ w ∧ add32 (man.free i).addr (man.free i).size > w) with
  | none =>
      refine .inl ⟨rfl, fun entry member => ?_⟩
      simpa using find_cells_none
        (fun entry : FreeInfo => decide (entry.addr ≤ w ∧ add32 entry.addr entry.size > w))
        search entry member
  | some i =>
      obtain ⟨left, right, whole, rfl, across, _⟩ := find_cells_some
        (fun entry : FreeInfo => decide (entry.addr ≤ w ∧ add32 entry.addr entry.size > w)) search
      refine .inr ⟨left, man.free left.length, right, whole, by simpa using across, ?_⟩
      by_cases starts : (man.free left.length).addr = w
      · exact .inl ⟨starts, by simp [starts]⟩
      · refine .inr ⟨starts, ?_⟩
        simp only [if_neg starts]
        refine ⟨rfl, ?_⟩
        have around : man.entries = (left ++ [man.free left.length]) ++ right := by
          simpa [Memman.entries] using whole
        have inserted := insert_entries around
          { addr := w
            size := sub32 (add32 (man.free left.length).addr (man.free left.length).size) w }
        rw [List.length_append, List.length_singleton, List.append_assoc,
          List.singleton_append] at inserted
        exact set_entries inserted _

end AempOS.Memory
