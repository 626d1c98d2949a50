import AempOS.Memory.MemmanEntries

/-! Safety of the memory manager over whole runs: the ledger of free and live
blocks is kept by every allocation and every release, and no byte is lost from
the account. The zones stay apart because `init` leaves out a page at each wall,
and nothing outside what it freed ever enters the list. -/

set_option autoImplicit false

namespace AempOS.Memory

open Lib Block

/-- The end of the last page that the loader can report. -/
def memLimit : Nat := 0x02001000

variable {domain : Nat → Prop} {man : Memman} {live : List FreeInfo}

abbrev Booked (domain : Nat → Prop) (free live : List FreeInfo) : Prop :=
  Ledger domain memLimit free live

theorem add32_small {a b : Nat} (small : a + b ≤ memLimit) : add32 a b = a + b := by
  unfold add32 memLimit at *
  omega

theorem sub32_small {a b : Nat} (below : b ≤ a) (small : a ≤ memLimit) : sub32 a b = a - b := by
  unfold sub32 memLimit at *
  omega

/-! ## Allocation -/

/-- An allocator fails and changes nothing, or hands out the front of an entry. -/
theorem allocZone_booked (lo hi : Nat) {size : Nat} (held : Booked domain man.entries live)
    (sizeOk : SizeOk size) :
    allocZone lo hi man size = (man, failed) ∨
      ((allocZone lo hi man size).2 ≠ failed ∧
        Booked domain (allocZone lo hi man size).1.entries
          ({ addr := (allocZone lo hi man size).2, size } :: live) ∧
        totalSize (allocZone lo hi man size).1.entries + size = totalSize man.entries ∧
        (allocZone lo hi man size).1.entries.length ≤ man.entries.length ∧
        (allocZone lo hi man size).1.lostsize = man.lostsize) := by
  obtain ⟨same, _⟩ | ⟨left, entry, right, whole, _, fits, result, lostsize, made⟩ :=
    allocZone_cases lo hi man size
  · exact .inl same
  refine .inr ?_
  rw [result, lostsize, made, whole]
  rw [whole] at held
  have bound := held.freeBound entry (by simp)
  have fitting := fits.2.2
  have positive := sizeOk.1
  unfold stop at bound
  rw [add32_small (by omega), sub32_small fitting (by omega)]
  have notFailed : entry.addr ≠ failed := by
    unfold memLimit at bound
    unfold failed
    omega
  by_cases all : entry.size = size
  · have exactly : entry = { addr := entry.addr, size } := by rw [← all]
    rw [if_pos (by omega)]
    refine ⟨notFailed, ?_, ?_, by simp, rfl⟩
    · rw [List.append_nil, ← exactly]
      exact held.remove (by omega)
    · simp [totalSize_append, all]
      omega
  · rw [if_neg (by omega)]
    have cut : Cut entry { addr := entry.addr, size }
        { addr := entry.addr + size, size := entry.size - size } :=
      ⟨rfl, rfl, by simp only [stop]; omega, positive⟩
    have some_left : 0 < entry.size - size := by omega
    refine ⟨notFailed, ?_, ?_, by simp, rfl⟩
    · simpa using (held.split cut some_left).remove positive
    · simp [totalSize_append]
      omega

/-! ## Release -/

/-- Two free blocks that touch are one, and no sum wraps. -/
theorem merge_booked {start rest : List FreeInfo} {p q : FreeInfo}
    (held : Booked domain (start ++ p :: q :: rest) live) (touches : add32 p.addr p.size = q.addr) :
    Booked domain (start ++ { p with size := add32 p.size q.size } :: rest) live ∧
      add32 p.size q.size = p.size + q.size := by
  have boundP := held.freeBound p (by simp)
  have boundQ := held.freeBound q (by simp)
  have order := (List.pairwise_append.mp held.sorted).2.1
  have before := (List.pairwise_cons.mp order).1 q (by simp)
  unfold Before stop at before
  unfold stop at boundP boundQ
  rw [add32_small boundP] at touches
  rw [add32_small (by omega)]
  refine ⟨held.merge ⟨rfl, touches, ?_, ?_⟩, rfl⟩
  · simp only [stop]
    omega
  · omega

/-- `memman_free` of a live block. The flag says that the block got lost. -/
theorem memmanFree_booked {block : FreeInfo} (held : Booked domain man.entries (block :: live)) :
    ∃ lost : Bool, Booked domain (memmanFree man block.addr block.size).1.entries live ∧
      (memmanFree man block.addr block.size).1.lostsize =
        (if lost then add32 man.lostsize block.size else man.lostsize) ∧
      totalSize (memmanFree man block.addr block.size).1.entries =
        totalSize man.entries + (if lost then 0 else block.size) ∧
      ((memmanFree man block.addr block.size).1.entries.length ≤ man.entries.length ∨
        (memmanFree man block.addr block.size).1.entries.length ≤ memmanFrees) := by
  have filled := held.filled block (by simp)
  have blockBound := held.liveBound block (by simp)
  obtain ⟨left, right, lost, whole, ahead, behind, ended, lostsize, _⟩ :=
    memmanFree_cases man block.addr (Nat.pos_iff_ne_zero.mp filled)
  refine ⟨lost, ?_⟩
  rw [lostsize]
  rw [whole] at held ⊢
  have allBehind : ∀ other ∈ right, block.addr < other.addr := by
    have sorted := (List.pairwise_append.mp held.sorted).2.1
    cases right with
    | nil => simp
    | cons first rest =>
        have start := behind first rfl
        intro other member
        rcases List.mem_cons.mp member with rfl | inRest
        · exact start
        · have next := (List.pairwise_cons.mp sorted).1 other inRest
          exact Nat.lt_trans start next.1
  have given := held.insert ahead allBehind
  generalize (memmanFree man block.addr block.size).1.entries = result at ended
  cases ended with
  | @both start p q rest isLeft isRight front back =>
      subst isLeft isRight
      have shape : start ++ [p] ++ block :: q :: rest = start ++ p :: block :: q :: rest := by simp
      rw [shape] at given
      obtain ⟨joined, sum⟩ := merge_booked given front
      have touches : add32 p.addr (add32 p.size block.size) = q.addr := by
        have bound := joined.freeBound { p with size := add32 p.size block.size } (by simp)
        have boundP := given.freeBound p (by simp)
        simp only [stop] at bound boundP blockBound
        rw [add32_small boundP] at front
        rw [add32_small blockBound] at back
        rw [add32_small bound, sum]
        omega
      obtain ⟨twice, sumBoth⟩ := merge_booked joined touches
      simp only [sum] at sumBoth
      refine ⟨twice, rfl, ?_, .inl (by simp)⟩
      simp only [totalSize_append, totalSize_cons, totalSize_nil, sumBoth, sum]
      simp
      omega
  | @front start p isLeft front notBack =>
      subst isLeft
      have shape : start ++ [p] ++ block :: right = start ++ p :: block :: right := by simp
      rw [shape] at given
      obtain ⟨joined, sum⟩ := merge_booked given front
      refine ⟨joined, rfl, ?_, .inl (by simp)⟩
      simp only [totalSize_append, totalSize_cons, totalSize_nil, sum]
      simp
      omega
  | @back q rest isRight notFront back =>
      subst isRight
      obtain ⟨joined, sum⟩ := merge_booked given back
      have swap : add32 q.size block.size = add32 block.size q.size := by
        unfold add32
        rw [Nat.add_comm]
      rw [swap]
      refine ⟨joined, rfl, ?_, .inl (by simp)⟩
      simp only [totalSize_append, totalSize_cons, sum]
      simp
      omega
  | fresh notFront notBack room =>
      refine ⟨given, rfl, by simp; omega, .inr ?_⟩
      simp only [List.length_append, List.length_cons]
      omega
  | lost => exact ⟨held.drop, rfl, by simp, .inl (Nat.le_refl _)⟩

/-! ## Runs -/

theorem memmanTotal_eq (man : Memman) : memmanTotal man = totalSize man.entries % 4294967296 := by
  have fold : ∀ (entries : List FreeInfo) (t : Nat), t < 4294967296 →
      entries.foldl (fun t entry => add32 t entry.size) t =
        (t + totalSize entries) % 4294967296 := by
    intro entries
    induction entries with
    | nil =>
        intro t small
        simpa using (Nat.mod_eq_of_lt small).symm
    | cons entry rest ih =>
        intro t _
        have small : add32 t entry.size < 4294967296 := Nat.mod_lt _ (by decide)
        rw [List.foldl_cons, ih _ small, totalSize_cons, add32]
        omega
  rw [memmanTotal, fold man.entries 0 (by decide), Nat.zero_add]

/-- Free, lost and live bytes together, modulo `2 ^ 32`. -/
def MemState.account (state : MemState) : Nat :=
  (memmanTotal state.man + state.man.lostsize + totalSize state.live) % 4294967296

structure MemInv (domain : Nat → Prop) (state : MemState) : Prop where
  booked : Booked domain state.man.entries state.live
  room : state.man.frees ≤ memmanFrees

variable {state next : MemState}

theorem hand_inv {lo hi size : Nat} (held : MemInv domain state) (sizeOk : SizeOk size) :
    MemInv domain (state.hand (allocZone lo hi state.man size) size) ∧
      (state.hand (allocZone lo hi state.man size) size).account = state.account := by
  obtain same | ⟨notFailed, booked, total, length, lostsize⟩ :=
    allocZone_booked lo hi held.booked sizeOk
  · have unchanged : state.hand (allocZone lo hi state.man size) size = state := by
      simp [MemState.hand, same]
    rw [unchanged]
    exact ⟨held, rfl⟩
  · simp only [entries_length] at length
    have room := held.room
    refine ⟨⟨?_, ?_⟩, ?_⟩
    · simpa [MemState.hand, notFailed] using booked
    · simp only [MemState.hand]
      omega
    · simp only [MemState.account, MemState.hand, if_neg notFailed, memmanTotal_eq, lostsize,
        totalSize_cons, ← total]
      omega

theorem free_inv {block : FreeInfo} (held : MemInv domain state) (member : block ∈ state.live)
    (moved : state.step (.free block) = some next) :
    MemInv domain next ∧ next.account = state.account := by
  simp only [MemState.step, if_pos member, Option.some.injEq] at moved
  subst moved
  have perm := List.perm_cons_erase member
  obtain ⟨lost, booked, lostsize, total, length⟩ := memmanFree_booked (held.booked.perm perm)
  have room := held.room
  simp only [entries_length] at length
  refine ⟨⟨booked, by simp only; omega⟩, ?_⟩
  have liveTotal := totalSize_perm perm
  rw [totalSize_cons] at liveTotal
  simp only [MemState.account, memmanTotal_eq, lostsize, total, liveTotal]
  cases lost with
  | false => simp; omega
  | true => simp [add32]; omega

theorem step_inv {action : MemAction} (held : MemInv domain state)
    (moved : state.step action = some next) :
    MemInv domain next ∧ next.account = state.account := by
  cases action with
  | alloc size =>
      simp only [MemState.step] at moved
      split at moved
      next sizeOk => cases moved; exact hand_inv held sizeOk
      next => cases moved
  | kalloc size =>
      simp only [MemState.step] at moved
      split at moved
      next sizeOk => cases moved; exact hand_inv held sizeOk
      next => cases moved
  | alloc4k => cases moved; exact hand_inv held (by decide)
  | kalloc4k => cases moved; exact hand_inv held (by decide)
  | free block =>
      by_cases member : block ∈ state.live
      · exact free_inv held member moved
      · simp [MemState.step, member] at moved

/-! ## The state that `init` leaves -/

/-- Entries that start on pages, with at least a page between any two of them. -/
structure Spaced (entries : List FreeInfo) : Prop where
  gaps : entries.Pairwise fun a b => a.stop + pageSize ≤ b.addr
  aligned : ∀ entry ∈ entries, entry.addr % pageSize = 0
  bound : ∀ entry ∈ entries, entry.stop ≤ memLimit

/-- No entry has addresses on both sides. -/
def KeptApart (w : Nat) (entries : List FreeInfo) : Prop :=
  ∀ entry ∈ entries, entry.stop ≤ w ∨ w ≤ entry.addr

/-- A release behind all entries becomes the last entry. -/
theorem memmanFree_append {addr size : Nat} (behind : ∀ entry ∈ man.entries, entry.stop + pageSize ≤ addr)
    (some_size : size ≠ 0) (bound : addr ≤ memLimit) (room : man.frees < memmanFrees) :
    (memmanFree man addr size).1.entries = man.entries ++ [⟨addr, size⟩] := by
  obtain ⟨left, right, lost, whole, _, after, ended, _⟩ := memmanFree_cases man addr some_size
  have noRight : right = [] := by
    cases right with
    | nil => rfl
    | cons first rest =>
        have before := after first rfl
        have behindFirst := behind first (by simp [whole])
        unfold stop at behindFirst
        omega
  subst noRight
  rw [List.append_nil] at whole
  have notFront : ∀ p ∈ left, add32 p.addr p.size ≠ addr := by
    intro p member
    have behindP := behind p (whole ▸ member)
    unfold stop at behindP
    unfold pageSize at behindP
    rw [add32_small (by omega)]
    omega
  rw [whole]
  generalize (memmanFree man addr size).1.entries = result at ended
  cases ended with
  | both isLeft isRight => cases isRight
  | front isLeft touches => exact absurd touches (notFront _ (by simp [isLeft]))
  | back isRight => cases isRight
  | fresh => rfl
  | lost _ _ full =>
      rw [← entries_length, whole] at room
      simp only [List.length_nil] at full
      omega

/-- One round of the first loop of `init`. -/
structure Freed (man : Memman) (memstart info : Nat) (next : Memman) : Prop where
  entries : next.entries = man.entries ++ if info = memstart then [] else [⟨memstart, info - memstart⟩]
  spaced : Spaced next.entries
  behind : ∀ entry ∈ next.entries, entry.stop + pageSize ≤ info + pageSize
  room : next.frees ≤ man.frees + 1

theorem memmanFree_freed {memstart info : Nat} (spaced : Spaced man.entries)
    (behind : ∀ entry ∈ man.entries, entry.stop + pageSize ≤ memstart) (page : memstart % pageSize = 0)
    (notBelow : memstart ≤ info) (bound : info ≤ memLimit) (room : man.frees < memmanFrees) :
    Freed man memstart info (memmanFree man memstart (sub32 info memstart)).1 := by
  rw [sub32_small notBelow bound]
  by_cases empty : info = memstart
  · subst empty
    have same : (memmanFree man info (info - info)).1 = man := by simp [memmanFree]
    rw [same]
    refine ⟨by simp, spaced, fun entry member => ?_, by omega⟩
    have := behind entry member
    omega
  · have appended := memmanFree_append behind (by omega : info - memstart ≠ 0) (by omega) room
    have length := congrArg List.length appended
    simp only [entries_length, List.length_append, List.length_singleton] at length
    refine ⟨by rw [appended, if_neg empty], ?_, ?_, by omega⟩
    · rw [appended]
      constructor
      · rw [List.pairwise_append]
        refine ⟨spaced.gaps, by simp, fun a inside b last => ?_⟩
        obtain rfl := List.mem_singleton.mp last
        exact behind a inside
      · intro entry member
        rcases List.mem_append.mp member with inside | last
        · exact spaced.aligned entry inside
        · obtain rfl := List.mem_singleton.mp last
          exact page
      · intro entry member
        rcases List.mem_append.mp member with inside | last
        · exact spaced.bound entry inside
        · obtain rfl := List.mem_singleton.mp last
          simp only [stop]
          omega
    · rw [appended]
      intro entry member
      rcases List.mem_append.mp member with inside | last
      · have := behind entry inside
        omega
      · obtain rfl := List.mem_singleton.mp last
        simp only [stop]
        omega

theorem nextStart_eq {info : Nat} (bound : info ≤ memLimit) : add32 info 0x1000 = info + pageSize := by
  unfold add32 memLimit pageSize at *
  omega

theorem initFree_spaced {table : List Nat} {memstart : Nat} (spaced : Spaced man.entries)
    (behind : ∀ entry ∈ man.entries, entry.stop + pageSize ≤ memstart)
    (page : memstart % pageSize = 0) (aligned : ∀ info ∈ table, info % pageSize = 0)
    (bound : ∀ info ∈ table, info ≤ memLimit) (room : man.frees + table.length ≤ 255) :
    Spaced (initFree man memstart table).entries ∧ (initFree man memstart table).frees ≤ 255 := by
  induction table generalizing man memstart with
  | nil => exact ⟨spaced, room⟩
  | cons info rest ih =>
      rw [List.length_cons] at room
      have restAligned : ∀ info ∈ rest, info % pageSize = 0 :=
        fun other member => aligned other (List.mem_cons_of_mem _ member)
      have restBound : ∀ info ∈ rest, info ≤ memLimit :=
        fun other member => bound other (List.mem_cons_of_mem _ member)
      have infoBound := bound info (by simp)
      have infoPage := aligned info (by simp)
      rw [initFree]
      split
      next => exact ih spaced behind page restAligned restBound (by omega)
      next notBelow =>
          have nextPage : (info + pageSize) % pageSize = 0 := by
            rw [Nat.add_mod_right, infoPage]
          have freed := memmanFree_freed spaced behind page (by omega) infoBound
            (by unfold memmanFrees; omega : man.frees < memmanFrees)
          have freedRoom := freed.room
          rw [nextStart_eq infoBound]
          exact ih freed.spaced freed.behind nextPage restAligned restBound (by omega)

/-- A wall stands at a page border, above the first page. -/
structure WallAt (w : Nat) : Prop where
  page : w % pageSize = 0
  above : pageSize ≤ w
  bound : w ≤ memLimit

/-- The two parts of an entry that is split at a wall. -/
theorem split_parts {w : Nat} {entry : FreeInfo} (isWall : WallAt w)
    (aligned : entry.addr % pageSize = 0) (bound : entry.stop ≤ memLimit) (below : entry.addr < w)
    (across : w < entry.stop) :
    sub32 (sub32 w 0x1000) entry.addr + entry.addr + pageSize = w ∧
      sub32 (add32 entry.addr entry.size) w + w = entry.stop := by
  have page := isWall.page
  have above := isWall.above
  have wallBound := isWall.bound
  unfold stop at *
  have room : entry.addr + pageSize ≤ w := by
    unfold pageSize at *
    omega
  rw [add32_small bound, sub32_small (by omega) bound]
  have lower : sub32 w 0x1000 = w - 0x1000 := sub32_small (by unfold pageSize at above; omega) wallBound
  rw [lower, sub32_small (by unfold pageSize at room; omega) (by omega)]
  unfold pageSize at *
  omega

/-- `split_at` keeps the entries, or splits the one that has addresses on both sides of the
wall and leaves out the page below it. -/
theorem splitAt_exact {w : Nat} (isWall : WallAt w) (spaced : Spaced man.entries) :
    (splitAt w man = man ∧ ∀ entry ∈ man.entries, ¬(entry.addr ≤ w ∧ w < entry.stop)) ∨
      ∃ left entry right, man.entries = left ++ entry :: right ∧
        ((entry.addr = w ∧ w < entry.stop ∧ splitAt w man = man) ∨
          ∃ low high, low + entry.addr + pageSize = w ∧ high + w = entry.stop ∧ w < entry.stop ∧
            (splitAt w man).entries = left ++ ⟨entry.addr, low⟩ :: ⟨w, high⟩ :: right) := by
  have exactly : ∀ entry ∈ man.entries, add32 entry.addr entry.size = entry.stop :=
    fun entry member => add32_small (spaced.bound entry member)
  obtain ⟨same, none⟩ | ⟨left, entry, right, whole, across, ⟨starts, same⟩ | ⟨starts, _, made⟩⟩ :=
    splitAt_cases w man
  · refine .inl ⟨same, fun entry member => ?_⟩
    have apart := none entry member
    rwa [exactly entry member] at apart
  · rw [exactly entry (by simp [whole])] at across
    exact .inr ⟨left, entry, right, whole, .inl ⟨starts, across.2, same⟩⟩
  · have memberEntry : entry ∈ man.entries := by simp [whole]
    rw [exactly entry memberEntry] at across
    obtain ⟨lower, upper⟩ := split_parts isWall (spaced.aligned entry memberEntry)
      (spaced.bound entry memberEntry) (by omega) across.2
    exact .inr ⟨left, entry, right, whole, .inr ⟨_, _, lower, upper, across.2, made⟩⟩

section Split

variable {left right : List FreeInfo} {entry : FreeInfo} {w low high : Nat}

theorem mem_split {other first second : FreeInfo} :
    other ∈ left ++ first :: second :: right ↔
      (other ∈ left ∨ other ∈ right) ∨ other = first ∨ other = second := by
  simp only [List.mem_append, List.mem_cons]
  constructor
  · rintro (inLeft | isFirst | isSecond | inRight)
    · exact .inl (.inl inLeft)
    · exact .inr (.inl isFirst)
    · exact .inr (.inr isSecond)
    · exact .inl (.inr inRight)
  · rintro ((inLeft | inRight) | isFirst | isSecond)
    · exact .inl inLeft
    · exact .inr (.inr (.inr inRight))
    · exact .inr (.inl isFirst)
    · exact .inr (.inr (.inl isSecond))

theorem mem_old {other : FreeInfo} (old : other ∈ left ∨ other ∈ right) :
    other ∈ left ++ entry :: right := by
  rcases old with inLeft | inRight
  · exact List.mem_append_left _ inLeft
  · exact List.mem_append_right _ (List.mem_cons_of_mem _ inRight)

theorem Spaced.split (spaced : Spaced (left ++ entry :: right)) (page : w % pageSize = 0)
    (lower : low + entry.addr + pageSize = w) (upper : high + w = entry.stop) :
    Spaced (left ++ ⟨entry.addr, low⟩ :: ⟨w, high⟩ :: right) := by
  have memberEntry : entry ∈ left ++ entry :: right := by simp
  have entryBound := spaced.bound entry memberEntry
  have gaps := spaced.gaps
  rw [List.pairwise_append, List.pairwise_cons] at gaps
  obtain ⟨leftGaps, ⟨entryGaps, rightGaps⟩, acrossGaps⟩ := gaps
  refine ⟨?_, fun other member => ?_, fun other member => ?_⟩
  · rw [List.pairwise_append, List.pairwise_cons, List.pairwise_cons]
    refine ⟨leftGaps, ⟨fun other member => ?_, fun other member => ?_, rightGaps⟩,
      fun a inLeft b member => ?_⟩
    · rcases List.mem_cons.mp member with rfl | inRight
      · simp only [stop]
        omega
      · have := entryGaps other inRight
        simp only [stop] at *
        omega
    · have := entryGaps other member
      simp only [stop] at *
      omega
    · simp only [List.mem_cons] at member
      have gap := acrossGaps a inLeft entry (by simp)
      rcases member with rfl | rfl | inRight
      · exact gap
      · simp only
        omega
      · exact acrossGaps a inLeft b (by simp [inRight])
  · rcases mem_split.mp member with old | rfl | rfl
    · exact spaced.aligned other (mem_old old)
    · exact spaced.aligned entry memberEntry
    · exact page
  · rcases mem_split.mp member with old | rfl | rfl
    · exact spaced.bound other (mem_old old)
    · simp only [stop] at *
      omega
    · simp only [stop] at *
      omega

/-- No entry has addresses on both sides of an address of one entry, once that is split. -/
theorem Spaced.keptApart_of (spaced : Spaced (left ++ entry :: right)) (from' : entry.addr ≤ w)
    (upto : w ≤ entry.stop) {other : FreeInfo} (old : other ∈ left ∨ other ∈ right) :
    other.stop ≤ w ∨ w ≤ other.addr := by
  have gaps := spaced.gaps
  rw [List.pairwise_append, List.pairwise_cons] at gaps
  rcases old with inLeft | inRight
  · have := gaps.2.2 other inLeft entry (by simp)
    omega
  · have := gaps.2.1.1 other inRight
    omega

theorem KeptApart.split {other : Nat} (apart : KeptApart other (left ++ entry :: right))
    (lower : low + entry.addr + pageSize = w) (upper : high + w = entry.stop) :
    KeptApart other (left ++ ⟨entry.addr, low⟩ :: ⟨w, high⟩ :: right) := by
  intro item member
  have apartEntry := apart entry (by simp)
  rcases mem_split.mp member with old | rfl | rfl
  · exact apart item (mem_old old)
  · simp only [stop] at *
    omega
  · simp only [stop] at *
    omega

end Split

/-- A split keeps the entries spaced, parts them at its wall, and keeps them apart
at every other one. -/
theorem splitAt_spaced {w : Nat} (isWall : WallAt w) (spaced : Spaced man.entries) :
    Spaced (splitAt w man).entries ∧ KeptApart w (splitAt w man).entries ∧
      (∀ other, KeptApart other man.entries → KeptApart other (splitAt w man).entries) ∧
      (splitAt w man).frees ≤ man.frees + 1 := by
  obtain ⟨same, none⟩ | ⟨left, entry, right, whole, ⟨starts, across, same⟩ |
    ⟨low, high, lower, upper, across, made⟩⟩ := splitAt_exact isWall spaced
  · rw [same]
    refine ⟨spaced, fun entry member => ?_, fun _ held => held, by omega⟩
    have apart := none entry member
    omega
  · rw [same]
    refine ⟨spaced, fun other member => ?_, fun _ held => held, by omega⟩
    rw [whole] at spaced member
    rcases List.mem_append.mp member with inLeft | rest
    · exact spaced.keptApart_of (Nat.le_of_eq starts) (by omega) (.inl inLeft)
    · rcases List.mem_cons.mp rest with rfl | inRight
      · omega
      · exact spaced.keptApart_of (Nat.le_of_eq starts) (by omega) (.inr inRight)
  · rw [← entries_length, ← entries_length, made, whole]
    rw [whole] at spaced
    refine ⟨spaced.split isWall.page lower upper, fun other member => ?_,
      fun wall' apart => apart.split lower upper, ?_⟩
    · rcases mem_split.mp member with old | rfl | rfl
      · exact spaced.keptApart_of (by omega) (by omega) old
      · simp only [stop]
        omega
      · simp
    · simp only [List.length_append, List.length_cons]
      omega

/-- The three walls that `init` puts up. -/
def walls : List Nat := [kWall, wall, uWall]

theorem init_spaced {table : List Nat} (loader : LoaderTable table) (garbage : Memman) :
    Spaced (init table garbage).entries ∧ (∀ w ∈ walls, KeptApart w (init table garbage).entries) ∧
      (init table garbage).frees ≤ memmanFrees := by
  have noEntries : (memmanInit garbage).entries = [] := rfl
  have start : Spaced (memmanInit garbage).entries := by
    rw [noEntries]
    exact ⟨.nil, by simp, by simp⟩
  have startPage : memStart % pageSize = 0 := by decide
  obtain ⟨freed, freedRoom⟩ := initFree_spaced start (by simp [noEntries]) startPage
    loader.aligned loader.bound (by simpa [memmanInit] using loader.length)
  obtain ⟨first, firstApart, _, firstRoom⟩ :=
    splitAt_spaced (⟨by decide, by decide, by decide⟩ : WallAt kWall) freed
  obtain ⟨second, secondApart, secondKeeps, secondRoom⟩ :=
    splitAt_spaced (⟨by decide, by decide, by decide⟩ : WallAt wall) first
  obtain ⟨third, thirdApart, thirdKeeps, thirdRoom⟩ :=
    splitAt_spaced (⟨by decide, by decide, by decide⟩ : WallAt uWall) second
  refine ⟨third, ?_, ?_⟩
  · intro w member
    simp only [walls, List.mem_cons, List.not_mem_nil, or_false] at member
    rcases member with rfl | rfl | rfl
    · exact thirdKeeps _ (secondKeeps _ firstApart)
    · exact thirdKeeps _ secondApart
    · exact thirdApart
  · unfold init memmanFrees
    omega

theorem Spaced.gap {entries : List FreeInfo} (held : Spaced entries) {a b : FreeInfo}
    (inA : a ∈ entries) (inB : b ∈ entries) (apart : a ≠ b) :
    a.stop + pageSize ≤ b.addr ∨ b.stop + pageSize ≤ a.addr := by
  have symm : Std.Symm fun a b : FreeInfo =>
      a.stop + pageSize ≤ b.addr ∨ b.stop + pageSize ≤ a.addr := ⟨fun _ _ => Or.symm⟩
  have gaps : entries.Pairwise fun a b =>
      a.stop + pageSize ≤ b.addr ∨ b.stop + pageSize ≤ a.addr := held.gaps.imp .inl
  exact gaps.forall inA inB apart

/-- The addresses that `init` frees. Every block ever handed out lies in them. -/
def initialDomain (entries : List FreeInfo) (x : Nat) : Prop := ∃ entry ∈ entries, entry.Holds x

theorem Spaced.booked {entries : List FreeInfo} (held : Spaced entries) :
    Booked (initialDomain entries) entries [] where
  sorted := held.gaps.imp fun gap => by
    simp only [Before, stop, pageSize] at *
    omega
  apart := .nil
  separate _ _ _ inside := by cases inside
  freeInside entry member x holds := ⟨entry, member, holds⟩
  liveInside _ member := by cases member
  hollow entry member empty := by
    rintro ⟨other, inside, holds⟩
    have apart : entry ≠ other := by
      rintro rfl
      simp only [Holds, stop] at holds
      omega
    have gap := held.gap member inside apart
    simp only [Holds, stop, pageSize] at *
    omega
  filled _ member := by cases member
  freeBound := held.bound
  liveBound _ member := by cases member

/-- No wall has free bytes of the start right on both sides of it. -/
theorem wall_hole {entries : List FreeInfo} (spaced : Spaced entries) {w : Nat} (positive : 0 < w)
    (parted : KeptApart w entries) :
    ¬(initialDomain entries (w - 1) ∧ initialDomain entries w) := by
  rintro ⟨⟨low, inLow, holdsLow⟩, ⟨high, inHigh, holdsHigh⟩⟩
  have partedLow := parted low inLow
  have partedHigh := parted high inHigh
  simp only [Holds, stop] at holdsLow holdsHigh partedLow partedHigh
  have apart : low ≠ high := by
    rintro rfl
    omega
  have gap := spaced.gap inLow inHigh apart
  simp only [stop, pageSize] at gap
  omega

/-- A block inside the domain does not lie across a hole of it. -/
theorem domain_parted {w : Nat} (positive : 0 < w) (hole : ¬(domain (w - 1) ∧ domain w))
    {entry : FreeInfo} (inside : ∀ x, entry.Holds x → domain x) :
    entry.stop ≤ w ∨ w ≤ entry.addr := by
  by_contra across
  refine hole ⟨inside _ ?_, inside _ ?_⟩ <;>
  · simp only [Holds, stop] at *
    omega

/-! ## Safety -/

/-- The blocks are kept apart, the list is in order and fits, and no entry lies
across a wall. -/
structure MemSafe (state : MemState) : Prop where
  live : state.live.Pairwise Apart
  separate : ∀ entry ∈ state.man.entries, ∀ block ∈ state.live, Apart entry block
  increasing : state.man.entries.Pairwise Before
  room : state.man.frees ≤ memmanFrees
  parted : ∀ w ∈ walls, ∀ entry ∈ state.man.entries, entry.stop ≤ w ∨ w ≤ entry.addr

variable {table : List Nat} {garbage : Memman}

theorem reachable_inv (loader : LoaderTable table)
    (reached : (memSystem table garbage).Reachable state) :
    MemInv (initialDomain (init table garbage).entries) state ∧
      state.account = (initialMem table garbage).account := by
  obtain ⟨spaced, _, room⟩ := init_spaced loader garbage
  have start : ∀ state, (memSystem table garbage).initial state →
      MemInv (initialDomain (init table garbage).entries) state ∧
        state.account = (initialMem table garbage).account := by
    rintro state rfl
    exact ⟨⟨spaced.booked, room⟩, rfl⟩
  refine reached.invariant start ?_
  rintro state action next ⟨held, account⟩ moved
  obtain ⟨nextHeld, same⟩ := step_inv held moved
  exact ⟨nextHeld, same.trans account⟩

/-- From `init` on any table of the loader, through any allocations and releases
of live blocks, the manager stays safe and the account of bytes never changes. -/
theorem memman_safe (loader : LoaderTable table)
    (reached : (memSystem table garbage).Reachable state) :
    MemSafe state ∧ state.account = (initialMem table garbage).account := by
  obtain ⟨held, account⟩ := reachable_inv loader reached
  obtain ⟨spaced, parted, _⟩ := init_spaced loader garbage
  refine ⟨⟨held.booked.apart, held.booked.separate, held.booked.sorted, held.room, ?_⟩, account⟩
  intro w member entry inside
  have positive : 0 < w := by
    simp only [walls, List.mem_cons, List.not_mem_nil, or_false] at member
    rcases member with rfl | rfl | rfl <;> decide
  exact domain_parted positive (wall_hole spaced positive (parted w member))
    (held.booked.freeInside entry inside)

/-- A machine without bad pages, with the manager's memory cleared. -/
def cleanTable : List Nat := [0x02000000]

def clearedMemman : Memman where
  frees := 0
  maxfrees := 0
  lostsize := 0
  losts := 0
  free _ := ⟨0, 0⟩

/-- A small block and two frames are taken; the block is given back and joins its
entry again. -/
theorem memman_safe_clean :
    ∃ state, (memSystem cleanTable clearedMemman).run (initialMem cleanTable clearedMemman)
        [.alloc 16, .kalloc4k, .alloc4k, .free ⟨0x00800000, 16⟩] = some state ∧
      state.live = [⟨0x01000000, 0x1000⟩, ⟨0x00400000, 0x1000⟩] ∧ MemSafe state ∧
      state.account = (initialMem cleanTable clearedMemman).account := by
  have loader : LoaderTable cleanTable := ⟨by decide, by decide, by decide, by decide⟩
  have ran : (memSystem cleanTable clearedMemman).run (initialMem cleanTable clearedMemman)
      [.alloc 16, .kalloc4k, .alloc4k, .free ⟨0x00800000, 16⟩] = some _ := rfl
  have start : (memSystem cleanTable clearedMemman).Reachable _ := .initial rfl
  exact ⟨_, ran, rfl, memman_safe loader (start.of_run ran)⟩

end AempOS.Memory
