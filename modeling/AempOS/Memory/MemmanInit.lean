import AempOS.Memory.MemmanProperties

/-! The free pages after `init`. The first loop frees what lies between the bad pages,
and each of the three splits takes away the page below its wall, when that page and
the one at the wall were freed. -/

set_option autoImplicit false

namespace AempOS.Memory

open Lib Block

variable {man : Memman} {table : List Nat} {memstart w x : Nat}

/-- The page of a byte. -/
def pageOf (x : Nat) : Nat := x / pageSize * pageSize

/-- A page between `memStart` and the end mark that is not in the table. -/
def Usable (table : List Nat) (page : Nat) : Prop :=
  memStart ≤ page ∧ (∃ last ∈ table.getLast?, page < last) ∧ page ∉ table

/-- The free list that `init` leaves. -/
structure InitialList (table : List Nat) (entries : List FreeInfo) : Prop where
  increasing : entries.Pairwise Before
  free : ∀ x, initialDomain entries x ↔
    Usable table (pageOf x) ∧
      ∀ w ∈ walls, Usable table w → Usable table (w - pageSize) → pageOf x ≠ w - pageSize
  parted : ∀ w ∈ walls, KeptApart w entries
  separate : ∀ w ∈ walls, ∀ a ∈ entries, ∀ b ∈ entries, a ≠ b → ¬(a.stop = w ∧ b.addr = w)

/-! ## The first loop -/

theorem initialDomain_append {left right : List FreeInfo} :
    initialDomain (left ++ right) x ↔ initialDomain left x ∨ initialDomain right x := by
  unfold initialDomain
  simp only [List.mem_append, or_and_right, exists_or]

theorem initialDomain_cons {entry : FreeInfo} {rest : List FreeInfo} :
    initialDomain (entry :: rest) x ↔ entry.Holds x ∨ initialDomain rest x := by
  unfold initialDomain
  simp only [List.mem_cons, exists_eq_or_imp]

theorem below_pageOf {page : Nat} (aligned : page % pageSize = 0) : page ≤ x ↔ page ≤ pageOf x := by
  unfold pageOf pageSize at *
  omega

theorem pageOf_page (x : Nat) : pageOf x % pageSize = 0 := by
  unfold pageOf
  exact Nat.mul_mod_left ..

/-- What a round frees: the pages below the next one in the table. -/
theorem freed_domain {info : Nat} {next : Memman} (page : memstart % pageSize = 0) (infoPage : info % pageSize = 0)
    (notBelow : memstart ≤ info) (freed : Freed man memstart info next) :
    initialDomain next.entries x ↔ initialDomain man.entries x ∨ memstart ≤ pageOf x ∧ pageOf x < info := by
  have start : memstart ≤ x ↔ memstart ≤ pageOf x := below_pageOf page
  have stops : info ≤ x ↔ info ≤ pageOf x := below_pageOf infoPage
  rw [freed.entries, initialDomain_append]
  apply or_congr_right
  split
  next same =>
      constructor
      · rintro ⟨_, member, _⟩
        cases member
      · omega
  next =>
      constructor
      · rintro ⟨entry, member, holds⟩
        obtain rfl := List.mem_singleton.mp member
        unfold Holds stop at holds
        simp only at holds
        omega
      · intro inside
        refine ⟨_, List.mem_singleton.mpr rfl, ?_⟩
        unfold Holds stop
        simp only
        omega

/-- A page that the rounds over a table free. -/
def UsableFrom (memstart : Nat) (table : List Nat) (page : Nat) : Prop :=
  memstart ≤ page ∧ (∃ info ∈ table, page < info) ∧ page ∉ table

theorem usableFrom_skip {info page : Nat} {rest : List Nat} (below : info < memstart) :
    UsableFrom memstart (info :: rest) page ↔ UsableFrom memstart rest page := by
  unfold UsableFrom
  simp only [List.mem_cons, exists_eq_or_imp, not_or]
  constructor
  · rintro ⟨low, ends, _, apart⟩
    exact ⟨low, ends.resolve_left (by omega), apart⟩
  · rintro ⟨low, ends, apart⟩
    exact ⟨low, .inr ends, by omega, apart⟩

theorem usableFrom_cons {info page : Nat} {rest : List Nat} (above : ∀ other ∈ rest, info < other)
    (aligned : page % pageSize = 0) (infoPage : info % pageSize = 0) (notBelow : memstart ≤ info) :
    UsableFrom memstart (info :: rest) page ↔
      (memstart ≤ page ∧ page < info) ∨ UsableFrom (info + pageSize) rest page := by
  unfold UsableFrom
  simp only [List.mem_cons, exists_eq_or_imp, not_or]
  constructor
  · rintro ⟨low, ends, differ, apart⟩
    rcases Nat.lt_or_gt_of_ne differ with before | after
    · exact .inl ⟨low, before⟩
    · refine .inr ⟨?_, ends.resolve_left (by omega), apart⟩
      unfold pageSize at *
      omega
  · rintro (⟨low, before⟩ | ⟨low, ends, apart⟩)
    · refine ⟨low, .inl before, by omega, fun member => ?_⟩
      have := above page member
      omega
    · have later : info < page := by
        unfold pageSize at low
        omega
      exact ⟨by omega, .inr ends, by omega, apart⟩

/-- The first loop frees exactly the pages that the table does not report. -/
theorem initFree_domain (spaced : Spaced man.entries)
    (behind : ∀ entry ∈ man.entries, entry.stop + pageSize ≤ memstart) (page : memstart % pageSize = 0)
    (aligned : ∀ info ∈ table, info % pageSize = 0) (increasing : table.Pairwise (· < ·))
    (bound : ∀ info ∈ table, info ≤ memLimit) (room : man.frees + table.length ≤ 255) :
    initialDomain (initFree man memstart table).entries x ↔
      initialDomain man.entries x ∨ UsableFrom memstart table (pageOf x) := by
  induction table generalizing man memstart with
  | nil => simp [initFree, UsableFrom]
  | cons info rest ih =>
      obtain ⟨above, restIncreasing⟩ := List.pairwise_cons.mp increasing
      rw [List.length_cons] at room
      have restAligned : ∀ info ∈ rest, info % pageSize = 0 :=
        fun other member => aligned other (List.mem_cons_of_mem _ member)
      have restBound : ∀ info ∈ rest, info ≤ memLimit :=
        fun other member => bound other (List.mem_cons_of_mem _ member)
      have infoBound := bound info (by simp)
      have infoPage := aligned info (by simp)
      rw [initFree]
      split
      next below =>
          rw [usableFrom_skip below]
          exact ih spaced behind page restAligned restIncreasing restBound (by omega)
      next notBelow =>
          have nextPage : (info + pageSize) % pageSize = 0 := by
            rw [Nat.add_mod_right, infoPage]
          have freed := memmanFree_freed spaced behind page (by omega) infoBound
            (by unfold memmanFrees; omega : man.frees < memmanFrees)
          have freedRoom := freed.room
          rw [nextStart_eq infoBound,
            ih freed.spaced freed.behind nextPage restAligned restIncreasing restBound (by omega),
            freed_domain page infoPage (by omega) freed,
            usableFrom_cons above (pageOf_page x) infoPage (by omega), or_assoc]

/-- The last entry of the table is the end of the memory. -/
theorem usableFrom_memStart {page : Nat} (increasing : table.Pairwise (· < ·)) :
    UsableFrom memStart table page ↔ Usable table page := by
  unfold UsableFrom Usable
  apply and_congr_right
  intro _
  apply and_congr_left
  intro _
  constructor
  · rintro ⟨info, member, below⟩
    obtain ⟨start, last, rfl⟩ := (List.eq_nil_or_concat' table).resolve_left (List.ne_nil_of_mem member)
    refine ⟨last, by simp, ?_⟩
    rcases List.mem_append.mp member with inStart | isLast
    · have := (List.pairwise_append.mp increasing).2.2 info inStart last (by simp)
      omega
    · rwa [← List.mem_singleton.mp isLast]
  · rintro ⟨last, isLast, below⟩
    exact ⟨last, List.mem_of_getLast? isLast, below⟩

/-! ## The splits -/

/-- A split takes away the page below its wall, if the wall is free. -/
theorem splitAt_domain (isWall : WallAt w) (spaced : Spaced man.entries) :
    initialDomain (splitAt w man).entries x ↔
      initialDomain man.entries x ∧ ¬(initialDomain man.entries w ∧ pageOf x = w - pageSize) := by
  have page := isWall.page
  have above := isWall.above
  have below : pageOf x = w - pageSize ↔ x < w ∧ w ≤ x + pageSize := by
    unfold pageOf pageSize at *
    omega
  obtain ⟨same, none⟩ | ⟨left, entry, right, whole, ⟨starts, across, same⟩ |
    ⟨lowSize, highSize, lower, upper, across, made⟩⟩ := splitAt_exact isWall spaced
  · have notFree : ¬initialDomain man.entries w := by
      rintro ⟨entry, member, holds⟩
      exact none entry member ⟨holds.1, holds.2⟩
    rw [same]
    simp [notFree]
  · rw [same, below]
    refine ⟨fun free => ⟨free, fun wrong => ?_⟩, fun free => free.1⟩
    obtain ⟨other, member, holds⟩ := free
    have memberEntry : entry ∈ man.entries := by simp [whole]
    have apart : other ≠ entry := by
      rintro rfl
      have := holds.1
      omega
    have gap := spaced.gap member memberEntry apart
    unfold Holds stop at *
    omega
  · have memberEntry : entry ∈ man.entries := by simp [whole]
    have starts : entry.addr ≤ w := by omega
    have free : initialDomain man.entries w := ⟨entry, memberEntry, starts, across⟩
    have gaps := spaced.gaps
    rw [whole, List.pairwise_append, List.pairwise_cons] at gaps
    obtain ⟨_, ⟨entryGaps, _⟩, acrossGaps⟩ := gaps
    have leftLow : initialDomain left x → x + pageSize < w := by
      rintro ⟨other, inLeft, holds⟩
      have gap := acrossGaps other inLeft entry (by simp)
      have := holds.2
      omega
    have rightHigh : initialDomain right x → w < x := by
      rintro ⟨other, inRight, holds⟩
      have gap := entryGaps other inRight
      have := holds.1
      omega
    have parts : Holds ⟨entry.addr, lowSize⟩ x ∨ Holds ⟨w, highSize⟩ x ↔
        entry.Holds x ∧ ¬(x < w ∧ w ≤ x + pageSize) := by
      unfold Holds stop at *
      simp only
      omega
    have inMiddle : Holds ⟨entry.addr, lowSize⟩ x ∨ Holds ⟨w, highSize⟩ x ∨ initialDomain right x ↔
        (entry.Holds x ∧ ¬(x < w ∧ w ≤ x + pageSize)) ∨ initialDomain right x := by
      rw [← or_assoc, parts]
    rw [below, made, initialDomain_append, initialDomain_cons, initialDomain_cons, inMiddle]
    rw [whole] at free ⊢
    rw [initialDomain_append, initialDomain_cons]
    constructor
    · rintro (inLeft | ⟨holds, apart⟩ | inRight)
      · have := leftLow inLeft
        exact ⟨.inl inLeft, fun wrong => by omega⟩
      · exact ⟨.inr (.inl holds), fun wrong => apart wrong.2⟩
      · have := rightHigh inRight
        exact ⟨.inr (.inr inRight), fun wrong => by omega⟩
    · rintro ⟨inLeft | holds | inRight, apart⟩
      · exact .inl inLeft
      · exact .inr (.inl ⟨holds, fun wrong => apart ⟨free, wrong⟩⟩)
      · exact .inr (.inr inRight)

/-! ## The whole function -/

/-- A usable page below a wall is taken away when the page at the wall is usable. -/
theorem wall_taken (usable : Usable table (pageOf x)) :
    (Usable table w → Usable table (w - pageSize) → pageOf x ≠ w - pageSize) ↔
      ¬(Usable table w ∧ pageOf x = w - pageSize) := by
  constructor
  · rintro spared ⟨free, same⟩
    exact spared free (same ▸ usable) same
  · intro apart free _ same
    exact apart ⟨free, same⟩

/-- `init` leaves exactly the pages that the table does not report, except the page
below each wall that lies between two of them. -/
theorem init_initial (loader : LoaderTable table) (garbage : Memman) : InitialList table (init table garbage).entries := by
  have noEntries : (memmanInit garbage).entries = [] := rfl
  have start : Spaced (memmanInit garbage).entries := by
    rw [noEntries]
    exact ⟨.nil, by simp, by simp⟩
  have startPage : memStart % pageSize = 0 := by decide
  have room : (memmanInit garbage).frees + table.length ≤ 255 := by simpa [memmanInit] using loader.length
  have freed : ∀ x, initialDomain (initFree (memmanInit garbage) memStart table).entries x ↔ Usable table (pageOf x) := by
    intro x
    rw [initFree_domain start (by simp [noEntries]) startPage loader.aligned loader.increasing loader.bound room,
      usableFrom_memStart loader.increasing, noEntries]
    simp [initialDomain]
  obtain ⟨zero, _⟩ := initFree_spaced start (by simp [noEntries]) startPage loader.aligned loader.bound room
  have isKWall : WallAt kWall := ⟨by decide, by decide, by decide⟩
  have isWall : WallAt wall := ⟨by decide, by decide, by decide⟩
  have isUWall : WallAt uWall := ⟨by decide, by decide, by decide⟩
  obtain ⟨first, _⟩ := splitAt_spaced isKWall zero
  obtain ⟨second, _⟩ := splitAt_spaced isWall first
  obtain ⟨spaced, parted, _⟩ := init_spaced loader garbage
  refine ⟨spaced.booked.sorted, fun x => ?_, parted, fun w _ a inA b inB apart meets => ?_⟩
  · have pages : pageOf kWall = kWall ∧ pageOf wall = wall ∧ pageOf uWall = uWall ∧
        wall ≠ kWall - pageSize ∧ uWall ≠ kWall - pageSize ∧ uWall ≠ wall - pageSize := by decide
    obtain ⟨pageK, pageW, pageU, wallApart, uWallApart, uWallApartWall⟩ := pages
    unfold init
    rw [splitAt_domain isUWall second]
    simp only [splitAt_domain isWall first, splitAt_domain isKWall zero, freed, pageK, pageW, pageU, wallApart,
      uWallApart, uWallApartWall, walls, List.forall_mem_cons]
    by_cases usable : Usable table (pageOf x)
    · simp only [usable, wall_taken usable, and_false, not_false_eq_true, and_true, true_and, List.not_mem_nil,
        false_implies, implies_true, and_assoc]
    · simp only [usable, false_and]
  · have gap := spaced.gap inA inB apart
    obtain ⟨ends, begins⟩ := meets
    unfold stop pageSize at *
    omega

/-- The table of a memory with bad pages: one below `memStart`, one inside a region, the one
below `kWall` and the one at `wall`. -/
def badTable : List Nat := [0x00100000, 0x00500000, 0x005FF000, 0x00800000, 0x02000000]

/-- Only the page below `uWall` is taken away, since the others are next to bad pages. -/
theorem init_initial_bad : InitialList badTable (init badTable clearedMemman).entries ∧
    (init badTable clearedMemman).entries = [⟨0x00400000, 0x00100000⟩, ⟨0x00501000, 0x000FE000⟩,
      ⟨0x00600000, 0x00200000⟩, ⟨0x00801000, 0x007FE000⟩, ⟨0x01000000, 0x01000000⟩] :=
  ⟨init_initial ⟨by decide, by decide, by decide, by decide⟩ clearedMemman, by decide +kernel⟩

end AempOS.Memory
