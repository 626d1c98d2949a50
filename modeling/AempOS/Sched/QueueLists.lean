import AempOS.Lib.Family
import AempOS.Sched.ReadyQueue
import Mathlib.Data.List.InsertIdx
import Mathlib.Data.List.Perm.Basic

/-! The ready queues as lists of their items, front first: what the appends,
`load_balance` and `resort_ready_proc` do to the lists. The refinement in
`ReadyQueueProperties` shows that the code on the pointers does exactly this.
The lengths stay above the bounds that the pointer code relies on. -/

set_option autoImplicit false

namespace AempOS.Sched

open Lib

/-- The contents of the queues, one list for each CPU. -/
abbrev Lists (Item : Type) := CpuId → List Item

variable {Item : Type}

namespace Lists

/-- The list of `add_ready_queue`. -/
def append (lists : Lists Item) (c : CpuId) (item : Item) : Lists Item :=
  Function.update lists c (lists c ++ [item])

/-- The lists of `move_ready_proc`: the item behind the stable ones goes to the
rear of the receiver. -/
def moveOne (lists : Lists Item) (des src : CpuId) : Lists Item :=
  Function.update (Function.update lists src ((lists src).eraseIdx nrStableProc)) des
    (lists des ++ (lists src)[nrStableProc]?.toList)

def moveMany (des src : CpuId) : Nat → Lists Item → Lists Item
  | 0, lists => lists
  | count + 1, lists => moveMany des src count (lists.moveOne des src)

/-- The CPU that `find_busiest_cpu` gives. -/
def busiest (lists : Lists Item) : Option CpuId :=
  findBusiestCpu fun c => (lists c).length

/-- The lists of `load_balance`. -/
def balance (lists : Lists Item) (cpu : CpuId) : Lists Item :=
  lists.busiest.elim lists fun busiest =>
    if busiest = cpu then lists
    else moveMany cpu busiest (((lists busiest).length - (lists cpu).length) / 2) lists

/-- The items that `load_balance` takes from the busiest CPU. -/
def migrants (lists : Lists Item) (cpu : CpuId) : List Item :=
  lists.busiest.elim [] fun busiest =>
    ((lists busiest).drop nrStableProc).take (((lists busiest).length - (lists cpu).length) / 2)

/-- The list of `resort_ready_proc`: the last item goes to the third place. -/
def resortOne (list : List Item) : List Item :=
  list.take 2 ++ list.getLast?.toList ++ (list.drop 2).dropLast

def resort (lists : Lists Item) (cpu : CpuId) : Lists Item :=
  Function.update lists cpu (resortOne (lists cpu))

theorem busiest_spec {lists : Lists Item} {cpu : CpuId} (some_load : lists cpu ≠ []) :
    ∃ found, lists.busiest = some found ∧ ∀ c, (lists c).length ≤ (lists found).length := by
  unfold busiest findBusiestCpu
  rcases @scanGreatest_spec CpuId (fun _ => true) (fun c => ((lists c).length : Int))
    (List.finRange numCpus) (0, none) with ⟨below, _⟩ | ⟨found, greatest, _, result⟩
  · have empty := below cpu (List.mem_finRange cpu) rfl
    have : (lists cpu).length = 0 := by simpa using empty
    exact absurd (List.length_eq_zero_iff.mp this) some_load
  · refine ⟨found, by rw [result], fun c => ?_⟩
    exact_mod_cast greatest.le (List.mem_finRange c) rfl

/-! ## Moves -/

section Moves

variable {lists : Lists Item} {des src : CpuId}

theorem moveOne_src (apart : des ≠ src) :
    lists.moveOne des src src = (lists src).eraseIdx nrStableProc := by
  simp [moveOne, apart.symm]

theorem moveOne_des : lists.moveOne des src des = lists des ++ (lists src)[nrStableProc]?.toList := by
  simp [moveOne]

theorem moveOne_other {c : CpuId} (notDes : c ≠ des) (notSrc : c ≠ src) :
    lists.moveOne des src c = lists c := by
  simp [moveOne, notDes, notSrc]

/-- The moves of one `load_balance` that are still to come: the donor keeps at
least as many items as the receiver has. -/
structure Movable (lists : Lists Item) (des src : CpuId) (count : Nat) : Prop where
  apart : des ≠ src
  receiver : nrStableProc ≤ (lists des).length
  donor : (lists des).length + 2 * count ≤ (lists src).length

/-- Before each move the item that is taken is not the last of its queue. -/
theorem Movable.donor_long {count : Nat} (held : Movable lists des src (count + 1)) :
    nrStableProc + 1 < (lists src).length := by
  have receiver := held.receiver
  have donor := held.donor
  omega

theorem Movable.lengths {count : Nat} (held : Movable lists des src (count + 1)) :
    (lists.moveOne des src des).length = (lists des).length + 1 ∧
      (lists.moveOne des src src).length + 1 = (lists src).length := by
  have long := held.donor_long
  constructor
  · have present : nrStableProc < (lists src).length := by omega
    simp [moveOne_des, List.getElem?_eq_getElem present]
  · rw [moveOne_src held.apart, List.length_eraseIdx]
    split <;> omega

theorem Movable.next {count : Nat} (held : Movable lists des src (count + 1)) :
    Movable (lists.moveOne des src) des src count := by
  obtain ⟨receiver, donor⟩ := held.lengths
  have bound := held.receiver
  have total := held.donor
  exact ⟨held.apart, by omega, by omega⟩

theorem Movable.contents {count : Nat} (held : Movable lists des src (count + 1)) :
    (contents (lists.moveOne des src)).Perm (contents lists) := by
  have present : nrStableProc < (lists src).length := by have := held.donor_long; omega
  set item := (lists src)[nrStableProc] with taken
  obtain ⟨others, removed⟩ := contents_update_perm lists src
  have whole : (Lib.contents lists).Perm (lists src ++ others) := by
    simpa using removed (lists src)
  have split : (lists src).Perm (item :: (lists src).eraseIdx nrStableProc) :=
    (List.getElem_cons_eraseIdx_perm present).symm
  have kept := removed ((lists src).eraseIdx nrStableProc)
  have pushed : (Lib.contents (lists.moveOne des src)).Perm
      ([item] ++ Lib.contents (Function.update lists src ((lists src).eraseIdx nrStableProc))) := by
    refine contents_update _ ?_
    simp only [List.getElem?_eq_getElem present, Option.toList_some, Function.update_of_ne held.apart]
    exact List.perm_append_comm
  calc Lib.contents (lists.moveOne des src)
      |>.Perm ([item] ++ Lib.contents (Function.update lists src ((lists src).eraseIdx nrStableProc))) :=
        pushed
    _ |>.Perm ([item] ++ ((lists src).eraseIdx nrStableProc ++ others)) := kept.append_left _
    _ |>.Perm (lists src ++ others) := by
        rw [← List.append_assoc]
        exact split.symm.append_right others
    _ |>.Perm (Lib.contents lists) := whole.symm

theorem Movable.stable {count : Nat} (held : Movable lists des src (count + 1)) (c : CpuId) :
    (lists.moveOne des src c).take nrStableProc = (lists c).take nrStableProc := by
  by_cases isDes : c = des
  · subst isDes
    rw [moveOne_des, List.take_append_of_le_length held.receiver]
  · by_cases isSrc : c = src
    · subst isSrc
      rw [moveOne_src held.apart, List.take_eraseIdx_eq_take_of_le _ _ _ le_rfl]
    · rw [moveOne_other isDes isSrc]

/-- A property that each possible move keeps holds after the loop. -/
theorem moveMany_induct (property : Lists Item → Prop)
    (keep : ∀ (lists : Lists Item) (count : Nat), Movable lists des src (count + 1) →
      property lists → property (lists.moveOne des src)) {count : Nat}
    (movable : Movable lists des src count) (start : property lists) :
    property (moveMany des src count lists) := by
  induction count generalizing lists with
  | zero => exact start
  | succ count ih => exact ih movable.next (keep lists count movable start)

theorem moveMany_lengths {count : Nat} (movable : Movable lists des src count) :
    (moveMany des src count lists des).length = (lists des).length + count ∧
      (moveMany des src count lists src).length + count = (lists src).length ∧
      ∀ c, c ≠ des → c ≠ src → moveMany des src count lists c = lists c := by
  induction count generalizing lists with
  | zero => exact ⟨rfl, rfl, fun _ _ _ => rfl⟩
  | succ count ih =>
      obtain ⟨receiver, donor⟩ := movable.lengths
      obtain ⟨received, given, others⟩ := ih movable.next
      simp only [moveMany]
      refine ⟨by omega, by omega, fun c notDes notSrc => ?_⟩
      rw [others c notDes notSrc, moveOne_other notDes notSrc]

theorem moveMany_src {count : Nat} (movable : Movable lists des src count) :
    moveMany des src count lists src =
      (lists src).take nrStableProc ++ (lists src).drop (nrStableProc + count) := by
  induction count generalizing lists with
  | zero => exact (List.take_append_drop _ _).symm
  | succ count ih =>
      have stable := movable.stable src
      have long := movable.donor_long
      rw [moveMany, ih movable.next, stable, moveOne_src movable.apart]
      congr 1
      have position : ((lists src).take nrStableProc).length = nrStableProc := by
        rw [List.length_take]
        omega
      rw [List.eraseIdx_eq_take_drop_succ, List.drop_append, position,
        List.drop_eq_nil_of_le (by omega), List.nil_append, List.drop_drop]
      congr 1
      omega

theorem moveMany_mem {count : Nat} (movable : Movable lists des src count) {c : CpuId}
    (notSrc : c ≠ src) {item : Item} (member : item ∈ lists c) :
    item ∈ moveMany des src count lists c := by
  refine moveMany_induct (fun lists => item ∈ lists c) (fun lists _ movable member => ?_)
    movable member
  by_cases isDes : c = des
  · subst isDes
    rw [moveOne_des]
    exact List.mem_append_left _ member
  · rwa [moveOne_other isDes notSrc]

end Moves

/-! ## Length bounds -/

/-- The bounds that the pointer code relies on: the stable nodes are in every
queue, and one more on CPU 0, where `resort_ready_proc` runs. -/
structure LongEnough (lists : Lists Item) : Prop where
  stable : ∀ c, nrStableProc ≤ (lists c).length
  resorted : nrStableProc < (lists 0).length

/-- What `load_balance` does on long enough queues: nothing, or moves from the
busiest CPU that are all possible. -/
theorem balance_cases {lists : Lists Item} (long : LongEnough lists) (cpu : CpuId) :
    ∃ found, lists.busiest = some found ∧
      ((found = cpu ∧ lists.balance cpu = lists) ∨
        ∃ count, count = ((lists found).length - (lists cpu).length) / 2 ∧
          Movable lists cpu found count ∧ lists.balance cpu = moveMany cpu found count lists) := by
  have nonempty : lists 0 ≠ [] := by
    intro empty
    have := long.resorted
    simp [empty] at this
  obtain ⟨found, isBusiest, most⟩ := busiest_spec nonempty
  refine ⟨found, isBusiest, ?_⟩
  by_cases own : found = cpu
  · exact .inl ⟨own, by rw [balance, isBusiest, Option.elim_some, if_pos own]⟩
  · refine .inr ⟨_, rfl, ⟨Ne.symm own, long.stable cpu, ?_⟩,
      by rw [balance, isBusiest, Option.elim_some, if_neg own]⟩
    have := most cpu
    omega

theorem balance_longEnough {lists : Lists Item} (long : LongEnough lists) (cpu : CpuId) :
    LongEnough (lists.balance cpu) := by
  obtain ⟨found, _, ⟨_, same⟩ | ⟨count, halved, movable, moved⟩⟩ := balance_cases long cpu
  · rwa [same]
  · obtain ⟨receiver, donor, others⟩ := moveMany_lengths movable
    have donorBound := movable.donor
    have atLeast : ∀ c, (lists c).length ≤ (moveMany cpu found count lists c).length ∨
        nrStableProc < (moveMany cpu found count lists c).length := by
      intro c
      by_cases isDes : c = cpu
      · subst isDes; omega
      · by_cases isSrc : c = found
        · subst isSrc
          have stable := long.stable cpu
          cases count with
          | zero => omega
          | succ count => omega
        · rw [others c isDes isSrc]; exact .inl le_rfl
    rw [moved]
    refine ⟨fun c => ?_, ?_⟩
    · have := long.stable c
      rcases atLeast c with kept | more <;> omega
    · have := long.resorted
      rcases atLeast 0 with kept | more <;> omega

theorem append_longEnough {lists : Lists Item} (long : LongEnough lists) (c : CpuId) (item : Item) :
    LongEnough (lists.append c item) := by
  have atLeast : ∀ other, (lists other).length ≤ (lists.append c item other).length := by
    intro other
    by_cases same : other = c
    · subst same; simp [append]
    · simp [append, same]
  exact ⟨fun other => (long.stable other).trans (atLeast other), long.resorted.trans_le (atLeast 0)⟩

theorem append_contents (lists : Lists Item) (c : CpuId) (item : Item) :
    (contents (lists.append c item)).Perm (item :: contents lists) :=
  contents_update lists (List.perm_append_comm : List.Perm _ ([item] ++ lists c))

theorem balance_contents {lists : Lists Item} (long : LongEnough lists) (cpu : CpuId) :
    (contents (lists.balance cpu)).Perm (contents lists) := by
  obtain ⟨found, _, ⟨_, same⟩ | ⟨count, _, movable, moved⟩⟩ := balance_cases long cpu
  · rw [same]
  · rw [moved]
    exact moveMany_induct (fun now => (contents now).Perm (contents lists))
      (fun _ _ movable held => movable.contents.trans held) movable (.refl _)

theorem balance_stable {lists : Lists Item} (long : LongEnough lists) (cpu c : CpuId) :
    (lists.balance cpu c).take nrStableProc = (lists c).take nrStableProc := by
  obtain ⟨found, _, ⟨_, same⟩ | ⟨count, _, movable, moved⟩⟩ := balance_cases long cpu
  · rw [same]
  · rw [moved]
    exact moveMany_induct (fun now => (now c).take nrStableProc = (lists c).take nrStableProc)
      (fun _ _ movable held => (movable.stable c).trans held) movable rfl

/-- An item stays in its queue unless `load_balance` takes it. -/
theorem balance_mem {lists : Lists Item} (long : LongEnough lists) {cpu c : CpuId} {item : Item}
    (member : item ∈ lists c) (stays : item ∉ lists.migrants cpu) : item ∈ lists.balance cpu c := by
  obtain ⟨found, isBusiest, ⟨_, same⟩ | ⟨count, halved, movable, moved⟩⟩ := balance_cases long cpu
  · rwa [same]
  · rw [moved]
    by_cases isFound : c = found
    · subst isFound
      rw [migrants, isBusiest, Option.elim_some, ← halved] at stays
      rw [moveMany_src movable]
      have split : lists c = (lists c).take nrStableProc ++
          (((lists c).drop nrStableProc).take count ++ (lists c).drop (nrStableProc + count)) := by
        rw [← List.drop_drop, List.take_append_drop, List.take_append_drop]
      rw [split] at member
      rcases List.mem_append.mp member with first | rest
      · exact List.mem_append_left _ first
      · rcases List.mem_append.mp rest with taken | last
        · exact absurd taken stays
        · exact List.mem_append_right _ last
    · exact moveMany_mem movable isFound member

theorem resortOne_perm {list : List Item} (long : nrStableProc ≤ list.length) :
    (resortOne list).Perm list := by
  have nonempty : list.drop 2 ≠ [] := by
    simp only [ne_eq, List.drop_eq_nil_iff, not_le]
    exact long
  have last : list.getLast?.toList = [(list.drop 2).getLast nonempty] := by
    have whole : list ≠ [] := by rintro rfl; exact nonempty rfl
    rw [List.getLast?_eq_some_getLast whole, List.getLast_drop nonempty, Option.toList_some]
  calc resortOne list
      |>.Perm (list.take 2 ++ ((list.drop 2).dropLast ++ list.getLast?.toList)) := by
        rw [resortOne, List.append_assoc]
        exact List.perm_append_comm.append_left _
    _ = list := by rw [last, List.dropLast_append_getLast, List.take_append_drop]

theorem resort_contents {lists : Lists Item} {cpu : CpuId}
    (long : nrStableProc ≤ (lists cpu).length) :
    (contents (lists.resort cpu)).Perm (contents lists) :=
  contents_update lists (resortOne_perm long : List.Perm _ ([] ++ lists cpu))

theorem resort_longEnough {lists : Lists Item} (long : LongEnough lists) (cpu : CpuId) :
    LongEnough (lists.resort cpu) := by
  have same : ∀ c, (lists.resort cpu c).length = (lists c).length := by
    intro c
    by_cases isCpu : c = cpu
    · subst isCpu
      simpa [resort] using (resortOne_perm (long.stable c)).length_eq
    · simp [resort, isCpu]
  exact ⟨fun c => same c ▸ long.stable c, same 0 ▸ long.resorted⟩

end Lists

end AempOS.Sched
