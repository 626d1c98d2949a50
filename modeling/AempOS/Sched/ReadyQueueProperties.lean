import AempOS.Sched.QueueLists

/-! The pointer code of the ready queues refines the lists of `QueueLists`. From
the boot state on, no operation ever reads a null link, and the queues stay
doubly linked lists that hold every added PCB exactly once. -/

set_option autoImplicit false

namespace AempOS.Sched

open Lib

abbrev Cell := Addr × Pcb

/-- The nodes of the queues are these cells, which hold the PCBs that were ever
added. -/
structure Represents (queues : Queues) (cells : Lists Cell) : Prop where
  list : ∀ c, DList queues.heap (queues.cpu c).ready.front (queues.cpu c).ready.rear (cells c)
  count : ∀ c, (queues.cpu c).nrReadyProc = (cells c).length
  distinct : ((contents cells).map Prod.fst).Nodup
  stored : ((contents cells).map Prod.snd).Perm queues.added

variable {queues : Queues} {cells : Lists Cell}

namespace Represents

theorem addr_nodup (held : Represents queues cells) (c : CpuId) :
    ((cells c).map Prod.fst).Nodup :=
  place_nodup (fun place => (cells place).map Prod.fst)
    (contents_map cells Prod.fst ▸ held.distinct) c

theorem addr_apart (held : Represents queues cells) {left right : CpuId} (apart : left ≠ right)
    {addr : Addr} (inLeft : addr ∈ (cells left).map Prod.fst) :
    addr ∉ (cells right).map Prod.fst := by
  intro inRight
  exact apart (place_unique (fun place => (cells place).map Prod.fst)
    (contents_map cells Prod.fst ▸ held.distinct) inLeft inRight)

/-- A block that is not in use is the address of no node. -/
theorem fresh_outside (held : Represents queues cells) {block : Addr}
    (fresh : queues.heap block = none) (c : CpuId) : block ∉ (cells c).map Prod.fst := by
  intro member
  obtain ⟨cell, inside, rfl⟩ := List.mem_map.mp member
  obtain ⟨found, present, _⟩ := (held.list c).linked.allocated inside
  rw [fresh] at present
  cases present

end Represents

/-! ## Appends -/

theorem addReadyQueue_list {heap : Heap} {rq : ReadyQueue} {list : List Cell} {block : Addr}
    (held : DList heap rq.front rq.rear list) (distinct : (list.map Prod.fst).Nodup)
    (fresh : block ∉ list.map Prod.fst) (proc : Pcb) :
    ∃ next ready, addReadyQueue heap rq block proc = some (next, ready) ∧
      DList next ready.front ready.rear (list ++ [(block, proc)]) ∧
      ∀ addr, addr ∉ list.map Prod.fst → addr ≠ block → next addr = heap addr := by
  rcases List.eq_nil_or_concat' list with rfl | ⟨front, last, whole⟩
  · have noRear : rq.rear = none := held.rear
    refine ⟨_, _, by rw [addReadyQueue, noRear], ⟨rfl, rfl, ?_⟩, ?_⟩
    · simp [Segment, firstAddr]
    · intro addr _ apart
      exact heap.store_other _ apart
  · have nonempty : list ≠ [] := by simp [whole]
    have isRear : rq.rear = some last.1 := by simp [held.rear, whole, lastAddr]
    -- The node is written twice: with null links, then with its `prev` link.
    set made := heap.store block { value := proc, prev := none, next := none } with makes
    set linked := made.store block { value := proc, prev := some last.1, next := none } with links
    have untouched : DList linked rq.front rq.rear list :=
      (held.store_outside fresh _).store_outside fresh _
    have wrote : made.setPrev (some block) (some last.1) = some linked :=
      DHeap.setPrev_some (heap.store_self block _) _
    have prepared : linked block = some ⟨proc, rq.rear, none⟩ := by
      rw [links, DHeap.store_self, isRear]
    obtain ⟨next, hung, result, same⟩ := untouched.pushRear nonempty distinct fresh prepared
    rw [isRear] at hung
    refine ⟨next, { rq with rear := some block }, ?_, result, ?_⟩
    · simp only [addReadyQueue, isRear]
      rw [← makes, wrote]
      simp [hung]
    · intro addr outside apart
      rw [same addr outside, links, DHeap.store_other _ _ apart, makes, DHeap.store_other _ _ apart]

theorem add_represents (held : Represents queues cells) {block : Addr}
    (fresh : queues.heap block = none) (c : CpuId) (proc : Pcb) :
    ∃ next, queues.add c block proc = some next ∧
      Represents next (cells.append c (block, proc)) ∧ next.added = proc :: queues.added ∧
      ∀ addr, addr ≠ block → queues.heap addr = none → next.heap addr = none := by
  obtain ⟨heap, ready, ran, list, same⟩ := addReadyQueue_list (held.list c) (held.addr_nodup c)
    (held.fresh_outside fresh c) proc
  refine ⟨_, by rw [Queues.add, ran]; rfl, ⟨fun other => ?_, fun other => ?_, ?_, ?_⟩, rfl, ?_⟩
  · by_cases isC : other = c
    · subst isC
      simpa [Lists.append] using list
    · simp only [Lists.append, Function.update_of_ne isC]
      refine (held.list other).congr fun cell inside => ?_
      have member := List.mem_map_of_mem (f := Prod.fst) inside
      refine same _ (held.addr_apart isC member) ?_
      intro isBlock
      exact held.fresh_outside fresh other (isBlock ▸ member)
  · by_cases isC : other = c
    · subst isC
      simp [Lists.append, held.count]
    · simpa [Lists.append, isC] using held.count other
  · have perm := (Lists.append_contents cells c (block, proc)).map Prod.fst
    refine perm.nodup_iff.mpr (List.nodup_cons.mpr ⟨?_, held.distinct⟩)
    intro member
    obtain ⟨cell, inside, isBlock⟩ := List.mem_map.mp member
    obtain ⟨other, inOther⟩ := mem_contents.mp inside
    have isBlock : cell.1 = block := isBlock
    exact held.fresh_outside fresh other (isBlock ▸ List.mem_map_of_mem inOther)
  · have perm := (Lists.append_contents cells c (block, proc)).map Prod.snd
    exact perm.trans (held.stored.cons proc)
  · intro addr apart free
    exact (same addr (held.fresh_outside free c) apart).trans free

/-! ## Moves between queues -/

theorem walk_segment {heap : Heap} {before : Option Addr} {left right : List Cell}
    (held : Segment heap before (left ++ right) none) :
    walk heap left.length (firstAddr (left ++ right) none) = some (firstAddr right none) := by
  induction left generalizing before with
  | nil => rfl
  | cons cell rest ih =>
      have read : heap.read (some cell.1) = some ⟨cell.2, before, firstAddr (rest ++ right) none⟩ :=
        held.1
      rw [List.cons_append, List.length_cons, walk, firstAddr, read]
      exact ih held.2

/-- The queue of a donor around the node that `move_ready_proc` takes. -/
theorem donor_split {list : List Cell} (long : nrStableProc + 1 < list.length) :
    ∃ left cell right, list = left ++ cell :: right ∧ left.length = nrStableProc ∧
      left ≠ [] ∧ right ≠ [] := by
  have present : nrStableProc < list.length := by omega
  refine ⟨list.take nrStableProc, list[nrStableProc], list.drop (nrStableProc + 1), ?_, ?_, ?_, ?_⟩
  · simp
  · simp only [List.length_take]; omega
  · intro empty
    have := congrArg List.length empty
    simp only [List.length_take, List.length_nil, nrStableProc] at this
    simp only [nrStableProc] at present
    omega
  · simpa using long

/-- `move_ready_proc` on the two lists that it touches. -/
theorem moveReadyProc_lists {des src : CpuId} (held : Represents queues cells) (apart : des ≠ src)
    (receiver : cells des ≠ []) {left right : List Cell} {cell : Cell}
    (donor : cells src = left ++ cell :: right) (position : left.length = nrStableProc)
    (leftSome : left ≠ []) (rightSome : right ≠ []) :
    ∃ heap, moveReadyProc queues des src = some {
        queues with
        heap
        cpu := Function.update
          (Function.update queues.cpu src
            { queues.cpu src with nrReadyProc := (queues.cpu src).nrReadyProc - 1 }) des
          { ready := { (queues.cpu des).ready with rear := some cell.1 }
            nrReadyProc := (queues.cpu des).nrReadyProc + 1 } } ∧
      DList heap (queues.cpu src).ready.front (queues.cpu src).ready.rear (left ++ right) ∧
      DList heap (queues.cpu des).ready.front (some cell.1) (cells des ++ [cell]) ∧
      ∀ addr, addr ∉ (cells src).map Prod.fst → addr ∉ (cells des).map Prod.fst →
        heap addr = queues.heap addr := by
  have srcList := held.list src
  have desList := held.list des
  rw [donor] at srcList
  have srcDistinct := held.addr_nodup src
  rw [donor] at srcDistinct
  have inSrc : ∀ addr, addr ∈ (left ++ cell :: right).map Prod.fst → addr ∉ (cells des).map Prod.fst :=
    fun addr member => held.addr_apart apart.symm (donor ▸ member)
  have cellApart : cell.1 ∉ (cells des).map Prod.fst := inSrc _ (by simp)
  have walked : walk queues.heap nrStableProc (queues.cpu src).ready.front = some (some cell.1) := by
    rw [srcList.front, ← position, walk_segment srcList.linked]
    rfl
  obtain ⟨found, middle, wroteNext, middleCell, unlinked, wrotePrev, unlinkedCell, srcList,
    frame⟩ := srcList.unlink leftSome rightSome srcDistinct
  have notRest : cell.1 ∉ (left ++ right).map Prod.fst := by
    have perm : ((left ++ cell :: right).map Prod.fst).Perm (cell.1 :: (left ++ right).map Prod.fst) :=
      (List.perm_middle).map Prod.fst
    exact (List.nodup_cons.mp (perm.nodup_iff.mp srcDistinct)).1
  have desList : DList unlinked (queues.cpu des).ready.front (queues.cpu des).ready.rear (cells des) :=
    desList.congr fun member inside =>
      frame _ fun inSource => inSrc _ inSource (List.mem_map_of_mem inside)
  -- The node is rewritten in two stores before it is hung on at the rear.
  set rear := (queues.cpu des).ready.rear
  set once := unlinked.store cell.1 ⟨cell.2, rear, firstAddr right none⟩ with makesOnce
  set twice := once.store cell.1 ⟨cell.2, rear, none⟩ with makesTwice
  have wroteRear : unlinked.setPrev (some cell.1) rear = some once :=
    DHeap.setPrev_some (unlinkedCell.trans found) _
  have wroteNull : once.setNext (some cell.1) none = some twice :=
    DHeap.setNext_some (unlinked.store_self _ _) _
  have srcList : DList twice _ _ (left ++ right) :=
    (srcList.store_outside notRest _).store_outside notRest _
  have desList : DList twice (queues.cpu des).ready.front rear (cells des) :=
    (desList.store_outside cellApart _).store_outside cellApart _
  obtain ⟨heap, hung, desList, same⟩ := desList.pushRear receiver (held.addr_nodup des) cellApart
    (once.store_self _ _)
  refine ⟨heap, ?_, srcList.congr fun member inside => same _ (inSrc _ ?_), desList, ?_⟩
  · have readCell : queues.heap.read (some cell.1) = some ⟨cell.2, lastAddr none left, firstAddr right none⟩ :=
      found
    have readAgain : middle.read (some cell.1) = some ⟨cell.2, lastAddr none left, firstAddr right none⟩ :=
      middleCell.trans found
    simp [moveReadyProc, walked, readCell, wroteNext, readAgain, wrotePrev,
      Function.update_of_ne apart, wroteRear, wroteNull, hung, rear]
  · have member := List.mem_map_of_mem (f := Prod.fst) inside
    simp only [List.map_append, List.map_cons, List.mem_append, List.mem_cons] at member ⊢
    grind
  · intro addr notSrc notDes
    have apartCell : addr ≠ cell.1 := by
      rintro rfl
      exact notSrc (by simp [donor])
    rw [same addr notDes, makesTwice, DHeap.store_other _ _ apartCell, makesOnce,
      DHeap.store_other _ _ apartCell, frame addr (donor ▸ notSrc)]

theorem moveReadyProc_represents {des src : CpuId} {count : Nat} (held : Represents queues cells)
    (movable : Lists.Movable cells des src (count + 1)) :
    ∃ next, moveReadyProc queues des src = some next ∧
      Represents next (cells.moveOne des src) ∧ next.added = queues.added := by
  obtain ⟨left, cell, right, donor, position, leftSome, rightSome⟩ :=
    donor_split movable.donor_long
  have receiver : cells des ≠ [] := by
    intro empty
    have := movable.receiver
    simp [empty, nrStableProc] at this
  obtain ⟨heap, ran, srcList, desList, frame⟩ :=
    moveReadyProc_lists held movable.apart receiver donor position leftSome rightSome
  have srcCells : cells.moveOne des src src = left ++ right := by
    rw [Lists.moveOne_src movable.apart, donor, ← position,
      List.eraseIdx_append_of_length_le le_rfl]
    simp
  have desCells : cells.moveOne des src des = cells des ++ [cell] := by
    simp [Lists.moveOne_des, donor, ← position]
  obtain ⟨received, given⟩ := movable.lengths
  refine ⟨_, ran, ⟨fun c => ?_, fun c => ?_, ?_, ?_⟩, rfl⟩
  · by_cases isDes : c = des
    · subst isDes
      simpa [desCells] using desList
    · by_cases isSrc : c = src
      · subst isSrc
        simpa [srcCells, isDes] using srcList
      · simp only [Function.update_of_ne isDes, Function.update_of_ne isSrc,
          Lists.moveOne_other isDes isSrc]
        refine (held.list c).congr fun member inside => ?_
        have inC := List.mem_map_of_mem (f := Prod.fst) inside
        exact frame _ (held.addr_apart isSrc inC) (held.addr_apart isDes inC)
  · by_cases isDes : c = des
    · subst isDes
      simp [received, held.count]
    · by_cases isSrc : c = src
      · subst isSrc
        simp only [Function.update_of_ne isDes, Function.update_self, held.count]
        omega
      · simpa [isDes, isSrc, Lists.moveOne_other isDes isSrc] using held.count c
  · exact (movable.contents.map Prod.fst).nodup_iff.mpr held.distinct
  · exact (movable.contents.map Prod.snd).trans held.stored

theorem moveReadyProcs_represents {des src : CpuId} {count : Nat} (held : Represents queues cells)
    (movable : Lists.Movable cells des src count) :
    ∃ next, moveReadyProcs des src count queues = some next ∧
      Represents next (Lists.moveMany des src count cells) ∧ next.added = queues.added := by
  induction count generalizing queues cells with
  | zero => exact ⟨queues, rfl, held, rfl⟩
  | succ count ih =>
      obtain ⟨middle, moved, middleHeld, middleAdded⟩ := moveReadyProc_represents held movable
      obtain ⟨next, rest, nextHeld, nextAdded⟩ := ih middleHeld movable.next
      exact ⟨next, by rw [moveReadyProcs, moved]; exact rest, nextHeld, nextAdded.trans middleAdded⟩

theorem findBusiestCpu_lists (held : Represents queues cells) :
    (findBusiestCpu fun c => (queues.cpu c).nrReadyProc) = cells.busiest := by
  rw [Lists.busiest]
  exact congrArg findBusiestCpu (funext held.count)

theorem moveProcNum_lists (held : Represents queues cells) (des src : CpuId)
    (more : (cells des).length ≤ (cells src).length) :
    (moveProcNum (queues.cpu des) (queues.cpu src)).toNat =
      ((cells src).length - (cells des).length) / 2 := by
  rw [moveProcNum, held.count, held.count, Int.tdiv_eq_ediv_of_nonneg (by omega)]
  omega

theorem loadBalance_represents (held : Represents queues cells) (long : Lists.LongEnough cells)
    (cpu : CpuId) :
    ∃ next, loadBalance queues cpu = some next ∧ Represents next (cells.balance cpu) ∧
      next.added = queues.added := by
  obtain ⟨found, isBusiest, ⟨own, same⟩ | ⟨count, halved, movable, moved⟩⟩ :=
    Lists.balance_cases long cpu
  · refine ⟨queues, ?_, by rwa [same], rfl⟩
    simp [loadBalance, findBusiestCpu_lists held, isBusiest, own]
  · obtain ⟨next, ran, nextHeld, added⟩ := moveReadyProcs_represents held movable
    have amount := moveProcNum_lists held cpu found (by have := movable.donor; omega)
    refine ⟨next, ?_, moved ▸ nextHeld, added⟩
    simp [loadBalance, findBusiestCpu_lists held, isBusiest, movable.apart.symm, amount, ← halved, ran]

/-! ## Resorting -/

theorem resort_split {list : List Cell} (long : nrStableProc < list.length) :
    ∃ front mov middle init, list = front :: mov :: (middle ++ [init]) ∧ middle ≠ [] ∧
      Lists.resortOne list = front :: mov :: init :: middle := by
  match list, long with
  | front :: mov :: third :: rest, long =>
      have nonempty : rest ≠ [] := by
        rintro rfl
        simp [nrStableProc] at long
      obtain ⟨middle, init, rfl⟩ := (List.eq_nil_or_concat' rest).resolve_left nonempty
      refine ⟨front, mov, third :: middle, init, rfl, by simp, ?_⟩
      have drop : (third :: (middle ++ [init])).dropLast = third :: middle := by
        rw [← List.cons_append, List.dropLast_concat]
      have last : (front :: mov :: third :: (middle ++ [init])).getLast? = some init := by
        rw [← List.cons_append, ← List.cons_append, ← List.cons_append, List.getLast?_concat]
      rw [Lists.resortOne, last]
      simp [drop]

/-- `resort_ready_proc` on the list that it touches. -/
theorem resortReadyProc_list {cpu : CpuId} (held : Represents queues cells)
    {front mov init : Cell} {middle : List Cell}
    (whole : cells cpu = front :: mov :: (middle ++ [init])) (middleSome : middle ≠ []) :
    ∃ heap ready, resortReadyProc queues cpu = some {
        queues with
        heap
        cpu := Function.update queues.cpu cpu { queues.cpu cpu with ready } } ∧
      DList heap ready.front ready.rear (front :: mov :: init :: middle) ∧
      ∀ addr, addr ∉ (cells cpu).map Prod.fst → heap addr = queues.heap addr := by
  have list := held.list cpu
  have distinct := held.addr_nodup cpu
  rw [whole] at list distinct
  obtain ⟨third, rest, split⟩ := List.exists_cons_of_ne_nil middleSome
  have rearSame : ∀ before, lastAddr before middle = lastAddr none middle := by
    intro before; rw [split]; rfl
  have thirdSame : ∀ after, firstAddr middle after = some third.1 := by
    intro after; rw [split]; rfl
  have shape : front :: mov :: (middle ++ [init]) = [front, mov] ++ (middle ++ [init]) := rfl
  obtain ⟨headPart, tailPart⟩ := Segment.append_iff.mp (shape ▸ list.linked)
  obtain ⟨middlePart, foundInit, _⟩ := Segment.append_iff.mp tailPart
  rw [firstAddr_append, thirdSame] at headPart
  rw [rearSame] at foundInit
  simp only [shape, List.map_append, List.nodup_append] at distinct
  obtain ⟨headDistinct, ⟨middleDistinct, _, initMiddle⟩, headTail⟩ := distinct
  have notMiddle : init.1 ∉ middle.map Prod.fst :=
    fun member => initMiddle _ member _ (by simp) rfl
  have notHead : init.1 ∉ [front, mov].map Prod.fst :=
    fun member => headTail _ member _ (by simp) rfl
  have headMiddle : ∀ addr ∈ [front, mov].map Prod.fst, addr ∉ middle.map Prod.fst :=
    fun addr member inMiddle => headTail _ member _ (List.mem_append_left _ inMiddle) rfl
  -- The two stores to the node that moves.
  set once := queues.heap.store init.1 ⟨init.2, lastAddr none middle, some third.1⟩ with makesOnce
  set twice := once.store init.1 ⟨init.2, some mov.1, some third.1⟩ with makesTwice
  have wroteNext : queues.heap.setNext (some init.1) (some third.1) = some once :=
    DHeap.setNext_some foundInit _
  have wrotePrev : once.setPrev (some init.1) (some mov.1) = some twice :=
    DHeap.setPrev_some (queues.heap.store_self _ _) _
  have headTwice : Segment twice none [front, mov] (some third.1) :=
    (headPart.store_outside notHead _).store_outside notHead _
  have middleTwice : Segment twice (some mov.1) middle (some init.1) :=
    (middlePart.store_outside notMiddle _).store_outside notMiddle _
  -- The stores to its new neighbours, and the null link of the new rear.
  obtain ⟨linked, spliced, heap, wroteThird, wroteMov, wroteRear, headFinal, middleFinal, same⟩ :=
    headTwice.relink middleTwice (by simp) middleSome headDistinct middleDistinct headMiddle
      (some init.1) none
  rw [thirdSame] at wroteThird
  rw [rearSame] at wroteRear
  have initFinal : heap init.1 = some ⟨init.2, some mov.1, some third.1⟩ := by
    rw [same _ notHead notMiddle, makesTwice, DHeap.store_self]
  refine ⟨heap, { front := some front.1, rear := lastAddr none middle }, ?_, ⟨rfl, ?_, ?_⟩, ?_⟩
  · have frontSame : (queues.cpu cpu).ready.front = some front.1 := list.front
    have rearIs : (queues.cpu cpu).ready.rear = some init.1 := by
      rw [list.rear, shape, lastAddr_append, lastAddr_append]
      rfl
    have readFront : queues.heap.read (some front.1) = some ⟨front.2, none, some mov.1⟩ := headPart.1
    have readInit : queues.heap.read (some init.1) =
        some ⟨init.2, lastAddr none middle, none⟩ := foundInit
    have readMov : queues.heap.read (some mov.1) = some ⟨mov.2, some front.1, some third.1⟩ :=
      headPart.2.1
    have readMovAgain : twice.read (some mov.1) = some ⟨mov.2, some front.1, some third.1⟩ :=
      headTwice.2.1
    have wroteMov : linked.setNext (some mov.1) (some init.1) = some spliced := wroteMov
    simp [resortReadyProc, frontSame, rearIs, readFront, readInit, readMov, wroteNext, wrotePrev,
      readMovAgain, wroteThird, wroteMov, wroteRear]
  · simp only [lastAddr]
    exact (rearSame _).symm
  · have joined : front :: mov :: init :: middle = [front, mov] ++ init :: middle := rfl
    rw [joined, Segment.append_iff]
    refine ⟨headFinal, ?_, middleFinal⟩
    rw [thirdSame]
    exact initFinal
  · intro addr outside
    simp only [whole, shape, List.map_append, List.mem_append, not_or] at outside
    obtain ⟨outHead, outMiddle, outInit⟩ := outside
    have apart : addr ≠ init.1 := by
      rintro rfl
      exact outInit (by simp)
    rw [same _ outHead outMiddle, makesTwice, DHeap.store_other _ _ apart, makesOnce,
      DHeap.store_other _ _ apart]

theorem resortReadyProc_represents (held : Represents queues cells) {cpu : CpuId}
    (long : nrStableProc < (cells cpu).length) :
    ∃ next, resortReadyProc queues cpu = some next ∧ Represents next (cells.resort cpu) ∧
      next.added = queues.added := by
  obtain ⟨front, mov, middle, init, whole, middleSome, sorted⟩ := resort_split long
  obtain ⟨heap, ready, ran, list, frame⟩ := resortReadyProc_list held whole middleSome
  have perm : (contents (cells.resort cpu)).Perm (contents cells) := Lists.resort_contents long.le
  refine ⟨_, ran, ⟨fun c => ?_, fun c => ?_, (perm.map Prod.fst).nodup_iff.mpr held.distinct,
    (perm.map Prod.snd).trans held.stored⟩, rfl⟩
  · by_cases isCpu : c = cpu
    · subst isCpu
      simpa [Lists.resort, sorted] using list
    · simp only [Lists.resort, Function.update_of_ne isCpu]
      refine (held.list c).congr fun member inside => ?_
      exact frame _ (held.addr_apart isCpu (List.mem_map_of_mem inside))
  · by_cases isCpu : c = cpu
    · subst isCpu
      simp [Lists.resort, held.count, (Lists.resortOne_perm long.le).length_eq]
    · simpa [Lists.resort, isCpu] using held.count c

/-! ## Runs -/

/-- The lists after a step. -/
def Lists.step (cells : Lists Cell) : Action → Lists Cell
  | .add append => cells.append append.cpu (append.block, append.proc)
  | .loadBalance cpu => cells.balance cpu
  | .resort => cells.resort 0

/-- What every reachable state keeps. -/
structure Valid (queues : Queues) (cells : Lists Cell) : Prop extends Represents queues cells where
  long : cells.LongEnough
  once : queues.added.Nodup

/-- No step fails, and each one does to the nodes what `Lists.step` says. -/
theorem step_valid (held : Valid queues cells) {action : Action}
    (fresh : FreshAppend queues action) :
    ∃ next, step queues action = some next ∧ Valid next (cells.step action) := by
  cases action with
  | add append =>
      obtain ⟨next, ran, nextHeld, added, _⟩ :=
        add_represents held.toRepresents fresh.1 append.cpu append.proc
      refine ⟨next, ran, nextHeld, Lists.append_longEnough held.long _ _, ?_⟩
      rw [added]
      exact List.nodup_cons.mpr ⟨fresh.2, held.once⟩
  | loadBalance cpu =>
      obtain ⟨next, ran, nextHeld, added⟩ := loadBalance_represents held.toRepresents held.long cpu
      exact ⟨next, ran, nextHeld, Lists.balance_longEnough held.long cpu, added ▸ held.once⟩
  | resort =>
      obtain ⟨next, ran, nextHeld, added⟩ :=
        resortReadyProc_represents held.toRepresents held.long.resorted
      exact ⟨next, ran, nextHeld, Lists.resort_longEnough held.long 0, added ▸ held.once⟩

def Lists.appendAll : List Append → Lists Cell → Lists Cell
  | [], cells => cells
  | append :: rest, cells =>
      Lists.appendAll rest (cells.append append.cpu (append.block, append.proc))

theorem appendAll_length (appends : List Append) (cells : Lists Cell) (c : CpuId) :
    (Lists.appendAll appends cells c).length =
      (cells c).length + (appends.map Append.cpu).count c := by
  induction appends generalizing cells with
  | nil => rfl
  | cons append rest ih =>
      rw [Lists.appendAll, ih]
      by_cases same : append.cpu = c
      · subst same
        simp [Lists.append]
        omega
      · simp [Lists.append, same, Ne.symm same]

theorem addAll_represents {appends : List Append} (held : Represents queues cells)
    (blocks : (appends.map Append.block).Nodup)
    (free : ∀ block ∈ appends.map Append.block, queues.heap block = none) :
    ∃ next, queues.addAll appends = some next ∧
      Represents next (Lists.appendAll appends cells) ∧
      next.added = (appends.map Append.proc).reverse ++ queues.added := by
  induction appends generalizing queues cells with
  | nil => exact ⟨queues, rfl, held, rfl⟩
  | cons append rest ih =>
      obtain ⟨notRest, restBlocks⟩ := List.nodup_cons.mp blocks
      obtain ⟨middle, ran, middleHeld, added, stays⟩ :=
        add_represents held (free append.block (by simp)) append.cpu append.proc
      have restFree : ∀ block ∈ rest.map Append.block, middle.heap block = none := by
        intro block member
        refine stays block ?_ (free block (List.mem_cons_of_mem _ member))
        rintro rfl
        exact notRest member
      obtain ⟨next, rested, nextHeld, restAdded⟩ := ih middleHeld restBlocks restFree
      refine ⟨next, by rw [Queues.addAll, ran]; exact rested, nextHeld, ?_⟩
      simp [restAdded, added]

private theorem empty_represents : Represents emptyQueues fun _ => [] where
  list _ := ⟨rfl, rfl, trivial⟩
  count _ := rfl
  distinct := List.nodup_nil
  stored := List.Perm.nil

private theorem boot_cpus (block : Pcb → Addr) :
    (balanceReadyProc block).map Append.cpu = [0, 1, 2, 3, 0, 1, 2, 3, 0, 0, 0, 0] := rfl

/-- The lists that the appends of the boot sequence leave. -/
theorem boot_valid {block : Pcb → Addr} {forks : List Append}
    (cpus : (forks.map Append.cpu).Perm (List.finRange numCpus))
    (blocks : ((balanceReadyProc block ++ forks).map Append.block).Nodup)
    (procs : ((balanceReadyProc block ++ forks).map Append.proc).Nodup)
    (ran : emptyQueues.addAll (balanceReadyProc block ++ forks) = some queues) :
    Valid queues (Lists.appendAll (balanceReadyProc block ++ forks) fun _ => []) := by
  obtain ⟨next, ran', held, added⟩ := addAll_represents empty_represents blocks fun _ _ => rfl
  obtain rfl : next = queues := Option.some.inj (ran'.symm.trans ran)
  have length : ∀ c, (Lists.appendAll (balanceReadyProc block ++ forks) (fun _ => []) c).length =
      ([0, 1, 2, 3, 0, 1, 2, 3, 0, 0, 0, 0] : List CpuId).count c + 1 := by
    intro c
    rw [appendAll_length, List.map_append, List.count_append, boot_cpus, cpus.count_eq,
      List.count_eq_one_of_mem (List.nodup_finRange _) (List.mem_finRange c)]
    simp
  refine ⟨held, ⟨fun c => ?_, ?_⟩, ?_⟩
  · rw [length c]
    revert c
    decide
  · rw [length 0]
    decide
  · rw [added, emptyQueues, List.append_nil, List.nodup_reverse]
    exact procs

theorem booted_valid (booted : Booted queues) : ∃ cells, Valid queues cells := by
  obtain ⟨block, forks, cpus, blocks, procs, ran⟩ := booted
  exact ⟨_, boot_valid cpus blocks procs ran⟩

theorem reachable_valid (reached : queueSystem.ReachableWhen FreshAppend queues) :
    ∃ cells, Valid queues cells := by
  refine reached.invariant (fun _ => booted_valid) ?_
  rintro state action next ⟨cells, held⟩ fresh moved
  obtain ⟨result, ran, resultHeld⟩ := step_valid held fresh
  obtain rfl : result = next := Option.some.inj (ran.symm.trans moved)
  exact ⟨_, resultHeld⟩

/-- A doubly linked list on these nodes: the ends have no link outwards, `next`
and `prev` are inverse to each other, and the rear is reached from the front. -/
structure WellLinked (heap : Heap) (ready : ReadyQueue) (nodes : List Addr) : Prop where
  distinct : nodes.Nodup
  frontPrev : ∀ addr, ready.front = some addr → DList.prevOf heap addr = none
  rearNext : ∀ addr, ready.rear = some addr → DList.nextOf heap addr = none
  inverse : ∀ addr ∈ nodes, ∀ target, DList.nextOf heap addr = some target ↔
    target ∈ nodes ∧ DList.prevOf heap target = some addr
  reachable : ∃ front rear, ready.front = some front ∧ ready.rear = some rear ∧
    front ∈ nodes ∧ rear ∈ nodes ∧
    Relation.ReflTransGen (fun addr target => DList.nextOf heap addr = some target) front rear

theorem Valid.wellLinked (held : Valid queues cells) (c : CpuId) :
    WellLinked queues.heap (queues.cpu c).ready ((cells c).map Prod.fst) where
  distinct := held.addr_nodup c
  frontPrev _ isFront := (held.list c).prevOf_front isFront
  rearNext _ isRear := (held.list c).nextOf_rear isRear
  inverse _ member _ := (held.list c).nextOf_iff_prevOf member
  reachable := by
    have nonempty : cells c ≠ [] := by
      intro empty
      have := held.long.stable c
      simp [empty, nrStableProc] at this
    obtain ⟨first, rest, isFirst⟩ := List.exists_cons_of_ne_nil nonempty
    obtain ⟨initial, last, isLast⟩ := (List.eq_nil_or_concat' (cells c)).resolve_left nonempty
    have front : (queues.cpu c).ready.front = some first.1 := by
      rw [(held.list c).front, isFirst]
      rfl
    have rear : (queues.cpu c).ready.rear = some last.1 := by
      rw [(held.list c).rear, isLast, lastAddr_append]
      rfl
    exact ⟨first.1, last.1, front, rear, by simp [isFirst], by simp [isLast],
      (held.list c).rear_reachable front rear⟩

theorem Valid.one_place (held : Valid queues cells) {proc : Pcb} (added : proc ∈ queues.added) :
    ∃ c, ((cells c).map Prod.snd).count proc = 1 ∧
      ∀ other, other ≠ c → proc ∉ (cells other).map Prod.snd := by
  have distinct : (contents fun c => (cells c).map Prod.snd).Nodup := by
    rw [← contents_map]
    exact held.stored.nodup_iff.mpr held.once
  have member : proc ∈ contents fun c => (cells c).map Prod.snd := by
    rw [← contents_map]
    exact held.stored.mem_iff.mpr added
  obtain ⟨c, inside⟩ := mem_contents.mp member
  refine ⟨c, List.count_eq_one_of_mem (place_nodup _ distinct c) inside, ?_⟩
  intro other apart inOther
  exact apart (place_unique _ distinct inOther inside)

/-- A CPU that a `load_balance` took nodes from keeps as many as the receiver
has then, or one more. -/
theorem Valid.balanced (held : Valid queues cells) {cpu : CpuId} {next : Queues}
    (moved : loadBalance queues cpu = some next) {donor : CpuId}
    (gave : (next.cpu donor).nrReadyProc < (queues.cpu donor).nrReadyProc) :
    (next.cpu donor).nrReadyProc - (next.cpu cpu).nrReadyProc = 0 ∨
      (next.cpu donor).nrReadyProc - (next.cpu cpu).nrReadyProc = 1 := by
  obtain ⟨result, ran, resultHeld, _⟩ := loadBalance_represents held.toRepresents held.long cpu
  obtain rfl : result = next := Option.some.inj (ran.symm.trans moved)
  rw [resultHeld.count, held.count] at gave
  rw [resultHeld.count, resultHeld.count]
  obtain ⟨found, _, ⟨_, same⟩ | ⟨count, halved, movable, balanced⟩⟩ :=
    Lists.balance_cases held.long cpu
  · rw [same] at gave
    exact absurd gave (lt_irrefl _)
  · obtain ⟨received, given, others⟩ := Lists.moveMany_lengths movable
    rw [balanced] at gave ⊢
    have isFound : donor = found := by
      by_contra notFound
      by_cases isCpu : donor = cpu
      · subst isCpu
        omega
      · rw [others donor isCpu notFound] at gave
        exact lt_irrefl _ gave
    subst isFound
    omega

/-- In every state that the appends, `load_balance` and `resort_ready_proc` lead
to, the queues are doubly linked lists of the counted length, every added PCB is
in exactly one place, no step reads a null link, and a `load_balance` that moved
something leaves donor and receiver within one. -/
theorem ready_queues_wellFormed (reached : queueSystem.ReachableWhen FreshAppend queues) :
    ∃ cells : Lists Cell,
      (∀ c, WellLinked queues.heap (queues.cpu c).ready ((cells c).map Prod.fst) ∧
        (∀ cell ∈ cells c, ∃ found, queues.heap cell.1 = some found ∧ found.value = cell.2) ∧
        (queues.cpu c).nrReadyProc = (cells c).length) ∧
      (∀ proc ∈ queues.added, ∃ c, ((cells c).map Prod.snd).count proc = 1 ∧
        ∀ other, other ≠ c → proc ∉ (cells other).map Prod.snd) ∧
      (∀ action, FreshAppend queues action → (step queues action).isSome) ∧
      ∀ cpu next, step queues (.loadBalance cpu) = some next →
        ∀ donor, (next.cpu donor).nrReadyProc < (queues.cpu donor).nrReadyProc →
          (next.cpu donor).nrReadyProc - (next.cpu cpu).nrReadyProc = 0 ∨
            (next.cpu donor).nrReadyProc - (next.cpu cpu).nrReadyProc = 1 := by
  obtain ⟨cells, held⟩ := reachable_valid reached
  refine ⟨cells, fun c => ⟨held.wellLinked c, ?_, held.count c⟩, fun _ => held.one_place, ?_, ?_⟩
  · exact fun cell inside => (held.list c).linked.allocated inside
  · intro action fresh
    obtain ⟨next, ran, _⟩ := step_valid held fresh
    exact ran ▸ rfl
  · exact fun cpu next moved donor gave => held.balanced moved gave

/-- A boot in which the block of a PCB is its index, with forks in CPU order. -/
def bootForks : List Append :=
  (List.finRange numCpus).map fun c => { cpu := c, block := 16 + c, proc := 16 + c }

def bootQueues : Queues :=
  (emptyQueues.addAll (balanceReadyProc id ++ bootForks)).get rfl

theorem bootQueues_booted : Booted bootQueues :=
  ⟨id, bootForks, by decide, by decide, by decide, (Option.some_get _).symm⟩

/-- Two `load_balance` calls and a resort after boot. -/
theorem ready_queues_wellFormed_boot :
    ∃ queues, queueSystem.run bootQueues [.loadBalance 1, .resort, .loadBalance 2] = some queues ∧
      (queues.cpu 0).nrReadyProc = 4 ∧
      ∃ cells : Lists Cell, ∀ c,
        WellLinked queues.heap (queues.cpu c).ready ((cells c).map Prod.fst) := by
  have ran : queueSystem.run bootQueues [.loadBalance 1, .resort, .loadBalance 2] = some _ := rfl
  have reached : queueSystem.ReachableWhen FreshAppend _ :=
    .of_run (.initial bootQueues_booted) ran ⟨trivial, trivial, trivial, trivial⟩
  obtain ⟨cells, linked, _⟩ := ready_queues_wellFormed reached
  exact ⟨_, ran, rfl, cells, fun c => (linked c).1⟩

end AempOS.Sched
