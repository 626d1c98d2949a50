import AempOS.Ipc.MsgQueue

/-! The two lists of one message queue and the messages they stand for. Together
the lists hold the nodes that were made for the queue; the use list is the
content of the queue. -/

set_option autoImplicit false

namespace AempOS.Ipc

open Lib SList

/-- A message as its receiver sees it. -/
structure Message where
  type : Int
  bytes : List UInt8
  deriving DecidableEq

/-- What a node stands for. -/
def messageAt (nodes : SHeap MsgData) (node : Nat) : Message :=
  ⟨(nodes node).value.type, (List.range (nodes node).value.size).map (nodes node).value.buffer⟩

/-- The first `size` bytes of a buffer. -/
def firstBytes (buffer : Nat → UInt8) (size : Nat) : List UInt8 := (List.range size).map buffer

/-- The two head pointers of a queue. -/
structure Heads where
  idle : Option Nat
  use : Option Nat

/-- The lists hold the nodes that were made, each once, and the use list is the
content. -/
structure Lists (nodes : SHeap MsgData) (heads : Heads) (made idle use : List Nat)
    (content : List Message) : Prop where
  idleChain : Chain nodes heads.idle idle
  useChain : Chain nodes heads.use use
  whole : (idle ++ use).Perm made
  stands : content = use.map (messageAt nodes)

variable {nodes other : SHeap MsgData} {heads : Heads} {made idle use : List Nat}
  {content : List Message}

namespace Lists

theorem mem_idle (held : Lists nodes heads made idle use content) {node : Nat} (member : node ∈ idle) :
    node ∈ made :=
  held.whole.mem_iff.mp (List.mem_append_left _ member)

theorem mem_use (held : Lists nodes heads made idle use content) {node : Nat} (member : node ∈ use) :
    node ∈ made :=
  held.whole.mem_iff.mp (List.mem_append_right _ member)

theorem distinct (held : Lists nodes heads made idle use content) (once : made.Nodup) :
    (idle ++ use).Nodup :=
  held.whole.nodup_iff.mpr once

theorem length (held : Lists nodes heads made idle use content) :
    idle.length + content.length = made.length := by
  have same := held.whole.length_eq
  simpa [held.stands] using same

/-- A queue reads nothing but its own nodes. -/
theorem congr (held : Lists nodes heads made idle use content)
    (same : ∀ node ∈ made, other node = nodes node) : Lists other heads made idle use content where
  idleChain := held.idleChain.congr fun node member => by rw [same node (held.mem_idle member)]
  useChain := held.useChain.congr fun node member => by rw [same node (held.mem_use member)]
  whole := held.whole
  stands := by
    rw [held.stands]
    refine List.map_congr_left fun node member => ?_
    simp only [messageAt, same node (held.mem_use member)]

end Lists

/-- What stays as it was outside some nodes. -/
def Untouched (before after : SHeap MsgData) (made : List Nat) : Prop :=
  ∀ node, node ∉ made → after node = before node

theorem messageAt_congr {node : Nat} (same : (other node).value = (nodes node).value) :
    messageAt other node = messageAt nodes node := by
  simp only [messageAt, same]

/-! ## Making and dropping the lists -/

theorem allocIdleQueue_chain (count : Nat) {fresh : Nat} (list : SList MsgData) {cells : List Nat}
    (chain : Chain list.heap list.head cells) (distinct : cells.Nodup) (old : ∀ node ∈ cells, node < fresh) :
    Chain (allocIdleQueue count list fresh (lastSlot .head cells)).heap
        (allocIdleQueue count list fresh (lastSlot .head cells)).head
        (cells ++ List.range' fresh count) ∧
      Untouched list.heap (allocIdleQueue count list fresh (lastSlot .head cells)).heap
        (cells ++ List.range' fresh count) := by
  induction count generalizing list fresh cells with
  | zero => simpa [allocIdleQueue, Untouched] using chain
  | succ count ih =>
      have outside : fresh ∉ cells := fun member => Nat.lt_irrefl _ (old fresh member)
      have longer : Chain (allocIdleNode list fresh (lastSlot .head cells)).heap
          (allocIdleNode list fresh (lastSlot .head cells)).head (cells ++ [fresh]) :=
        chain.extend _ distinct outside
      have distinctLonger : (cells ++ [fresh]).Nodup :=
        List.nodup_append.mpr ⟨distinct, by simp, fun a inCells b isFresh same =>
          outside (List.mem_singleton.mp isFresh ▸ same ▸ inCells)⟩
      have oldLonger : ∀ node ∈ cells ++ [fresh], node < fresh + 1 := by
        intro node member
        rcases List.mem_append.mp member with inCells | isFresh
        · exact Nat.lt_succ_of_lt (old node inCells)
        · exact Nat.lt_succ_of_le (Nat.le_of_eq (List.mem_singleton.mp isFresh))
      obtain ⟨made, untouched⟩ := ih _ longer distinctLonger oldLonger
      rw [lastSlot_concat, List.append_assoc, List.singleton_append] at made untouched
      rw [allocIdleQueue, List.range'_succ]
      refine ⟨made, fun node notMade => (untouched node notMade).trans ?_⟩
      simp only [List.mem_append, List.mem_cons, not_or] at notMade
      exact (Function.update_of_ne notMade.2.1 _ _).trans (store_heap_other _ _ (lastSlot_ne notMade.1))

theorem init_lists (nodes : SHeap MsgData) (fresh : Nat) :
    Lists (allocIdleQueue msgmnb ⟨nodes, none⟩ fresh .head).heap
        ⟨(allocIdleQueue msgmnb ⟨nodes, none⟩ fresh .head).head, none⟩ (List.range' fresh msgmnb)
        (List.range' fresh msgmnb) [] [] ∧
      Untouched nodes (allocIdleQueue msgmnb ⟨nodes, none⟩ fresh .head).heap
        (List.range' fresh msgmnb) := by
  let empty : SList MsgData := ⟨nodes, none⟩
  have chain : Chain empty.heap empty.head [] := rfl
  have old : ∀ node ∈ ([] : List Nat), node < fresh := by simp
  obtain ⟨made, untouched⟩ := allocIdleQueue_chain msgmnb empty chain .nil old
  exact ⟨⟨made, rfl, by simp, rfl⟩, untouched⟩

theorem freeQueue_ends {fuel : Nat} {list : SList MsgData} {cells : List Nat}
    (chain : Chain list.heap list.head cells) (distinct : cells.Nodup) (enough : cells.length < fuel) :
    ∃ emptied, freeQueue fuel list = some emptied ∧ Untouched list.heap emptied.heap cells := by
  induction cells generalizing fuel list with
  | nil =>
      obtain ⟨fuel, rfl⟩ : ∃ less, fuel = less + 1 := ⟨fuel - 1, by omega⟩
      exact ⟨list, by simp [freeQueue, popNode, popFront_nil list chain], fun _ _ => rfl⟩
  | cons node rest ih =>
      rw [List.length_cons] at enough
      obtain ⟨fuel, rfl⟩ : ∃ less, fuel = less + 1 := ⟨fuel - 1, by omega⟩
      obtain ⟨notRest, distinctRest⟩ := List.nodup_cons.mp distinct
      obtain ⟨tail, popped, tailChain, same⟩ := popFront_cons list chain notRest
      obtain ⟨emptied, freed, untouched⟩ := ih tailChain distinctRest (Nat.lt_of_succ_lt_succ enough)
      refine ⟨emptied, by simp [freeQueue, popNode, popped, freed], fun b outside => ?_⟩
      simp only [List.mem_cons, not_or] at outside
      rw [untouched b outside.2, same.others b (by simpa using outside.1)]

/-! ## Sending -/

theorem popNode_empty (held : Lists nodes heads made [] use content) :
    popNode ⟨nodes, heads.idle⟩ = none :=
  popFront_nil _ held.idleChain

theorem fillNode_message (nodes : SHeap MsgData) (node size : Nat) (type : Int) (buffer : Nat → UInt8) :
    messageAt (fillNode nodes node size type buffer) node =
      ⟨type, firstBytes buffer (min size msgmax)⟩ := by
  have amount : (if size > msgmax then msgmax else size) = min size msgmax := by
    split <;> omega
  simp only [messageAt, fillNode, Function.update_self, amount, firstBytes, Message.mk.injEq, true_and]
  refine List.map_congr_left fun i inside => if_pos ?_
  have := List.mem_range.mp inside
  omega

theorem send_lists {node fuel : Nat} (size : Nat) (type : Int) (buffer : Nat → UInt8)
    (held : Lists nodes heads made (node :: idle) use content) (once : made.Nodup)
    (enough : made.length < fuel) :
    ∃ rest longer, popNode ⟨nodes, heads.idle⟩ = some (node, rest) ∧
      pushUseNode ⟨fillNode rest.heap node size type buffer, heads.use⟩ fuel node = some longer ∧
      Lists longer.heap ⟨rest.head, longer.head⟩ made idle (use ++ [node])
        (content ++ [⟨type, firstBytes buffer (min size msgmax)⟩]) ∧
      Untouched nodes longer.heap made := by
  have distinct := held.distinct once
  have inMade : node ∈ made := held.mem_idle (by simp)
  obtain ⟨notRest, distinctRest⟩ := List.nodup_cons.mp distinct
  have notIdle : node ∉ idle := fun member => notRest (List.mem_append_left _ member)
  have notUse : node ∉ use := fun member => notRest (List.mem_append_right _ member)
  obtain ⟨distinctIdle, distinctUse, across⟩ := List.nodup_append.mp distinctRest
  obtain ⟨rest, popped, restChain, restSame⟩ := popFront_cons ⟨nodes, heads.idle⟩ held.idleChain notIdle
  -- the node is filled before it is linked, so the other nodes are as they were
  have filled : ∀ b, b ≠ node → fillNode rest.heap node size type buffer b = nodes b := by
    intro b apart
    rw [fillNode, Function.update_of_ne apart]
    exact restSame.others b (by simpa using apart)
  have useChain : Chain (fillNode rest.heap node size type buffer) heads.use use := by
    refine held.useChain.congr fun b member => ?_
    rw [filled b fun same => notUse (same ▸ member)]
  have lengths := held.length
  have contentLength : content.length = use.length := by simp [held.stands]
  have short : use.length < fuel := by omega
  obtain ⟨longer, pushed, longerChain, longerSame⟩ := pushRear_spec
    ⟨fillNode rest.heap node size type buffer, heads.use⟩ useChain distinctUse notUse short
  refine ⟨rest, longer, popped, pushed, ⟨?_, longerChain, ?_, ?_⟩, ?_⟩
  · refine restChain.congr fun b member => ?_
    have apart : b ≠ node := fun same => notIdle (same ▸ member)
    have outside : b ∉ node :: use := by
      simp only [List.mem_cons, not_or]
      exact ⟨apart, fun inUse => across b member b inUse rfl⟩
    rw [longerSame.others b outside]
    simp only [fillNode, Function.update_of_ne apart]
  · refine List.Perm.trans ?_ held.whole
    rw [← List.append_assoc]
    exact List.perm_append_comm
  · rw [List.map_append, held.stands]
    refine congr_arg₂ _ (List.map_congr_left fun b member => ?_) ?_
    · have apart : b ≠ node := fun same => notUse (same ▸ member)
      rw [messageAt_congr (longerSame.values b), messageAt_congr (congrArg SCell.value (filled b apart))]
    · rw [List.map_singleton, messageAt_congr (longerSame.values node), fillNode_message]
  · intro b outside
    have apart : b ≠ node := fun same => outside (same ▸ inMade)
    rw [longerSame.others b fun member => ?_]
    · exact filled b apart
    · rcases List.mem_cons.mp member with same | inUse
      · exact apart same
      · exact outside (held.mem_use inUse)

/-! ## Receiving -/

theorem receive_none {fuel : Nat} {type : Int} (held : Lists nodes heads made idle use content)
    (absent : ∀ message ∈ content, message.type ≠ type) (enough : made.length < fuel) :
    popUseNode ⟨nodes, heads.use⟩ fuel type = some none := by
  have lengths := held.length
  have contentLength : content.length = use.length := by simp [held.stands]
  refine removeFirst_none ⟨nodes, heads.use⟩ _ held.useChain (fun node member => ?_) (by omega)
  have inContent : messageAt nodes node ∈ content := held.stands ▸ List.mem_map_of_mem member
  simpa [messageAt] using absent _ inContent

theorem deliver_eq (nodes : SHeap MsgData) (node size : Nat) :
    (nodes node).value.deliver size = (messageAt nodes node).bytes.take size ∧
      (nodes node).value.messageSize size = min size (messageAt nodes node).bytes.length := by
  have amount : (nodes node).value.messageSize size = min size (nodes node).value.size := by
    unfold MsgData.messageSize
    split <;> omega
  refine ⟨?_, by simp [messageAt, amount]⟩
  rw [MsgData.deliver, amount, messageAt, ← List.map_take, List.take_range]

theorem pushNode_spec {head : Option Nat} {node : Nat} (chain : Chain nodes head idle)
    (fresh : node ∉ idle) :
    Chain (pushNode ⟨nodes, head⟩ node).heap (pushNode ⟨nodes, head⟩ node).head (node :: idle) ∧
      ∀ b, b ≠ node → (pushNode ⟨nodes, head⟩ node).heap b = nodes b := by
  have cleared : ∀ value, Chain (Function.update nodes node value) head idle := by
    intro value
    refine chain.congr fun b member => ?_
    have apart : b ≠ node := fun same => fresh (same ▸ member)
    rw [Function.update_of_ne apart]
  obtain ⟨longer, same⟩ := pushFront_spec ⟨_, head⟩ (cleared _) fresh
  refine ⟨longer, fun b apart => ?_⟩
  exact (same.others b (by simpa using apart)).trans (Function.update_of_ne apart _ _)

/-- A receive with a message of the type in the queue. -/
theorem receive_lists {fuel : Nat} (size : Nat) {left right : List Message} {message : Message}
    (held : Lists nodes heads made idle use (left ++ message :: right)) (once : made.Nodup)
    (first : ∀ earlier ∈ left, earlier.type ≠ message.type) (enough : made.length < fuel) :
    ∃ node rest, popUseNode ⟨nodes, heads.use⟩ fuel message.type = some (some (node, rest)) ∧
      (rest.heap node).value.deliver size = message.bytes.take size ∧
      (rest.heap node).value.messageSize size = min size message.bytes.length ∧
      (∃ before, Lists (pushNode ⟨rest.heap, heads.idle⟩ node).heap
        ⟨(pushNode ⟨rest.heap, heads.idle⟩ node).head, rest.head⟩ made (node :: idle) before
        (left ++ right)) ∧
      Untouched nodes (pushNode ⟨rest.heap, heads.idle⟩ node).heap made := by
  obtain ⟨leftNodes, others, isUse, isLeft, isOthers⟩ := List.map_eq_append_iff.mp held.stands.symm
  obtain ⟨node, rightNodes, rfl, isMessage, isRight⟩ := List.map_eq_cons_iff.mp isOthers
  subst isUse
  have distinct := held.distinct once
  obtain ⟨distinctIdle, distinctUse, across⟩ := List.nodup_append.mp distinct
  have inUse : node ∈ leftNodes ++ node :: rightNodes := by simp
  have notIdle : node ∉ idle := fun member => across node member node inUse rfl
  have notOthers := (List.nodup_cons.mp (List.perm_middle.nodup_iff.mp distinctUse)).1
  have skipped : ∀ b ∈ leftNodes, decide ((nodes b).value.type = message.type) = false := by
    intro b member
    have inLeft : messageAt nodes b ∈ left := isLeft ▸ List.mem_map_of_mem member
    simpa [messageAt] using first _ inLeft
  have passes : decide ((nodes node).value.type = message.type) = true := by
    rw [← isMessage]
    simp [messageAt]
  have lengths := held.whole.length_eq
  simp only [List.length_append, List.length_cons] at lengths
  have short : leftNodes.length < fuel := by omega
  obtain ⟨rest, popped, restChain, restSame⟩ :=
    removeFirst_some ⟨nodes, heads.use⟩ (fun data => data.type = message.type) held.useChain distinctUse skipped passes short
  have idleChain : Chain rest.heap heads.idle idle := by
    refine held.idleChain.congr fun b member => ?_
    rw [restSame.others b fun inside => across b member b inside rfl]
  obtain ⟨pushed, pushedSame⟩ := pushNode_spec idleChain notIdle
  have sameMessage : messageAt rest.heap node = message := by
    rw [messageAt_congr (restSame.values node), isMessage]
  obtain ⟨delivered, amount⟩ := deliver_eq rest.heap node size
  rw [sameMessage] at delivered amount
  refine ⟨node, rest, popped, delivered, amount, ⟨leftNodes ++ rightNodes, pushed, ?_, ?_, ?_⟩, ?_⟩
  · refine restChain.congr fun b member => ?_
    rw [pushedSame b fun isNode => notOthers (isNode ▸ member)]
  · refine List.Perm.trans ?_ held.whole
    rw [List.cons_append, ← List.append_assoc, ← List.append_assoc]
    exact List.perm_middle.symm
  · rw [List.map_append, ← isLeft, ← isRight]
    have same : ∀ b, b ≠ node → messageAt (pushNode ⟨rest.heap, heads.idle⟩ node).heap b = messageAt nodes b := by
      intro b apart
      rw [messageAt_congr (congrArg SCell.value (pushedSame b apart)), messageAt_congr (restSame.values b)]
    refine congr_arg₂ _ (List.map_congr_left fun b member => ?_) (List.map_congr_left fun b member => ?_)
    · exact (same b fun isNode => notOthers (isNode ▸ List.mem_append_left _ member)).symm
    · exact (same b fun isNode => notOthers (isNode ▸ List.mem_append_right _ member)).symm
  · intro b outside
    have apart : b ≠ node := fun isNode => outside (isNode ▸ held.mem_use inUse)
    rw [pushedSame b apart]
    exact restSame.others b fun inside => outside (held.mem_use inside)

end AempOS.Ipc
