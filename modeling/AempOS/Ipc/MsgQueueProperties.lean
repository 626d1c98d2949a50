import AempOS.Ipc.MsgQueueCells
import Mathlib.Data.List.Perm.Subperm

/-! Message queues as lists of messages. Every queue stands for a list; each
section of the calls does to the lists what the abstract step says, whatever the
order in which the processes run. The history of a queue then gives the order of
the messages. -/

set_option autoImplicit false

namespace AempOS.Ipc

open Lib

/-! ## The abstract queues -/

/-- The messages of each id, if it is allocated. -/
abbrev Contents := Nat → Option (List Message)

def InRange (msqid : Int) : Prop := 0 ≤ msqid ∧ msqid < msgmni

/-- What a call that has nothing to do ends with. -/
def giveUp (flag : Int) : Outcome := if flag = ipcNowait then fault else .blocked

/-- One call on the lists. -/
inductive CallStep (contents : Contents) (buffer : Nat → UInt8) : Call → Outcome → Contents → Prop where
  | pushed {msqid : Int} {size : Nat} {type flag : Int} {content : List Message} :
      InRange msqid → contents msqid.toNat = some content → content.length < msgmnb →
      CallStep contents buffer (.push msqid size type flag) (.returned 0 [])
        (Function.update contents msqid.toNat
          (some (content ++ [⟨type, firstBytes buffer (min size msgmax)⟩])))
  | pushFull {msqid : Int} {size : Nat} {type flag : Int} {content : List Message} :
      InRange msqid → contents msqid.toNat = some content → content.length = msgmnb →
      CallStep contents buffer (.push msqid size type flag) (giveUp flag) contents
  | popped {msqid : Int} {size : Nat} {flag : Int} {left right : List Message} {message : Message} :
      InRange msqid → contents msqid.toNat = some (left ++ message :: right) →
      (∀ earlier ∈ left, earlier.type ≠ message.type) →
      CallStep contents buffer (.pop msqid size message.type flag)
        (.returned (min size message.bytes.length : Nat) (message.bytes.take size))
        (Function.update contents msqid.toNat (some (left ++ right)))
  | popNone {msqid : Int} {size : Nat} {type flag : Int} {content : List Message} :
      InRange msqid → contents msqid.toNat = some content →
      (∀ message ∈ content, message.type ≠ type) →
      CallStep contents buffer (.pop msqid size type flag) (giveUp flag) contents
  | pushUnknown {msqid : Int} {size : Nat} {type flag : Int} :
      ¬InRange msqid ∨ contents msqid.toNat = none →
      CallStep contents buffer (.push msqid size type flag) fault contents
  | popUnknown {msqid : Int} {size : Nat} {type flag : Int} :
      ¬InRange msqid ∨ contents msqid.toNat = none →
      CallStep contents buffer (.pop msqid size type flag) fault contents

/-- One step of the system on the lists. `keys` has the keys of the ids, `calls` the
calls that wait, and `freed` says of a call that waits whether its queue was freed
while it did. -/
inductive QueueStep (keys : Nat → Int) (calls : Nat → Option Call) (freed : Nat → Prop)
    (contents : Contents) : MsgAction → Outcome → Contents → Prop where
  | known {pid id : Nat} {content : List Message} :
      id < msgmni → contents id = some content →
      QueueStep keys calls freed contents (.alloc pid (keys id)) (.returned id []) contents
  | created {pid id : Nat} {key : Int} :
      (∀ other < msgmni, contents other ≠ none → keys other ≠ key) →
      id < msgmni → contents id = none →
      QueueStep keys calls freed contents (.alloc pid key) (.returned id [])
        (Function.update contents id (some []))
  | noId {pid : Nat} {key : Int} :
      (∀ other < msgmni, contents other ≠ none ∧ keys other ≠ key) →
      QueueStep keys calls freed contents (.alloc pid key) fault contents
  | freed {pid : Nat} {msqid : Int} :
      InRange msqid →
      QueueStep keys calls freed contents (.free pid msqid) (.returned 0 [])
        (Function.update contents msqid.toNat none)
  | freeUnknown {pid : Nat} {msqid : Int} :
      ¬InRange msqid → QueueStep keys calls freed contents (.free pid msqid) fault contents
  | called {pid : Nat} {call : Call} {buffer : Nat → UInt8} {outcome : Outcome} {after : Contents} :
      CallStep contents buffer call outcome after →
      QueueStep keys calls freed contents (.call pid call buffer) outcome after
  | resumed {pid : Nat} {call : Call} {buffer : Nat → UInt8} {outcome : Outcome} {after : Contents} :
      calls pid = some call → ¬freed pid → CallStep contents buffer call outcome after →
      QueueStep keys calls freed contents (.resume pid buffer) outcome after
  | dropped {pid : Nat} {call : Call} {buffer : Nat → UInt8} :
      calls pid = some call → freed pid →
      QueueStep keys calls freed contents (.resume pid buffer) fault contents

/-! ## The lists behind the pointers -/

def MsgState.heads (state : MsgState) (id : Nat) : Option Heads :=
  (state.queues id).map fun queue => ⟨queue.idle, queue.use⟩

/-- Nothing changes but processes, their calls and the wait queues. -/
structure SameLists (before after : MsgState) : Prop where
  nodes : after.nodes = before.nodes
  fresh : after.fresh = before.fresh
  allocs : after.allocs = before.allocs
  heads : after.heads = before.heads

theorem SameLists.refl (state : MsgState) : SameLists state state := ⟨rfl, rfl, rfl, rfl⟩

/-- The queues of a state stand for the given lists. `made` are the nodes that
`alloc_idle_queue` made for each queue. -/
structure Matches (state : MsgState) (made : Nat → List Nat) (contents : Contents) : Prop where
  unused : ∀ id, state.allocs id = -1 → contents id = none ∧ state.heads id = none
  unopened : ∀ id, state.allocs id ≠ -1 → state.heads id = none → contents id = some []
  lists : ∀ id heads, state.heads id = some heads → ∃ idle use content,
    contents id = some content ∧ Lists state.nodes heads (made id) idle use content
  complete : ∀ id, state.heads id ≠ none →
    (made id).Nodup ∧ (made id).length = msgmnb ∧ ∀ node ∈ made id, node < state.fresh
  apart : ∀ id other, id ≠ other → state.heads id ≠ none → state.heads other ≠ none →
    (made id).Disjoint (made other)

variable {state next : MsgState} {made : Nat → List Nat} {contents : Contents}

namespace Matches

theorem same (held : Matches state made contents) (same : SameLists state next) :
    Matches next made contents := by
  obtain ⟨nodes, fresh, allocs, heads⟩ := same
  constructor
  · rw [allocs, heads]
    exact held.unused
  · rw [allocs, heads]
    exact held.unopened
  · rw [heads, nodes]
    exact held.lists
  · rw [heads, fresh]
    exact held.complete
  · rw [heads]
    exact held.apart

/-- The nodes of a queue are fewer than all nodes. -/
theorem enough (held : Matches state made contents) {id : Nat} (queue : state.heads id ≠ none) :
    (made id).length < state.fresh + 1 := by
  obtain ⟨once, _, old⟩ := held.complete id queue
  have inside : made id ⊆ List.range state.fresh := fun node member =>
    List.mem_range.mpr (old node member)
  have := (once.subperm inside).length_le
  rw [List.length_range] at this
  omega

/-- The lists of one queue change, within its own nodes. -/
theorem replace (held : Matches state made contents) {id : Nat} {before after : Heads}
    {idle use : List Nat} {content : List Message} (queue : state.heads id = some before)
    (fresh : next.fresh = state.fresh) (allocs : next.allocs = state.allocs)
    (heads : next.heads = Function.update state.heads id (some after))
    (untouched : Untouched state.nodes next.nodes (made id))
    (lists : Lists next.nodes after (made id) idle use content) :
    Matches next made (Function.update contents id (some content)) := by
  have opened : ∀ other, next.heads other ≠ none ↔ state.heads other ≠ none := by
    intro other
    rw [heads]
    by_cases same : other = id
    · simp [same, queue]
    · simp [Function.update_of_ne same]
  have notNone : state.heads id ≠ none := by simp [queue]
  refine ⟨fun other unused => ?_, fun other used absent => ?_, fun other pair found => ?_,
    fun other some_queue => ?_, fun one other differ first second => ?_⟩
  · rw [allocs] at unused
    have apart : other ≠ id := by
      rintro rfl
      exact notNone (held.unused other unused).2
    rw [heads, Function.update_of_ne apart, Function.update_of_ne apart]
    exact held.unused other unused
  · rw [allocs] at used
    have absentBefore : state.heads other = none := by
      by_contra present
      exact (opened other).mpr present absent
    have apart : other ≠ id := by
      rintro rfl
      exact notNone absentBefore
    rw [Function.update_of_ne apart]
    exact held.unopened other used absentBefore
  · rw [heads] at found
    by_cases same : other = id
    · subst same
      rw [Function.update_self] at found
      cases found
      exact ⟨idle, use, content, Function.update_self .., lists⟩
    · rw [Function.update_of_ne same] at found
      obtain ⟨otherIdle, otherUse, otherContent, stands, otherLists⟩ := held.lists other pair found
      refine ⟨otherIdle, otherUse, otherContent, (Function.update_of_ne same _ _).trans stands, ?_⟩
      refine otherLists.congr fun node member => untouched node fun inside => ?_
      exact held.apart other id same (by simp [found]) notNone member inside
  · rw [fresh]
    exact held.complete other ((opened other).mp some_queue)
  · exact held.apart one other differ ((opened one).mp first) ((opened other).mp second)

end Matches

theorem Matches.insert (held : Matches state made contents) {id : Nat} {added : Heads} {idle use : List Nat}
    (used : state.allocs id ≠ -1) (absent : state.heads id = none)
    (fresh : next.fresh = state.fresh + msgmnb) (allocs : next.allocs = state.allocs)
    (heads : next.heads = Function.update state.heads id (some added))
    (untouched : Untouched state.nodes next.nodes (List.range' state.fresh msgmnb))
    (lists : Lists next.nodes added (List.range' state.fresh msgmnb) idle use []) :
    Matches next (Function.update made id (List.range' state.fresh msgmnb)) contents := by
  have content := held.unopened id used absent
  have newNode : ∀ {node}, node ∈ List.range' state.fresh msgmnb →
      state.fresh ≤ node ∧ node < state.fresh + msgmnb := fun member => List.mem_range'_1.mp member
  have cases_of : ∀ {other}, next.heads other ≠ none → other = id ∨ state.heads other ≠ none := by
    intro other some_queue
    by_cases same : other = id
    · exact .inl same
    · rw [heads, Function.update_of_ne same] at some_queue
      exact .inr some_queue
  have notId : ∀ {other}, state.heads other ≠ none → other ≠ id := by
    rintro other some_queue rfl
    exact some_queue absent
  have parted : ∀ {other node}, state.heads other ≠ none → node ∈ made other →
      node ∉ List.range' state.fresh msgmnb := by
    intro other node some_queue old new
    exact Nat.not_lt.mpr (newNode new).1 ((held.complete other some_queue).2.2 node old)
  refine ⟨fun other unused => ?_, fun other otherUsed none_queue => ?_, fun other pair found => ?_,
    fun other some_queue => ?_, fun one other differ first second => ?_⟩
  · rw [allocs] at unused
    have apart : other ≠ id := by
      rintro rfl
      exact used unused
    rw [heads, Function.update_of_ne apart]
    exact held.unused other unused
  · rw [allocs] at otherUsed
    by_cases same : other = id
    · exact same ▸ content
    · rw [heads, Function.update_of_ne same] at none_queue
      exact held.unopened other otherUsed none_queue
  · by_cases same : other = id
    · subst same
      rw [heads, Function.update_self] at found
      cases found
      rw [Function.update_self]
      exact ⟨idle, use, [], content, lists⟩
    · rw [heads, Function.update_of_ne same] at found
      obtain ⟨otherIdle, otherUse, otherContent, stands, otherLists⟩ := held.lists other pair found
      rw [Function.update_of_ne same]
      refine ⟨otherIdle, otherUse, otherContent, stands, ?_⟩
      exact otherLists.congr fun node member => untouched node (parted (by simp [found]) member)
  · rw [fresh]
    rcases cases_of some_queue with rfl | before
    · rw [Function.update_self]
      exact ⟨List.nodup_range', List.length_range', fun node member => (newNode member).2⟩
    · rw [Function.update_of_ne (notId before)]
      obtain ⟨once, length, old⟩ := held.complete other before
      exact ⟨once, length, fun node member => Nat.lt_add_right _ (old node member)⟩
  · rcases cases_of first with rfl | beforeOne
    · rcases cases_of second with rfl | beforeOther
      · exact absurd rfl differ
      · rw [Function.update_self, Function.update_of_ne (notId beforeOther)]
        exact fun node new old => parted beforeOther old new
    · rcases cases_of second with rfl | beforeOther
      · rw [Function.update_self, Function.update_of_ne (notId beforeOne)]
        exact fun node old new => parted beforeOne old new
      · rw [Function.update_of_ne (notId beforeOne), Function.update_of_ne (notId beforeOther)]
        exact held.apart one other differ beforeOne beforeOther

/-! ## The sections of the calls -/

/-- The nodes that a step made for a queue that was not open before. -/
def recordMade (before after : MsgState) (made : Nat → List Nat) (id : Nat) : List Nat :=
  if (before.queues id).isNone ∧ (after.queues id).isSome then
    List.range' before.fresh (after.fresh - before.fresh)
  else made id

/-- No queue is opened or closed, and no node is made. -/
structure Stays (before after : MsgState) : Prop where
  fresh : after.fresh = before.fresh
  queues : ∀ id, (after.queues id).isSome = (before.queues id).isSome

theorem Stays.trans {later : MsgState} (first : Stays state next) (second : Stays next later) :
    Stays state later :=
  ⟨second.fresh.trans first.fresh, fun id => (second.queues id).trans (first.queues id)⟩

theorem recordMade_stays {opened : MsgState} (stays : Stays opened next) (made : Nat → List Nat) :
    recordMade state next made = recordMade state opened made := by
  funext id
  simp only [recordMade, stays.fresh, stays.queues id]

theorem Matches.record (held : Matches next made contents)
    (before : ∀ id, (next.queues id).isSome → (state.queues id).isSome) :
    Matches next (recordMade state next made) contents := by
  have same : recordMade state next made = made := by
    funext id
    refine if_neg fun opened => ?_
    have openBefore := before id opened.2
    rw [Option.isNone_iff_eq_none] at opened
    simp [opened.1] at openBefore
  exact same.symm ▸ held

theorem recordMade_opened {id : Nat} {queue : MsgQueue} (absent : state.queues id = none)
    (fresh : next.fresh = state.fresh + msgmnb)
    (queues : next.queues = Function.update state.queues id (some queue)) :
    recordMade state next made = Function.update made id (List.range' state.fresh msgmnb) := by
  funext other
  by_cases same : other = id
  · simp [recordMade, same, absent, fresh, queues]
  · rw [recordMade, queues, Function.update_of_ne same, Function.update_of_ne same]
    cases state.queues other with
    | none => rfl
    | some queue => rfl

/-- `init_msg_queue` makes the nodes of an allocated queue. -/
theorem Matches.initialised (held : Matches state made contents) {id : Nat} (used : state.allocs id ≠ -1)
    (found : state.queues id = none) :
    Matches { state with
        nodes := (allocIdleQueue msgmnb ⟨state.nodes, none⟩ state.fresh .head).heap
        fresh := state.fresh + msgmnb
        queues := Function.update state.queues id (some {
          idle := (allocIdleQueue msgmnb ⟨state.nodes, none⟩ state.fresh .head).head
          use := none, wIdle := [], wUse := [] }) }
      (Function.update made id (List.range' state.fresh msgmnb)) contents := by
  obtain ⟨lists, untouched⟩ := init_lists state.nodes state.fresh
  have absent : state.heads id = none := by simp [MsgState.heads, found]
  refine held.insert used absent rfl rfl ?_ untouched lists
  funext other
  by_cases same : other = id
  · simp [MsgState.heads, same]
  · simp [MsgState.heads, Function.update_of_ne same]

theorem openQueue_cases (held : Matches state made contents) (msqid : Int) :
    (state.openQueue msqid = none ∧ (¬InRange msqid ∨ contents msqid.toNat = none)) ∨
      ∃ opened queue, state.openQueue msqid = some opened ∧ InRange msqid ∧
        opened.queues msqid.toNat = some queue ∧
        Matches opened (recordMade state opened made) contents := by
  by_cases out : msqid < 0 ∨ msqid ≥ msgmni
  · refine .inl ⟨by rw [MsgState.openQueue, if_pos out], .inl fun range => ?_⟩
    unfold InRange at range
    omega
  have range : InRange msqid := by
    unfold InRange
    omega
  by_cases unused : state.allocs msqid.toNat = -1
  · refine .inl ⟨by rw [MsgState.openQueue, if_neg out, if_pos unused], .inr ?_⟩
    exact (held.unused msqid.toNat unused).1
  refine .inr ?_
  cases found : state.queues msqid.toNat with
  | some queue =>
      exact ⟨state, queue, by simp [MsgState.openQueue, out, unused, found], range, found,
        held.record fun _ isOpen => isOpen⟩
  | none =>
      refine ⟨{ state with
        nodes := (allocIdleQueue msgmnb ⟨state.nodes, none⟩ state.fresh .head).heap
        fresh := state.fresh + msgmnb
        queues := Function.update state.queues msqid.toNat (some {
          idle := (allocIdleQueue msgmnb ⟨state.nodes, none⟩ state.fresh .head).head
          use := none, wIdle := [], wUse := [] }) }, _, ?_, range, Function.update_self .., ?_⟩
      · simp [MsgState.openQueue, MsgState.initMsgQueue, out, unused, found]
      · rw [recordMade_opened found rfl rfl]
        exact held.initialised unused found

theorem SameLists.stays (same : SameLists state next) : Stays state next := by
  refine ⟨same.fresh, fun id => ?_⟩
  have heads := congrArg Option.isSome (congrFun same.heads id)
  simpa [MsgState.heads] using heads

theorem setQueue_same {id : Nat} {queue waiting : MsgQueue} (found : state.queues id = some queue)
    (idle : waiting.idle = queue.idle) (use : waiting.use = queue.use) :
    SameLists state (state.setQueue id (some waiting)) := by
  refine ⟨rfl, rfl, rfl, funext fun other => ?_⟩
  by_cases same : other = id
  · simp [MsgState.heads, MsgState.setQueue, same, found, idle, use]
  · simp [MsgState.heads, MsgState.setQueue, Function.update_of_ne same]

theorem SameLists.setTask (same : SameLists state next) (pid : Nat) (task : Task) :
    SameLists state (next.setTask pid task) :=
  ⟨same.nodes, same.fresh, same.allocs, same.heads⟩

theorem SameLists.setCall (same : SameLists state next) (pid : Nat) (call : Option Call) :
    SameLists state (next.setCall pid call) :=
  ⟨same.nodes, same.fresh, same.allocs, same.heads⟩

theorem SameLists.freeProcessQueue (same : SameLists state next) (pids : List Nat) :
    SameLists state (next.freeProcessQueue pids) := by
  induction pids generalizing next with
  | nil => exact same
  | cons pid rest ih => exact ih (same.setTask pid _)

theorem wakeUpUseProcess_same {id : Nat} {queue : MsgQueue} (type : Int)
    (found : state.queues id = some queue) :
    SameLists state (state.wakeUpUseProcess id queue type) := by
  unfold MsgState.wakeUpUseProcess
  split
  next => exact .refl state
  next =>
      apply SameLists.setTask
      exact setQueue_same found rfl rfl

theorem wakeUpIdleProcess_same {id : Nat} {queue : MsgQueue} (found : state.queues id = some queue) :
    SameLists state (state.wakeUpIdleProcess id queue) := by
  unfold MsgState.wakeUpIdleProcess
  split
  next => exact .refl state
  next =>
      apply SameLists.setTask
      exact setQueue_same found rfl rfl

theorem wait_same {id : Nat} {queue waiting : MsgQueue} (pid : Nat) (call : Call)
    (found : state.queues id = some queue) (idle : waiting.idle = queue.idle)
    (use : waiting.use = queue.use) : SameLists state (state.wait pid call id waiting) :=
  ((setQueue_same found idle use).setTask _ _).setCall _ _

theorem storeQueue_matches (stored : MsgQueue) (held : Matches state made contents) {id : Nat} {queue : MsgQueue}
    {nodes : SHeap MsgData} {idle use : List Nat} {content : List Message}
    (found : state.queues id = some queue)
    (lists : Lists nodes ⟨stored.idle, stored.use⟩ (made id) idle use content)
    (untouched : Untouched state.nodes nodes (made id)) :
    Matches (state.storeQueue id stored nodes) made (Function.update contents id (some content)) ∧
      Stays state (state.storeQueue id stored nodes) := by
  have heads : state.heads id = some ⟨queue.idle, queue.use⟩ := by simp [MsgState.heads, found]
  refine ⟨held.replace heads rfl rfl (funext fun other => ?_) untouched lists, rfl, fun other => ?_⟩
  all_goals
    by_cases same : other = id
    · simp [MsgState.heads, MsgState.storeQueue, same, found]
    · simp [MsgState.heads, MsgState.storeQueue, Function.update_of_ne same]

theorem storeQueue_found (state : MsgState) (id : Nat) (queue : MsgQueue) (nodes : SHeap MsgData) :
    (state.storeQueue id queue nodes).queues id = some queue :=
  Function.update_self ..

/-- A send on an open queue finds it full, or takes a node. -/
theorem pushOpen_cases (held : Matches state made contents) {msqid : Int} {queue : MsgQueue}
    (found : state.queues msqid.toNat = some queue) (pid size : Nat) (type flag : Int)
    (buffer : Nat → UInt8) :
    (∃ content, contents msqid.toNat = some content ∧ content.length = msgmnb ∧
        state.pushOpen pid msqid size type flag buffer =
          some (if flag = ipcNowait then (state, fault)
            else (state.wait pid (.push msqid size type flag) msqid.toNat
              { queue with wIdle := queue.wIdle ++ [pid] }, .blocked))) ∨
      ∃ content stored nodes, contents msqid.toNat = some content ∧ content.length < msgmnb ∧
        stored.wIdle = queue.wIdle ∧ stored.wUse = queue.wUse ∧
        state.pushOpen pid msqid size type flag buffer =
          some ((state.storeQueue msqid.toNat stored nodes).wakeUpUseProcess msqid.toNat stored type,
            .returned 0 []) ∧
        Matches (state.storeQueue msqid.toNat stored nodes) made (Function.update contents msqid.toNat
          (some (content ++ [⟨type, firstBytes buffer (min size msgmax)⟩]))) ∧
        Stays state (state.storeQueue msqid.toNat stored nodes) := by
  have heads : state.heads msqid.toNat = some ⟨queue.idle, queue.use⟩ := by simp [MsgState.heads, found]
  have notNone : state.heads msqid.toNat ≠ none := by simp [heads]
  obtain ⟨idle, use, content, stands, lists⟩ := held.lists _ _ heads
  obtain ⟨once, length, _⟩ := held.complete _ notNone
  have lengths := lists.length
  cases idle with
  | nil =>
      have empty := popNode_empty lists
      refine .inl ⟨content, stands, by simpa [length] using lengths, ?_⟩
      by_cases nowait : flag = ipcNowait
      · simp [MsgState.pushOpen, found, empty, nowait]
      · simp [MsgState.pushOpen, found, empty, nowait]
  | cons node idle =>
      obtain ⟨rest, longer, popped, pushed, newLists, untouched⟩ :=
        send_lists size type buffer lists once (held.enough notNone)
      have room : content.length < msgmnb := by
        rw [List.length_cons, length] at lengths
        omega
      let stored : MsgQueue := { queue with idle := rest.head, use := longer.head }
      obtain ⟨storedHeld, storedStays⟩ := storeQueue_matches stored held found newLists untouched
      refine .inr ⟨content, stored, longer.heap, stands, room, rfl, rfl, ?_, storedHeld, storedStays⟩
      simp only [MsgState.pushOpen, found, Option.bind_eq_bind, Option.bind_some, popped, pushed]
      rfl

theorem pushOpen_spec (held : Matches state made contents) {msqid : Int} {queue : MsgQueue}
    (range : InRange msqid) (found : state.queues msqid.toNat = some queue) (pid size : Nat)
    (type flag : Int) (buffer : Nat → UInt8) :
    ∃ next outcome after, state.pushOpen pid msqid size type flag buffer = some (next, outcome) ∧
      CallStep contents buffer (.push msqid size type flag) outcome after ∧
      Matches next made after ∧ Stays state next := by
  obtain ⟨content, stands, full, done⟩ | ⟨content, stored, nodes, stands, room, _, _, done, storedHeld, stays⟩ :=
    pushOpen_cases held found pid size type flag buffer
  · have step : CallStep contents buffer (.push msqid size type flag) (giveUp flag) contents :=
      .pushFull range stands full
    by_cases nowait : flag = ipcNowait
    · refine ⟨state, fault, contents, by rw [done, if_pos nowait], ?_, held, rfl, fun _ => rfl⟩
      simpa [giveUp, nowait] using step
    · have same : SameLists state (state.wait pid (.push msqid size type flag) msqid.toNat
          { queue with wIdle := queue.wIdle ++ [pid] }) := wait_same _ _ found rfl rfl
      refine ⟨_, .blocked, contents, by rw [done, if_neg nowait], ?_, held.same same, same.stays⟩
      simpa [giveUp, nowait] using step
  · have same := wakeUpUseProcess_same type (storeQueue_found state msqid.toNat stored nodes)
    exact ⟨_, .returned 0 [], _, done, .pushed range stands room, storedHeld.same same, stays.trans same.stays⟩

theorem first_of_type (content : List Message) (type : Int) :
    (∀ message ∈ content, message.type ≠ type) ∨
      ∃ left message right, content = left ++ message :: right ∧ message.type = type ∧
        ∀ earlier ∈ left, earlier.type ≠ message.type := by
  cases search : content.find? fun message => decide (message.type = type) with
  | none => exact .inl fun message member => by simpa using List.find?_eq_none.mp search message member
  | some message =>
      obtain ⟨isType, left, right, whole, first⟩ := List.find?_eq_some_iff_append.mp search
      refine .inr ⟨left, message, right, whole, by simpa using isType, fun earlier member => ?_⟩
      have differs := first earlier member
      simp only [decide_eq_true_eq] at isType
      simpa [isType] using differs

/-- A receive on an open queue finds no message of the type, or takes the first. -/
theorem popOpen_cases (held : Matches state made contents) {msqid : Int} {queue : MsgQueue}
    (found : state.queues msqid.toNat = some queue) (pid size : Nat) (type flag : Int) :
    (∃ content, contents msqid.toNat = some content ∧ (∀ message ∈ content, message.type ≠ type) ∧
        state.popOpen pid msqid size type flag =
          some (if flag = ipcNowait then (state, fault)
            else (state.wait pid (.pop msqid size type flag) msqid.toNat
              { queue with wUse := queue.wUse ++ [⟨type, pid⟩] }, .blocked))) ∨
      ∃ left message right stored nodes, contents msqid.toNat = some (left ++ message :: right) ∧
        message.type = type ∧ (∀ earlier ∈ left, earlier.type ≠ message.type) ∧
        stored.wIdle = queue.wIdle ∧ stored.wUse = queue.wUse ∧
        state.popOpen pid msqid size type flag =
          some ((state.storeQueue msqid.toNat stored nodes).wakeUpIdleProcess msqid.toNat stored,
            .returned (min size message.bytes.length : Nat) (message.bytes.take size)) ∧
        Matches (state.storeQueue msqid.toNat stored nodes) made
          (Function.update contents msqid.toNat (some (left ++ right))) ∧
        Stays state (state.storeQueue msqid.toNat stored nodes) := by
  have heads : state.heads msqid.toNat = some ⟨queue.idle, queue.use⟩ := by simp [MsgState.heads, found]
  have notNone : state.heads msqid.toNat ≠ none := by simp [heads]
  obtain ⟨idle, use, content, stands, lists⟩ := held.lists _ _ heads
  obtain ⟨once, _, _⟩ := held.complete _ notNone
  have enough := held.enough notNone
  obtain absent | ⟨left, message, right, rfl, rfl, first⟩ := first_of_type content type
  · have nothing := receive_none lists absent enough
    refine .inl ⟨content, stands, absent, ?_⟩
    by_cases nowait : flag = ipcNowait
    · simp [MsgState.popOpen, found, nothing, nowait]
    · simp [MsgState.popOpen, found, nothing, nowait]
  · obtain ⟨node, rest, popped, delivered, amount, ⟨before, newLists⟩, untouched⟩ :=
      receive_lists size lists once first enough
    let stored : MsgQueue := { queue with
      idle := (pushNode ⟨rest.heap, queue.idle⟩ node).head, use := rest.head }
    obtain ⟨storedHeld, storedStays⟩ := storeQueue_matches stored held found newLists untouched
    refine .inr ⟨left, message, right, stored, (pushNode ⟨rest.heap, queue.idle⟩ node).heap, stands, rfl,
      first, rfl, rfl, ?_, storedHeld, storedStays⟩
    simp only [MsgState.popOpen, found, Option.bind_eq_bind, Option.bind_some, popped, delivered, amount]
    rfl

theorem popOpen_spec (held : Matches state made contents) {msqid : Int} {queue : MsgQueue}
    (range : InRange msqid) (found : state.queues msqid.toNat = some queue) (pid size : Nat)
    (type flag : Int) (buffer : Nat → UInt8) :
    ∃ next outcome after, state.popOpen pid msqid size type flag = some (next, outcome) ∧
      CallStep contents buffer (.pop msqid size type flag) outcome after ∧
      Matches next made after ∧ Stays state next := by
  obtain ⟨content, stands, absent, done⟩ |
      ⟨left, message, right, stored, nodes, stands, rfl, first, _, _, done, storedHeld, stays⟩ :=
    popOpen_cases held found pid size type flag
  · have step : CallStep contents buffer (.pop msqid size type flag) (giveUp flag) contents :=
      .popNone range stands absent
    by_cases nowait : flag = ipcNowait
    · refine ⟨state, fault, contents, by rw [done, if_pos nowait], ?_, held, rfl, fun _ => rfl⟩
      simpa [giveUp, nowait] using step
    · have same : SameLists state (state.wait pid (.pop msqid size type flag) msqid.toNat
          { queue with wUse := queue.wUse ++ [⟨type, pid⟩] }) := wait_same _ _ found rfl rfl
      refine ⟨_, .blocked, contents, by rw [done, if_neg nowait], ?_, held.same same, same.stays⟩
      simpa [giveUp, nowait] using step
  · have same := wakeUpIdleProcess_same (storeQueue_found state msqid.toNat stored nodes)
    exact ⟨_, _, _, done, .popped range stands first, storedHeld.same same, stays.trans same.stays⟩

theorem runSection_spec (held : Matches state made contents) (pid : Nat) (buffer : Nat → UInt8) (call : Call) :
    ∃ next outcome after, state.runSection pid buffer call = some (next, outcome) ∧
      CallStep contents buffer call outcome after ∧
      Matches next (recordMade state next made) after := by
  cases call with
  | push msqid size type flag =>
      obtain ⟨closed, unknown⟩ | ⟨opened, queue, isOpen, range, found, openHeld⟩ :=
        openQueue_cases held msqid
      · exact ⟨state, fault, contents, by simp [MsgState.runSection, closed], .pushUnknown unknown,
          held.record fun _ isOpen => isOpen⟩
      · obtain ⟨next, outcome, after, done, step, nextHeld, stays⟩ :=
          pushOpen_spec openHeld range found pid size type flag buffer
        refine ⟨next, outcome, after, by simp [MsgState.runSection, isOpen, done], step, ?_⟩
        rw [recordMade_stays stays]
        exact nextHeld
  | pop msqid size type flag =>
      obtain ⟨closed, unknown⟩ | ⟨opened, queue, isOpen, range, found, openHeld⟩ :=
        openQueue_cases held msqid
      · exact ⟨state, fault, contents, by simp [MsgState.runSection, closed], .popUnknown unknown,
          held.record fun _ isOpen => isOpen⟩
      · obtain ⟨next, outcome, after, done, step, nextHeld, stays⟩ :=
          popOpen_spec openHeld range found pid size type flag buffer
        refine ⟨next, outcome, after, by simp [MsgState.runSection, isOpen, done], step, ?_⟩
        rw [recordMade_stays stays]
        exact nextHeld

/-! ## Ids -/

/-- The slot is allocated to the key. -/
def MsgState.Holds (state : MsgState) (id : Nat) (key : Int) : Prop :=
  id < msgmni ∧ state.allocs id ≠ -1 ∧ state.keys id = key

/-- `f` and `a` in the loop of `alloc_msg_queue`, after the first ids. -/
structure ScannedIds (state : MsgState) (key : Int) (count : Nat) (found : Int × Int) : Prop where
  keyed : (found.1 = -1 ∧ ∀ id < count, state.allocs id ≠ -1 → state.keys id ≠ key) ∨
    ∃ id : Nat, id < count ∧ state.allocs id ≠ -1 ∧ state.keys id = key ∧ found.1 = id
  free : (found.2 = -1 ∧ ∀ id < count, state.allocs id ≠ -1) ∨
    ∃ id : Nat, id < count ∧ state.allocs id = -1 ∧ found.2 = id

theorem scanId_scanned (state : MsgState) (key : Int) (count : Nat) :
    ScannedIds state key count ((List.range count).foldl (state.scanId key) (-1, -1)) := by
  induction count with
  | zero =>
      exact ⟨.inl ⟨rfl, fun _ below => absurd below (Nat.not_lt_zero _)⟩,
        .inl ⟨rfl, fun _ below => absurd below (Nat.not_lt_zero _)⟩⟩
  | succ count ih =>
      rw [List.range_succ, List.foldl_append, List.foldl_cons, List.foldl_nil]
      generalize (List.range count).foldl (state.scanId key) (-1, -1) = found at ih
      constructor
      · simp only [MsgState.scanId]
        split
        next hit => exact .inr ⟨count, Nat.lt_succ_self count, hit.1, hit.2, rfl⟩
        next missed =>
            rcases ih.keyed with ⟨none, others⟩ | ⟨id, below, used, same, isId⟩
            · refine .inl ⟨none, fun id below used same => ?_⟩
              rcases Nat.lt_succ_iff_lt_or_eq.mp below with earlier | rfl
              · exact others id earlier used same
              · exact missed ⟨used, same⟩
            · exact .inr ⟨id, Nat.lt_succ_of_lt below, used, same, isId⟩
      · simp only [MsgState.scanId]
        split
        next hit => exact .inr ⟨count, Nat.lt_succ_self count, hit, rfl⟩
        next missed =>
            rcases ih.free with ⟨none, others⟩ | ⟨id, below, unused, isId⟩
            · refine .inl ⟨none, fun id below => ?_⟩
              rcases Nat.lt_succ_iff_lt_or_eq.mp below with earlier | rfl
              · exact others id earlier
              · exact missed
            · exact .inr ⟨id, Nat.lt_succ_of_lt below, unused, isId⟩

/-- `alloc_msg_queue` finds the id of the key, allocates a free one, or fails because all
are allocated. -/
theorem allocMsgQueue_cases (state : MsgState) (key : Int) :
    (∃ id, state.Holds id key ∧ state.allocMsgQueue key = (state, .returned id [])) ∨
      (∀ other, ¬state.Holds other key) ∧
        ((∃ id, id < msgmni ∧ state.allocs id = -1 ∧ state.allocMsgQueue key =
            ({ state with
                allocs := Function.update state.allocs id 1
                keys := Function.update state.keys id key }, .returned id [])) ∨
          (∀ id < msgmni, state.allocs id ≠ -1) ∧ state.allocMsgQueue key = (state, fault)) := by
  have scanned := scanId_scanned state key msgmni
  unfold MsgState.allocMsgQueue
  generalize (List.range msgmni).foldl (state.scanId key) (-1, -1) = found at scanned
  obtain ⟨f, a⟩ := found
  obtain ⟨⟨rfl, others⟩ | ⟨id, inside, used, same, rfl⟩, free⟩ := scanned
  · refine .inr ⟨fun other holds => others other holds.1 holds.2.1 holds.2.2, ?_⟩
    obtain ⟨rfl, all⟩ | ⟨id, inside, unused, rfl⟩ := free
    · exact .inr ⟨all, rfl⟩
    · have notMinus : (id : Int) ≠ -1 := by omega
      exact .inl ⟨id, inside, unused, by simp [notMinus]⟩
  · have notMinus : (id : Int) ≠ -1 := by omega
    exact .inl ⟨id, ⟨inside, used, same⟩, by simp [notMinus]⟩

/-- The ids that stand for a list are those that are allocated. -/
theorem Matches.allocated_iff (held : Matches state made contents) (id : Nat) :
    contents id ≠ none ↔ state.allocs id ≠ -1 := by
  constructor
  · intro stands unused
    exact stands (held.unused id unused).1
  · intro used
    cases heads : state.heads id with
    | none => simp [held.unopened id used heads]
    | some pair =>
        obtain ⟨_, _, content, stands, _⟩ := held.lists id pair heads
        simp [stands]

theorem Matches.allocate (held : Matches state made contents) {id : Nat} (unused : state.allocs id = -1)
    (keys : Nat → Int) :
    Matches { state with allocs := Function.update state.allocs id 1, keys } made
      (Function.update contents id (some [])) := by
  have absent := (held.unused id unused).2
  have notId : ∀ other, state.heads other ≠ none → other ≠ id := by
    rintro other some_queue rfl
    exact some_queue absent
  refine ⟨fun other isUnused => ?_, fun other used none_queue => ?_, fun other pair found => ?_,
    held.complete, held.apart⟩
  · have apart : other ≠ id := by
      rintro rfl
      simp at isUnused
    simp only [Function.update_of_ne apart] at isUnused ⊢
    exact held.unused other isUnused
  · by_cases same : other = id
    · rw [same, Function.update_self]
    · simp only [Function.update_of_ne same] at used ⊢
      exact held.unopened other used none_queue
  · have apart := notId other (by simp [show state.heads other = some pair from found])
    rw [Function.update_of_ne apart]
    exact held.lists other pair found

theorem Matches.drop (held : Matches state made contents) {id : Nat}
    (fresh : next.fresh = state.fresh) (allocs : next.allocs = Function.update state.allocs id (-1))
    (heads : next.heads = Function.update state.heads id none)
    (untouched : state.heads id ≠ none → Untouched state.nodes next.nodes (made id))
    (unchanged : state.heads id = none → next.nodes = state.nodes) :
    Matches next made (Function.update contents id none) := by
  have before : ∀ {other}, next.heads other ≠ none → other ≠ id ∧ state.heads other ≠ none := by
    intro other some_queue
    rw [heads] at some_queue
    by_cases same : other = id
    · simp [same] at some_queue
    · rw [Function.update_of_ne same] at some_queue
      exact ⟨same, some_queue⟩
  refine ⟨fun other unused => ?_, fun other used none_queue => ?_, fun other pair found => ?_,
    fun other some_queue => ?_, fun one other differ first second => ?_⟩
  · rw [heads]
    by_cases same : other = id
    · simp [same]
    · rw [allocs, Function.update_of_ne same] at unused
      rw [Function.update_of_ne same, Function.update_of_ne same]
      exact held.unused other unused
  · by_cases same : other = id
    · simp [same, allocs] at used
    · rw [allocs, Function.update_of_ne same] at used
      rw [heads, Function.update_of_ne same] at none_queue
      rw [Function.update_of_ne same]
      exact held.unopened other used none_queue
  · obtain ⟨apart, some_queue⟩ := before (by simp [found] : next.heads other ≠ none)
    rw [heads, Function.update_of_ne apart] at found
    obtain ⟨idle, use, content, stands, lists⟩ := held.lists other pair found
    refine ⟨idle, use, content, (Function.update_of_ne apart _ _).trans stands, ?_⟩
    by_cases present : state.heads id = none
    · exact lists.congr fun node _ => by rw [unchanged present]
    · exact lists.congr fun node member => untouched present node fun inside =>
        held.apart other id apart some_queue present member inside
  · rw [fresh]
    exact held.complete other (before some_queue).2
  · exact held.apart one other differ (before first).2 (before second).2

theorem freeLists_end (held : Matches state made contents) {id : Nat} {heads : Heads}
    (found : state.heads id = some heads) :
    ∃ idle use, freeQueue (state.fresh + 1) ⟨state.nodes, heads.idle⟩ = some idle ∧
      freeQueue (state.fresh + 1) ⟨idle.heap, heads.use⟩ = some use ∧
      Untouched state.nodes use.heap (made id) := by
  have notNone : state.heads id ≠ none := by simp [found]
  obtain ⟨idleNodes, useNodes, content, _, lists⟩ := held.lists id heads found
  have enough := held.enough notNone
  have lengths := lists.whole.length_eq
  rw [List.length_append] at lengths
  obtain ⟨distinctIdle, distinctUse, across⟩ :=
    List.nodup_append.mp (lists.distinct (held.complete id notNone).1)
  have idleChain : Chain (SList.mk state.nodes heads.idle).heap (SList.mk state.nodes heads.idle).head
      idleNodes := lists.idleChain
  obtain ⟨idle, freedIdle, idleUntouched⟩ := freeQueue_ends idleChain distinctIdle
    (by omega : idleNodes.length < state.fresh + 1)
  have useChain : Chain (SList.mk idle.heap heads.use).heap (SList.mk idle.heap heads.use).head
      useNodes := lists.useChain.congr fun node member => by
    rw [show (SList.mk idle.heap heads.use).heap node = state.nodes node from
      idleUntouched node fun inside => across node inside node member rfl]
  obtain ⟨use, freedUse, useUntouched⟩ := freeQueue_ends useChain distinctUse
    (by omega : useNodes.length < state.fresh + 1)
  refine ⟨idle, use, freedIdle, freedUse, fun node outside => ?_⟩
  rw [useUntouched node fun inside => outside (lists.mem_use inside)]
  exact idleUntouched node fun inside => outside (lists.mem_idle inside)

theorem freeProcessQueue_eq (state : MsgState) (pids : List Nat) :
    state.freeProcessQueue pids = { state with
      tasks := fun pid => if pid ∈ pids then (state.tasks pid).wake (-1) else state.tasks pid } := by
  induction pids generalizing state with
  | nil => simp [MsgState.freeProcessQueue]
  | cons first rest ih =>
      rw [MsgState.freeProcessQueue, ih]
      have tasks : ∀ pid, (if pid ∈ rest then
          ((state.setTask first ((state.tasks first).wake (-1))).tasks pid).wake (-1)
          else (state.setTask first ((state.tasks first).wake (-1))).tasks pid) =
          if pid ∈ first :: rest then (state.tasks pid).wake (-1) else state.tasks pid := by
        intro pid
        by_cases same : pid = first
        · simp [MsgState.setTask, same, Task.wake]
        · simp [MsgState.setTask, same]
      simp only [MsgState.setTask, MsgState.mk.injEq, true_and, and_true]
      exact funext tasks

/-- The processes in the two wait queues of an id. -/
def MsgState.waiters (state : MsgState) (id : Nat) : List Nat :=
  match state.queues id with
  | none => []
  | some queue => queue.wIdle ++ queue.wUse.map WaitNode.data

/-- What `free_msg_queue` leaves: the id is not allocated, and those who waited are
told so. -/
def MsgState.released (state : MsgState) (id : Nat) (nodes : SHeap MsgData) : MsgState :=
  { (state.closeId id).dropQueue id nodes with
    tasks := fun pid => if pid ∈ state.waiters id then (state.tasks pid).wake (-1) else state.tasks pid }

/-- `free_msg_queue` refuses an id, or releases it. -/
theorem freeMsgQueue_cases (held : Matches state made contents) (msqid : Int) :
    (¬InRange msqid ∧ state.freeMsgQueue msqid = some (state, fault)) ∨
      (InRange msqid ∧ ∃ nodes, state.freeMsgQueue msqid =
          some (state.released msqid.toNat nodes, .returned 0 []) ∧
        Matches (state.released msqid.toNat nodes) made (Function.update contents msqid.toNat none)) := by
  by_cases out : msqid < 0 ∨ msqid ≥ msgmni
  · refine .inl ⟨fun range => ?_, by rw [MsgState.freeMsgQueue, if_pos out]⟩
    unfold InRange at range
    omega
  have range : InRange msqid := by
    unfold InRange
    omega
  have heads : ∀ nodes, (state.released msqid.toNat nodes).heads =
      Function.update state.heads msqid.toNat none := by
    intro nodes
    funext other
    by_cases same : other = msqid.toNat
    · simp [MsgState.heads, MsgState.released, MsgState.dropQueue, same]
    · simp [MsgState.heads, MsgState.released, MsgState.dropQueue, MsgState.closeId,
        Function.update_of_ne same]
  refine .inr ⟨range, ?_⟩
  cases found : state.queues msqid.toNat with
  | none =>
      have absent : state.heads msqid.toNat = none := by simp [MsgState.heads, found]
      refine ⟨state.nodes, ?_, held.drop rfl rfl (heads _) (fun present => absurd absent present) fun _ => rfl⟩
      have queues : Function.update state.queues msqid.toNat none = state.queues :=
        Function.update_eq_self_iff.mpr found.symm
      simp [MsgState.freeMsgQueue, out, found, MsgState.released, MsgState.dropQueue, MsgState.closeId, queues,
        MsgState.waiters]
  | some queue =>
      have isQueue : state.heads msqid.toNat = some ⟨queue.idle, queue.use⟩ := by
        simp [MsgState.heads, found]
      have notNone : state.heads msqid.toNat ≠ none := by simp [isQueue]
      obtain ⟨idle, use, freedIdle, freedUse, untouched⟩ := freeLists_end held isQueue
      refine ⟨use.heap, ?_, held.drop rfl rfl (heads _) (fun _ => untouched) fun absent => absurd absent notNone⟩
      simp only [MsgState.freeMsgQueue, if_neg out, found, freedIdle, freedUse, Option.bind_eq_bind,
        Option.bind_some, freeProcessQueue_eq, Option.pure_def, Option.some.injEq, Prod.mk.injEq, and_true]
      simp only [MsgState.released, MsgState.waiters, found, MsgState.mk.injEq, true_and, and_true]
      funext pid
      by_cases inUse : pid ∈ queue.wUse.map WaitNode.data
      · by_cases inIdle : pid ∈ queue.wIdle
        · simp [inUse, inIdle, Task.wake, MsgState.dropQueue, MsgState.closeId]
        · simp [inUse, inIdle, MsgState.dropQueue, MsgState.closeId]
      · simp [inUse, MsgState.dropQueue, MsgState.closeId]

/-- The process that waited was told that there is no queue any more. -/
def MsgState.Dropped (state : MsgState) (pid : Nat) : Prop := (state.tasks pid).waitingToReady = -1

theorem allocMsgQueue_spec (held : Matches state made contents) (pid : Nat) (key : Int) :
    ∃ next outcome after, state.allocMsgQueue key = (next, outcome) ∧
      QueueStep state.keys state.calls state.Dropped contents (.alloc pid key) outcome after ∧
      Matches next (recordMade state next made) after := by
  have absent (none : ∀ other, ¬state.Holds other key) (other : Nat) (inside : other < msgmni)
      (stands : contents other ≠ Option.none) : state.keys other ≠ key :=
    fun same => none other ⟨inside, (held.allocated_iff other).mp stands, same⟩
  obtain ⟨id, ⟨inside, used, rfl⟩, result⟩ | ⟨none, ⟨id, inside, unused, result⟩ | ⟨all, result⟩⟩ :=
    allocMsgQueue_cases state key
  · obtain ⟨content, stands⟩ := Option.ne_none_iff_exists'.mp ((held.allocated_iff id).mpr used)
    exact ⟨state, _, contents, result, .known inside stands, held.record fun _ isOpen => isOpen⟩
  · exact ⟨_, _, _, result, .created (absent none) inside (held.unused id unused).1,
      (held.allocate unused _).record fun _ isOpen => isOpen⟩
  · refine ⟨state, fault, contents, result, .noId fun other inside => ?_, held.record fun _ isOpen => isOpen⟩
    have stands := (held.allocated_iff other).mpr (all other inside)
    exact ⟨stands, absent none other inside stands⟩

theorem freeMsgQueue_spec (held : Matches state made contents) (pid : Nat) (msqid : Int) :
    ∃ next outcome after, state.freeMsgQueue msqid = some (next, outcome) ∧
      QueueStep state.keys state.calls state.Dropped contents (.free pid msqid) outcome after ∧
      Matches next (recordMade state next made) after := by
  obtain ⟨outside, done⟩ | ⟨range, nodes, done, nextHeld⟩ := freeMsgQueue_cases held msqid
  · exact ⟨state, fault, contents, done, .freeUnknown outside, held.record fun _ isOpen => isOpen⟩
  · refine ⟨_, .returned 0 [], _, done, .freed range, nextHeld.record fun id isOpen => ?_⟩
    by_cases same : id = msqid.toNat
    · simp [MsgState.released, MsgState.dropQueue, same] at isOpen
    · simpa [MsgState.released, MsgState.dropQueue, MsgState.closeId, Function.update_of_ne same] using isOpen

/-- A process can take the step: it is not in a call, or its call was woken. -/
def Enabled (state : MsgState) : MsgAction → Prop
  | .alloc pid _ => state.calls pid = none
  | .free pid _ => state.calls pid = none
  | .call pid _ _ => state.calls pid = none
  | .resume pid _ => state.calls pid ≠ none ∧ (state.tasks pid).waitingToReady ≠ 0

/-- Every step that a process can take ends, and does to the lists what it
should. -/
theorem perform_spec (held : Matches state made contents) {action : MsgAction}
    (enabled : Enabled state action) :
    ∃ next outcome after, state.perform action = some (next, outcome) ∧
      QueueStep state.keys state.calls state.Dropped contents action outcome after ∧
      Matches next (recordMade state next made) after := by
  cases action with
  | alloc pid key =>
      have ready : state.calls pid = none := enabled
      obtain ⟨next, outcome, after, done, step, nextHeld⟩ := allocMsgQueue_spec held pid key
      exact ⟨next, outcome, after, by simp [MsgState.perform, ready, done], step, nextHeld⟩
  | free pid msqid =>
      have ready : state.calls pid = none := enabled
      simp only [MsgState.perform, ready, Option.isNone_none, if_true]
      exact freeMsgQueue_spec held pid msqid
  | call pid call buffer =>
      have ready : state.calls pid = none := enabled
      obtain ⟨next, outcome, after, done, step, nextHeld⟩ := runSection_spec held pid buffer call
      exact ⟨next, outcome, after, by simp [MsgState.perform, ready, done], .called step, nextHeld⟩
  | resume pid buffer =>
      obtain ⟨waiting, woken⟩ := enabled
      obtain ⟨call, isCall⟩ := Option.ne_none_iff_exists'.mp waiting
      have same : SameLists state (state.setCall pid none) := (SameLists.refl state).setCall pid none
      by_cases dropped : (state.tasks pid).waitingToReady = -1
      · refine ⟨state.setCall pid none, fault, contents, ?_, .dropped isCall dropped,
          (held.same same).record fun _ isOpen => isOpen⟩
        simp [MsgState.perform, isCall, dropped]
      · obtain ⟨next, outcome, after, done, step, nextHeld⟩ :=
          runSection_spec (held.same same) pid buffer call
        refine ⟨next, outcome, after, ?_, .resumed isCall dropped step, nextHeld⟩
        simp [MsgState.perform, isCall, woken, dropped, done]

/-! ## The history of a queue -/

/-- What a receiver asked for and got. -/
structure Receipt where
  type : Int
  size : Nat
  bytes : List UInt8

/-- A receiver got the beginning of a message. -/
def Delivers (message : Message) (receipt : Receipt) : Prop :=
  receipt.bytes = message.bytes.take receipt.size

/-- The messages that were sent to each id and received from it since it was
allocated, and the nodes that were made for it. -/
structure MsgLog where
  sent : Nat → List Message
  received : Nat → List Receipt
  made : Nat → List Nat

/-- A call that succeeded enters the log. -/
def MsgLog.call (log : MsgLog) (buffer : Nat → UInt8) : Call → Outcome → MsgLog
  | .push msqid size type _, .returned value _ =>
      if value = 0 then
        { log with
          sent := Function.update log.sent msqid.toNat
            (log.sent msqid.toNat ++ [⟨type, firstBytes buffer (min size msgmax)⟩]) }
      else log
  | .pop msqid size type _, .returned value bytes =>
      if 0 ≤ value then
        { log with
          received := Function.update log.received msqid.toNat
            (log.received msqid.toNat ++ [⟨type, size, bytes⟩]) }
      else log
  | _, .blocked => log

def MsgLog.record (log : MsgLog) (before after : MsgState) (outcome : Outcome) : MsgAction → MsgLog
  | .alloc _ _ => { log with made := recordMade before after log.made }
  | .free _ msqid =>
      if outcome = .returned 0 [] then
        { sent := Function.update log.sent msqid.toNat []
          received := Function.update log.received msqid.toNat []
          made := recordMade before after log.made }
      else { log with made := recordMade before after log.made }
  | .call _ call buffer =>
      { log.call buffer call outcome with made := recordMade before after log.made }
  | .resume pid buffer =>
      match before.calls pid with
      | none => { log with made := recordMade before after log.made }
      | some call => { log.call buffer call outcome with made := recordMade before after log.made }

/-- The messages of one type: those sent are, in order, those received and then
those that are still there. -/
def InOrder (sent : List Message) (received : List Receipt) (content : List Message) : Prop :=
  ∀ type : Int, ∃ taken,
    (sent.filter fun message => message.type = type) =
      taken ++ content.filter (fun message => message.type = type) ∧
    List.Forall₂ Delivers taken (received.filter fun receipt => receipt.type = type)

/-- The log of an allocated id is in order; other ids have none. -/
def Ordered (log : MsgLog) (contents : Contents) : Prop :=
  ∀ id, match contents id with
    | none => log.sent id = [] ∧ log.received id = []
    | some content => InOrder (log.sent id) (log.received id) content

theorem InOrder.send {sent content : List Message} {received : List Receipt}
    (held : InOrder sent received content) (message : Message) :
    InOrder (sent ++ [message]) received (content ++ [message]) := by
  intro type
  obtain ⟨taken, split, delivered⟩ := held type
  refine ⟨taken, ?_, delivered⟩
  rw [List.filter_append, List.filter_append, split, List.append_assoc]

theorem InOrder.receive {sent left right : List Message} {received : List Receipt} {message : Message}
    (held : InOrder sent received (left ++ message :: right))
    (first : ∀ earlier ∈ left, earlier.type ≠ message.type) (size : Nat) :
    InOrder sent (received ++ [⟨message.type, size, message.bytes.take size⟩]) (left ++ right) := by
  intro type
  obtain ⟨taken, split, delivered⟩ := held type
  by_cases same : message.type = type
  · have noneBefore : left.filter (fun earlier => decide (earlier.type = type)) = [] := by
      refine List.filter_eq_nil_iff.mpr fun earlier member => ?_
      simpa [← same] using first earlier member
    refine ⟨taken ++ [message], ?_, ?_⟩
    · rw [split]
      simp [List.filter_append, noneBefore, same]
    · rw [List.filter_append]
      refine List.rel_append delivered ?_
      simp [same, Delivers]
  · refine ⟨taken, ?_, ?_⟩
    · rw [split]
      simp [List.filter_append, same]
    · simpa [List.filter_append, same] using delivered

theorem MsgLog.call_giveUp (log : MsgLog) (buffer : Nat → UInt8) (call : Call) (flag : Int) :
    log.call buffer call (giveUp flag) = log := by
  unfold giveUp
  split
  next => cases call <;> rfl
  next => cases call <;> rfl

theorem MsgLog.call_fault (log : MsgLog) (buffer : Nat → UInt8) (call : Call) :
    log.call buffer call fault = log := by
  cases call <;> rfl

theorem MsgLog.record_made (log : MsgLog) (before after : MsgState) (outcome : Outcome) (action : MsgAction) :
    (log.record before after outcome action).made = recordMade before after log.made := by
  cases action with
  | alloc => rfl
  | free pid msqid =>
      simp only [MsgLog.record]
      split <;> rfl
  | call => rfl
  | resume pid buffer =>
      simp only [MsgLog.record]
      split <;> rfl

/-- The list of one id changes together with its log. -/
theorem Ordered.update {log after : MsgLog} {id : Nat} {content : List Message}
    (held : Ordered log contents) (sent : ∀ other, other ≠ id → after.sent other = log.sent other)
    (received : ∀ other, other ≠ id → after.received other = log.received other)
    (changed : InOrder (after.sent id) (after.received id) content) :
    Ordered after (Function.update contents id (some content)) := by
  intro other
  by_cases same : other = id
  · rw [same, Function.update_self]
    exact changed
  · rw [Function.update_of_ne same, sent other same, received other same]
    exact held other

theorem Ordered.inOrder {log : MsgLog} {id : Nat} {content : List Message} (held : Ordered log contents)
    (stands : contents id = some content) : InOrder (log.sent id) (log.received id) content := by
  have order := held id
  rw [stands] at order
  exact order

theorem Ordered.sent {log : MsgLog} {msqid : Int} {content : List Message} (held : Ordered log contents)
    (stands : contents msqid.toNat = some content) (buffer : Nat → UInt8) (size : Nat) (type flag : Int) :
    Ordered (log.call buffer (.push msqid size type flag) (.returned 0 []))
      (Function.update contents msqid.toNat
        (some (content ++ [⟨type, firstBytes buffer (min size msgmax)⟩]))) := by
  have order := held.inOrder stands
  refine held.update (fun other apart => ?_) (fun other apart => rfl) ?_
  · exact Function.update_of_ne apart _ _
  · simp only [MsgLog.call, if_true, Function.update_self]
    exact order.send _

theorem Ordered.received {log : MsgLog} {msqid : Int} {left right : List Message} {message : Message}
    (held : Ordered log contents) (stands : contents msqid.toNat = some (left ++ message :: right))
    (first : ∀ earlier ∈ left, earlier.type ≠ message.type) (buffer : Nat → UInt8) (size : Nat) (flag : Int) :
    Ordered (log.call buffer (.pop msqid size message.type flag)
        (.returned (min size message.bytes.length : Nat) (message.bytes.take size)))
      (Function.update contents msqid.toNat (some (left ++ right))) := by
  have order := (held.inOrder stands).receive first size
  have logged : log.call buffer (.pop msqid size message.type flag)
      (.returned (min size message.bytes.length : Nat) (message.bytes.take size)) =
      { log with
        received := Function.update log.received msqid.toNat
          (log.received msqid.toNat ++ [⟨message.type, size, message.bytes.take size⟩]) } := by
    simp only [MsgLog.call]
    exact if_pos (Int.natCast_nonneg _)
  rw [logged]
  refine held.update (fun other apart => rfl) (fun other apart => ?_) ?_
  · exact Function.update_of_ne apart _ _
  · simp only [Function.update_self]
    exact order

theorem Ordered.created {log after : MsgLog} {id : Nat} (held : Ordered log contents) (absent : contents id = none)
    (sent : after.sent = log.sent) (received : after.received = log.received) :
    Ordered after (Function.update contents id (some [])) := by
  have empty := held id
  rw [absent] at empty
  refine held.update (fun _ _ => by rw [sent]) (fun _ _ => by rw [received]) fun type => ⟨[], ?_⟩
  rw [sent, received, empty.1, empty.2]
  exact ⟨rfl, .nil⟩

theorem CallStep.ordered {buffer : Nat → UInt8} {call : Call} {outcome : Outcome} {after : Contents}
    {log : MsgLog} (step : CallStep contents buffer call outcome after) (held : Ordered log contents) :
    Ordered (log.call buffer call outcome) after := by
  cases step with
  | pushed range stands room => exact held.sent stands _ _ _ _
  | pushFull =>
      rw [MsgLog.call_giveUp]
      exact held
  | popped range stands first => exact held.received stands first _ _ _
  | popNone =>
      rw [MsgLog.call_giveUp]
      exact held
  | pushUnknown =>
      rw [MsgLog.call_fault]
      exact held
  | popUnknown =>
      rw [MsgLog.call_fault]
      exact held

theorem QueueStep.ordered {action : MsgAction} {outcome : Outcome} {after : Contents} {log : MsgLog}
    {keys : Nat → Int} {freed : Nat → Prop}
    (step : QueueStep keys state.calls freed contents action outcome after) (held : Ordered log contents) :
    Ordered (log.record state next outcome action) after := by
  cases step with
  | known => exact held
  | created _ _ absent => exact held.created absent rfl rfl
  | noId => exact held
  | @freed pid msqid range =>
      simp only [MsgLog.record, if_true]
      intro other
      by_cases same : other = msqid.toNat
      · simp [same]
      · simp only [Function.update_of_ne same]
        exact held other
  | freeUnknown => exact held
  | called step => exact step.ordered held
  | resumed isCall _ step =>
      simp only [MsgLog.record, isCall]
      exact step.ordered held
  | dropped isCall _ =>
      simp only [MsgLog.record, isCall, MsgLog.call_fault]
      exact held

/-! ## Runs -/

/-- The system with the history of its queues. `freed` has the processes whose queue was
freed while their call waited. -/
structure MsgRun where
  sys : MsgState
  log : MsgLog
  freed : Nat → Bool

/-- Those who wait for a queue that is freed are noted until their call goes on. -/
def MsgRun.recordFreed (run : MsgRun) (outcome : Outcome) : MsgAction → Nat → Bool
  | .alloc _ _ => run.freed
  | .free _ msqid =>
      if outcome = .returned 0 [] then
        fun pid => run.freed pid || (run.sys.waiters msqid.toNat).contains pid
      else run.freed
  | .call pid _ _ => Function.update run.freed pid false
  | .resume pid _ => Function.update run.freed pid false

def msgSystem : Machine MsgRun MsgAction where
  initial run := run.sys.Fresh ∧ (∀ id, run.log.sent id = []) ∧ ∀ id, run.log.received id = []
  step run action := (run.sys.perform action).map fun result =>
    ⟨result.1, run.log.record run.sys result.1 result.2 action, run.recordFreed result.2 action⟩

theorem perform_enabled {action : MsgAction} {result : MsgState × Outcome}
    (done : state.perform action = some result) : Enabled state action := by
  cases action with
  | alloc pid key =>
      simp only [MsgState.perform] at done
      split at done
      next ready => exact Option.isNone_iff_eq_none.mp ready
      next => cases done
  | free pid msqid =>
      simp only [MsgState.perform] at done
      split at done
      next ready => exact Option.isNone_iff_eq_none.mp ready
      next => cases done
  | call pid call buffer =>
      simp only [MsgState.perform] at done
      split at done
      next ready => exact Option.isNone_iff_eq_none.mp ready
      next => cases done
  | resume pid buffer =>
      simp only [MsgState.perform, Option.bind_eq_bind, Option.bind_eq_some_iff] at done
      obtain ⟨call, isCall, done⟩ := done
      split at done
      next => cases done
      next awake => exact ⟨by simp [isCall], awake⟩

theorem MsgState.Fresh.matches_empty (fresh : state.Fresh) : Matches state made fun _ => none where
  unused id _ := ⟨rfl, by simp [MsgState.heads, fresh.queues id]⟩
  unopened id used := absurd (fresh.allocs id) used
  lists id heads found := by simp [MsgState.heads, fresh.queues id] at found
  complete id present := by simp [MsgState.heads, fresh.queues id] at present
  apart id other differ present := by simp [MsgState.heads, fresh.queues id] at present

theorem Matches.bounded (held : Matches state made contents) {id : Nat} {content : List Message}
    (stands : contents id = some content) : content.length ≤ msgmnb := by
  cases heads : state.heads id with
  | none =>
      by_cases unused : state.allocs id = -1
      · rw [(held.unused id unused).1] at stands
        cases stands
      · rw [held.unopened id unused heads] at stands
        cases stands
        exact Nat.zero_le _
  | some pair =>
      obtain ⟨idle, use, found, isContent, lists⟩ := held.lists id pair heads
      obtain ⟨_, length, _⟩ := held.complete id (by simp [heads])
      have lengths := lists.length
      rw [stands] at isContent
      cases isContent
      omega

/-- The system as it is started, with cleared memory. -/
def bootMsg : MsgRun where
  sys := {
    nodes := fun _ => ⟨⟨0, 0, fun _ => 0⟩, none⟩
    fresh := 0
    allocs := fun _ => -1
    keys := fun _ => 0
    queues := fun _ => none
    tasks := fun _ => ⟨.ready, 0, 0, 0⟩
    calls := fun _ => none }
  log := { sent := fun _ => [], received := fun _ => [], made := fun _ => [] }
  freed := fun _ => false

/-- Process 1 waits for a message of type 5 and is woken by process 0, which sends
one of another type before it. -/
def bootMsgActions : List MsgAction :=
  [.alloc 0 77, .call 1 (.pop 9 2 5 1) (fun _ => 0), .call 0 (.push 9 3 4 1) (fun _ => 8),
    .call 0 (.push 9 3 5 1) (fun i => UInt8.ofNat i), .resume 1 (fun _ => 0)]

end AempOS.Ipc
