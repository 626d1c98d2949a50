import AempOS.Ipc.BoxProperties
import AempOS.Ipc.MsgQueueProperties
import AempOS.Ipc.Release
import AempOS.Memory.MemmanProperties

/-! What the message queues and the mailboxes give back. `sys_free` finds the address
and the size of a block in the first two words of the record that it is given, but no
record holds them there: a release gives back the block that was taken exactly when
there is no release. -/

set_option autoImplicit false

namespace AempOS.Ipc

open Lib Memory

variable {layout : Task.Layout} {infos : Infos} {mem mid next : IpcMemory}

/-- A send finds a node, and a receiver that waits for its type. -/
def SendWakes (queue : MsgQueue) (type : Int) : Prop :=
  queue.idle ≠ none ∧ ∃ node ∈ queue.wUse, node.type = type

/-- A receive finds a message, and a sender that waits. -/
def ReceiveWakes (nodes : SHeap MsgData) (fresh : Nat) (queue : MsgQueue) (type : Int) : Prop :=
  popUseNode ⟨nodes, queue.use⟩ (fresh + 1) type ≠ some none ∧ queue.wIdle ≠ []

/-- The section of a call on the message queues wakes no process. -/
def QueueKeeps (queues : MsgState) : Call → Prop
  | .push msqid _ type _ =>
      ∀ queue, InRange msqid → queues.allocs msqid.toNat ≠ -1 → queues.queues msqid.toNat = some queue →
        ¬SendWakes queue type
  | .pop msqid _ type _ =>
      ∀ queue, InRange msqid → queues.allocs msqid.toNat ≠ -1 → queues.queues msqid.toNat = some queue →
        ¬ReceiveWakes queues.nodes queues.fresh queue type

/-- The section of a call on the mailboxes wakes no process. -/
def BoxKeeps (infos : Infos) (boxes : BoxState) (proc : Nat) : BoxCall → Prop
  | .push pid _ _ =>
      ∀ box, ¬OutOfRange pid → boxes.boxes (infos.mailbox pid.toNat) = some box → ¬SendWakes box.toMsg proc
  | .pop pid _ _ =>
      ∀ box, ¬OutOfRange pid → boxes.boxes (infos.mailbox proc) = some box →
        ¬ReceiveWakes (mapHeap BoxData.toMsg boxes.nodes) boxes.fresh box.toMsg pid

/-- A step wakes no process and removes no queue and no mailbox that was used. -/
def KeepsAll (infos : Infos) (state : IpcState) : IpcAction → Prop
  | .allocMsgQueue _ _ => True
  | .freeMsgQueue _ msqid => InRange msqid → state.queues.queues msqid.toNat = none
  | .msgQueuePushNode _ msqid size type flag _ _ => QueueKeeps state.queues (.push msqid size.toNat type flag)
  | .msgQueuePopNode _ msqid size type flag _ _ => QueueKeeps state.queues (.pop msqid size.toNat type flag)
  | .resumeMsgQueue proc _ _ =>
      ∀ call, state.queues.calls proc = some call → (state.queues.tasks proc).waitingToReady ≠ -1 →
        QueueKeeps state.queues call
  | .allocBox _ _ => True
  | .freeBox _ pid => ¬OutOfRange pid → state.boxes.boxes (infos.mailbox pid.toNat) = none
  | .boxPushNode proc pid size flag _ _ => BoxKeeps infos state.boxes proc (.push pid size.toNat flag)
  | .boxPopNode proc pid size flag _ _ => BoxKeeps infos state.boxes proc (.pop pid size.toNat flag)
  | .resumeBox proc _ _ =>
      ∀ call, state.boxes.calls proc = some call → (state.boxes.tasks proc).waitingToReady ≠ -1 →
        BoxKeeps infos state.boxes proc call

/-! ## Effects -/

/-- The blocks have the sizes of their records. -/
def IpcMemory.Sized (mem : IpcMemory) : Prop :=
  ∀ record block, mem.blocks record = some block → block.size = record.size

/-- What was released on the way from `mem` to `next` was given back if and only if
`keeps` holds. -/
structure Effect (keeps : Prop) (mem next : IpcMemory) : Prop where
  sized : mem.Sized → next.Sized
  freed : mem.Sized → ∃ entries, next.freed = mem.freed ++ entries ∧ ((∀ entry ∈ entries, entry.GaveBack) ↔ keeps)

namespace Effect

variable {keeps other : Prop}

theorem unchanged (blocks : next.blocks = mem.blocks) (freed : next.freed = mem.freed) : Effect True mem next where
  sized held record block isBlock := held record block (blocks ▸ isBlock)
  freed _ := ⟨[], by simp [freed]⟩

theorem trans (first : Effect keeps mem mid) (second : Effect other mid next) : Effect (keeps ∧ other) mem next where
  sized held := second.sized (first.sized held)
  freed held := by
    obtain ⟨left, isLeft, leftKeeps⟩ := first.freed held
    obtain ⟨right, isRight, rightKeeps⟩ := second.freed (first.sized held)
    refine ⟨left ++ right, by rw [isRight, isLeft, List.append_assoc], ?_⟩
    rw [List.forall_mem_append, leftKeeps, rightKeeps]

theorem of_iff (effect : Effect keeps mem next) (same : keeps ↔ other) : Effect other mem next :=
  ⟨effect.sized, fun held => by simpa only [same] using effect.freed held⟩

theorem kmalloc {record : Record} (done : mem.kmalloc record = some next) : Effect True mem next := by
  cases given : memmanKalloc mem.man record.size with
  | mk man addr =>
      simp only [IpcMemory.kmalloc, given] at done
      split at done
      next => cases done
      next =>
          obtain rfl := Option.some.inj done
          refine ⟨fun held other block isBlock => ?_, fun _ => ⟨[], by simp⟩⟩
          by_cases same : other = record
          · subst same
            simp only [Function.update_self, Option.some.injEq] at isBlock
            exact isBlock ▸ rfl
          · simp only [Function.update_of_ne same] at isBlock
            exact held other block isBlock

theorem sysFree (mem : IpcMemory) (record : Record) (addr size : Nat) :
    Effect (mem.blocks record = some ⟨addr, size⟩) mem (mem.sysFree record addr size) where
  sized held other block isBlock := by
    by_cases same : other = record
    · subst same
      simp [IpcMemory.sysFree] at isBlock
    · simp only [IpcMemory.sysFree, Function.update_of_ne same] at isBlock
      exact held other block isBlock
  freed _ := ⟨[⟨record, mem.blocks record, ⟨addr, size⟩⟩], rfl, by simp [Freed.GaveBack]⟩

/-- A record whose second word is not its size is not given back. -/
theorem sysFree_other (mem : IpcMemory) (record : Record) (addr : Nat) {size : Nat} (differ : size ≠ record.size) :
    Effect False mem (mem.sysFree record addr size) where
  sized := (sysFree mem record addr size).sized
  freed held := by
    obtain ⟨entries, isEntries, gaveBack⟩ := (sysFree mem record addr size).freed held
    refine ⟨entries, isEntries, gaveBack.trans ⟨fun isBlock => differ ?_, False.elim⟩⟩
    exact held record _ isBlock

/-- The words of a `P_QUEUE_NODE` are not an address and its size: the second one
points to a process. -/
theorem freeWaiter (owner : Owner) (mem : IpcMemory) (word proc : Nat) :
    Effect False mem (mem.freeWaiter layout owner word proc) := by
  refine sysFree_other mem _ word ?_
  have low := layout.low
  simp only [procAddr, Record.size, kernelLinBase] at low ⊢
  omega

theorem allocIdle {owner : Owner} {count node : Nat} (done : mem.allocIdle owner count node = some next) :
    Effect True mem next := by
  induction count generalizing mem node with
  | zero => exact Option.some.inj done ▸ unchanged rfl rfl
  | succ count ih =>
      simp only [IpcMemory.allocIdle, Option.bind_eq_bind, Option.bind_eq_some_iff] at done
      obtain ⟨linked, isNode, filled, isBuffer, done⟩ := done
      have sizes : Effect True linked (linked.setSize owner node 0) := unchanged rfl rfl
      exact (((kmalloc isNode).trans sizes).trans ((kmalloc isBuffer).trans (ih done))).of_iff (by simp)

theorem init {owner : Owner} {count id fresh : Nat} (done : mem.init owner count id fresh = some next) :
    Effect True mem next := by
  simp only [IpcMemory.init, Option.bind_eq_bind, Option.bind_eq_some_iff] at done
  obtain ⟨made, isHead, done⟩ := done
  exact ((kmalloc isHead).trans (allocIdle done)).of_iff (by simp)

theorem pushWaiter {owner : Owner} {proc word : Nat} (done : mem.pushWaiter owner proc word = some next) :
    Effect True mem next := by
  simp only [IpcMemory.pushWaiter, Option.bind_eq_bind, Option.bind_eq_some_iff] at done
  obtain ⟨made, isWaiter, done⟩ := done
  have stale : Effect True made next := Option.some.inj done ▸ unchanged rfl rfl
  exact ((kmalloc isWaiter).trans stale).of_iff (by simp)

/-! ## Releases -/

theorem freeQueue {owner : Owner} {fuel : Nat} {list rest : SList MsgData}
    (done : mem.freeQueue owner fuel list = some (next, rest)) :
    rest.head = none ∧ ∃ keeps, Effect keeps mem next := by
  induction fuel generalizing mem list with
  | zero => cases done
  | succ fuel ih =>
      simp only [IpcMemory.freeQueue] at done
      cases popped : popNode list with
      | none =>
          simp only [popped, Option.some.injEq, Prod.mk.injEq] at done
          obtain ⟨rfl, rfl⟩ := done
          refine ⟨?_, True, unchanged rfl rfl⟩
          simp only [popNode, SList.popFront] at popped
          cases head : list.head with
          | none => rfl
          | some node => simp [head] at popped
      | some cell =>
          simp only [popped] at done
          obtain ⟨empty, keeps, effect⟩ := ih done
          exact ⟨empty, _, ((sysFree _ _ _ _).trans (sysFree _ _ _ _)).trans effect⟩

theorem freeSenders (layout : Task.Layout) (owner : Owner) (procs : List Nat) (mem : IpcMemory) :
    ∃ keeps, Effect keeps mem (mem.freeSenders layout owner procs) := by
  induction procs generalizing mem with
  | nil => exact ⟨True, unchanged rfl rfl⟩
  | cons proc rest ih =>
      obtain ⟨keeps, effect⟩ := ih (mem.freeWaiter layout owner (mem.stale owner proc) proc)
      exact ⟨_, (freeWaiter owner mem _ proc).trans effect⟩

theorem freeReceivers (layout : Task.Layout) (owner : Owner) (nodes : List WaitNode) (mem : IpcMemory) :
    ∃ keeps, Effect keeps mem (mem.freeReceivers layout owner nodes) := by
  induction nodes generalizing mem with
  | nil => exact ⟨True, unchanged rfl rfl⟩
  | cons node rest ih =>
      obtain ⟨keeps, effect⟩ := ih (mem.freeWaiter layout owner (intWord node.type) node.data)
      exact ⟨_, (freeWaiter owner mem _ node.data).trans effect⟩

/-- The lists of the record that heads a queue are empty by the time of its release,
so that its first two words are null. -/
theorem release {owner : Owner} {id fresh : Nat} {nodes : SHeap MsgData} {queue : MsgQueue}
    (done : mem.release layout owner id nodes fresh queue = some next) : Effect False mem next := by
  simp only [IpcMemory.release, Option.bind_eq_bind, Option.bind_eq_some_iff] at done
  obtain ⟨⟨first, idle⟩, isFirst, ⟨second, use⟩, isSecond, done⟩ := done
  obtain ⟨_, _, firstEffect⟩ := freeQueue isFirst
  obtain ⟨empty, _, secondEffect⟩ := freeQueue isSecond
  obtain ⟨_, senders⟩ := freeSenders layout owner queue.wIdle second
  obtain ⟨_, receivers⟩ := freeReceivers layout owner queue.wUse (second.freeSenders layout owner queue.wIdle)
  obtain rfl := Option.some.inj done
  have differ : 0 ≠ (Record.head owner id).size := by simp [Record.size]
  simp only [empty]
  exact ((firstEffect.trans secondEffect).trans ((senders.trans receivers).trans
    (sysFree_other _ (.head owner id) _ differ))).of_iff (by simp)

/-! ## Calls -/

theorem wakeUpUse (owner : Owner) (queue : MsgQueue) (type : Int) (mem : IpcMemory) :
    Effect (¬∃ node ∈ queue.wUse, node.type = type) mem (mem.wakeUpUse layout owner queue type) := by
  unfold IpcMemory.wakeUpUse
  cases found : queue.wUse.find? fun node => node.type = type with
  | none =>
      refine (unchanged rfl rfl).of_iff ⟨fun _ waits => ?_, fun _ => trivial⟩
      obtain ⟨node, member, same⟩ := waits
      simpa [same] using List.find?_eq_none.mp found node member
  | some node =>
      refine (freeWaiter owner mem _ node.data).of_iff ⟨False.elim, fun none => none ⟨node, ?_, ?_⟩⟩
      · exact List.mem_of_find?_eq_some found
      · simpa using List.find?_some found

theorem wakeUpIdle (owner : Owner) (queue : MsgQueue) (mem : IpcMemory) :
    Effect (queue.wIdle = []) mem (mem.wakeUpIdle layout owner queue) := by
  unfold IpcMemory.wakeUpIdle
  cases waiting : queue.wIdle with
  | nil => exact (unchanged rfl rfl).of_iff (by simp)
  | cons proc rest => exact (freeWaiter owner mem _ proc).of_iff (by simp)

theorem push {owner : Owner} {proc word : Nat} {queue : MsgQueue} {size type flag : Int}
    (done : mem.push layout owner proc queue size type flag word = some next) :
    Effect (¬SendWakes queue type) mem next := by
  unfold IpcMemory.push at done
  cases idle : queue.idle with
  | none =>
      have keeps : True ↔ ¬SendWakes queue type := by simp [SendWakes, idle]
      simp only [idle] at done
      split at done
      next => exact Option.some.inj done ▸ (unchanged rfl rfl).of_iff keeps
      next => exact (pushWaiter done).of_iff keeps
  | some node =>
      simp only [idle, Option.some.injEq] at done
      subst done
      have stored : Effect True mem (mem.setSize owner node (min size owner.bound)) := unchanged rfl rfl
      exact (stored.trans (wakeUpUse owner queue type _)).of_iff (by simp [SendWakes, idle])

theorem pop {owner : Owner} {proc fresh word : Nat} {nodes : SHeap MsgData} {queue : MsgQueue} {type flag : Int}
    (done : mem.pop layout owner proc nodes fresh queue type flag word = some next) :
    Effect (¬ReceiveWakes nodes fresh queue type) mem next := by
  simp only [IpcMemory.pop, Option.bind_eq_bind, Option.bind_eq_some_iff] at done
  obtain ⟨found, isFound, done⟩ := done
  cases found with
  | none =>
      have keeps : True ↔ ¬ReceiveWakes nodes fresh queue type := by simp [ReceiveWakes, isFound]
      simp only at done
      split at done
      next => exact Option.some.inj done ▸ (unchanged rfl rfl).of_iff keeps
      next => exact (pushWaiter done).of_iff keeps
  | some taken =>
      obtain rfl := Option.some.inj done
      have stored : Effect True mem (mem.setSize owner taken.1 0) := unchanged rfl rfl
      exact (stored.trans (wakeUpIdle owner queue _)).of_iff (by simp [ReceiveWakes, isFound])

theorem openQueue_found {queues : MsgState} {msqid : Int} {queue : MsgQueue} (range : InRange msqid)
    (used : queues.allocs msqid.toNat ≠ -1) (found : queues.queues msqid.toNat = some queue) :
    queues.openQueue msqid = some queues := by
  have inside : ¬(msqid < 0 ∨ msqid ≥ msgmni) := by
    unfold InRange at range
    omega
  simp [MsgState.openQueue, inside, used, found]

/-- A queue that a call opens was there before, or no process waits in it. -/
theorem openQueue_new {queues opened : MsgState} {msqid : Int} {queue : MsgQueue}
    (isOpen : queues.openQueue msqid = some opened) (absent : queues.queues msqid.toNat = none)
    (found : opened.queues msqid.toNat = some queue) : queue.wIdle = [] ∧ queue.wUse = [] := by
  unfold MsgState.openQueue at isOpen
  split at isOpen
  next => cases isOpen
  next inside =>
      split at isOpen
      next => cases isOpen
      next =>
          simp only [MsgState.initMsgQueue, if_neg inside, absent, Option.isSome_none, Bool.false_eq_true,
            if_false] at isOpen
          cases isOpen
          simp only [Function.update_self, Option.some.injEq] at found
          exact found ▸ ⟨rfl, rfl⟩

theorem openQueue_same {queues opened : MsgState} {msqid : Int} {queue : MsgQueue}
    (isOpen : queues.openQueue msqid = some opened) (found : queues.queues msqid.toNat = some queue) :
    InRange msqid ∧ queues.allocs msqid.toNat ≠ -1 ∧ opened = queues := by
  simp only [MsgState.openQueue, found, Option.isSome_some, if_true] at isOpen
  split at isOpen
  next => cases isOpen
  next inside =>
      split at isOpen
      next => cases isOpen
      next used =>
          refine ⟨?_, used, (Option.some.inj isOpen).symm⟩
          unfold InRange
          omega

theorem queueCall {queues : MsgState} {proc word : Nat} {call : Call} {size : Int}
    (done : mem.queueCall layout queues proc call size word = some next) : Effect (QueueKeeps queues call) mem next := by
  unfold IpcMemory.queueCall at done
  cases isOpen : queues.openQueue call.msqid with
  | none =>
      simp only [isOpen] at done
      refine Option.some.inj done ▸ (unchanged rfl rfl).of_iff ⟨fun _ => ?_, fun _ => trivial⟩
      have closed : ∀ queue, InRange call.msqid → queues.allocs call.msqid.toNat ≠ -1 →
          queues.queues call.msqid.toNat ≠ some queue := fun queue range used found => by
        simp [openQueue_found range used found] at isOpen
      cases call with
      | push msqid _ type _ => exact fun queue range used found => (closed queue range used found).elim
      | pop msqid _ type _ => exact fun queue range used found => (closed queue range used found).elim
  | some opened =>
      simp only [isOpen, Option.bind_eq_bind, Option.bind_eq_some_iff] at done
      obtain ⟨made, isMade, queue, isQueue, done⟩ := done
      cases found : queues.queues call.id with
      | none =>
          have waits := openQueue_new isOpen found isQueue
          simp only [IpcMemory.openQueue, found, Option.isSome_none, Bool.false_eq_true, if_false] at isMade
          cases call with
          | push msqid _ type _ =>
              refine ((init isMade).trans (push done)).of_iff ?_
              have absent : queues.queues msqid.toNat = none := found
              simp [QueueKeeps, SendWakes, waits, absent]
          | pop msqid _ type _ =>
              refine ((init isMade).trans (pop done)).of_iff ?_
              have absent : queues.queues msqid.toNat = none := found
              simp [QueueKeeps, ReceiveWakes, waits, absent]
      | some before =>
          obtain ⟨range, used, rfl⟩ := openQueue_same isOpen found
          obtain rfl : before = queue := Option.some.inj (found.symm.trans isQueue)
          simp only [IpcMemory.openQueue, found, Option.isSome_some, if_true, Option.some.injEq] at isMade
          subst isMade
          cases call with
          | push msqid _ type _ =>
              have range : InRange msqid := range
              have used : opened.allocs msqid.toNat ≠ -1 := used
              have found : opened.queues msqid.toNat = some before := found
              exact (push done).of_iff (by simp [QueueKeeps, range, used, found])
          | pop msqid _ type _ =>
              have range : InRange msqid := range
              have used : opened.allocs msqid.toNat ≠ -1 := used
              have found : opened.queues msqid.toNat = some before := found
              exact (pop done).of_iff (by simp [QueueKeeps, range, used, found])

theorem boxCall {boxes : BoxState} {proc word : Nat} {call : BoxCall} {size : Int}
    (done : mem.boxCall layout infos boxes proc call size word = some next) :
    Effect (BoxKeeps infos boxes proc call) mem next := by
  cases call with
  | push pid _ flag =>
      simp only [IpcMemory.boxCall] at done
      by_cases outside : OutOfRange pid
      · rw [if_pos outside] at done
        exact Option.some.inj done ▸ (unchanged rfl rfl).of_iff (by simp [BoxKeeps, outside])
      · rw [if_neg outside] at done
        cases found : boxes.boxes (infos.mailbox pid.toNat) with
        | none =>
            simp only [found] at done
            exact Option.some.inj done ▸ (unchanged rfl rfl).of_iff (by simp [BoxKeeps, found])
        | some box =>
            simp only [found] at done
            exact (push done).of_iff (by simp [BoxKeeps, outside, found])
  | pop pid _ flag =>
      simp only [IpcMemory.boxCall] at done
      by_cases outside : OutOfRange pid
      · rw [if_pos outside] at done
        exact Option.some.inj done ▸ (unchanged rfl rfl).of_iff (by simp [BoxKeeps, outside])
      · rw [if_neg outside] at done
        cases found : boxes.boxes (infos.mailbox proc) with
        | none =>
            simp only [found] at done
            exact Option.some.inj done ▸ (unchanged rfl rfl).of_iff (by simp [BoxKeeps, found])
        | some box =>
            simp only [found] at done
            exact (pop done).of_iff (by simp [BoxKeeps, outside, found])

/-! ## Steps -/

variable {state after : IpcState}

theorem queueSection {proc word : Nat} {call : Call} {size : Int} {buffer : Nat → UInt8}
    (done : state.queueSection layout proc call size buffer word = some after) :
    Effect (QueueKeeps state.queues call) state.mem after.mem := by
  simp only [IpcState.queueSection, Option.bind_eq_bind, Option.bind_eq_some_iff] at done
  obtain ⟨_, _, made, isMade, done⟩ := done
  obtain rfl := Option.some.inj done
  exact queueCall isMade

theorem boxSection {proc word : Nat} {call : BoxCall} {size : Int} {buffer : Nat → UInt8}
    (done : state.boxSection layout infos proc call size buffer word = some after) :
    Effect (BoxKeeps infos state.boxes proc call) state.mem after.mem := by
  simp only [IpcState.boxSection, Option.bind_eq_bind, Option.bind_eq_some_iff] at done
  obtain ⟨_, _, made, isMade, done⟩ := done
  obtain rfl := Option.some.inj done
  exact boxCall isMade

theorem freeMsgQueue {msqid : Int} (done : state.freeMsgQueue layout msqid = some after) :
    Effect (InRange msqid → state.queues.queues msqid.toNat = none) state.mem after.mem := by
  simp only [IpcState.freeMsgQueue, Option.bind_eq_bind, Option.bind_eq_some_iff] at done
  obtain ⟨result, _, done⟩ := done
  by_cases outside : msqid < 0 ∨ msqid ≥ msgmni
  · rw [if_pos outside] at done
    obtain rfl := Option.some.inj done
    refine (unchanged rfl rfl).of_iff ⟨fun _ range => ?_, fun _ => trivial⟩
    unfold InRange at range
    omega
  · rw [if_neg outside] at done
    have range : InRange msqid := by
      unfold InRange
      omega
    cases found : state.queues.queues msqid.toNat with
    | none =>
        simp only [found] at done
        obtain rfl := Option.some.inj done
        exact (unchanged rfl rfl).of_iff (by simp)
    | some queue =>
        simp only [found, Option.bind_eq_some_iff] at done
        obtain ⟨made, isMade, done⟩ := done
        obtain rfl := Option.some.inj done
        exact (release isMade).of_iff (by simp [range])

theorem allocBox {pid : Int} (done : state.allocBox infos pid = some after) : Effect True state.mem after.mem := by
  simp only [IpcState.allocBox] at done
  split at done
  next =>
      obtain rfl := Option.some.inj done
      exact unchanged rfl rfl
  next =>
      simp only [Option.bind_eq_bind, Option.bind_eq_some_iff] at done
      obtain ⟨made, isMade, done⟩ := done
      obtain rfl := Option.some.inj done
      exact init isMade

theorem freeBox {pid : Int} (done : state.freeBox layout infos pid = some after) :
    Effect (¬OutOfRange pid → state.boxes.boxes (infos.mailbox pid.toNat) = none) state.mem after.mem := by
  simp only [IpcState.freeBox, Option.bind_eq_bind, Option.bind_eq_some_iff] at done
  obtain ⟨result, _, done⟩ := done
  by_cases outside : OutOfRange pid
  · rw [if_pos outside] at done
    obtain rfl := Option.some.inj done
    exact (unchanged rfl rfl).of_iff (by simp [outside])
  · rw [if_neg outside] at done
    cases found : state.boxes.boxes (infos.mailbox pid.toNat) with
    | none =>
        simp only [found] at done
        obtain rfl := Option.some.inj done
        exact (unchanged rfl rfl).of_iff (by simp)
    | some box =>
        simp only [found, Option.bind_eq_some_iff] at done
        obtain ⟨made, isMade, done⟩ := done
        obtain rfl := Option.some.inj done
        exact (release isMade).of_iff (by simp [outside])

/-- The allocator is given blocks back by a step if and only if the step keeps all. -/
theorem step {action : IpcAction} (done : state.perform layout infos action = some after) :
    Effect (KeepsAll infos state action) state.mem after.mem := by
  cases action with
  | allocMsgQueue proc key =>
      simp only [IpcState.perform] at done
      split at done
      next => exact Option.some.inj done ▸ unchanged rfl rfl
      next => cases done
  | freeMsgQueue proc msqid =>
      simp only [IpcState.perform] at done
      split at done
      next => exact freeMsgQueue done
      next => cases done
  | msgQueuePushNode proc msqid size type flag buffer word =>
      simp only [IpcState.perform] at done
      split at done
      next => exact queueSection done
      next => cases done
  | msgQueuePopNode proc msqid size type flag buffer word =>
      simp only [IpcState.perform] at done
      split at done
      next => exact queueSection done
      next => cases done
  | resumeMsgQueue proc buffer word =>
      simp only [IpcState.perform, Option.bind_eq_bind, Option.bind_eq_some_iff] at done
      obtain ⟨call, waiting, done⟩ := done
      split at done
      next => cases done
      next =>
          split at done
          next refused => exact Option.some.inj done ▸ (unchanged rfl rfl).of_iff (by simp [KeepsAll, refused])
          next woken =>
              refine (queueSection done).of_iff ?_
              cases call <;> simp [KeepsAll, waiting, woken] <;> rfl
  | allocBox proc pid =>
      simp only [IpcState.perform] at done
      split at done
      next => exact allocBox done
      next => cases done
  | freeBox proc pid =>
      simp only [IpcState.perform] at done
      split at done
      next => exact freeBox done
      next => cases done
  | boxPushNode proc pid size flag buffer word =>
      simp only [IpcState.perform] at done
      split at done
      next => exact boxSection done
      next => cases done
  | boxPopNode proc pid size flag buffer word =>
      simp only [IpcState.perform] at done
      split at done
      next => exact boxSection done
      next => cases done
  | resumeBox proc buffer word =>
      simp only [IpcState.perform, Option.bind_eq_bind, Option.bind_eq_some_iff] at done
      obtain ⟨call, waiting, done⟩ := done
      split at done
      next => cases done
      next =>
          split at done
          next refused => exact Option.some.inj done ▸ (unchanged rfl rfl).of_iff (by simp [KeepsAll, refused])
          next woken =>
              refine (boxSection done).of_iff ?_
              cases call <;> simp [KeepsAll, waiting, woken] <;> rfl

theorem run {actions : List IpcAction} (ran : (ipcSystem layout infos).run state actions = some after) :
    Effect ((ipcSystem layout infos).Meets (KeepsAll infos) state actions) state.mem after.mem := by
  induction actions generalizing state with
  | nil =>
      obtain rfl := Option.some.inj ran
      exact unchanged rfl rfl
  | cons action rest ih =>
      obtain ⟨next, moved, ran⟩ := Option.bind_eq_some_iff.mp ran
      exact ((step moved).trans (ih ran)).of_iff (by simp only [Machine.Meets, moved])

end Effect

/-! ## Runs -/

/-- The regions that a run releases are the blocks of their records if and only if it
releases nothing: no step wakes a process, and none removes a queue or a mailbox that
was used. -/
theorem ipc_gives_back {layout : Task.Layout} {infos : Infos} {start final : IpcState} {actions : List IpcAction}
    (started : start.Started) (ran : (ipcSystem layout infos).run start actions = some final) :
    (∀ entry ∈ final.mem.freed, entry.GaveBack) ↔ (ipcSystem layout infos).Meets (KeepsAll infos) start actions := by
  have sized : start.mem.Sized := fun record block isBlock => by simp [started.blocks] at isBlock
  obtain ⟨entries, isEntries, gaveBack⟩ := (Effect.run ran).freed sized
  rw [started.freed, List.nil_append] at isEntries
  rw [isEntries, gaveBack]

/-- The machine after the start, with the memory that the clean table gives. -/
def bootIpc : IpcState where
  queues := bootMsg.sys
  boxes := bootBoxes.sys
  mem := {
    man := init cleanTable clearedMemman
    blocks := fun _ => none
    sizes := fun _ _ => 0
    stale := fun _ _ => 0
    freed := [] }
  asked := fun _ => 0

theorem bootIpc_started : bootIpc.Started :=
  ⟨⟨fun _ => rfl, fun _ => rfl, fun _ => rfl, fun _ => rfl⟩, ⟨fun _ => rfl, fun _ => rfl⟩, rfl, fun _ => rfl, rfl⟩

/-- `task.info` of the first processes. -/
def bootInfos : Infos := infosOf Task.bootTasks

/-- A message is sent and received. -/
def quietActions : List IpcAction :=
  [.allocMsgQueue 0 77, .msgQueuePushNode 0 9 3 5 1 (fun _ => 8) 0, .msgQueuePopNode 1 9 3 5 1 (fun _ => 0) 0]

theorem ipc_gives_back_quiet :
    ∃ final, (ipcSystem Task.lowLayout bootInfos).run bootIpc quietActions = some final ∧
      ((∀ entry ∈ final.mem.freed, entry.GaveBack) ↔
        (ipcSystem Task.lowLayout bootInfos).Meets (KeepsAll bootInfos) bootIpc quietActions) := by
  have ran : (ipcSystem Task.lowLayout bootInfos).run bootIpc quietActions = some _ := rfl
  exact ⟨_, ran, ipc_gives_back bootIpc_started ran⟩

/-- A queue with one message is removed. Its head is at 0x600000, and the region 0 of
size 0 is released for it. -/
theorem head_not_given_back :
    ∃ final, (ipcSystem Task.lowLayout bootInfos).run bootIpc
        [.allocMsgQueue 0 77, .msgQueuePushNode 0 9 3 5 1 (fun _ => 8) 0, .freeMsgQueue 0 9] = some final ∧
      final.mem.freed.getLast? = some ⟨.head .msgqueue 9, some ⟨0x600000, 16⟩, ⟨0, 0⟩⟩ ∧
      ¬∀ entry ∈ final.mem.freed, entry.GaveBack := by
  have ran : (ipcSystem Task.lowLayout bootInfos).run bootIpc
      [.allocMsgQueue 0 77, .msgQueuePushNode 0 9 3 5 1 (fun _ => 8) 0, .freeMsgQueue 0 9] = some _ := rfl
  refine ⟨_, ran, rfl, fun given => ?_⟩
  have same := given _ (List.mem_of_getLast? rfl)
  cases same

end AempOS.Ipc
