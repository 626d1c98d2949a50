import AempOS.Task.ExecStores
import AempOS.Task.KernelPages

/-! Memory while `sys_exec` runs in a child. The pages of the parent stay where they are,
the child keeps its pages and gets fresh ones, and a byte that is stored to a page which
both have is seen by both. -/

set_option autoImplicit false

namespace AempOS.Task

open Lib Memory

/-! ## Bytes of memory -/

section

variable {state : PageState}

theorem byte_parts (word : Nat) {place other : Nat} (byte : Byte) (small : place < 4) (otherSmall : other < 4) :
    BitVec.ofNat 8 ((word / (256 * 256 ^ place) * (256 * 256 ^ place) + byte.toNat * 256 ^ place +
      word % 256 ^ place) / 256 ^ other) = if other = place then byte else BitVec.ofNat 8 (word / 256 ^ other) := by
  have bound := byte.isLt
  apply BitVec.eq_of_toNat_eq
  interval_cases place <;> interval_cases other <;>
    simp only [BitVec.toNat_ofNat, reduceIte, Nat.reducePow, Nat.reduceEqDiff, Nat.reduceMul] <;> omega

theorem byteAt_storeByte (state : PageState) (addr other : Nat) (byte : Byte) :
    (state.storeByte addr byte).byteAt other = if other = addr then byte else state.byteAt other := by
  unfold PageState.byteAt PageState.storeByte PageState.write
  simp only [Function.update_apply]
  by_cases sameWord : other / 4 * 4 = addr / 4 * 4
  · have place : addr % 4 < 4 := by omega
    have otherPlace : other % 4 < 4 := by omega
    rw [if_pos sameWord, byte_parts _ byte place otherPlace, sameWord]
    have same : other % 4 = addr % 4 ↔ other = addr := by omega
    simp only [same]
  · have apart : other ≠ addr := fun same => sameWord (by rw [same])
    rw [if_neg sameWord, if_neg apart]

theorem storeByte_filled {dirs : List Nat} {frame offset : Nat} (aligned : frame % 4096 = 0) (inside : offset < 4096)
    (state : PageState) (byte : Byte) : Filled dirs frame state (state.storeByte (frame + offset) byte) where
  man := rfl
  cr3 := rfl
  words page pageAligned apart j bound := by
    unfold PageState.word PageState.storeByte PageState.write
    refine Function.update_of_ne ?_ _ _
    omega

end

/-! ## While a call runs -/

variable {dirs : List Nat} {start state next : PageState} {ppid pid : Nat} {mode : ExecMode}

/-- The byte at an address after the stores. -/
def replay (start : PageState) (pid : Nat) (stored : List (Nat × Byte)) (addr : Nat) : Byte :=
  stored.foldl (fun byte entry => if leads start pid entry.1 = some addr then entry.2 else byte) (start.byteAt addr)

theorem replay_concat (start : PageState) (pid lin : Nat) (byte : Byte) (stored : List (Nat × Byte)) (addr : Nat) :
    replay start pid (stored ++ [(lin, byte)]) addr =
      if leads start pid lin = some addr then byte else replay start pid stored addr := by
  simp [replay]

/-- The parent and its child before the call. -/
structure TwoSpaces (dirs : List Nat) (start : PageState) (ppid pid : Nat) : Prop where
  tables : Tables start dirs
  trusted : Trusted start.man
  parentMember : start.cr3 ppid ∈ dirs
  childMember : start.cr3 pid ∈ dirs
  differ : start.cr3 ppid ≠ start.cr3 pid
  proper : Proper start (start.cr3 pid)

/-- The pages of the parent are those of the start, the child has its pages and fresh
ones, and what the parent sees are the bytes that were there or were loaded since. -/
structure Loading (dirs : List Nat) (start : PageState) (ppid pid : Nat) (state : PageState) (mode : ExecMode) :
    Prop where
  tables : Tables state dirs
  trusted : Trusted state.man
  cr3 : state.cr3 = start.cr3
  proper : Proper state (start.cr3 pid)
  free : ∀ page, FreePage state.man page → FreePage start.man page
  content : ∀ frame, Content dirs start frame → Content dirs state frame
  parentPages : ∀ page < 1048576, state.entry (start.cr3 ppid) page = start.entry (start.cr3 ppid) page
  childPages : ∀ page < 1048576, state.entry (start.cr3 pid) page = start.entry (start.cr3 pid) page ∨
    start.entry (start.cr3 pid) page = none ∧ ∃ frame attr,
      state.entry (start.cr3 pid) page = some (frame, attr) ∧ Content dirs state frame ∧ FreePage start.man frame
  mapped : ∀ page, mode.mapped page → page < 1048576 ∧ ∃ found, state.entry (start.cr3 pid) page = some found
  bytes : ∀ addr, OfParent start ppid addr → state.byteAt addr = replay start pid mode.stored addr

theorem byteAt_congr {addr : Nat} (words : ∀ j < 1024, next.word (pageBase addr) j = state.word (pageBase addr) j) :
    next.byteAt addr = state.byteAt addr := by
  have isWord : pageBase addr + 4 * (addr % 4096 / 4) = addr / 4 * 4 := by
    unfold pageBase
    omega
  have same := words (addr % 4096 / 4) (by omega)
  unfold PageState.word at same
  rw [isWord] at same
  unfold PageState.byteAt
  rw [same]

namespace Loading

theorem begins (forked : TwoSpaces dirs start ppid pid) (position : Nat) :
    Loading dirs start ppid pid start ⟨position, fun _ => False, []⟩ where
  tables := forked.tables
  trusted := forked.trusted
  cr3 := rfl
  proper := forked.proper
  free _ free := free
  content _ content := content
  parentPages _ _ := rfl
  childPages _ _ := .inl rfl
  mapped _ wrong := wrong.elim
  bytes _ _ := rfl

theorem congr {other : PageState} (held : Loading dirs start ppid pid state mode) (mem : other.mem = state.mem)
    (man : other.man = state.man) (cr3 : other.cr3 = state.cr3) : Loading dirs start ppid pid other mode := by
  refine ⟨held.tables.congr mem man fun i alive => ?_, man ▸ held.trusted, cr3.trans held.cr3, fun i table points => ?_,
    fun page free => held.free page (man ▸ free), fun frame content => (held.content frame content).congr mem man,
    fun page inside => ?_, fun page inside => ?_, fun page isMapped => ?_, fun addr ofParent => ?_⟩
  · rw [cr3] at alive ⊢
    exact held.tables.cr3 i alive
  · exact held.proper i table (points.congr mem)
  · rw [entry_congr mem]
    exact held.parentPages page inside
  · rw [entry_congr mem]
    rcases held.childPages page inside with same | ⟨absent, frame, attr, found, content, free⟩
    · exact .inl same
    · exact .inr ⟨absent, frame, attr, found, content.congr mem man, free⟩
  · rw [entry_congr mem]
    exact held.mapped page isMapped
  · rw [← held.bytes addr ofParent]
    unfold PageState.byteAt
    rw [mem]

/-- The position in the file does not matter. -/
theorem moveTo (held : Loading dirs start ppid pid state mode) (position : Nat) :
    Loading dirs start ppid pid state { mode with position } :=
  { held with }

section

variable (held : Loading dirs start ppid pid state mode) (forked : TwoSpaces dirs start ppid pid)

include held forked

theorem alive : state.cr3 pid ≠ 0 := by
  rw [held.cr3]
  exact held.tables.ne_zero forked.childMember

/-- A page of the child is kept, or gets a fresh frame. -/
theorem map {lin attr : Nat} (ofParent : ∀ addr, OfParent start ppid addr → Content dirs start (pageBase addr))
    (address : lin < 4294967296) (small : attr < 4096) (odd : attr % 2 = 1)
    (done : state.mapOk pid lin failed pid (pgP + pgUsu + pgRww) attr = some next) :
    Loading dirs start ppid pid next { mode with mapped := fun page => page = lin / 4096 ∨ mode.mapped page } := by
  have called := mapOk_eq done
  have alive := held.alive forked
  obtain ⟨mid, table, mapped⟩ :=
    linMappingPhy_mapped held.tables (held.trusted 2) alive address (by decide) (by decide) called
  rw [held.cr3] at mapped
  have keeps := mapped.keeps held.tables forked.childMember
  have only := mapped.onlyPage held.tables forked.childMember held.proper
  have inside : lin / 4096 < 1048576 := by omega
  have page := mapped.entry_max held.tables forked.childMember rfl inside
  have others : ∀ page < 1048576, page ≠ lin / 4096 →
      next.entry (start.cr3 pid) page = state.entry (start.cr3 pid) page := fun page bound apart =>
    only.entries _ forked.childMember page bound fun same => apart (Prod.mk.inj same).2
  refine ⟨keeps.tables, linMappingPhy_trusted held.tables held.trusted alive address called (.inl rfl),
    keeps.cr3.trans held.cr3, only.proper _ forked.childMember held.proper,
    fun page free => held.free page (only.free page free),
    fun frame content => (only.content frame (held.content frame content)).1, fun page bound => ?_,
    fun page bound => ?_, fun page isMapped => ?_, fun addr isParent => ?_⟩
  · rw [only.entries _ forked.parentMember page bound fun same => forked.differ (Prod.mk.inj same).1]
    exact held.parentPages page bound
  · by_cases here : page = lin / 4096
    · subst here
      rcases page with ⟨_, _, rfl, rfl⟩ | ⟨absent, frame, set, _, free, content⟩
      · exact held.childPages _ bound
      · rw [reads_makeEntry content.aligned small odd] at set
        refine .inr ⟨?_, frame, attr, set, content, held.free frame (mapped.linked.free free)⟩
        rcases held.childPages _ bound with same | ⟨none, _⟩
        · exact same.symm.trans absent
        · exact none
    · rw [others page bound here]
      rcases held.childPages page bound with same | ⟨absent, frame, attr, found, content, free⟩
      · exact .inl same
      · exact .inr ⟨absent, frame, attr, found, (only.content frame content).1, free⟩
  · by_cases here : page = lin / 4096
    · subst here
      rcases page with ⟨found, isFound, rfl, rfl⟩ | ⟨_, frame, set, _, _, content⟩
      · exact ⟨inside, found, isFound⟩
      · rw [reads_makeEntry content.aligned small odd] at set
        exact ⟨inside, _, set⟩
    · obtain ⟨bound, found, isFound⟩ := held.mapped page (isMapped.resolve_left here)
      exact ⟨bound, found, (others page bound here).trans isFound⟩
  · rw [← held.bytes addr isParent]
    exact byteAt_congr (only.content _ (held.content _ (ofParent addr isParent))).2

/-- The kernel finds the frame of a page that is present. -/
theorem access {lin frame attr : Nat} (address : lin < 4294967296)
    (found : state.entry (start.cr3 pid) (lin / 4096) = some (frame, attr)) :
    state.kernelAccess pid lin 3 = some state ∧ state.pagePhyAddr pid lin = frame := by
  have alive := held.alive forked
  rw [← held.cr3] at found
  exact ⟨kernelAccess_present held.tables alive address found, pagePhyAddr_eq held.tables alive (by omega) found⟩

/-- A byte goes to the frame of a page of the child. -/
theorem store {lin : Nat} {byte : Byte} {stores : List (Nat × Byte)} (loadable : Loadable start ppid pid dirs stores)
    (may : ∃ other, (lin, other) ∈ stores) (isMapped : mode.mapped (lin / 4096))
    (done : state.kernelAccess pid lin 3 = some next) :
    Loading dirs start ppid pid (next.storeByte (next.pagePhyAddr pid lin + lin % 4096) byte)
      { mode with stored := mode.stored ++ [(lin, byte)] } := by
  obtain ⟨other, member⟩ := may
  have address : lin < 4294967296 := Nat.lt_trans (loadable.user lin other member) (by decide)
  obtain ⟨inside, ⟨frame, attr⟩, found⟩ := held.mapped _ isMapped
  obtain ⟨accessed, isFrame⟩ := held.access forked address found
  obtain rfl := Option.some.inj (accessed.symm.trans done)
  rw [isFrame]
  have target : Content dirs state frame ∧ ∀ addr, OfParent start ppid addr →
      (leads start pid lin = some addr ↔ addr = frame + lin % 4096) := by
    rcases held.childPages _ inside with same | ⟨absent, own, ownAttr, isOwn, content, free⟩
    · have isChild := same.symm.trans found
      refine ⟨held.content frame (loadable.child lin other member frame attr isChild), fun addr _ => ?_⟩
      simp [leads, isChild, eq_comm]
    · obtain ⟨rfl, rfl⟩ := Prod.mk.inj (Option.some.inj (isOwn.symm.trans found))
      refine ⟨content, fun addr isParent => ?_⟩
      obtain ⟨page, bound, isUser, attr, isPage⟩ := isParent
      have used := (loadable.parent page bound isUser _ attr isPage).used
      have aligned := content.aligned
      refine ⟨fun wrong => by simp [leads, absent] at wrong, fun same => ?_⟩
      have isBase : pageBase addr = own := by
        unfold pageBase
        omega
      exact absurd (isBase ▸ free) used
  obtain ⟨content, target⟩ := target
  have filled : Filled dirs frame state (state.storeByte (frame + lin % 4096) byte) :=
    storeByte_filled content.aligned (by omega) state byte
  have entry : ∀ dir ∈ dirs, ∀ page < 1048576,
      (state.storeByte (frame + lin % 4096) byte).entry dir page = state.entry dir page :=
    fun dir isDir page bound => filled.entry held.tables content isDir bound
  have contents : ∀ other, Content dirs state other → Content dirs (state.storeByte (frame + lin % 4096) byte) other :=
    fun other before => ⟨before.aligned, before.used, before.notDir, fun dir isDir i points =>
      before.notTable dir isDir i (filled.points held.tables content isDir points)⟩
  refine ⟨filled.tables held.tables content, held.trusted, held.cr3,
    fun i table points => held.proper i table (filled.points held.tables content forked.childMember points),
    held.free, fun other before => contents other (held.content other before), fun page bound => ?_,
    fun page bound => ?_, fun page wasMapped => ?_, fun addr isParent => ?_⟩
  · rw [entry _ forked.parentMember page bound]
    exact held.parentPages page bound
  · rw [entry _ forked.childMember page bound]
    rcases held.childPages page bound with same | ⟨absent, own, ownAttr, isOwn, before, free⟩
    · exact .inl same
    · exact .inr ⟨absent, own, ownAttr, isOwn, contents own before, free⟩
  · obtain ⟨bound, before, isBefore⟩ := held.mapped page wasMapped
    exact ⟨bound, before, (entry _ forked.childMember page bound).trans isBefore⟩
  · rw [byteAt_storeByte, replay_concat]
    simp only [target addr isParent, held.bytes addr isParent]

end

end Loading

theorem Loading.step {memory : Buffer} {cpu : Nat} {stores : List (Nat × Byte)} {before after : ExecState}
    (forked : TwoSpaces dirs start ppid pid) (loadable : Loadable start ppid pid dirs stores)
    {op : ExecOp} {reply : op.Reply}
    (held : Loading dirs start ppid pid before.kernel.pages mode ∧ before.position = mode.position)
    (allowed : (loadDiscipline memory cpu fun lin => ∃ byte, (lin, byte) ∈ stores).allows mode op)
    (done : execHandler memory cpu pid before op = some (after, reply)) :
    ∃ last, (loadDiscipline memory cpu fun lin => ∃ byte, (lin, byte) ∈ stores).moves mode op reply last ∧
      Loading dirs start ppid pid after.kernel.pages last ∧ after.position = last.position := by
  obtain ⟨held, position⟩ := held
  cases op with
  | fakeOpen =>
      cases done
      exact ⟨_, rfl, held.moveTo 0, rfl⟩
  | fakeSeek pos =>
      cases done
      exact ⟨_, rfl, held.moveTo pos, rfl⟩
  | fakeRead size =>
      cases done
      refine ⟨_, ⟨?_, rfl⟩, held.moveTo _, ?_⟩
      · rw [← position]
        rfl
      · rw [← position]
  | linMapping lin attr =>
      obtain ⟨pages, mapped, same⟩ := Option.map_eq_some_iff.mp done
      cases same
      obtain ⟨address, small, odd⟩ := allowed
      have ofParent : ∀ addr, OfParent start ppid addr → Content dirs start (pageBase addr) := by
        rintro addr ⟨page, inside, isUser, attr, found⟩
        exact loadable.parent page inside isUser _ attr found
      have next := held.map forked ofParent address small odd mapped
      refine ⟨_, rfl, next.congr rfl rfl ?_, position⟩
      exact held.cr3.trans next.cr3.symm
  | store lin byte =>
      obtain ⟨pages, accessed, same⟩ := Option.map_eq_some_iff.mp done
      cases same
      have next : Loading dirs start ppid pid (pages.storeByte (pages.pagePhyAddr pid lin + lin % 4096) byte)
          { mode with stored := mode.stored ++ [(lin, byte)] } :=
        held.store forked loadable allowed.1 allowed.2 accessed
      refine ⟨_, rfl, next.congr rfl rfl ?_, position⟩
      exact held.cr3.trans next.cr3.symm
  | updatePcb change =>
      have keeps : ∀ pcb, (change pcb).cr3 = pcb.cr3 := allowed
      cases done
      refine ⟨mode, rfl, held.congr rfl rfl (funext fun i => ?_), position⟩
      by_cases own : i = pid
      · subst own
        simp [Kernel.pages, Tasks.modify, keeps]
      · simp [Kernel.pages, Tasks.modify, own]
  | overrun => cases done

end AempOS.Task
