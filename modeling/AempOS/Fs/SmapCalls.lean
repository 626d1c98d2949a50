import AempOS.Fs.MapRuns
import AempOS.Sync.Spinlock

/-! `alloc_smap_bit` called by any processes at the same time: it reads and writes one
sector of the map after the other under `alloc_smap_bit_lock`. -/

set_option autoImplicit false

namespace AempOS.Fs

open Lib Sync

inductive SectOp where
  | rdSect (sect : Nat)
  | wrSect (sect : Nat) (fsbuf : Buffer)

def SectOp.Reply : SectOp → Type
  | .rdSect _ => Buffer
  | .wrSect _ _ => Unit

def SectOp.perform (disk : Disk) : (op : SectOp) → Option (Disk × op.Reply)
  | .rdSect sect => some (disk, Fs.rdSect disk sect)
  | .wrSect sect fsbuf => some (Fs.wrSect disk sect fsbuf, ())

/-- The loop of `allocSects`, sector by sector. -/
def allocSteps (sb : SuperBlock) : Nat → Nat → Nat → Nat → Program SectOp SectOp.Reply Nat
  | 0, _, freeSectNr, _ => .done freeSectNr
  | rounds + 1, i, freeSectNr, left =>
      let sect := 1 + 1 + sb.nrImapSects + i
      .act (.rdSect sect) fun fsbuf =>
        let out := allocBytes sb.n1stSect (i * sectorSize) sectorSize 0 fsbuf freeSectNr left
        let rest := if out.2.2 = 0 then .done out.2.1 else allocSteps sb rounds (i + 1) out.2.1 out.2.2
        if out.2.1 = 0 then rest else .act (.wrSect sect out.1) fun _ => rest

/-- What `alloc_smap_bit` does between `acquire` and `release`. -/
def allocSmapSteps (sb : SuperBlock) (nrSectsToAlloc : Nat) : Program SectOp SectOp.Reply Nat :=
  allocSteps sb sb.nrSmapSects 0 0 nrSectsToAlloc

/-- Any processes that allocate sectors, from `mkfs` on. -/
def smapCalls (Proc : Type) [DecidableEq Proc] (size : Nat) (disk : Disk) :
    Machine (Shared Proc Nat Disk Nat SectOp SectOp.Reply Nat) (LockAction Proc Nat) :=
  sharing Proc spinlock SectOp.perform (allocSmapSteps (newSuperBlock size)) (mkfs size disk)

/-- There are so many clear bits in a row. -/
def SmapRoom (sb : SuperBlock) (disk : Disk) (count : Nat) : Prop :=
  0 < count ∧ ∃ b, b + count ≤ sb.nrSmapSects * sectorBits ∧ ∀ i < count, sectorBit disk (b + i) = false

variable {Proc : Type} {sb : SuperBlock} {disk : Disk} {size m count : Nat}
  {log : List (Ended Proc Nat Nat)}

theorem allocSteps_run (rounds i freeSectNr left : Nat) (disk : Disk) :
    (allocSteps sb rounds i freeSectNr left).run SectOp.perform disk =
      some ((allocSects sb rounds i disk freeSectNr left).2, (allocSects sb rounds i disk freeSectNr left).1) := by
  induction rounds generalizing i freeSectNr left disk with
  | zero => rfl
  | succ rounds ih =>
      simp only [allocSteps, allocSects, Program.run, SectOp.perform, Option.bind_some]
      split
      next none =>
        split
        next => rfl
        next => exact ih ..
      next met =>
        simp only [Program.run, SectOp.perform, Option.bind_some]
        split
        next => rfl
        next => exact ih ..

/-- Alone, it is `alloc_smap_bit` in one step. -/
theorem allocSmapSteps_run (sb : SuperBlock) (count : Nat) (disk : Disk) :
    (allocSmapSteps sb count).run SectOp.perform disk =
      some ((allocSmapBit sb disk count).2, (allocSmapBit sb disk count).1) :=
  allocSteps_run ..

/-- The sector of a bit is one of those that a call has got. -/
def InRun (sb : SuperBlock) (entry : Ended Proc Nat Nat) (c : Nat) : Prop :=
  entry.result < c + sb.n1stSect ∧ c + sb.n1stSect ≤ entry.result + entry.call

/-- The bits below `m` are set: those of the root directory, and behind them those of
the calls in their order. -/
structure SmapFilled (sb : SuperBlock) (log : List (Ended Proc Nat Nat)) (disk : Disk) (m : Nat) : Prop where
  bits : ∀ c < sb.nrSmapSects * sectorBits, sectorBit disk c = true ↔ c < m
  low : 1 + nrDefaultFileSects ≤ m
  within : m ≤ sb.nrSmapSects * sectorBits
  runs : ∀ entry ∈ log, sb.n1stSect + nrDefaultFileSects ≤ entry.result ∧
    entry.result + entry.call < m + sb.n1stSect
  increasing : log.Pairwise fun one other => one.result + one.call ≤ other.result
  covered : ∀ c < m, 1 + nrDefaultFileSects ≤ c → ∃ entry ∈ log, InRun sb entry c

theorem mkfs_smapFilled (bounded : size < 2 ^ 32) (disk : Disk) :
    SmapFilled (newSuperBlock size) ([] : List (Ended Proc Nat Nat)) (mkfs size disk)
      (1 + nrDefaultFileSects) where
  bits c inside := by
    rw [(mkfs_mapsExact bounded disk).smap c inside]
    simp only [List.not_mem_nil, false_and, exists_false, or_false]
    unfold InSlot nrDefaultFileSects
    omega
  low := Nat.le_refl _
  within := by
    have smap : (newSuperBlock size).nrSmapSects = size / 4096 + 1 := rfl
    unfold sectorBits nrDefaultFileSects
    omega
  runs _ member := by cases member
  increasing := .nil
  covered c below above := by omega

/-- A call takes the next bits. -/
theorem SmapFilled.call (filled : SmapFilled sb log disk m) (maps : MapsAt sb)
    (near : sb.nrSmapSects * sectorBits + sb.n1stSect ≤ 2 ^ 32) (room : SmapRoom sb disk count) (user : Proc) :
    ∃ next, allocSmapBit sb disk count = (m + sb.n1stSect - 1, next) ∧
      SmapFilled sb (log ++ [⟨user, count, m + sb.n1stSect - 1⟩]) next (m + count) := by
  obtain ⟨some, start, fits, clear⟩ := room
  have first := maps.first
  have unset : sectorBit disk start = false := clear 0 some
  obtain ⟨b, next, ran, inside, zero, least, bits, _⟩ :=
    allocSmapBit_clear maps some ⟨start, by omega, by omega, unset⟩
  -- the least clear bit is the end of the set ones
  have atEnd : b = m := by
    have notBelow : ¬b < m := by
      rw [← filled.bits b inside, zero]
      exact Bool.false_ne_true
    have notAbove : ¬m < b := fun above =>
      Nat.lt_irrefl m ((filled.bits m (by omega)).mp (least m above))
    omega
  subst atEnd
  have early : b ≤ start := by
    by_contra before
    rw [least start (by omega)] at unset
    cases unset
  refine ⟨next, ran, fun c within => ?_, Nat.le_trans filled.low (Nat.le_add_right ..), by omega, ?_, ?_, ?_⟩
  · have old := filled.bits c within
    rw [bits, Bool.or_eq_true, old, decide_eq_true_eq]
    omega
  · intro entry member
    rcases List.mem_append.mp member with old | new
    · obtain ⟨above, below⟩ := filled.runs entry old
      exact ⟨above, by omega⟩
    · have low := filled.low
      obtain rfl := List.mem_singleton.mp new
      simp only
      omega
  · refine List.pairwise_append.mpr ⟨filled.increasing, List.pairwise_singleton _ _, fun one old other new => ?_⟩
    obtain rfl := List.mem_singleton.mp new
    have below := (filled.runs one old).2
    simp only
    omega
  · intro c below above
    by_cases old : c < b
    · obtain ⟨entry, member, inRun⟩ := filled.covered c old above
      exact ⟨entry, List.mem_append_left _ member, inRun⟩
    · refine ⟨_, List.mem_append_right _ (List.mem_singleton_self _), ?_⟩
      unfold InRun
      simp only
      omega

/-- The bits of the map have sector numbers of 32 bits. -/
theorem newSuperBlock_smap_near (bounded : size ≤ 2 ^ 31) :
    (newSuperBlock size).nrSmapSects * sectorBits + (newSuperBlock size).n1stSect ≤ 2 ^ 32 := by
  have smap : (newSuperBlock size).nrSmapSects = size / 4096 + 1 := rfl
  have first := newSuperBlock_first size
  unfold sectorBits
  omega

theorem serial_smapFilled (bounded : size ≤ 2 ^ 31) {last : Disk}
    (serial : Serial SectOp.perform (allocSmapSteps (newSuperBlock size)) (SmapRoom (newSuperBlock size))
      (mkfs size disk) log last) : ∃ m, SmapFilled (newSuperBlock size) log last m := by
  have small : size < 2 ^ 32 := by omega
  induction serial with
  | nil => exact ⟨_, mkfs_smapFilled small disk⟩
  | @snoc log middle last entry _ room ran ih =>
      obtain ⟨user, count, result⟩ := entry
      obtain ⟨m, filled⟩ := ih
      obtain ⟨next, allocated, kept⟩ :=
        filled.call (newSuperBlock_maps small) (newSuperBlock_smap_near bounded) room user
      rw [allocSmapSteps_run, allocated, Option.some.injEq, Prod.mk.injEq] at ran
      obtain ⟨rfl, rfl⟩ := ran
      exact ⟨_, kept⟩

/-- In every interleaving of calls of `alloc_smap_bit`, each with a wait for the lock and
with its sectors read and written one by one, no two calls get a sector in common, and the
map has just the bits of what was given out. -/
theorem smap_calls_apart [DecidableEq Proc] (bounded : size ≤ 2 ^ 31)
    {state : Shared Proc Nat Disk Nat SectOp SectOp.Reply Nat}
    (reached : (smapCalls Proc size disk).ReachableWhen
      (Entering spinlock (SmapRoom (newSuperBlock size))) state) :
    let sb := newSuperBlock size
    (∀ one other call called rest remaining, state.turn one = .inside call rest →
        state.turn other = .inside called remaining → one = other) ∧
      (∀ entry ∈ state.ended, sb.n1stSect + nrDefaultFileSects ≤ entry.result ∧
        entry.result + entry.call < sb.n1stSect + sb.nrSmapSects * sectorBits) ∧
      state.ended.Pairwise (fun one other => one.result + one.call ≤ other.result) ∧
      ((∀ user call rest, state.turn user ≠ .inside call rest) →
        ∀ c < sb.nrSmapSects * sectorBits, sectorBit state.data c = true ↔
          c < 1 + nrDefaultFileSects ∨ ∃ entry ∈ state.ended, InRun sb entry c) := by
  have ordered := sharing_ordered reached
  obtain ⟨base, serial, quiet⟩ := ordered.serial
  obtain ⟨m, filled⟩ := serial_smapFilled bounded serial
  refine ⟨fun one other call called rest remaining isIn isInToo => ordered.exclusive isIn isInToo,
    fun entry member => ?_, filled.increasing, fun nobody c inside => ?_⟩
  · obtain ⟨above, below⟩ := filled.runs entry member
    have within := filled.within
    exact ⟨above, by omega⟩
  · have low := filled.low
    rw [quiet nobody, filled.bits c inside]
    constructor
    · intro set
      rcases Nat.lt_or_ge c (1 + nrDefaultFileSects) with root | above
      · exact .inl root
      · exact .inr (filled.covered c set above)
    · rintro (root | ⟨entry, member, _, high⟩)
      · omega
      · have below := (filled.runs entry member).2
        omega

theorem SmapFilled.room (filled : SmapFilled sb log disk m) (some : 0 < count)
    (fits : m + count ≤ sb.nrSmapSects * sectorBits) : SmapRoom sb disk count := by
  refine ⟨some, m, fits, fun i inside => ?_⟩
  have bit := filled.bits (m + i) (by omega)
  rw [Bool.eq_false_iff]
  intro set
  have := bit.mp set
  omega

/-- Two processes have allocated a file each. -/
theorem smap_calls_apart_two : ∃ state,
    (smapCalls Nat 32768 fun _ => zeroBuffer).ReachableWhen
      (Entering spinlock (SmapRoom (newSuperBlock 32768))) state ∧
    state.ended = [⟨1, 2048, 2316⟩, ⟨2, 2048, 4364⟩] ∧
    (sectorBit state.data 4096 = true ↔
      4096 < 1 + nrDefaultFileSects ∨ ∃ entry ∈ state.ended, InRun (newSuperBlock 32768) entry 4096) := by
  have maps := @newSuperBlock_maps 32768 (by decide)
  have near := @newSuperBlock_smap_near 32768 (by decide)
  have start := @mkfs_smapFilled Nat 32768 (by decide) fun _ => zeroBuffer
  have firstRoom : SmapRoom (newSuperBlock 32768) (mkfs 32768 fun _ => zeroBuffer) 2048 :=
    start.room (by decide) (by decide)
  obtain ⟨middle, first, filled⟩ := start.call maps near firstRoom 1
  have secondRoom : SmapRoom (newSuperBlock 32768) middle 2048 := filled.room (by decide) (by decide)
  obtain ⟨last, second, _⟩ := filled.call maps near secondRoom 2
  have serial : Serial SectOp.perform (allocSmapSteps (newSuperBlock 32768)) (SmapRoom (newSuperBlock 32768))
      (mkfs 32768 fun _ => zeroBuffer) [⟨1, 2048, 2316⟩, ⟨2, 2048, 4364⟩] last :=
    .snoc (.snoc .nil firstRoom (by rw [allocSmapSteps_run, first]; rfl)) secondRoom
      (by rw [allocSmapSteps_run, second]; rfl)
  have reached := @Serial.reached Nat Nat _ _ _ _ _ _ spinlock _ _ _ _ _ _ serial
  obtain ⟨_, _, _, bits⟩ := smap_calls_apart (by decide) reached
  exact ⟨_, reached, rfl, bits (fun _ _ _ inside => by cases inside) 4096 (by decide)⟩

end AempOS.Fs
