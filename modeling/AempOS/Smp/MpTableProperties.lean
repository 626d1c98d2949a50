import AempOS.Smp.MpTable

/-! The scan of `mpinit` against the entries of the table. It is sound on the tables
whose entries have known types, which lie inside and bring no more processors than
`cpulist` holds, and on no other: at an unknown type it stays where it is. -/

set_option autoImplicit false

namespace AempOS.Smp

namespace MpTable

/-- `conf->length`. -/
def length (table : MpTable) : Nat := confLength table.memory table.conf

/-- `e`. -/
def limit (table : MpTable) : Addr := table.conf + BitVec.ofNat 32 table.length

/-- The first entry. -/
def entries (table : MpTable) : Addr := table.conf + mpConfSize

def Inside (table : MpTable) (a : Addr) : Prop := (a - table.conf).toNat < table.length

instance (table : MpTable) (a : Addr) : Decidable (table.Inside a) :=
  inferInstanceAs (Decidable (_ < _))

end MpTable

/-- The types of eight bytes besides `MPIOAPIC`. -/
def OtherEntry (type : BitVec 8) : Prop := type = mpBus ∨ type = mpIoIntr ∨ type = mpLIntr

def UnknownEntry (type : BitVec 8) : Prop := type ≠ mpProc ∧ type ≠ mpIoApic ∧ ¬OtherEntry type

/-- The entries from an address to the end of the table have known types and lie
inside, as far as they are read, and so many of them are processors. -/
inductive WellFormed (table : MpTable) : Addr → Nat → Prop where
  | stop {p : Addr} (behind : ¬p < table.limit) : WellFormed table p 0
  | processor {p : Addr} {procs : Nat} (before : p < table.limit) (inside : table.Inside p)
      (type : table.memory p = mpProc) (rest : WellFormed table (p + mpProcSize) procs) :
      WellFormed table p (procs + 1)
  | ioApic {p : Addr} {procs : Nat} (before : p < table.limit) (inside : table.Inside p)
      (type : table.memory p = mpIoApic) (apicno : table.Inside (p + 1))
      (rest : WellFormed table (p + mpIoApicSize) procs) : WellFormed table p procs
  | other {p : Addr} {procs : Nat} (before : p < table.limit) (inside : table.Inside p)
      (type : OtherEntry (table.memory p)) (rest : WellFormed table (p + 8) procs) :
      WellFormed table p procs

/-- An entry of unknown type is met in the walk from an address. -/
inductive MeetsUnknown (table : MpTable) : Addr → Prop where
  | here {p : Addr} (before : p < table.limit) (type : UnknownEntry (table.memory p)) :
      MeetsUnknown table p
  | processor {p : Addr} (before : p < table.limit) (type : table.memory p = mpProc)
      (rest : MeetsUnknown table (p + mpProcSize)) : MeetsUnknown table p
  | ioApic {p : Addr} (before : p < table.limit) (type : table.memory p = mpIoApic)
      (rest : MeetsUnknown table (p + mpIoApicSize)) : MeetsUnknown table p
  | other {p : Addr} (before : p < table.limit) (type : OtherEntry (table.memory p))
      (rest : MeetsUnknown table (p + 8)) : MeetsUnknown table p

/-- `mpinit` ends on the table, reads its entries inside it and stores inside
`cpulist`, and an entry of unknown type leaves one processor. -/
def ScansWithinBounds (table : MpTable) : Prop :=
  ∃ fuel final, mpinit fuel table.memory = some final ∧
    (∀ a ∈ final.read, table.Inside a) ∧ (∀ store ∈ final.stored, store.1 < nCpu) ∧
    (MeetsUnknown table table.entries → final.cpunumber = 1 ∧ final.ismp = false)

/-! ## One entry -/

theorem known_or_unknown (type : BitVec 8) :
    type = mpProc ∨ type = mpIoApic ∨ OtherEntry type ∨ UnknownEntry type := by
  by_cases processor : type = mpProc
  · exact .inl processor
  · by_cases ioApic : type = mpIoApic
    · exact .inr (.inl ioApic)
    · by_cases other : OtherEntry type
      · exact .inr (.inr (.inl other))
      · exact .inr (.inr (.inr ⟨processor, ioApic, other⟩))

theorem mpEntry_processor {memory : Memory} {scan : MpScan} (type : memory scan.p = mpProc) :
    mpEntry memory scan = { scan with
      read := scan.read ++ [scan.p]
      stored := scan.stored ++ [(scan.cpunumber, scan.cpunumber)]
      cpunumber := scan.cpunumber + 1
      p := scan.p + mpProcSize } := by
  simp only [mpEntry, type, if_true]

theorem mpEntry_ioApic {memory : Memory} {scan : MpScan} (type : memory scan.p = mpIoApic) :
    mpEntry memory scan = { scan with
      ioapicid := memory (scan.p + 1)
      read := scan.read ++ [scan.p] ++ [scan.p + 1]
      p := scan.p + mpIoApicSize } := by
  simp only [mpEntry, type, if_true]
  rw [if_neg (by decide)]

theorem mpEntry_other {memory : Memory} {scan : MpScan} (type : OtherEntry (memory scan.p)) :
    mpEntry memory scan = { scan with read := scan.read ++ [scan.p], p := scan.p + 8 } := by
  have noProcessor : memory scan.p ≠ mpProc := by
    rintro same
    rw [same] at type
    exact absurd type (by unfold OtherEntry; decide)
  have noIoApic : memory scan.p ≠ mpIoApic := by
    rintro same
    rw [same] at type
    exact absurd type (by unfold OtherEntry; decide)
  simp only [mpEntry, noProcessor, noIoApic, if_false]
  exact if_pos type

theorem mpEntry_unknown {memory : Memory} {scan : MpScan} (type : UnknownEntry (memory scan.p)) :
    mpEntry memory scan = { scan with read := scan.read ++ [scan.p], ismp := false } := by
  obtain ⟨noProcessor, noIoApic, noOther⟩ := type
  simp only [mpEntry, noProcessor, noIoApic, if_false]
  exact if_neg noOther

/-- At an entry of unknown type the loop goes round without end. -/
theorem mpEntries_stuck {memory : Memory} {e : Addr} (fuel : Nat) {scan : MpScan}
    (before : scan.p < e) (type : UnknownEntry (memory scan.p)) :
    mpEntries memory e fuel scan = none := by
  induction fuel generalizing scan with
  | zero => rfl
  | succ fuel ih =>
      rw [mpEntries, if_pos before, mpEntry_unknown type]
      exact ih before type

/-! ## The loop -/

theorem mpEntry_read (memory : Memory) (scan : MpScan) :
    ∃ more, (mpEntry memory scan).read = scan.read ++ scan.p :: more := by
  obtain type | type | type | type := known_or_unknown (memory scan.p)
  · exact ⟨[], by rw [mpEntry_processor type]⟩
  · exact ⟨[scan.p + 1], by rw [mpEntry_ioApic type]; simp⟩
  · exact ⟨[], by rw [mpEntry_other type]⟩
  · exact ⟨[], by rw [mpEntry_unknown type]⟩

theorem mpEntries_read {memory : Memory} {e : Addr} {fuel : Nat} {scan final : MpScan}
    (run : mpEntries memory e fuel scan = some final) : scan.read ⊆ final.read := by
  induction fuel generalizing scan with
  | zero => cases run
  | succ fuel ih =>
      rw [mpEntries] at run
      split at run
      · obtain ⟨more, read⟩ := mpEntry_read memory scan
        have later := ih run
        rw [read] at later
        exact fun a member => later (List.mem_append_left _ member)
      · cases run
        exact fun _ member => member

/-- The stores for so many processors from the count on. -/
def idStores (count : Nat) : Nat → List (Nat × Nat)
  | 0 => []
  | procs + 1 => (count, count) :: idStores (count + 1) procs

theorem idStores_below {procs : Nat} (count bound : Nat) :
    (∀ store ∈ idStores count procs, store.1 < bound) ↔ procs = 0 ∨ count + procs ≤ bound := by
  induction procs generalizing count with
  | zero => simp [idStores]
  | succ procs ih =>
      simp only [idStores, List.forall_mem_cons, ih]
      omega

/-- A scan that ends and stays inside has walked entries of known types. -/
theorem wellFormed_of_mpEntries {table : MpTable} {fuel : Nat} {scan final : MpScan}
    (run : mpEntries table.memory table.limit fuel scan = some final)
    (inside : ∀ a ∈ final.read, table.Inside a) :
    ∃ procs, WellFormed table scan.p procs ∧
      final.stored = scan.stored ++ idStores scan.cpunumber procs := by
  induction fuel generalizing scan with
  | zero => cases run
  | succ fuel ih =>
      by_cases before : scan.p < table.limit
      · have unstuck : ¬UnknownEntry (table.memory scan.p) := by
          intro type
          rw [mpEntries_stuck _ before type] at run
          cases run
        rw [mpEntries, if_pos before] at run
        have read := mpEntries_read run
        obtain ⟨procs, rest, stored⟩ := ih run
        obtain type | type | type | type := known_or_unknown (table.memory scan.p)
        · rw [mpEntry_processor type] at read rest stored
          have here : table.Inside scan.p := inside _ (read (by simp))
          refine ⟨procs + 1, .processor before here type rest, ?_⟩
          simp only [stored, idStores, List.append_assoc, List.singleton_append]
        · rw [mpEntry_ioApic type] at read rest stored
          have here : table.Inside scan.p := inside _ (read (by simp))
          have apicno : table.Inside (scan.p + 1) := inside _ (read (by simp))
          exact ⟨procs, .ioApic before here type apicno rest, stored⟩
        · rw [mpEntry_other type] at read rest stored
          have here : table.Inside scan.p := inside _ (read (by simp))
          exact ⟨procs, .other before here type rest, stored⟩
        · exact absurd type unstuck
      · rw [mpEntries, if_neg before] at run
        cases run
        exact ⟨0, .stop before, by simp [idStores]⟩

/-- The scan of entries of known types ends and stays inside. -/
theorem mpEntries_of_wellFormed {table : MpTable} {p : Addr} {procs : Nat}
    (walk : WellFormed table p procs) {scan : MpScan} (at' : scan.p = p)
    (inside : ∀ a ∈ scan.read, table.Inside a) :
    ∃ fuel final, mpEntries table.memory table.limit fuel scan = some final ∧
      (∀ a ∈ final.read, table.Inside a) ∧
      final.stored = scan.stored ++ idStores scan.cpunumber procs := by
  induction walk generalizing scan with
  | stop behind =>
      subst at'
      exact ⟨1, scan, if_neg behind, inside, by simp [idStores]⟩
  | @processor p procs before here type rest ih =>
      subst at'
      have entry := mpEntry_processor type
      have within : ∀ a ∈ (mpEntry table.memory scan).read, table.Inside a := by
        rw [entry]
        simpa [or_imp, forall_and] using ⟨inside, here⟩
      obtain ⟨fuel, final, run, read, stored⟩ := ih (by rw [entry]) within
      refine ⟨fuel + 1, final, (if_pos before).trans run, read, ?_⟩
      rw [stored, entry]
      simp only [idStores, List.append_assoc, List.singleton_append]
  | @ioApic p procs before here type apicno rest ih =>
      subst at'
      have entry := mpEntry_ioApic type
      have within : ∀ a ∈ (mpEntry table.memory scan).read, table.Inside a := by
        rw [entry]
        simpa [or_imp, forall_and] using ⟨inside, here, apicno⟩
      obtain ⟨fuel, final, run, read, stored⟩ := ih (by rw [entry]) within
      exact ⟨fuel + 1, final, (if_pos before).trans run, read, by rw [stored, entry]⟩
  | @other p procs before here type rest ih =>
      subst at'
      have entry := mpEntry_other type
      have within : ∀ a ∈ (mpEntry table.memory scan).read, table.Inside a := by
        rw [entry]
        simpa [or_imp, forall_and] using ⟨inside, here⟩
      obtain ⟨fuel, final, run, read, stored⟩ := ih (by rw [entry]) within
      exact ⟨fuel + 1, final, (if_pos before).trans run, read, by rw [stored, entry]⟩

theorem mpEntries_none {memory : Memory} {e : Addr} {scan : MpScan} (before : scan.p < e)
    (rest : ∀ fuel, mpEntries memory e fuel (mpEntry memory scan) = none) (fuel : Nat) :
    mpEntries memory e fuel scan = none := by
  cases fuel with
  | zero => rfl
  | succ fuel => exact (if_pos before).trans (rest fuel)

/-- A scan that meets an entry of unknown type never ends. -/
theorem mpEntries_of_meetsUnknown {table : MpTable} {p : Addr} (meets : MeetsUnknown table p) (fuel : Nat)
    {scan : MpScan} (at' : scan.p = p) : mpEntries table.memory table.limit fuel scan = none := by
  induction meets generalizing scan fuel with
  | here before type =>
      subst at'
      exact mpEntries_stuck fuel before type
  | processor before type _ ih =>
      subst at'
      exact mpEntries_none before (fun fuel => ih fuel (by rw [mpEntry_processor type])) fuel
  | ioApic before type _ ih =>
      subst at'
      exact mpEntries_none before (fun fuel => ih fuel (by rw [mpEntry_ioApic type])) fuel
  | other before type _ ih =>
      subst at'
      exact mpEntries_none before (fun fuel => ih fuel (by rw [mpEntry_other type])) fuel

/-! ## The whole table -/

@[simp] theorem finishScan_read (scan : MpScan) : (finishScan scan).read = scan.read := by
  unfold finishScan
  split <;> rfl

@[simp] theorem finishScan_stored (scan : MpScan) : (finishScan scan).stored = scan.stored := by
  unfold finishScan
  split <;> rfl

/-- The variables as the loop starts. -/
def MpTable.scan (table : MpTable) : MpScan :=
  { startScan with
    ismp := true, lapic := confLapicAddr table.memory table.conf, p := table.entries }

theorem mpinit_table (table : MpTable) (fuel : Nat) : mpinit fuel table.memory =
    (mpEntries table.memory table.limit fuel table.scan).map finishScan := by
  rw [mpinit, table.accepted]
  rfl

/-- The scan is sound on exactly the well-formed tables of at most `NCPU` processors. -/
theorem scansWithinBounds_iff (table : MpTable) :
    ScansWithinBounds table ↔ ∃ procs ≤ nCpu, WellFormed table table.entries procs := by
  constructor
  · intro ⟨fuel, final, run, inside, below, _⟩
    rw [mpinit_table] at run
    obtain ⟨last, walked, rfl⟩ := Option.map_eq_some_iff.mp run
    rw [finishScan_read] at inside
    rw [finishScan_stored] at below
    obtain ⟨procs, walk, stored⟩ := wellFormed_of_mpEntries walked inside
    rw [stored] at below
    have few := (idStores_below 0 nCpu).mp below
    exact ⟨procs, by omega, walk⟩
  · intro ⟨procs, few, walk⟩
    obtain ⟨fuel, last, walked, inside, stored⟩ :=
      @mpEntries_of_wellFormed table _ _ walk table.scan rfl (by simp [MpTable.scan, startScan])
    refine ⟨fuel, finishScan last, by rw [mpinit_table, walked]; rfl, ?_, ?_, ?_⟩
    · rw [finishScan_read]
      exact inside
    · rw [finishScan_stored, stored]
      exact (idStores_below 0 nCpu).mpr (.inr (by omega))
    · intro meets
      rw [mpEntries_of_meetsUnknown meets fuel rfl] at walked
      cases walked

/-- A floating pointer structure at `0x10000` and a table at `0x20000`, version 4, of two
processors, a bus and an I/O APIC. -/
def twoProcessorMemory : Memory := fun a =>
  ([(0x40F, 0x10), (0x10000, 0x5F), (0x10001, 0x4D), (0x10002, 0x50), (0x10003, 0x5F),
    (0x10006, 0x02), (0x1000A, 0xA3), (0x20000, 0x50), (0x20001, 0x43), (0x20002, 0x4D),
    (0x20003, 0x50), (0x20004, 100), (0x20006, 4), (0x20007, 94), (0x20022, 4), (0x20041, 1),
    (0x20054, 1), (0x2005C, 2), (0x2005D, 2)].lookup a).getD 0

def twoProcessorTable : MpTable := ⟨twoProcessorMemory, 0x20000, by decide +kernel⟩

example : WellFormed twoProcessorTable twoProcessorTable.entries 2 :=
  .processor (by decide +kernel) (by decide +kernel) (by decide +kernel)
    (.processor (by decide +kernel) (by decide +kernel) (by decide +kernel)
      (.other (by decide +kernel) (by decide +kernel) (.inl (by decide +kernel))
        (.ioApic (by decide +kernel) (by decide +kernel) (by decide +kernel) (by decide +kernel)
          (.stop (by decide +kernel)))))

/-- A floating pointer structure at `0x10000` and a table at `0x20000`, version 4,
with one entry, of type 5. -/
def unknownEntryMemory : Memory := fun a =>
  ([(0x40F, 0x10), (0x10000, 0x5F), (0x10001, 0x4D), (0x10002, 0x50), (0x10003, 0x5F),
    (0x10006, 0x02), (0x1000A, 0xA3), (0x20000, 0x50), (0x20001, 0x43), (0x20002, 0x4D),
    (0x20003, 0x50), (0x20004, 52), (0x20006, 4), (0x20007, 146), (0x20022, 1), (0x2002C, 5)].lookup
      a).getD 0

def unknownEntryTable : MpTable := ⟨unknownEntryMemory, 0x20000, by decide +kernel⟩

theorem unknownEntryTable_endless : ¬ScansWithinBounds unknownEntryTable := by
  intro ⟨fuel, final, run, _⟩
  rw [mpinit_table, mpEntries_stuck fuel (by decide +kernel) (by unfold UnknownEntry OtherEntry; decide +kernel)]
    at run
  cases run

end AempOS.Smp
