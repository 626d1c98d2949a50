import AempOS.Boot.FileLoad

/-! Each of the five files comes to its place, cluster by cluster, and the loads leave
each other's places alone. -/

set_option autoImplicit false

namespace AempOS.Boot

open Lib

variable {bios : Bios} {floppy : Floppy} {cpu next : Cpu} {cluster : BitVec 16} {far : Bool}
  {start c d : Nat} {clusters rest : List Nat}

/-- The clusters of a file, from the first one on. -/
inductive Chain (floppy : Floppy) : Nat → List Nat → Prop where
  | last {c : Nat} : c < 2849 → fatEntry floppy c = 0xFFF → Chain floppy c [c]
  | link {c : Nat} {rest : List Nat} : c < 2849 → Chain floppy (fatEntry floppy c) rest → Chain floppy c (c :: rest)

/-- Where `GetFATEntry` reads the FAT to. -/
def fatBuffer : Nat := 0x5F000

/-- The sectors of the clusters lie one after the other from an address on. -/
def Loaded (floppy : Floppy) (clusters : List Nat) (memory : Nat → Byte) (start : Nat) : Prop :=
  ∀ i < 512 * clusters.length, memory (start + i) = floppy (clusters.getD (i / 512) 0 + 31) (i % 512)

/-- Only bytes from `start` up to `stop` and those of the FAT have changed. -/
def ChangedWithin (before after : Nat → Byte) (start stop : Nat) : Prop :=
  ∀ a, a < start ∨ stop ≤ a → a < fatBuffer ∨ fatBuffer + 1024 ≤ a → after a = before a

theorem Chain.small (chain : Chain floppy c clusters) : c < 2849 := by
  cases chain with
  | last small => exact small
  | link small => exact small

theorem Chain.length_pos (chain : Chain floppy c clusters) : 0 < clusters.length := by
  cases chain with
  | last => exact Nat.one_pos
  | link => exact Nat.succ_pos _

theorem ChangedWithin.mono {before after : Nat → Byte} {stop low high : Nat}
    (changed : ChangedWithin before after start stop) (below : low ≤ start) (above : stop ≤ high) :
    ChangedWithin before after low high := by
  intro a outside apart
  exact changed a (by omega) apart

theorem ChangedWithin.trans {before middle after : Nat → Byte} {stop : Nat}
    (first : ChangedWithin before middle start stop)
    (second : ChangedWithin middle after start stop) : ChangedWithin before after start stop := by
  intro a outside apart
  rw [second a outside apart, first a outside apart]

theorem Loaded.cons {memory : Nat → Byte} (bytes : ∀ i < 512, memory (start + i) = floppy (c + 31) i)
    (loaded : Loaded floppy rest memory (start + 512)) : Loaded floppy (c :: rest) memory start := by
  intro i inside
  by_cases first : i < 512
  · rw [bytes i first, Nat.div_eq_of_lt first, Nat.mod_eq_of_lt first]
    rfl
  · obtain ⟨j, rfl⟩ := Nat.exists_eq_add_of_le (Nat.le_of_not_lt first)
    have within : j < 512 * rest.length := by
      rw [List.length_cons] at inside
      omega
    have sector : (512 + j) / 512 = j / 512 + 1 := by omega
    rw [← Nat.add_assoc, loaded j within, sector, List.getD_cons_succ, Nat.add_mod_left]

theorem Loaded.keep {before after : Nat → Byte} {low stop : Nat}
    (loaded : Loaded floppy clusters before start) (changed : ChangedWithin before after low stop)
    (apart : start + 512 * clusters.length ≤ low ∨ stop ≤ start)
    (buffer : start + 512 * clusters.length ≤ fatBuffer ∨ fatBuffer + 1024 ≤ start) :
    Loaded floppy clusters after start := by
  intro i inside
  rw [← loaded i inside]
  exact changed (start + i) (by omega) (by omega)

/-! ## One round -/

theorem readSector_keeps (ran : readSector bios cpu = some next) {a : Nat}
    (outside : a < linear cpu.es cpu.bx ∨
      linear cpu.es cpu.bx + 512 * (cpu.cx.setWidth 8).toNat ≤ a) :
    next.memory a = cpu.memory a := by
  obtain ⟨⟨al, ah⟩, _, rfl⟩ := Option.map_eq_some_iff.mp ran
  exact if_neg (by omega)

/-- The FAT is read to its buffer, and the entry comes to `ax`. -/
theorem getFatEntry_reads (delivers : Delivers bios floppy) (cpu : Cpu)
    (small : cpu.ax.toNat < 2849) :
    ∃ next, getFatEntry bios cpu = some next ∧ next.ax.toNat = fatEntry floppy cpu.ax.toNat ∧
      next.bx = cpu.bx ∧ next.es = cpu.es ∧
      ∀ a, a < fatBuffer ∨ fatBuffer + 1024 ≤ a → next.memory a = cpu.memory a := by
  have three : (3 : BitVec 16).toNat = 3 := rfl
  have two : (2 : BitVec 16).toNat = 2 := rfl
  have count : (2 : BitVec 8).toNat = 2 := rfl
  have size : bpbBytsPerSec.toNat = 512 := rfl
  have buffer : linear (baseOfKernelFile - 0x100) 0 = fatBuffer := by decide
  -- `ax * 3 / 2` is the byte, its half the parity
  have product := mulWord_value cpu.ax 3
  rw [three] at product
  obtain ⟨half, parity, halved, halfValue, parityValue⟩ :=
    @divWord_eq _ _ 2 _ product (by decide) (by rw [two]; omega)
  rw [two] at halfValue parityValue
  obtain ⟨sector, offset, divided, sectorValue, offsetValue⟩ :=
    @divWord_eq 0 half bpbBytsPerSec _ (Nat.zero_add _) (by decide) (by rw [size]; omega)
  rw [size] at sectorValue offsetValue
  have first : (sector + sectorNoOfFat1).toNat = 1 + half.toNat / 512 := by
    unfold sectorNoOfFat1
    bv_omega
  obtain ⟨read, ran, base, segment, bytes, kept⟩ := readSector_delivers delivers
    { cpu with
      ax := sector + sectorNoOfFat1
      bx := 0
      cx := setCl cpu.cx 2
      dx := offset
      es := baseOfKernelFile - 0x100 }
    (by simp only [first]; omega) (by simp only [first, setCl_low, count]; omega)
  simp only [setCl_low, first, count, buffer] at bytes base segment kept
  rw [← buffer, ← segment] at bytes
  have word := word_read base offsetValue bytes
  have place : half.toNat = 3 * cpu.ax.toNat / 2 := by omega
  unfold getFatEntry
  simp only [halved, divided, ran, Option.bind_eq_bind, Option.bind_some, Option.some.injEq,
    exists_eq_left']
  refine ⟨?_, trivial, trivial, kept⟩
  rw [entry_toNat parityValue, word, place]
  rfl

/-- A sector is read, and the FAT gives the next one. -/
theorem loadSector_spec (delivers : Delivers bios floppy) (far : Bool) (here : cluster.toNat = c)
    (small : c < 2849) (sector : cpu.ax.toNat = c + 31)
    (room : linear cpu.es cpu.bx + 512 ≤ fatBuffer ∨ fatBuffer + 1024 ≤ linear cpu.es cpu.bx) :
    ∃ next, next.bx = cpu.bx ∧ next.es = cpu.es ∧ next.ax.toNat = fatEntry floppy c ∧
      (∀ i < 512, next.memory (linear cpu.es cpu.bx + i) = floppy (c + 31) i) ∧
      ChangedWithin cpu.memory next.memory (linear cpu.es cpu.bx) (linear cpu.es cpu.bx + 512) ∧
      loadSector bios far cluster cpu =
        if next.ax = 0x0FFF then some (next, none)
        else some ({ next with
          ax := next.ax + 14 + deltaSectorNo
          dx := 14
          bx := next.bx + bpbBytsPerSec
          es := if far && decide (65536 ≤ next.bx.toNat + bpbBytsPerSec.toNat)
            then next.es + 0x1000 else next.es }, some next.ax) := by
  have one : (1 : BitVec 8).toNat = 1 := rfl
  obtain ⟨read, ran, base, segment, bytes, kept⟩ := readSector_delivers delivers
    { cpu with cx := setCl cpu.cx 1 } (by simp only [sector]; omega)
    (by simp only [setCl_low, one]; omega)
  simp only [setCl_low, one, sector] at bytes kept base segment
  obtain ⟨next, got, entry, bx, es, spared⟩ :=
    getFatEntry_reads delivers { read with ax := cluster } (by simp only [here]; exact small)
  simp only [here] at entry
  refine ⟨next, bx.trans base, es.trans segment, entry, fun i inside => ?_, fun a outside apart => ?_, ?_⟩
  · rw [spared _ (by omega), bytes i (by omega), Nat.div_eq_of_lt inside, Nat.mod_eq_of_lt inside,
      Nat.add_zero]
  · rw [spared a apart]
    exact kept a (by omega)
  · unfold loadSector
    simp only [ran, got, Option.bind_eq_bind, Option.bind_some]

/-! ## All rounds -/

/-- So many sectors from `es:bx` on stay in the segment, or below 1 MiB for a far load. -/
def Room (far : Bool) (es bx : BitVec 16) (sectors : Nat) : Prop :=
  if far then bx.toNat % 512 = 0 ∧ linear es bx + 512 * sectors ≤ 0x100000
  else bx.toNat + 512 * sectors ≤ 65536

theorem room_next {es bx : BitVec 16} {sectors : Nat} (room : Room far es bx (sectors + 1))
    (more : 0 < sectors) :
    let moved := if far && decide (65536 ≤ bx.toNat + bpbBytsPerSec.toNat) then es + 0x1000 else es
    linear moved (bx + bpbBytsPerSec) = linear es bx + 512 ∧
      Room far moved (bx + bpbBytsPerSec) sectors := by
  have size : bpbBytsPerSec.toNat = 512 := rfl
  cases far with
  | false =>
      simp only [Room, Bool.false_and, Bool.false_eq_true, if_false] at room ⊢
      have moved : (bx + bpbBytsPerSec).toNat = bx.toNat + 512 := by
        rw [BitVec.toNat_add, size]
        omega
      unfold linear
      omega
  | true =>
      simp only [Room, if_true, Bool.true_and, decide_eq_true_eq, size] at room ⊢
      have moved : (bx + bpbBytsPerSec).toNat = (bx.toNat + 512) % 65536 := by
        rw [BitVec.toNat_add, size]
      have small := bx.isLt
      unfold linear at room
      split
      next wraps =>
        have segment : (es + 0x1000).toNat = es.toNat + 0x1000 := by bv_omega
        unfold linear
        omega
      next =>
        unfold linear
        omega

theorem loadRounds_spec (delivers : Delivers bios floppy) (chain : Chain floppy c clusters)
    (here : cluster.toNat = c) (sector : cpu.ax.toNat = c + 31)
    (room : Room far cpu.es cpu.bx clusters.length)
    (apart : linear cpu.es cpu.bx + 512 * clusters.length ≤ fatBuffer ∨
      fatBuffer + 1024 ≤ linear cpu.es cpu.bx)
    {rounds : Nat} (enough : clusters.length ≤ rounds) :
    ∃ next, loadRounds bios far rounds cluster cpu = some next ∧
      Loaded floppy clusters next.memory (linear cpu.es cpu.bx) ∧
      ChangedWithin cpu.memory next.memory (linear cpu.es cpu.bx)
        (linear cpu.es cpu.bx + 512 * clusters.length) := by
  induction chain generalizing cluster cpu rounds with
  | @last c small ended =>
      obtain ⟨rounds, rfl⟩ := Nat.exists_eq_add_of_le' enough
      obtain ⟨next, _, _, entry, bytes, kept, ran⟩ :=
        loadSector_spec delivers far here small sector (by simpa using apart)
      have final : next.ax = 0x0FFF := BitVec.eq_of_toNat_eq (entry.trans ended)
      rw [if_pos final] at ran
      refine ⟨next, ?_, fun i inside => ?_, kept⟩
      · simp only [List.length_singleton, loadRounds, ran]
      · rw [List.length_singleton] at inside
        rw [bytes i (by omega), Nat.div_eq_of_lt (by omega), Nat.mod_eq_of_lt (by omega)]
        rfl
  | @link c rest small later ih =>
      obtain ⟨rounds, rfl⟩ := Nat.exists_eq_add_of_le' enough
      rw [List.length_cons] at room apart
      have sizes : 512 * (rest.length + 1) = 512 + 512 * rest.length := by omega
      rw [sizes, ← Nat.add_assoc] at apart
      have first : linear cpu.es cpu.bx + 512 ≤ fatBuffer ∨ fatBuffer + 1024 ≤ linear cpu.es cpu.bx := by
        omega
      obtain ⟨next, bx, es, entry, bytes, kept, ran⟩ :=
        loadSector_spec delivers far here small sector first
      have more : next.ax ≠ 0x0FFF := by
        intro final
        have small := later.small
        rw [← entry, final] at small
        exact absurd small (by decide)
      rw [if_neg more, bx, es] at ran
      obtain ⟨place, left⟩ := room_next room later.length_pos
      have following : (next.ax + 14 + deltaSectorNo).toNat = fatEntry floppy c + 31 := by
        have small := later.small
        unfold deltaSectorNo
        bv_omega
      have apart' : linear cpu.es cpu.bx + 512 + 512 * rest.length ≤ fatBuffer ∨
          fatBuffer + 1024 ≤ linear cpu.es cpu.bx + 512 := by omega
      rw [← place] at apart'
      let resumed : Cpu := { next with
        ax := next.ax + 14 + deltaSectorNo
        dx := 14
        bx := cpu.bx + bpbBytsPerSec
        es := if far && decide (65536 ≤ cpu.bx.toNat + bpbBytsPerSec.toNat)
          then cpu.es + 0x1000 else cpu.es }
      obtain ⟨last, done, loaded, changed⟩ :=
        @ih resumed next.ax entry following left apart' _ (Nat.le_add_right rest.length rounds)
      have place : linear resumed.es resumed.bx = linear cpu.es cpu.bx + 512 := place
      rw [place] at loaded changed
      refine ⟨last, ?_, .cons (fun i inside => ?_) loaded, ?_⟩
      · rw [List.length_cons, ← Nat.add_assoc, Nat.add_comm rounds, loadRounds, ran]
        exact done
      · have kept : last.memory (linear cpu.es cpu.bx + i) = next.memory (linear cpu.es cpu.bx + i) :=
          changed _ (by omega) (by omega)
        rw [kept, bytes i inside]
      · rw [List.length_cons, sizes, ← Nat.add_assoc]
        exact (kept.mono (Nat.le_refl _) (Nat.le_add_right ..)).trans
          (changed.mono (Nat.le_add_right ..) (Nat.le_refl _))

/-! ## The entry -/

theorem cmpFilename_end {name : List Byte} {di d : BitVec 16}
    (same : cmpFilename cpu di name = (true, d)) : d = di + BitVec.ofNat 16 name.length := by
  induction name generalizing di with
  | nil =>
      simp only [cmpFilename, Prod.mk.injEq, true_and] at same
      simp [← same]
  | cons al rest ih =>
      simp only [cmpFilename] at same
      split at same
      next =>
        rw [ih same, List.length_cons]
        bv_omega
      next => cases same

/-- `di` stands behind the name in an entry. -/
theorem searchSector_end {name : List Byte} (short : name.length < 32) {dx : Nat} {di d : BitVec 16}
    (aligned : di.toNat % 32 = 0) (ended : searchSector cpu name dx di = some d) :
    d.toNat % 32 = name.length := by
  induction dx generalizing di with
  | zero => cases ended
  | succ dx ih =>
      simp only [searchSector] at ended
      split at ended
      next _ behind same =>
        cases ended
        rw [cmpFilename_end same]
        bv_omega
      next _ behind _ =>
        refine ih ?_ ended
        have mask := maskEntry_toNat behind
        bv_omega

theorem searchRootDir_end {name : List Byte} (short : name.length < 32) {base sectorNo : BitVec 16}
    {left : Nat} {found : Found} (ran : searchRootDir bios base name left sectorNo cpu = some found) :
    found.cpu.es = base ∧ found.di.toNat % 32 = name.length ∧
      ChangedWithin cpu.memory found.cpu.memory (linear base 0) (linear base 0 + 512) := by
  induction left generalizing sectorNo cpu with
  | zero => cases ran
  | succ left ih =>
      unfold searchRootDir at ran
      simp only [Option.bind_eq_bind, Option.bind_eq_some_iff] at ran
      obtain ⟨read, loaded, ended⟩ := ran
      have one : (1 : BitVec 8).toNat = 1 := rfl
      have segment : read.es = base := by
        obtain ⟨_, _, rfl⟩ := Option.map_eq_some_iff.mp loaded
        rfl
      have kept : ChangedWithin cpu.memory read.memory (linear base 0) (linear base 0 + 512) := by
        intro a outside _
        refine readSector_keeps loaded ?_
        simp only [setCl_low, one]
        exact outside
      split at ended
      next di behind =>
        cases ended
        exact ⟨segment, searchSector_end short rfl behind, kept⟩
      next =>
        obtain ⟨es, di, changed⟩ := ih ended
        exact ⟨es, di, kept.trans changed⟩

/-- The first cluster in an entry of the root directory. -/
def firstCluster (floppy : Floppy) (k e : Nat) : Nat :=
  (floppy (19 + k) (32 * e + 0x1A)).toNat + 256 * (floppy (19 + k) (32 * e + 0x1B)).toNat

/-- The file is in the root directory, and its entry has its chain. -/
structure OnFloppy (floppy : Floppy) (name : List Byte) (clusters : List Nat) : Prop where
  held : Held floppy name
  chain : ∀ k < rootDirSectors, ∀ e < 16, entryHas floppy name k e = true →
    Chain floppy (firstCluster floppy k e) clusters

theorem startLoad_spec {name : List Byte} {found : Found} {k e : Nat} (base : BitVec 16)
    (entry : AtEntry floppy name found k e) (behind : found.di.toNat % 32 = 11) :
    (startLoad base found).1.toNat = firstCluster floppy k e := by
  obtain ⟨low, high⟩ := entry.di
  have within := entry.entry
  have masked : found.di &&& 0xFFF0 = BitVec.ofNat 16 (32 * e) := by
    have same : found.di &&& (0xFFF0 : BitVec 16) = (found.di >>> 4) <<< 4 := by
      apply BitVec.eq_of_getLsbD_eq
      intro i inside
      interval_cases i <;> simp
    rw [same]
    apply BitVec.eq_of_toNat_eq
    rw [BitVec.toNat_shiftLeft, BitVec.toNat_ushiftRight, Nat.shiftRight_eq_div_pow,
      Nat.shiftLeft_eq, BitVec.toNat_ofNat]
    omega
  have place : ((found.di &&& 0xFFF0) + 0x1A).toNat = 32 * e + 0x1A := by
    rw [masked]
    bv_omega
  have next : ((found.di &&& 0xFFF0) + 0x1A + 1).toNat = 32 * e + 0x1B := by bv_omega
  unfold startLoad Cpu.word
  simp only
  rw [append_toNat, byte_read entry.read (by omega), byte_read entry.read (by omega), place, next]
  rfl

/-! ## Files -/

theorem loadFile_spec (delivers : Delivers bios floppy) {name : List Byte} (length : name.length = 11)
    (held : OnFloppy floppy name clusters) (far : Bool) {base : BitVec 16}
    (room : Room far base 0 clusters.length)
    (apart : linear base 0 + 512 * clusters.length ≤ fatBuffer ∨ fatBuffer + 1024 ≤ linear base 0)
    {rounds left : Nat} (enough : clusters.length ≤ rounds) (few : left ≤ rootDirSectors)
    (reached : sectorsRead floppy name ≤ left) (cpu : Cpu) :
    ∃ next, loadFile bios far base name rounds left cpu = some (next, left - sectorsRead floppy name) ∧
      Loaded floppy clusters next.memory (linear base 0) ∧
      ChangedWithin cpu.memory next.memory (linear base 0) (linear base 0 + 512 * clusters.length) := by
  have short : name.length < 32 := by omega
  obtain ⟨k, inside, has⟩ := held.held
  obtain ⟨first, hit⟩ : ∃ first, firstFrom (sectorHas floppy name) rootDirSectors 0 = some first :=
    firstFrom_isSome (Nat.zero_le k) (by omega) has
  rcases search_spec delivers short base hit few cpu with ⟨far, _⟩ | ⟨found, e, ran, entry, remains⟩
  · omega
  obtain ⟨_, behind, searched⟩ := searchRootDir_end short ran
  rw [length] at behind
  have chain := held.chain first entry.sector e entry.entry entry.named
  have cluster := startLoad_spec base entry behind
  have sector : (startLoad base found).2.ax.toNat = firstCluster floppy first e + 31 := by
    have small := chain.small
    have ax : (startLoad base found).2.ax = (startLoad base found).1 + 14 + deltaSectorNo := rfl
    rw [ax]
    unfold deltaSectorNo
    bv_omega
  obtain ⟨next, done, loaded, changed⟩ := loadRounds_spec delivers chain cluster sector room apart enough
  have positive := chain.length_pos
  refine ⟨next, ?_, loaded, (searched.mono (Nat.le_refl _) (by omega)).trans changed⟩
  have rest : found.wRootDirSizeForLoop = left - sectorsRead floppy name := by omega
  unfold loadFile
  simp only [ran, done, rest, Option.bind_eq_bind, Option.bind_some]

/-- A file with its clusters, whose place is large enough. -/
structure Placed (floppy : Floppy) (file : LoaderFile) (clusters : List Nat) : Prop where
  length : file.name.length = 11
  held : OnFloppy floppy file.name clusters
  room : Room file.far file.base 0 clusters.length
  buffer : linear file.base 0 + 512 * clusters.length ≤ fatBuffer ∨ fatBuffer + 1024 ≤ linear file.base 0

def InPlace (file : LoaderFile × List Nat) (a : Nat) : Prop :=
  linear file.1.base 0 ≤ a ∧ a < linear file.1.base 0 + 512 * file.2.length

theorem loadFiles_spec (delivers : Delivers bios floppy) {files : List (LoaderFile × List Nat)}
    (placed : ∀ file ∈ files, Placed floppy file.1 file.2)
    (apart : files.Pairwise fun one other => ∀ a, InPlace one a → ¬InPlace other a)
    {rounds left : Nat} (enough : ∀ file ∈ files, file.2.length ≤ rounds) (few : left ≤ rootDirSectors)
    (reached : (files.map fun file => sectorsRead floppy file.1.name).sum ≤ left) (cpu : Cpu) :
    ∃ next, loadFiles bios rounds (files.map Prod.fst) left cpu = some next ∧
      (∀ file ∈ files, Loaded floppy file.2 next.memory (linear file.1.base 0)) ∧
      ∀ a, (∀ file ∈ files, ¬InPlace file a) → a < fatBuffer ∨ fatBuffer + 1024 ≤ a →
        next.memory a = cpu.memory a := by
  induction files generalizing left cpu with
  | nil => exact ⟨cpu, rfl, by simp, fun _ _ _ => rfl⟩
  | cons file rest ih =>
      obtain ⟨⟨base, name, far⟩, clusters⟩ := file
      simp only [List.map_cons, List.sum_cons] at reached
      have place := placed _ List.mem_cons_self
      have nearest : sectorsRead floppy name ≤ left := Nat.le_trans (Nat.le_add_right ..) reached
      have buffer : linear base 0 + 512 * clusters.length ≤ fatBuffer ∨
          fatBuffer + 1024 ≤ linear base 0 := place.buffer
      obtain ⟨middle, first, loaded, changed⟩ := loadFile_spec delivers place.length place.held far
        place.room buffer (enough _ List.mem_cons_self) few nearest cpu
      obtain ⟨separate, apart⟩ := List.pairwise_cons.mp apart
      obtain ⟨next, others, all, kept⟩ := ih
        (fun other member => placed other (List.mem_cons_of_mem _ member)) apart
        (fun other member => enough other (List.mem_cons_of_mem _ member)) (by omega)
        (Nat.le_sub_of_add_le' reached) middle
      refine ⟨next, ?_, fun file member => ?_, fun a outside buffer => ?_⟩
      · simp only [List.map_cons, loadFiles, first, others, Option.bind_eq_bind, Option.bind_some]
      · rcases List.mem_cons.mp member with rfl | later
        · intro i inside
          rw [← loaded i inside]
          refine kept _ (fun other member => separate other member _ ?_) ?_
          · exact ⟨Nat.le_add_right .., Nat.add_lt_add_left inside _⟩
          · rcases buffer with low | high
            · exact .inl (Nat.lt_of_lt_of_le (Nat.add_lt_add_left inside _) low)
            · exact .inr (Nat.le_trans high (Nat.le_add_right ..))
        · exact all file later
      · have here : ¬InPlace (⟨base, name, far⟩, clusters) a := outside _ List.mem_cons_self
        rw [kept a (fun other member => outside other (List.mem_cons_of_mem _ member)) buffer]
        refine changed a ?_ buffer
        rcases Nat.lt_or_ge a (linear base 0) with low | high
        · exact .inl low
        · exact .inr (Nat.le_of_not_lt fun inside => here ⟨high, inside⟩)

def filesOn (kernel init init1 init2 init3 : List Nat) : List (LoaderFile × List Nat) :=
  [(⟨baseOfKernelFile, kernelFileName, true⟩, kernel), (⟨baseOfEchoFile, echoFileName, false⟩, init),
    (⟨baseOfInit1File, init1FileName, false⟩, init1), (⟨baseOfInit2File, init2FileName, false⟩, init2),
    (⟨baseOfInit3File, init3FileName, false⟩, init3)]

/-- A floppy with a kernel of at most 192 KiB, three files of at most 4 KiB and one of at
most 64 KiB, whose entries come early enough in the root directory. -/
structure BootFloppy (floppy : Floppy) (kernel init init1 init2 init3 : List Nat) : Prop where
  kernelHeld : OnFloppy floppy kernelFileName kernel
  initHeld : OnFloppy floppy echoFileName init
  init1Held : OnFloppy floppy init1FileName init1
  init2Held : OnFloppy floppy init2FileName init2
  init3Held : OnFloppy floppy init3FileName init3
  kernelFits : kernel.length ≤ 384
  initFits : init.length ≤ 8
  init1Fits : init1.length ≤ 8
  init2Fits : init2.length ≤ 8
  init3Fits : init3.length ≤ 128
  reached : loaderRounds floppy ≤ rootDirSectors

section BootFloppy

variable {kernel init init1 init2 init3 : List Nat}

theorem file_places :
    linear baseOfKernelFile 0 = 0x60000 ∧ linear baseOfEchoFile 0 = 0x7E00 ∧
      linear baseOfInit1File 0 = 0x8E00 ∧ linear baseOfInit2File 0 = 0x9E00 ∧
      linear baseOfInit3File 0 = 0xAE00 := by decide

/-- A file in one segment and below the buffer for the FAT. -/
theorem Placed.near {file : LoaderFile} {place : Nat} (length : file.name.length = 11)
    (held : OnFloppy floppy file.name clusters) (isNear : file.far = false)
    (start : linear file.base 0 = place) (fits : 512 * clusters.length ≤ 65536)
    (below : place + 512 * clusters.length ≤ fatBuffer) : Placed floppy file clusters where
  length := length
  held := held
  room := by
    have inside : (0 : BitVec 16).toNat + 512 * clusters.length ≤ 65536 := by simpa using fits
    rw [isNear]
    exact inside
  buffer := .inl (start ▸ below)

theorem BootFloppy.placed (boot : BootFloppy floppy kernel init init1 init2 init3) :
    ∀ file ∈ filesOn kernel init init1 init2 init3, Placed floppy file.1 file.2 := by
  obtain ⟨kernelPlace, initPlace, init1Place, init2Place, init3Place⟩ := file_places
  have buffer : fatBuffer = 0x5F000 := rfl
  have kernelFits := boot.kernelFits
  have initFits := boot.initFits
  have init1Fits := boot.init1Fits
  have init2Fits := boot.init2Fits
  have init3Fits := boot.init3Fits
  simp only [filesOn, List.forall_mem_cons, List.not_mem_nil, false_implies, implies_true, and_true]
  refine ⟨⟨rfl, boot.kernelHeld, ⟨rfl, ?_⟩, .inr ?_⟩, .near rfl boot.initHeld rfl initPlace ?_ ?_,
    .near rfl boot.init1Held rfl init1Place ?_ ?_, .near rfl boot.init2Held rfl init2Place ?_ ?_,
    .near rfl boot.init3Held rfl init3Place ?_ ?_⟩
  · rw [kernelPlace]
    omega
  · rw [kernelPlace]
    decide
  all_goals omega

theorem filesOn_apart (initFits : init.length ≤ 8) (init1Fits : init1.length ≤ 8)
    (init2Fits : init2.length ≤ 8) (init3Fits : init3.length ≤ 128) :
    (filesOn kernel init init1 init2 init3).Pairwise fun one other =>
      ∀ a, InPlace one a → ¬InPlace other a := by
  obtain ⟨kernelPlace, initPlace, init1Place, init2Place, init3Place⟩ := file_places
  simp only [filesOn, List.pairwise_cons, List.forall_mem_cons, List.not_mem_nil, false_implies,
    implies_true, and_true, List.Pairwise.nil, InPlace, kernelPlace, initPlace, init1Place,
    init2Place, init3Place]
  refine ⟨⟨?_, ?_, ?_, ?_⟩, ⟨?_, ?_, ?_⟩, ⟨?_, ?_⟩, ?_⟩
  all_goals omega

theorem BootFloppy.loads (boot : BootFloppy floppy kernel init init1 init2 init3)
    (delivers : Delivers bios floppy) {rounds : Nat} (enough : 384 ≤ rounds) (cpu : Cpu) :
    ∃ next, loaderLoads bios rounds cpu = some next ∧
      ∀ file ∈ filesOn kernel init init1 init2 init3,
        Loaded floppy file.2 next.memory (linear file.1.base 0) := by
  have short : ∀ file ∈ filesOn kernel init init1 init2 init3, file.2.length ≤ rounds := by
    simp only [filesOn, List.forall_mem_cons, List.not_mem_nil, false_implies, implies_true, and_true]
    exact ⟨Nat.le_trans boot.kernelFits enough, Nat.le_trans boot.initFits (by omega),
      Nat.le_trans boot.init1Fits (by omega), Nat.le_trans boot.init2Fits (by omega),
      Nat.le_trans boot.init3Fits (by omega)⟩
  obtain ⟨next, ran, all, _⟩ := loadFiles_spec delivers boot.placed
    (filesOn_apart boot.initFits boot.init1Fits boot.init2Fits boot.init3Fits) short (Nat.le_refl _)
    boot.reached cpu
  exact ⟨next, ran, all⟩

/-- A kernel of at most 192 KiB, three files of at most 4 KiB and one of at most 64 KiB
are all in their places when the loader has loaded the last of them. -/
theorem loaderLoads_all (delivers : Delivers bios floppy) {kernel init init1 init2 init3 : List Nat}
    (kernelHeld : OnFloppy floppy kernelFileName kernel) (initHeld : OnFloppy floppy echoFileName init)
    (init1Held : OnFloppy floppy init1FileName init1) (init2Held : OnFloppy floppy init2FileName init2)
    (init3Held : OnFloppy floppy init3FileName init3) (kernelFits : kernel.length ≤ 384)
    (initFits : init.length ≤ 8) (init1Fits : init1.length ≤ 8) (init2Fits : init2.length ≤ 8)
    (init3Fits : init3.length ≤ 128) (reached : loaderRounds floppy ≤ rootDirSectors)
    {rounds : Nat} (enough : 384 ≤ rounds) (cpu : Cpu) :
    ∃ next, loaderLoads bios rounds cpu = some next ∧ Loaded floppy kernel next.memory 0x60000 ∧
      Loaded floppy init next.memory 0x7E00 ∧ Loaded floppy init1 next.memory 0x8E00 ∧
      Loaded floppy init2 next.memory 0x9E00 ∧ Loaded floppy init3 next.memory 0xAE00 := by
  obtain ⟨kernelPlace, initPlace, init1Place, init2Place, init3Place⟩ := file_places
  have boot : BootFloppy floppy kernel init init1 init2 init3 :=
    ⟨kernelHeld, initHeld, init1Held, init2Held, init3Held, kernelFits, initFits, init1Fits, init2Fits,
      init3Fits, reached⟩
  obtain ⟨next, ran, all⟩ := boot.loads delivers enough cpu
  simp only [filesOn, List.forall_mem_cons, List.not_mem_nil, false_implies, implies_true, and_true,
    kernelPlace, initPlace, init1Place, init2Place, init3Place] at all
  exact ⟨next, ran, all⟩

end BootFloppy

/-- A floppy with the five files in the first sector of the root directory. The kernel has
two clusters and the others have one. -/
def fullFloppy : Floppy := fun sector i =>
  let names := [kernelFileName, echoFileName, init1FileName, init2FileName, init3FileName]
  if sector = 1 then
    if i = 3 then 0x03 else if i = 4 then 0xF0 else if i < 12 then 0xFF else 0
  else if sector = 19 then
    if i % 32 = 0x1A then [2, 4, 5, 6, 7].getD (i / 32) 0
    else (names.getD (i / 32) []).getD (i % 32) 0
  else BitVec.ofNat 8 i

theorem onFloppy_of_first {name : List Byte} {first : Nat} (held : Held floppy name)
    (chain : Chain floppy first clusters)
    (entries : ∀ k < rootDirSectors, ∀ e < 16, entryHas floppy name k e = true →
      firstCluster floppy k e = first) : OnFloppy floppy name clusters :=
  ⟨held, fun k inside e within has => entries k inside e within has ▸ chain⟩

theorem loaderLoads_all_full :
    ∃ next, loaderLoads (floppyBios fullFloppy) 384 idleCpu = some next ∧
      Loaded fullFloppy [2, 3] next.memory 0x60000 ∧ Loaded fullFloppy [4] next.memory 0x7E00 ∧
      Loaded fullFloppy [5] next.memory 0x8E00 ∧ Loaded fullFloppy [6] next.memory 0x9E00 ∧
      Loaded fullFloppy [7] next.memory 0xAE00 := by
  have kernel : Chain fullFloppy 2 [2, 3] :=
    .link (by decide) (show Chain fullFloppy 3 [3] from .last (by decide) (by decide))
  exact loaderLoads_all (floppyBios_delivers _)
    (onFloppy_of_first (by decide +kernel) kernel (by decide +kernel))
    (onFloppy_of_first (by decide +kernel) (.last (by decide) (by decide)) (by decide +kernel))
    (onFloppy_of_first (by decide +kernel) (.last (by decide) (by decide)) (by decide +kernel))
    (onFloppy_of_first (by decide +kernel) (.last (by decide) (by decide)) (by decide +kernel))
    (onFloppy_of_first (by decide +kernel) (.last (by decide) (by decide)) (by decide +kernel))
    (by decide) (by decide) (by decide) (by decide) (by decide) (by decide +kernel) (Nat.le_refl _)
    idleCpu

end AempOS.Boot
