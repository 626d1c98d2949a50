import AempOS.Fs.FilesProperties
import Mathlib.Order.Interval.Finset.Nat

/-! What holds in the file system between two calls. Files own runs of 2048
sectors that start at multiples of 2048 behind the first data sector; the sector
map has the bits of these runs and of the root directory, and the inode map has
the bits of the files. -/

set_option autoImplicit false

namespace AempOS.Fs

open Lib

/-- A file that was created and not unlinked. The first five bits of the inode
map are those that `mkfs` sets. -/
def Live (volume : Volume) (n : Nat) : Prop :=
  5 ≤ n ∧ volume.imap n = true

/-- The record of a file whose sectors are run `j` of the data area. -/
structure RunRecord (sb : SuperBlock) (inode : InodeRecord) (j : Nat) : Prop where
  mode : inode.mode = iRegular
  start : inode.startSect = sb.n1stSect + 2048 * j
  sects : inode.nrSects = 2048
  low : 1 ≤ j
  high : j ≤ 4091
  fits : inode.startSect + 2048 ≤ sb.nrSects

/-- Bit `c` of the sector map stands for a sector of the file. -/
def Covers (sb : SuperBlock) (inode : InodeRecord) (c : Nat) : Prop :=
  inode.startSect < c + sb.n1stSect ∧ c + sb.n1stSect ≤ inode.startSect + 2048

/-- The record of an inode that `mkfs` makes. Its sectors, if it has any, are those
of the root directory. -/
def FixedRecord (sb : SuperBlock) (inode : InodeRecord) : Prop :=
  inode.mode ≠ iRegular ∧
    ∀ s, inode.startSect ≤ s → s < inode.startSect + inode.nrSects → s < sb.n1stSect + 2048

structure Extents (sb : SuperBlock) (volume : Volume) : Prop where
  reserved : ∀ n < 5, volume.imap n = true
  inside : ∀ n, volume.imap n = true → n < 4096
  special : ∀ n, 1 ≤ n → n < 5 → FixedRecord sb (volume.records n)
  run : ∀ n, Live volume n → ∃ j, RunRecord sb (volume.records n) j
  apart : ∀ m n, Live volume m → Live volume n →
    (volume.records m).startSect = (volume.records n).startSect → m = n
  marked : ∀ c < sb.nrSmapSects * 4096, volume.smap c = true ↔
    c < 2049 ∨ ∃ n, Live volume n ∧ Covers sb (volume.records n) c

/-- The slots in use hold the records of the disk, each inode in one slot. -/
structure Cached (volume : Volume) (table : Nat → Inode) : Prop where
  counted : ∀ i < 64, 0 ≤ (table i).cnt
  agrees : ∀ i < 64, (table i).cnt ≠ 0 → 1 ≤ (table i).num ∧ (table i).num < 4096 ∧
    (table i).toInodeRecord = volume.records (table i).num
  unique : ∀ i < 64, ∀ j < 64, (table i).cnt ≠ 0 → (table j).cnt ≠ 0 →
    (table i).num = (table j).num → i = j

/-- Descriptors are of files, one of each at most, and are linked once. -/
structure Opened (volume : Volume) (table : Nat → Inode) (descs : Nat → FileDesc)
    (filp : Nat → Nat → Option Nat) : Prop where
  live : ∀ d p, (descs d).inode = .slot p →
    d < 64 ∧ p < 64 ∧ (table p).cnt ≠ 0 ∧ Live volume (table p).num
  single : ∀ d e p, (descs d).inode = .slot p → (descs e).inode = .slot p → d = e
  linked : ∀ pid fd d, filp pid fd = some d → ∃ p, (descs d).inode = .slot p
  once : ∀ pid fd other place d, filp pid fd = some d → filp other place = some d →
    pid = other ∧ fd = place

/-- Entries up to the size of the directory are of different files. Behind it
there may be entries that were cut off. -/
structure Listed (volume : Volume) (count : Nat) : Prop where
  named : ∀ k < 4096, (volume.entries k).inodeNr ≠ 0 → (volume.entries k).inodeNr < 4096 ∧
    (Live volume (volume.entries k).inodeNr ∨
      (volume.records (volume.entries k).inodeNr).mode ≠ iRegular)
  live : ∀ k < count, (volume.entries k).inodeNr ≠ 0 →
    (volume.entries k).inodeNr < 5 ∨ Live volume (volume.entries k).inodeNr
  distinct : ∀ k < count, ∀ l < count, (volume.entries k).inodeNr ≠ 0 →
    (volume.entries k).inodeNr = (volume.entries l).inodeNr → k = l

/-- All but what the directory says. -/
structure Coherent (state : FsState) : Prop where
  layout : Layout state.sb
  addressed : state.sb.n1stSect + 2048 * 4092 ≤ 2 ^ 23 + 2
  root : RootHeld state
  extents : Extents state.sb state.volume
  cached : Cached state.volume state.inodeTable
  opened : Opened state.volume state.inodeTable state.fDescTable state.filp

structure Sound (state : FsState) : Prop extends Coherent state where
  listed : Listed state.volume state.nrEntries

section Runs

variable {sb : SuperBlock} {volume : Volume} {n b : Nat}

theorem Extents.file (extents : Extents sb volume) (live : Live volume n) :
    n < 4096 ∧ (volume.records n).mode = iRegular := by
  obtain ⟨j, run⟩ := extents.run n live
  exact ⟨extents.inside n live.2, run.mode⟩

theorem Extents.five (extents : Extents sb volume) (free : volume.imap n = false) : 5 ≤ n := by
  by_contra small
  rw [extents.reserved n (by omega)] at free
  cases free

theorem Live.ne_of_free {m : Nat} (live : Live volume m) (free : volume.imap n = false) : m ≠ n := by
  rintro rfl
  rw [live.2] at free
  cases free

theorem Extents.marked_run (extents : Extents sb volume) {c d : Nat}
    (inside : c < sb.nrSmapSects * 4096) (within : d < sb.nrSmapSects * 4096) (low : 2049 ≤ c)
    (same : (c - 1) / 2048 = (d - 1) / 2048) (clear : volume.smap c = false) :
    volume.smap d = false := by
  by_contra set
  rw [Bool.not_eq_false] at set
  rcases (extents.marked d within).mp set with below | ⟨n, live, covers⟩
  · omega
  · obtain ⟨j, run⟩ := extents.run n live
    have start := run.start
    have held : volume.smap c = true := by
      refine (extents.marked c inside).mpr (.inr ⟨n, live, ?_⟩)
      unfold Covers at covers ⊢
      omega
    rw [held] at clear
    cases clear

/-- The least clear bit starts a run, and a run that is clear anywhere in the
partition puts it inside the partition. -/
theorem Extents.least_run (extents : Extents sb volume) (layout : Layout sb)
    (free : volume.imap n = false) (inside : n < 4096)
    (least : b < sb.nrSmapSects * 4096 ∧ volume.smap b = false ∧ ∀ c < b, volume.smap c = true)
    (room : ∃ sect, sb.n1stSect ≤ sect ∧ sect + 2048 ≤ sb.nrSects ∧
      ∀ s, sect ≤ s → s < sect + 2048 → volume.smap (s - sb.n1stSect + 1) = false) :
    ∃ j, b = 1 + 2048 * j ∧ 1 ≤ j ∧ j ≤ 4091 ∧ sb.n1stSect + 2048 * j + 2048 ≤ sb.nrSects ∧
      ∀ m, Live volume m → (volume.records m).startSect ≠ sb.n1stSect + 2048 * j := by
  obtain ⟨within, clear, lower⟩ := least
  have covers := layout.covers
  unfold sectorBits at covers
  have start (c : Nat) (bound : c < sb.nrSmapSects * 4096) (zero : volume.smap c = false) :
      2049 ≤ c ∧ volume.smap (1 + 2048 * ((c - 1) / 2048)) = false := by
    have high : 2049 ≤ c := by
      by_contra small
      rw [(extents.marked c bound).mpr (.inl (by omega))] at zero
      cases zero
    exact ⟨high, extents.marked_run bound (by omega) high (by omega) zero⟩
  obtain ⟨high, first⟩ := start b within clear
  have aligned : b = 1 + 2048 * ((b - 1) / 2048) := by
    by_contra off
    rw [lower _ (by omega)] at first
    cases first
  obtain ⟨sect, low, fits, zeros⟩ := room
  have here := zeros sect (Nat.le_refl _) (by omega)
  obtain ⟨_, begun⟩ := start (sect - sb.n1stSect + 1) (by omega) here
  have before : b ≤ 1 + 2048 * ((sect - sb.n1stSect + 1 - 1) / 2048) := by
    by_contra after
    rw [lower _ (by omega)] at begun
    cases begun
  -- every run before this one belongs to a file of its own
  have owner : ∀ i, ∃ m, 1 ≤ i → i < (b - 1) / 2048 →
      Live volume m ∧ (volume.records m).startSect = sb.n1stSect + 2048 * i := by
    intro i
    by_cases between : 1 ≤ i ∧ i < (b - 1) / 2048
    · have set := lower (1 + 2048 * i) (by omega)
      rcases (extents.marked _ (by omega)).mp set with below | ⟨m, live, held⟩
      · omega
      · obtain ⟨j, run⟩ := extents.run m live
        have begins := run.start
        unfold Covers at held
        exact ⟨m, fun _ _ => ⟨live, by omega⟩⟩
    · exact ⟨0, fun low high => absurd ⟨low, high⟩ between⟩
  choose file owned using owner
  have count : (Finset.Ico 1 ((b - 1) / 2048)).card ≤ ((Finset.Ico 5 4096).erase n).card := by
    refine Finset.card_le_card_of_injOn file (fun i member => ?_) fun i left j right same => ?_
    · rw [Finset.coe_Ico, Set.mem_Ico] at member
      obtain ⟨live, _⟩ := owned i member.1 member.2
      have apart : file i ≠ n := live.ne_of_free free
      simp only [Finset.coe_erase, Finset.coe_Ico, Set.mem_sdiff, Set.mem_Ico, Set.mem_singleton_iff]
      exact ⟨⟨live.1, extents.inside _ live.2⟩, apart⟩
    · rw [Finset.coe_Ico, Set.mem_Ico] at left right
      have fromLeft := (owned i left.1 left.2).2
      have fromRight := (owned j right.1 right.2).2
      rw [same] at fromLeft
      omega
  have five := extents.five free
  rw [Nat.card_Ico, Finset.card_erase_of_mem (Finset.mem_Ico.mpr ⟨five, inside⟩), Nat.card_Ico] at count
  refine ⟨(b - 1) / 2048, aligned, by omega, by omega, by omega, fun m live same => ?_⟩
  have set := (extents.marked b within).mpr (.inr ⟨m, live, by unfold Covers; omega⟩)
  rw [set] at clear
  cases clear

theorem Extents.resize (extents : Extents sb volume) {other : Volume} (imap : other.imap = volume.imap)
    (smap : other.smap = volume.smap)
    (same : ∀ m, (other.records m).mode = (volume.records m).mode ∧
      (other.records m).startSect = (volume.records m).startSect ∧
      (other.records m).nrSects = (volume.records m).nrSects) : Extents sb other := by
  have lives (m : Nat) : Live other m ↔ Live volume m := by rw [Live, Live, imap]
  refine ⟨?_, ?_, ?_, ?_, ?_, ?_⟩
  · rw [imap]
    exact extents.reserved
  · rw [imap]
    exact extents.inside
  · intro m low high
    obtain ⟨mode, start, sects⟩ := same m
    unfold FixedRecord
    rw [mode, start, sects]
    exact extents.special m low high
  · intro m live
    obtain ⟨mode, start, sects⟩ := same m
    obtain ⟨j, run⟩ := extents.run m ((lives m).mp live)
    exact ⟨j, mode.trans run.mode, start.trans run.start, sects.trans run.sects, run.low, run.high,
      start ▸ run.fits⟩
  · intro l m left right eq
    rw [(same l).2.1, (same m).2.1] at eq
    exact extents.apart l m ((lives l).mp left) ((lives m).mp right) eq
  · intro c inside
    rw [smap, extents.marked c inside]
    simp only [lives, Covers, (same _).2.1]

theorem live_withFile (volume : Volume) (five : 5 ≤ n) (b count : Nat) (inode : InodeRecord) (m : Nat) :
    Live (volume.withFile n b count inode) m ↔ Live volume m ∨ m = n := by
  simp only [Live, Volume.withFile, Volume.takeInode, Volume.takeRun, Volume.putRecord,
    Bool.or_eq_true, decide_eq_true_eq]
  constructor
  · rintro ⟨low, set | rfl⟩
    · exact .inl ⟨low, set⟩
    · exact .inr rfl
  · rintro (⟨low, set⟩ | rfl)
    · exact ⟨low, .inl set⟩
    · exact ⟨five, .inr rfl⟩

theorem live_withoutFile (volume : Volume) (n b count m : Nat) :
    Live (volume.withoutFile n b count) m ↔ Live volume m ∧ m ≠ n := by
  simp only [Live, Volume.withoutFile, Volume.freeInode, Volume.freeRun, Volume.putRecord,
    Bool.and_eq_true, Bool.not_eq_true', decide_eq_false_iff_not]
  exact and_assoc.symm

theorem Extents.take (extents : Extents sb volume) (free : volume.imap n = false) (inside : n < 4096)
    {inode : InodeRecord} {j : Nat} (record : RunRecord sb inode j)
    (unused : ∀ m, Live volume m → (volume.records m).startSect ≠ inode.startSect) :
    Extents sb (volume.withFile n (1 + 2048 * j) 2048 inode) := by
  have five := extents.five free
  have lives := live_withFile volume five (1 + 2048 * j) 2048 inode
  have here : (volume.withFile n (1 + 2048 * j) 2048 inode).records n = inode :=
    Volume.withFile_self
  have there (m : Nat) (other : m ≠ n) :
      (volume.withFile n (1 + 2048 * j) 2048 inode).records m = volume.records m :=
    Volume.withFile_other other
  have old (m : Nat) (live : Live volume m) : m ≠ n := live.ne_of_free free
  refine ⟨?_, ?_, ?_, ?_, ?_, ?_⟩
  · intro m small
    simp only [Volume.withFile, Volume.takeInode, Volume.takeRun, Volume.putRecord,
      extents.reserved m small, Bool.true_or]
  · intro m set
    simp only [Volume.withFile, Volume.takeInode, Volume.takeRun, Volume.putRecord, Bool.or_eq_true,
      decide_eq_true_eq] at set
    rcases set with set | rfl
    · exact extents.inside m set
    · exact inside
  · intro m low high
    rw [there m (by omega)]
    exact extents.special m low high
  · intro m live
    rcases (lives m).mp live with before | rfl
    · rw [there m (old m before)]
      exact extents.run m before
    · rw [here]
      exact ⟨j, record⟩
  · intro l m left right same
    rcases (lives l).mp left with before | rfl
    · rcases (lives m).mp right with also | rfl
      · rw [there l (old l before), there m (old m also)] at same
        exact extents.apart l m before also same
      · rw [here, there l (old l before)] at same
        exact absurd same (unused l before)
    · rcases (lives m).mp right with also | rfl
      · rw [here, there m (old m also)] at same
        exact absurd same.symm (unused m also)
      · rfl
  · intro c bound
    have start := record.start
    have span : (1 + 2048 * j ≤ c ∧ c < 1 + 2048 * j + 2048) ↔ Covers sb inode c := by
      unfold Covers
      omega
    have bit : (volume.withFile n (1 + 2048 * j) 2048 inode).smap c = true ↔
        volume.smap c = true ∨ Covers sb inode c := by
      simp only [Volume.withFile, Volume.takeInode, Volume.takeRun, Volume.putRecord,
        Bool.or_eq_true, decide_eq_true_eq, span]
    rw [bit, extents.marked c bound]
    constructor
    · rintro ((low | ⟨m, live, covers⟩) | covers)
      · exact .inl low
      · exact .inr ⟨m, (lives m).mpr (.inl live), by rw [there m (old m live)]; exact covers⟩
      · exact .inr ⟨n, (lives n).mpr (.inr rfl), by rw [here]; exact covers⟩
    · rintro (low | ⟨m, live, covers⟩)
      · exact .inl (.inl low)
      · rcases (lives m).mp live with before | rfl
        · rw [there m (old m before)] at covers
          exact .inl (.inr ⟨m, before, covers⟩)
        · rw [here] at covers
          exact .inr covers

theorem Extents.release (extents : Extents sb volume) (live : Live volume n) {j : Nat}
    (record : RunRecord sb (volume.records n) j) :
    Extents sb (volume.withoutFile n (1 + 2048 * j) 2048) := by
  have five := live.1
  have lives := live_withoutFile volume n (1 + 2048 * j) 2048
  have there (m : Nat) (other : m ≠ n) :
      (volume.withoutFile n (1 + 2048 * j) 2048).records m = volume.records m :=
    Volume.withoutFile_other other
  refine ⟨?_, ?_, ?_, ?_, ?_, ?_⟩
  · intro m small
    have other : m ≠ n := by omega
    simp only [Volume.withoutFile, Volume.freeInode, Volume.freeRun, Volume.putRecord,
      extents.reserved m small, decide_eq_false other, Bool.not_false, Bool.true_and]
  · intro m set
    simp only [Volume.withoutFile, Volume.freeInode, Volume.freeRun, Volume.putRecord,
      Bool.and_eq_true] at set
    exact extents.inside m set.1
  · intro m low high
    rw [there m (by omega)]
    exact extents.special m low high
  · intro m left
    obtain ⟨before, other⟩ := (lives m).mp left
    rw [there m other]
    exact extents.run m before
  · intro l m left right same
    obtain ⟨before, other⟩ := (lives l).mp left
    obtain ⟨also, another⟩ := (lives m).mp right
    rw [there l other, there m another] at same
    exact extents.apart l m before also same
  · intro c bound
    have start := record.start
    have low := record.low
    have span : (1 + 2048 * j ≤ c ∧ c < 1 + 2048 * j + 2048) ↔ Covers sb (volume.records n) c := by
      unfold Covers
      omega
    have bit : (volume.withoutFile n (1 + 2048 * j) 2048).smap c = true ↔
        volume.smap c = true ∧ ¬Covers sb (volume.records n) c := by
      simp only [Volume.withoutFile, Volume.freeInode, Volume.freeRun, Volume.putRecord,
        Bool.and_eq_true, Bool.not_eq_true', decide_eq_false_iff_not, span]
    rw [bit, extents.marked c bound]
    constructor
    · rintro ⟨small | ⟨m, held, covers⟩, not⟩
      · exact .inl small
      · have other : m ≠ n := by
          rintro rfl
          exact not covers
        exact .inr ⟨m, (lives m).mpr ⟨held, other⟩, by rw [there m other]; exact covers⟩
    · rintro (small | ⟨m, held, covers⟩)
      · exact ⟨.inl small, by unfold Covers; omega⟩
      · obtain ⟨before, other⟩ := (lives m).mp held
        rw [there m other] at covers
        refine ⟨.inr ⟨m, before, covers⟩, fun both => other ?_⟩
        -- two runs that share a sector are the same run
        obtain ⟨i, run⟩ := extents.run m before
        have begins := run.start
        apply extents.apart m n before live
        unfold Covers at covers both
        omega

end Runs

section Tables

variable {volume other : Volume} {table : Nat → Inode}

theorem Cached.put (cached : Cached volume table) {p : Nat} {inode : Inode}
    (rest : ∀ i < 64, i ≠ p → (table i).cnt ≠ 0 →
      other.records (table i).num = volume.records (table i).num)
    (count : 0 ≤ inode.cnt)
    (held : inode.cnt ≠ 0 → 1 ≤ inode.num ∧ inode.num < 4096 ∧
      inode.toInodeRecord = other.records inode.num)
    (fresh : inode.cnt ≠ 0 → ∀ i < 64, i ≠ p → (table i).cnt ≠ 0 → (table i).num ≠ inode.num) :
    Cached other (Function.update table p inode) := by
  have at' (i : Nat) (apart : i ≠ p) : Function.update table p inode i = table i :=
    Function.update_of_ne apart _ _
  refine ⟨fun i inside => ?_, fun i inside used => ?_, fun i inside j within left right same => ?_⟩
  · by_cases here : i = p
    · rw [here, Function.update_self]
      exact count
    · rw [at' i here]
      exact cached.counted i inside
  · by_cases here : i = p
    · subst here
      rw [Function.update_self] at used ⊢
      exact held used
    · rw [at' i here] at used ⊢
      obtain ⟨low, high, agrees⟩ := cached.agrees i inside used
      exact ⟨low, high, agrees.trans (rest i inside here used).symm⟩
  · by_cases here : i = p
    · by_cases there : j = p
      · rw [here, there]
      · subst here
        rw [at' j there] at right same
        rw [Function.update_self] at left same
        exact absurd same.symm (fresh left j within there right)
    · by_cases there : j = p
      · subst there
        rw [at' i here] at left same
        rw [Function.update_self] at right same
        exact absurd same (fresh right i inside here left)
      · rw [at' i here] at left same
        rw [at' j there] at right same
        exact cached.unique i inside j within left right same

/-- Slots other than the one taken for inode `n` hold other inodes. -/
theorem SlotFor.others {state : FsState} {n p : Nat} (slot : SlotFor state n p)
    (cached : Cached volume state.inodeTable) :
    ∀ i < 64, i ≠ p → (state.inodeTable i).cnt ≠ 0 → (state.inodeTable i).num ≠ n := by
  intro i inside apart used same
  rcases slot.2 with ⟨held, num⟩ | ⟨_, absent⟩
  · exact apart (cached.unique i inside p slot.1 used held (same.trans num.symm))
  · exact absent i inside used same

variable {descs other' : Nat → FileDesc} {filp : Nat → Nat → Option Nat} {table' : Nat → Inode}

theorem Opened.keep (opened : Opened volume table descs filp)
    (same : ∀ d, (other' d).inode = (descs d).inode)
    (live : ∀ d p, (descs d).inode = .slot p → p < 64 → (table p).cnt ≠ 0 →
      Live volume (table p).num → (table' p).cnt ≠ 0 ∧ Live other (table' p).num) :
    Opened other table' other' filp := by
  refine ⟨fun d p points => ?_, fun d e p left right => ?_, fun pid fd d link => ?_, opened.once⟩
  · rw [same] at points
    obtain ⟨inside, within, used, file⟩ := opened.live d p points
    exact ⟨inside, within, live d p points within used file⟩
  · rw [same] at left right
    exact opened.single d e p left right
  · obtain ⟨p, points⟩ := opened.linked pid fd d link
    exact ⟨p, by rw [same, points]⟩

/-- A free descriptor is linked and points to a slot that none points to. -/
theorem Opened.link (opened : Opened volume table descs filp) {pid fd d p : Nat} {desc : FileDesc}
    (points : desc.inode = .slot p) (inside : d < 64) (free : (descs d).inode = .free)
    (slot : p < 64) (used : (table p).cnt ≠ 0) (live : Live volume (table p).num)
    (alone : ∀ e, (descs e).inode ≠ .slot p) :
    Opened volume table (Function.update descs d desc)
      (Function.update filp pid (Function.update (filp pid) fd (some d))) := by
  have there (e : Nat) (apart : e ≠ d) : Function.update descs d desc e = descs e :=
    Function.update_of_ne apart _ _
  have links (other place e : Nat)
      (link : Function.update filp pid (Function.update (filp pid) fd (some d)) other place = some e) :
      (other = pid ∧ place = fd ∧ e = d) ∨ filp other place = some e := by
    by_cases same : other = pid
    · subst same
      rw [Function.update_self] at link
      by_cases here : place = fd
      · subst here
        rw [Function.update_self, Option.some.injEq] at link
        exact .inl ⟨rfl, rfl, link.symm⟩
      · rw [Function.update_of_ne here] at link
        exact .inr link
    · rw [Function.update_of_ne same] at link
      exact .inr link
  have apart (other place e : Nat) (link : filp other place = some e) : e ≠ d := by
    rintro rfl
    obtain ⟨q, held⟩ := opened.linked other place e link
    rw [free] at held
    cases held
  refine ⟨fun e q held => ?_, fun e f q left right => ?_, fun other place e link => ?_,
    fun one place two spot e left right => ?_⟩
  · by_cases here : e = d
    · subst here
      rw [Function.update_self, points, FdInode.slot.injEq] at held
      subst held
      exact ⟨inside, slot, used, live⟩
    · rw [there e here] at held
      exact opened.live e q held
  · by_cases here : e = d
    · by_cases also : f = d
      · rw [here, also]
      · subst here
        rw [Function.update_self, points, FdInode.slot.injEq] at left
        rw [there f also, ← left] at right
        exact absurd right (alone f)
    · by_cases also : f = d
      · subst also
        rw [Function.update_self, points, FdInode.slot.injEq] at right
        rw [there e here, ← right] at left
        exact absurd left (alone e)
      · rw [there e here] at left
        rw [there f also] at right
        exact opened.single e f q left right
  · rcases links other place e link with ⟨_, _, rfl⟩ | before
    · exact ⟨p, by rw [Function.update_self, points]⟩
    · rw [there e (apart other place e before)]
      exact opened.linked other place e before
  · rcases links one place e left with ⟨rfl, rfl, rfl⟩ | before
    · rcases links two spot e right with ⟨rfl, rfl, _⟩ | also
      · exact ⟨rfl, rfl⟩
      · exact absurd rfl (apart two spot e also)
    · rcases links two spot e right with ⟨_, _, rfl⟩ | also
      · exact absurd rfl (apart one place e before)
      · exact opened.once one place two spot e before also

theorem Opened.unlink (opened : Opened volume table descs filp) {pid fd i : Nat}
    (link : filp pid fd = some i) :
    Opened volume table (Function.update descs i { descs i with inode := .free })
      (Function.update filp pid (Function.update (filp pid) fd none)) := by
  have held (e q : Nat)
      (points : (Function.update descs i { descs i with inode := .free } e).inode = .slot q) :
      e ≠ i ∧ (descs e).inode = .slot q := by
    by_cases here : e = i
    · subst here
      rw [Function.update_self] at points
      cases points
    · rw [Function.update_of_ne here] at points
      exact ⟨here, points⟩
  have links (other place e : Nat)
      (left : Function.update filp pid (Function.update (filp pid) fd none) other place = some e) :
      filp other place = some e ∧ e ≠ i := by
    have old : filp other place = some e ∧ ¬(other = pid ∧ place = fd) := by
      by_cases same : other = pid
      · subst same
        rw [Function.update_self] at left
        by_cases here : place = fd
        · subst here
          rw [Function.update_self] at left
          cases left
        · rw [Function.update_of_ne here] at left
          exact ⟨left, fun both => here both.2⟩
      · rw [Function.update_of_ne same] at left
        exact ⟨left, fun both => same both.1⟩
    refine ⟨old.1, ?_⟩
    rintro rfl
    exact old.2 (opened.once other place pid fd e old.1 link)
  refine ⟨fun e q points => opened.live e q (held e q points).2, fun e f q left right => ?_,
    fun other place e left => ?_, fun one place two spot e left right => ?_⟩
  · exact opened.single e f q (held e q left).2 (held f q right).2
  · obtain ⟨before, apart⟩ := links other place e left
    rw [Function.update_of_ne apart]
    exact opened.linked other place e before
  · exact opened.once one place two spot e (links one place e left).1 (links two spot e right).1

end Tables

section Directory

variable {sb : SuperBlock} {volume other : Volume} {count count' n : Nat}

/-- A directory without holes has room for one entry more: each entry is of an
inode of its own. -/
theorem Listed.room (listed : Listed volume count) (extents : Extents sb volume)
    (full : ∀ k < count, (volume.entries k).inodeNr ≠ 0) (bound : count ≤ 4096)
    (free : volume.imap n = false) (inside : n < 4096) : count + 1 < 4096 := by
  have five := extents.five free
  have cards : (Finset.range count).card ≤ ((Finset.Ico 1 4096).erase n).card := by
    refine Finset.card_le_card_of_injOn (fun k => (volume.entries k).inodeNr)
      (fun k member => ?_) fun k left l right same => ?_
    · rw [Finset.coe_range, Set.mem_Iio] at member
      have used := full k member
      have named := (listed.named k (by omega) used).1
      have apart : (volume.entries k).inodeNr ≠ n := by
        intro same
        rcases listed.live k member used with small | live
        · omega
        · rw [same] at live
          rw [live.2] at free
          cases free
      simp only [Finset.coe_erase, Finset.coe_Ico, Set.mem_sdiff, Set.mem_Ico, Set.mem_singleton_iff]
      exact ⟨⟨by omega, named⟩, apart⟩
    · rw [Finset.coe_range, Set.mem_Iio] at left right
      exact listed.distinct k left l right (full k left) same
  rw [Finset.card_range, Finset.card_erase_of_mem (Finset.mem_Ico.mpr ⟨by omega, inside⟩),
    Nat.card_Ico] at cards
  omega

theorem Listed.same (listed : Listed volume count) (imap : other.imap = volume.imap)
    (entries : other.entries = volume.entries)
    (modes : ∀ m, (other.records m).mode = (volume.records m).mode) : Listed other count := by
  have lives (m : Nat) : Live other m ↔ Live volume m := by rw [Live, Live, imap]
  refine ⟨fun k inside used => ?_, fun k inside used => ?_, ?_⟩
  · rw [entries] at used ⊢
    rw [lives, modes]
    exact listed.named k inside used
  · rw [entries] at used ⊢
    rw [lives]
    exact listed.live k inside used
  · rw [entries]
    exact listed.distinct

theorem Listed.add (listed : Listed volume count) {k : Nat} (five : 5 ≤ n)
    (new : volume.imap n = false) (live : Live other n) (inside : n < 4096)
    (entry : (other.entries k).inodeNr = n)
    (entries : ∀ l, l ≠ k → other.entries l = volume.entries l)
    (lives : ∀ m, Live volume m → Live other m)
    (modes : ∀ m, m ≠ n → (other.records m).mode = (volume.records m).mode)
    (place : k < count ∧ count' = count ∨ k = count ∧ count' = count + 1) :
    Listed other count' := by
  have foreign (l : Nat) (within : l < count) (used : (volume.entries l).inodeNr ≠ 0) :
      (volume.entries l).inodeNr ≠ n := by
    intro same
    rcases listed.live l within used with small | held
    · omega
    · rw [same] at held
      rw [held.2] at new
      cases new
  refine ⟨fun l within used => ?_, fun l within used => ?_, fun l within m bound used same => ?_⟩
  · by_cases here : l = k
    · subst here
      rw [entry]
      exact ⟨inside, .inl live⟩
    · rw [entries l here] at used ⊢
      obtain ⟨small, kind⟩ := listed.named l within used
      refine ⟨small, ?_⟩
      by_cases same : (volume.entries l).inodeNr = n
      · rw [same]
        exact .inl live
      · rw [modes _ same]
        exact kind.imp (lives _) id
  · by_cases here : l = k
    · subst here
      rw [entry]
      exact .inr live
    · rw [entries l here] at used ⊢
      exact (listed.live l (by omega) used).imp id (lives _)
  · by_cases here : l = k
    · by_cases there : m = k
      · rw [here, there]
      · subst here
        rw [entry] at used same
        rw [entries m there] at same
        exact absurd same.symm (foreign m (by omega) (by omega))
    · by_cases there : m = k
      · subst there
        rw [entry] at same
        rw [entries l here] at used same
        exact absurd same (foreign l (by omega) used)
      · rw [entries l here] at used same
        rw [entries m there] at same
        exact listed.distinct l (by omega) m (by omega) used same

/-- Entries are emptied or cut off, and inode `n` is no file any more. -/
theorem Listed.remove (listed : Listed volume count) (fewer : count' ≤ count)
    (entries : ∀ l, (other.entries l).inodeNr = (volume.entries l).inodeNr ∨
      (other.entries l).inodeNr = 0)
    (clean : ∀ l < count', (other.entries l).inodeNr ≠ n)
    (lives : ∀ m, m ≠ n → Live volume m → Live other m)
    (gone : (other.records n).mode ≠ iRegular)
    (modes : ∀ m, m ≠ n → (other.records m).mode = (volume.records m).mode) :
    Listed other count' := by
  have kept (l : Nat) (used : (other.entries l).inodeNr ≠ 0) :
      (other.entries l).inodeNr = (volume.entries l).inodeNr := (entries l).resolve_right used
  refine ⟨fun l within used => ?_, fun l within used => ?_, fun l within m bound used same => ?_⟩
  · have held := kept l used
    rw [held] at used ⊢
    obtain ⟨small, kind⟩ := listed.named l within used
    refine ⟨small, ?_⟩
    by_cases same : (volume.entries l).inodeNr = n
    · rw [same]
      exact .inr gone
    · rw [modes _ same]
      exact kind.imp (lives _ same) id
  · have apart := clean l within
    have held := kept l used
    rw [held] at used apart ⊢
    exact (listed.live l (by omega) used).imp id (lives _ apart)
  · have held := kept l used
    have also := kept m (same ▸ used)
    rw [held, also] at same
    rw [held] at used
    exact listed.distinct l (by omega) m (by omega) used same

end Directory

end AempOS.Fs
