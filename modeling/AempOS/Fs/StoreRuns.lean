import AempOS.Fs.ReferencesProperties
import AempOS.Fs.StoreWrites

/-! The file system refines a store of named files, over all runs of its calls from
`mkfs` on. Bytes that were written stay until the file is written again or removed. -/

set_option autoImplicit false

namespace AempOS.Fs

open Lib

variable {size : Nat} {disk : Disk} {state next last written : FsState} {store : Store}
  {call : IoCall} {reply : StoreReply Byte} {log later : List (IoCall × StoreReply Byte)}
  {data : List Byte} {pid fd other slot n pos spot count mode : Nat} {buf : Buffer}

/-- The store with the names that `mkfs` makes. -/
def startingStore : Store where
  find name := if mkfsHistory name = 0 then none else some (mkfsHistory name)
  content _ := none
  handle _ _ := none
  kept _ := 0

/-- The store as a component. -/
def namedFiles : Component Store (StoreCall (List Byte) Byte Nat) (StoreReply Byte) :=
  FileStore.startingWith startingStore.find

theorem numbers_starting : numbers startingStore = mkfsHistory := by
  funext name
  by_cases unknown : mkfsHistory name = 0
  · simp [numbers, startingStore, unknown]
  · simp [numbers, startingStore, unknown]

theorem Started.balanced (started : Started size disk state) {file : Nat → Prop} :
    Balanced state.accounts file fun _ => 0 := by
  have free (d p : Nat) : state.accounts.target d ≠ .slot p := by
    intro points
    have target : (state.fDescTable d).inode = .slot p := points
    rw [started.descs] at target
    cases target
  have root {p : Nat} (used : state.accounts.count p ≠ 0) : p = state.rootInode := by
    by_contra apart
    exact used (started.others p apart)
  have dir : state.inodeTable state.rootInode = _ := started.root
  have unused (pid fd : Nat) : state.accounts.filp pid fd = none := started.filp pid fd
  refine ⟨fun p _ used => .inl ?_, fun d p points => absurd points (free d p),
    fun d p points => absurd points (free d p), fun pid fd d link => ?_,
    fun pid fd _ _ d link => ?_, fun p _ used => ?_, fun n wrong => absurd rfl wrong⟩
  · show (state.inodeTable p).num < 5
    rw [root used, dir]
    exact (by decide : 1 < 5)
  · rw [unused] at link
    cases link
  · rw [unused] at link
    cases link
  · have alone : state.accounts.users p = 0 := by
      apply Nat.eq_zero_of_not_pos
      intro some
      obtain ⟨d, _, points⟩ := users_some some
      exact free d p points
    have one : state.accounts.count state.rootInode = 1 := congrArg Inode.cnt dir
    have fixed : state.accounts.fixed state.rootInode = 1 := if_pos rfl
    rw [alone, root used, one, fixed]
    rfl

theorem Started.holds (started : Started size disk state) (bounded : Addressable size)
    (clean : CleanDirectory size disk) : Holds size state startingStore where
  sb := started.sb
  sound := (started.sound bounded clean).bare
  recorded := by
    rw [numbers_starting]
    exact started.recorded bounded clean
  named name := by
    by_cases unknown : mkfsHistory name = 0
    · simp [startingStore, unknown]
    · simp [startingStore, unknown]
  content := by
    funext n
    exact (if_neg (started.no_file n)).symm
  handle := by
    funext pid fd
    exact (handle_none (started.filp pid fd)).symm
  balanced := started.balanced
  sized n live := absurd live (started.no_file n)
  inside d p points := by
    rw [started.descs] at points
    cases points

/-- One call. -/
theorem Holds.answers (holds : Holds size state store) (small : size ≤ 2 ^ 22)
    (proper : Proper state call) (ran : call.answer state = some (next, reply)) :
    ∃ moved, FileStore.Answers store call.named reply moved ∧ Holds size next moved := by
  cases call with
  | «open» pid path flags =>
      obtain ⟨named, space⟩ := proper
      obtain ⟨⟨_, ret⟩, opened, same⟩ := Option.map_eq_some_iff.mp ran
      cases same
      by_cases creates : oCreat flags = true
      · simp only [IoCall.named, if_pos creates]
        exact holds.create named creates (space creates) opened
      · simp only [IoCall.named, if_neg creates]
        exact holds.openFound named creates opened
  | close pid fd =>
      obtain ⟨⟨_, ret⟩, closed, same⟩ := Option.map_eq_some_iff.mp ran
      cases same
      exact holds.close closed
  | read pid fd buf count => exact holds.read small proper ran
  | write pid fd data =>
      obtain ⟨⟨_, ret⟩, wrote, same⟩ := Option.map_eq_some_iff.mp ran
      cases same
      exact holds.write small proper wrote
  | lseek pid fd off whence =>
      obtain ⟨⟨_, ret⟩, moved, same⟩ := Option.map_eq_some_iff.mp ran
      cases same
      exact holds.seek proper moved
  | unlink path =>
      obtain ⟨⟨_, ret⟩, removed, same⟩ := Option.map_eq_some_iff.mp ran
      cases same
      exact holds.unlink proper removed

/-- The file system stands for the store in all its states. -/
def standsFor (bounded : Addressable size) (clean : CleanDirectory size disk)
    (small : size ≤ 2 ^ 22) : Simulation (fileSystem size disk) namedFiles Proper IoCall.named where
  relates := Holds size
  starts _ initial := ⟨startingStore, rfl, (fsMachine_started bounded initial).holds bounded clean⟩
  steps holds proper ran := holds.answers small proper ran

theorem pathA_proper : ProperPath pathA := by
  intro name valid
  rw [pathA_strip] at valid
  cases valid
  exact ⟨by decide, by decide, by decide⟩

/-- The first file is created, open from the start, and empty. -/
theorem first_create : ∃ (fd n : Nat) (state next : FsState) (store : Store),
    (fileSystem 32768 zeroDisk).initial state ∧ Proper state (.open 0 pathA 3) ∧
      (IoCall.open 0 pathA 3).answer state = some (next, ⟨fd, []⟩) ∧ Holds 32768 next store ∧
      store.handle 0 fd = some ⟨n, 0, 3⟩ ∧ store.content n = some [] := by
  have bounded : Addressable 32768 := by unfold Addressable; omega
  obtain ⟨state, next, fd, begun, _, opens, _⟩ := first_file
  have initial : (fileSystem 32768 zeroDisk).initial state := ⟨zeroDisk_unformatted, begun⟩
  have started := fsMachine_started bounded initial
  have proper : Proper state (.open 0 pathA 3) :=
    ⟨pathA_proper, fun _ _ => started.packed.space (by omega)⟩
  have done : (IoCall.open 0 pathA 3).answer state = some (next, ⟨fd, []⟩) := by
    have opened : doOpen state 0 pathA 3 = some (next, (fd : Int)) := opens
    simp [IoCall.answer, opened, silent]
  obtain ⟨store, answered, holds⟩ :=
    (started.holds bounded (zeroDisk_clean _)).answers (by omega) proper done
  have creates : oCreat 3 = true := by decide
  simp only [IoCall.named, if_pos creates, pathA_strip] at answered
  have ret : ∃ reply : StoreReply Byte, reply = ⟨fd, []⟩ := ⟨_, rfl⟩
  obtain ⟨reply, same⟩ := ret
  rw [← same] at answered
  cases answered with
  | createRefused => simp at same
  | @created _ slot n =>
      simp only [StoreReply.mk.injEq, and_true, Int.natCast_inj] at same
      subst same
      refine ⟨slot, n, state, next, _, initial, proper, done, holds, ?_, ?_⟩
      · simp [FileStore.setHandle]
      · simp [FileStore.setHandle, FileStore.setContent]

/-- The call neither writes to the file nor unlinks it. -/
def LeavesFile (n : Nat) (state : FsState) : IoCall → Prop
  | .write pid fd _ => ∀ handle, state.handle pid fd = some handle → handle.file ≠ n
  | .unlink path => searchFile state path ≠ n
  | _ => True

theorem Holds.spares (holds : Holds size state store) (proper : Proper state call)
    (leaves : LeavesFile n state call) : store.Spares n call.named := by
  cases call with
  | «open» pid path flags =>
      by_cases creates : oCreat flags = true
      · simp only [IoCall.named, if_pos creates, FileStore.Spares]
      · simp only [IoCall.named, if_neg creates, FileStore.Spares]
  | close => trivial
  | read => trivial
  | lseek => trivial
  | write pid fd data =>
      intro handle behind
      rw [holds.handle] at behind
      exact leaves handle behind
  | unlink path =>
      intro name valid known
      have search := holds.search valid (proper.1.nonempty valid)
      rw [known] at search
      exact leaves search

/-- What is behind a handle on a file. -/
theorem Holds.behind (holds : Holds size state store)
    (held : state.handle pid fd = some ⟨n, pos, mode⟩) (five : 5 ≤ n) :
    ∃ d p text, opened state pid fd = some (d, p) ∧ OpenText state store d p text ∧
      (state.inodeTable p).num = n ∧ (state.fDescTable d).pos = pos ∧
      (state.fDescTable d).mode = mode := by
  obtain ⟨d, p, opens, same⟩ := handle_some held
  cases same
  obtain ⟨text, file⟩ := holds.text opens five
  exact ⟨d, p, text, opens, file, rfl, rfl, rfl⟩

theorem Holds.file (holds : Holds size state store) {text : List Byte}
    (content : store.content n = some text) : 5 ≤ n := by
  rw [holds.content] at content
  exact (content_length content).1.1

/-- A read inside an open file returns. -/
theorem Holds.reads (holds : Holds size state store) (buf : Buffer)
    (held : state.handle pid fd = some ⟨n, pos, mode⟩) (update : oRdwr mode = true)
    {text : List Byte} (content : store.content n = some text) (inside : pos + count ≤ text.length) :
    Proper state (.read pid fd buf count) ∧
      ∃ last reply, (IoCall.read pid fd buf count).answer state = some (last, reply) := by
  obtain ⟨d, p, _, opens, file, rfl, rfl, rfl⟩ := holds.behind held (holds.file content)
  have same := file.content
  rw [content] at same
  cases same
  rw [file.length] at inside
  have proper : Proper state (.read pid fd buf count) := by
    refine ⟨fun e q again => ?_, fun e q again => ?_, fun e q again => ?_⟩
    · rw [opens] at again
      cases again
      exact file.live.1
    · rw [opens] at again
      cases again
      exact update
    · rw [opens] at again
      cases again
      exact inside
  obtain ⟨read, found, _⟩ := realRead_inside buf (file.openFile holds opens) update inside
  refine ⟨proper, ?_⟩
  simp only [IoCall.answer, found, Option.map_some]
  exact ⟨_, _, rfl⟩

/-- A write inside the capacity of an open file returns. -/
theorem Holds.writes (holds : Holds size state store) (data : List Byte)
    (held : state.handle pid fd = some ⟨n, pos, mode⟩) (update : oRdwr mode = true)
    {text : List Byte} (content : store.content n = some text)
    (inside : pos + data.length ≤ nrDefaultFileSects * sectorSize) :
    Proper state (.write pid fd data) ∧
      ∃ next reply, (IoCall.write pid fd data).answer state = some (next, reply) := by
  obtain ⟨d, p, _, opens, file, rfl, rfl, rfl⟩ := holds.behind held (holds.file content)
  obtain ⟨_, run⟩ := holds.sound.extents.run _ file.live
  have sects : (state.volume.records (state.inodeTable p).num).nrSects = nrDefaultFileSects := run.sects
  rw [← file.record] at sects
  rw [← sects] at inside
  have proper : Proper state (.write pid fd data) := by
    refine ⟨fun e q again => ?_, fun e q again => ?_, fun e q again => ?_⟩
    · rw [opens] at again
      cases again
      exact file.live.1
    · rw [opens] at again
      cases again
      exact update
    · rw [opens] at again
      cases again
      exact inside
  have ran := doWrite_moved (file.openFile holds opens) update data
  refine ⟨proper, ?_⟩
  simp only [IoCall.answer, ran, Option.map_some]
  exact ⟨_, _, rfl⟩

/-- A seek to the start of an open file returns. -/
theorem Holds.rewinds (holds : Holds size state store)
    (held : state.handle pid fd = some ⟨n, pos, mode⟩) {text : List Byte}
    (content : store.content n = some text) :
    ∃ next, Proper state (.lseek pid fd 0 seekSet) ∧
      (IoCall.lseek pid fd 0 seekSet).answer state = some (next, ⟨0, []⟩) ∧
      next.handle pid fd = some ⟨n, 0, mode⟩ ∧ Holds size next
        (store.setHandle pid fd (some ⟨n, 0, mode⟩)) := by
  obtain ⟨d, p, _, opens, file, rfl, rfl, rfl⟩ := holds.behind held (holds.file content)
  have moved := holds.move opens (Nat.zero_le (state.inodeTable p).size)
  refine ⟨_, fun e q again => ?_, ?_, ?_, moved⟩
  · rw [opens] at again
    cases again
    exact file.live.1
  · simp [IoCall.answer, doLseek, opens, seekPos, silent]
  · rw [← moved.handle]
    simp [FileStore.setHandle]

/-- Bytes that were written are what a later read brings, from any descriptor of the file,
whatever is done to other files in between. -/
theorem written_stays (bounded : Addressable size) (clean : CleanDirectory size disk)
    (small : size ≤ 2 ^ 22) (reached : (fileSystem size disk).Reaches Proper log state)
    (held : state.handle pid fd = some ⟨n, pos, mode⟩)
    (proper : Proper state (.write pid fd data))
    (wrote : (IoCall.write pid fd data).answer state = some (written, reply))
    (runs : (fileSystem size disk).Runs (fun state call => Proper state call ∧ LeavesFile n state call)
      written later last)
    {otherMode : Nat} (again : last.handle other slot = some ⟨n, spot, otherMode⟩)
    (update : oRdwr otherMode = true) (low : pos ≤ spot) (high : spot + count ≤ pos + data.length) :
    ∃ final, (IoCall.read other slot buf count).answer last =
      some (final, ⟨count, (data.drop (spot - pos)).take count⟩) := by
  let simulation := @standsFor size disk bounded clean small
  obtain ⟨store, _, holds⟩ := simulation.reaches reached
  have holds : Holds size state store := holds
  obtain ⟨moved, answered, kept⟩ := holds.answers small proper wrote
  have behind : store.handle pid fd = some ⟨n, pos, mode⟩ := by rw [holds.handle, held]
  obtain ⟨text, content, inside, bytes⟩ := answered.stored behind
  obtain ⟨final, stands, unchanged⟩ := simulation.keeps
    (fun store => store.content n = some text) (fun _ _ both => both.1)
    (fun related both answers stored => answers.spared (Holds.spares related both.1 both.2) stored)
    kept content runs
  have stands : Holds size last final := stands
  obtain ⟨properRead, ended, found, reads⟩ := stands.reads buf again update unchanged
    (by omega : spot + count ≤ text.length)
  obtain ⟨_, brings, _⟩ := stands.answers small properRead reads
  have handle : final.handle other slot = some ⟨n, spot, otherMode⟩ := by rw [stands.handle, again]
  rw [brings.brought handle unchanged] at reads
  have same : (data.drop (spot - pos)).take count = (text.drop spot).take count := by
    calc (data.drop (spot - pos)).take count
        = (((text.drop pos).take data.length).drop (spot - pos)).take count := by rw [bytes]
      _ = ((text.drop spot).take (data.length - (spot - pos))).take count := by
        rw [List.drop_take, List.drop_drop, Nat.add_sub_cancel' low]
      _ = (text.drop spot).take count := by rw [List.take_take, Nat.min_eq_left (by omega)]
  exact ⟨ended, same ▸ reads⟩

theorem written_stays_first : ∃ (written last final : FsState) (n fd : Nat),
    (fileSystem 32768 zeroDisk).Runs
        (fun state call => Proper state call ∧ LeavesFile n state call) written
        [(.lseek 0 fd 0 seekSet, ⟨0, []⟩)] last ∧
      (IoCall.read 0 fd zeroBuffer 2).answer last = some (final, ⟨2, [65, 66]⟩) := by
  have bounded : Addressable 32768 := by unfold Addressable; omega
  have clean := zeroDisk_clean 32768
  have small : 32768 ≤ 2 ^ 22 := by decide
  obtain ⟨fd, n, state, next, store, initial, proper, done, holds, handle, content⟩ := first_create
  have held : next.handle 0 fd = some ⟨n, 0, 3⟩ := by rw [← holds.handle, handle]
  obtain ⟨properWrite, written, reply, wrote⟩ :=
    holds.writes [65, 66] held (by decide) content (by decide)
  obtain ⟨stored, answered, stands⟩ := holds.answers small properWrite wrote
  obtain ⟨text, kept, _⟩ := answered.stored handle
  have moved : written.handle 0 fd = some ⟨n, 2, 3⟩ := by
    rw [← stands.handle]
    cases answered with
    | written known =>
        rw [handle] at known
        cases known
        simp [FileStore.setHandle]
  obtain ⟨last, properSeek, seeked, again, _⟩ := stands.rewinds moved kept
  have runs : (fileSystem 32768 zeroDisk).Runs
      (fun state call => Proper state call ∧ LeavesFile n state call) written
      [(.lseek 0 fd 0 seekSet, ⟨0, []⟩)] last := .one ⟨properSeek, trivial⟩ seeked
  obtain ⟨final, reads⟩ : ∃ final, (IoCall.read 0 fd zeroBuffer 2).answer last =
      some (final, ⟨2, [65, 66]⟩) :=
    written_stays bounded clean small ⟨state, initial, .one proper done⟩ held properWrite wrote
      runs again (by decide) (Nat.le_refl 0) (Nat.le_refl 2)
  exact ⟨written, last, final, n, fd, runs, reads⟩

end AempOS.Fs
