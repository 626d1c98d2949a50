import AempOS.Fs.FilesProperties

/-! `strip_path` on any C string, down to the buffer that it fills, and the calls
that rely on it to refuse a path. -/

set_option autoImplicit false

namespace AempOS.Fs

open Lib

/-- A C string without its terminator. -/
structure CString where
  text : List Byte
  noNul : 0 ∉ text

def Path.cString (path : Path) : CString := ⟨path.text, path.noNul⟩

/-- What `strip_path` leaves: its return value, `filename`, and `*ppinode` if it
was stored. -/
structure Stripped where
  ret : Int
  filename : Buffer
  inode : Option Nat

/-- `while (*s)`, with `t` characters stored, and the stores behind it. -/
def stripLoop (rootInode : Nat) (filename : Buffer) (t : Nat) : List Byte → Stripped
  | [] => ⟨0, Function.update filename t 0, some rootInode⟩
  | c :: rest =>
      if c = slash then ⟨-1, filename, none⟩
      else
        let filename := Function.update filename t c
        if maxFilenameLen ≤ t + 1 then ⟨0, Function.update filename (t + 1) 0, some rootInode⟩
        else stripLoop rootInode filename (t + 1) rest

/-- `if (*s == '/') s++;` -/
def skipSlash : List Byte → List Byte
  | [] => []
  | c :: rest => if c = slash then rest else c :: rest

/-- `strip_path`. No string is the null pointer. -/
def stripInto (rootInode : Nat) (filename : Buffer) : Option CString → Stripped
  | none => ⟨-1, filename, none⟩
  | some path => stripLoop rootInode filename 0 (skipSlash path.text)

/-! ## The loop -/

private theorem copyString_cons (filename : Buffer) (t : Nat) (c : Byte) (name : List Byte) :
    copyString (Function.update filename t c) (t + 1) name = copyString filename t (c :: name) := by
  funext o
  by_cases here : o = t
  · subst here
    rw [copyString_outside (.inl (Nat.lt_succ_self _)), Function.update_self]
    exact (copyString_inside (Nat.zero_le _) : copyString filename o (c :: name) (o + 0) = c).symm
  · unfold copyString
    rw [Function.update_of_ne here, List.length_cons]
    by_cases behind : t + 1 ≤ o ∧ o < t + 1 + name.length + 1
    · rw [if_pos behind, if_pos (by omega), show o - t = o - (t + 1) + 1 by omega,
        List.getD_cons_succ]
    · rw [if_neg behind, if_neg (by omega)]

private theorem copyString_nil (filename : Buffer) (t : Nat) :
    copyString filename t [] = Function.update filename t 0 := by
  funext o
  unfold copyString
  by_cases here : o = t
  · subst here
    rw [Function.update_self, if_pos (by simp), Nat.sub_self]
    rfl
  · rw [Function.update_of_ne here, if_neg (by simp only [List.length_nil]; omega)]

/-- A slash among the characters that fit is met; else what fits is copied. -/
theorem stripLoop_spec (rootInode : Nat) {filename : Buffer} {t : Nat} {rest : List Byte}
    (room : t < maxFilenameLen) :
    (slash ∈ rest.take (maxFilenameLen - t) → (stripLoop rootInode filename t rest).ret = -1) ∧
      (slash ∉ rest.take (maxFilenameLen - t) →
        stripLoop rootInode filename t rest =
          ⟨0, copyString filename t (rest.take (maxFilenameLen - t)), some rootInode⟩) := by
  induction rest generalizing filename t with
  | nil =>
      rw [List.take_nil, copyString_nil]
      exact ⟨fun member => absurd member List.not_mem_nil, fun _ => rfl⟩
  | cons c rest ih =>
      obtain ⟨left, amount⟩ : ∃ left, maxFilenameLen - t = left + 1 :=
        ⟨maxFilenameLen - t - 1, by omega⟩
      rw [stripLoop, amount, List.take_succ_cons, ← copyString_cons, List.mem_cons]
      by_cases met : c = slash
      · rw [if_pos met]
        exact ⟨fun _ => rfl, fun apart => absurd (.inl met.symm) apart⟩
      · rw [if_neg met]
        by_cases full : maxFilenameLen ≤ t + 1
        · have none : left = 0 := by omega
          simp only [if_pos full, none, List.take_zero, copyString_nil]
          constructor
          · intro member
            exact absurd (member.resolve_left (Ne.symm met)) List.not_mem_nil
          · intro _
            trivial
        · simp only [if_neg full]
          have same : maxFilenameLen - (t + 1) = left := by omega
          obtain ⟨refused, copied⟩ := @ih (Function.update filename t c) (t + 1) (Nat.lt_of_not_le full)
          rw [same] at refused copied
          exact ⟨fun member => refused (member.resolve_left (Ne.symm met)),
            fun apart => copied fun member => apart (.inr member)⟩

/-! ## The grammar -/

/-- "at most one `/' preceding a filename", and in the filename no `/`. -/
def Named (path : CString) (name : List Byte) : Prop :=
  slash ∉ name ∧ (path.text = name ∨ path.text = slash :: name)

theorem Named.eq_skipSlash {path : CString} {name : List Byte} (named : Named path name) :
    name = skipSlash path.text := by
  obtain ⟨apart, plain | rooted⟩ := named
  · rw [plain]
    cases name with
    | nil => rfl
    | cons c rest =>
        have other : c ≠ slash := fun same => apart (same ▸ List.mem_cons_self)
        rw [skipSlash, if_neg other]
  · rw [rooted, skipSlash, if_pos rfl]

theorem exists_named_iff {path : CString} :
    (∃ name, Named path name) ↔ slash ∉ skipSlash path.text := by
  constructor
  · rintro ⟨name, named⟩
    rw [← named.eq_skipSlash]
    exact named.1
  · intro apart
    refine ⟨skipSlash path.text, apart, ?_⟩
    cases path.text with
    | nil => exact .inl rfl
    | cons c rest =>
        rw [skipSlash]
        split
        next lead => exact .inr (by rw [lead])
        next => exact .inl rfl

/-- What the characters say about the result. -/
theorem stripInto_spec (rootInode : Nat) (filename : Buffer) (path : CString) :
    (slash ∈ (skipSlash path.text).take maxFilenameLen →
        (stripInto rootInode filename (some path)).ret = -1) ∧
      (slash ∉ (skipSlash path.text).take maxFilenameLen →
        stripInto rootInode filename (some path) =
          ⟨0, copyString filename 0 ((skipSlash path.text).take maxFilenameLen), some rootInode⟩) :=
  @stripLoop_spec rootInode filename 0 (skipSlash path.text) (by decide)

/-! ## The callers -/

private theorem stripChars_eq (room : Nat) (text : List Byte) :
    stripChars room text = if slash ∈ text.take room then none else some (text.take room) := by
  induction text generalizing room with
  | nil =>
      rw [stripChars, List.take_nil]
      rfl
  | cons c rest ih =>
      cases room with
      | zero => rfl
      | succ room =>
          rw [stripChars, List.take_succ_cons, ih]
          by_cases met : c = slash
          · rw [if_pos met, if_pos (met ▸ List.mem_cons_self)]
          · rw [if_neg met]
            by_cases later : slash ∈ rest.take room
            · rw [if_pos later, if_pos (List.mem_cons_of_mem _ later)]
              rfl
            · rw [if_neg later, if_neg (by simp [Ne.symm met, later])]
              rfl

theorem stripPath_eq (path : Path) :
    stripPath path =
      if slash ∈ (skipSlash path.text).take maxFilenameLen then none
      else some ((skipSlash path.text).take maxFilenameLen) := by
  rw [← stripChars_eq]
  unfold stripPath
  cases path.text with
  | nil => rfl
  | cons c rest => rfl

/-- `stripPath` has the name when the buffer has it. -/
theorem stripPath_eq_some_iff (rootInode : Nat) (filename : Buffer) (path : Path)
    {name : List Byte} :
    stripPath path = some name ↔ (stripInto rootInode filename (some path.cString)).ret = 0 ∧
      name = (skipSlash path.text).take maxFilenameLen := by
  obtain ⟨refused, copied⟩ := stripInto_spec rootInode filename path.cString
  rw [stripPath_eq]
  by_cases met : slash ∈ (skipSlash path.text).take maxFilenameLen
  · rw [if_pos met, refused met]
    simp
  · rw [if_neg met, copied met, Option.some_inj]
    exact ⟨fun same => ⟨rfl, same.symm⟩, fun held => held.2.symm⟩

/-- No call does anything with the path; only the descriptor that `do_open` has
reserved before stays reserved. -/
def PathRefused (path : Path) : Prop :=
  ∀ state : FsState, searchFile state path = 0 ∧ doUnlink state path = some (state, -1) ∧
    ∀ pid flags, doOpen state pid path flags = some (reserveDesc state (freeDesc state), -1)

theorem pathRefused_of_stripPath {path : Path} (invalid : stripPath path = none) : PathRefused path := by
  intro state
  have missing (state : FsState) : searchFile state path = 0 := by
    unfold searchFile
    rw [invalid]
  refine ⟨missing state, ?_, fun pid flags => ?_⟩
  · unfold doUnlink
    rw [missing, if_pos rfl, ite_self]
  · simp only [doOpen, missing, createFile, invalid, ne_eq, not_true_eq_false, ite_self]

/-! ## The documentation -/

/-- The string is accepted if and only if it is in the grammar, then the name is
what is stored of it, and the calls refuse every other string. -/
structure StripsAsDocumented (path : CString) : Prop where
  accepts : ∀ rootInode filename,
    (stripInto rootInode filename (some path)).ret = 0 ↔ ∃ name, Named path name
  stores : ∀ rootInode filename name, Named path name →
    (stripInto rootInode filename (some path)).filename =
      copyString filename 0 (name.take maxFilenameLen)
  refuses : (¬∃ name, Named path name) → ∀ short : path.text.length < maxPath,
    PathRefused ⟨path.text, path.noNul, short⟩

/-- Behind the first character a slash that there is stands among the characters
that fit. -/
def SlashFits (path : CString) : Prop :=
  slash ∈ skipSlash path.text → slash ∈ (skipSlash path.text).take maxFilenameLen

/-- The loop ends at the limit, and a slash behind it is not seen. -/
theorem stripInto_documented_iff (path : CString) : StripsAsDocumented path ↔ SlashFits path := by
  constructor
  · intro documented inner
    by_contra unseen
    obtain ⟨_, copied⟩ := stripInto_spec 0 zeroBuffer path
    have accepted := (documented.accepts 0 zeroBuffer).mp (by rw [copied unseen])
    exact exists_named_iff.mp accepted inner
  · intro fits
    have seen : slash ∈ (skipSlash path.text).take maxFilenameLen ↔ slash ∈ skipSlash path.text :=
      ⟨fun member => List.mem_of_mem_take member, fits⟩
    refine ⟨fun rootInode filename => ?_, fun rootInode filename name named => ?_,
      fun unnamed short => ?_⟩
    · obtain ⟨refused, copied⟩ := stripInto_spec rootInode filename path
      rw [exists_named_iff, ← seen]
      constructor
      · intro accepted member
        rw [refused member] at accepted
        cases accepted
      · intro apart
        rw [copied apart]
    · have apart := exists_named_iff.mp ⟨name, named⟩
      rw [(stripInto_spec rootInode filename path).2 (fun member => apart (seen.mp member)),
        named.eq_skipSlash]
    · apply pathRefused_of_stripPath
      rw [exists_named_iff, not_not] at unnamed
      rw [stripPath_eq]
      exact if_pos (seen.mpr unnamed)

/-- `"/abcdefghijkl/x"` -/
def cutPath : CString := ⟨chars "/abcdefghijkl/x", by decide⟩

/-- The name is cut off before its slash, and the path is taken for the file
`abcdefghijkl` of the root directory. -/
theorem cutPath_accepted : ¬StripsAsDocumented cutPath := by
  intro documented
  have accepted := (documented.accepts 0 zeroBuffer).mp (by decide)
  exact exists_named_iff.mp accepted (by decide)

end AempOS.Fs
