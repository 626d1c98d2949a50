import Mathlib.Data.List.Basic

/-! Scans. The scan for the greatest key with a running best, kept by a strict
comparison: of several items with the same greatest key the first one stays. The
scan of an array for the first index that passes a test. The loop over a list
whose body may give up. -/

set_option autoImplicit false

namespace AempOS.Lib

variable {Item : Type} (eligible : Item → Bool) (key : Item → Int)

/-- One pass over the items. The pair is the greatest key so far and its item. -/
def scanGreatest (best : Int × Option Item) : List Item → Int × Option Item
  | [] => best
  | item :: rest =>
      scanGreatest (if eligible item ∧ key item > best.1 then (key item, some item) else best) rest

/-- The item is the first eligible one of the greatest key. -/
structure FirstGreatest (items : List Item) (found : Item) : Prop where
  fits : eligible found
  place : ∃ left right, items = left ++ found :: right ∧
    (∀ item ∈ left, eligible item → key item < key found) ∧
    ∀ item ∈ right, eligible item → key item ≤ key found

variable {eligible key}

theorem FirstGreatest.mem {items : List Item} {found : Item}
    (held : FirstGreatest eligible key items found) : found ∈ items := by
  obtain ⟨left, right, rfl, _, _⟩ := held.place
  simp

theorem FirstGreatest.le {items : List Item} {found : Item}
    (held : FirstGreatest eligible key items found) {item : Item} (member : item ∈ items)
    (fits : eligible item) : key item ≤ key found := by
  obtain ⟨left, right, rfl, lower, upper⟩ := held.place
  rcases List.mem_append.mp member with inLeft | rest
  · exact Int.le_of_lt (lower item inLeft fits)
  · rcases List.mem_cons.mp rest with rfl | inRight
    · exact Int.le_refl _
    · exact upper item inRight fits

/-- A scan keeps its best when nothing beats it, and else gives the first
greatest item. -/
theorem scanGreatest_spec (items : List Item) (best : Int × Option Item) :
    ((∀ item ∈ items, eligible item → key item ≤ best.1) ∧
        scanGreatest eligible key best items = best) ∨
      ∃ found, FirstGreatest eligible key items found ∧ best.1 < key found ∧
        scanGreatest eligible key best items = (key found, some found) := by
  induction items generalizing best with
  | nil => exact .inl ⟨by simp, rfl⟩
  | cons item rest ih =>
      by_cases beats : eligible item ∧ key item > best.1
      · rcases ih (key item, some item) with ⟨below, same⟩ | ⟨found, greatest, above, result⟩
        · refine .inr ⟨item, ⟨beats.1, [], rest, rfl, by simp, below⟩, beats.2, ?_⟩
          rw [scanGreatest, if_pos beats, same]
        · obtain ⟨left, right, rfl, lower, upper⟩ := greatest.place
          refine .inr ⟨found, ⟨greatest.fits, item :: left, right, rfl, ?_, upper⟩,
            Int.lt_trans beats.2 above, ?_⟩
          · intro other member fits
            rcases List.mem_cons.mp member with rfl | inLeft
            · exact above
            · exact lower other inLeft fits
          · rw [scanGreatest, if_pos beats, result]
      · have keeps : eligible item → key item ≤ best.1 :=
          fun fits => Int.not_lt.mp fun above => beats ⟨fits, above⟩
        rcases ih best with ⟨below, same⟩ | ⟨found, greatest, above, result⟩
        · refine .inl ⟨?_, by rw [scanGreatest, if_neg beats, same]⟩
          intro other member fits
          rcases List.mem_cons.mp member with rfl | inRest
          · exact keeps fits
          · exact below other inRest fits
        · obtain ⟨left, right, rfl, lower, upper⟩ := greatest.place
          refine .inr ⟨found, ⟨greatest.fits, item :: left, right, rfl, ?_, upper⟩, above, ?_⟩
          · intro other member fits
            rcases List.mem_cons.mp member with rfl | inLeft
            · exact Int.lt_of_le_of_lt (keeps fits) above
            · exact lower other inLeft fits
          · rw [scanGreatest, if_neg beats, result]

/-- The first index from `i` on, among `count` ones, that passes the test. -/
def firstFrom (test : Nat → Bool) : Nat → Nat → Option Nat
  | 0, _ => none
  | count + 1, i => if test i then some i else firstFrom test count (i + 1)

theorem firstFrom_none {test : Nat → Bool} {count start : Nat}
    (missed : firstFrom test count start = none) {i : Nat} (low : start ≤ i)
    (high : i < start + count) : test i = false := by
  induction count generalizing start with
  | zero => omega
  | succ count ih =>
      rw [firstFrom] at missed
      split at missed
      next => cases missed
      next fails =>
        rcases Nat.eq_or_lt_of_le low with rfl | later
        · simpa using fails
        · exact ih missed later (by omega)

theorem firstFrom_some {test : Nat → Bool} {count start found : Nat}
    (hit : firstFrom test count start = some found) :
    start ≤ found ∧ found < start + count ∧ test found = true ∧
      ∀ i, start ≤ i → i < found → test i = false := by
  induction count generalizing start with
  | zero => cases hit
  | succ count ih =>
      rw [firstFrom] at hit
      split at hit
      next passes =>
        cases hit
        exact ⟨Nat.le_refl _, by omega, passes, fun i low high => by omega⟩
      next fails =>
        obtain ⟨low, high, passes, least⟩ := ih hit
        refine ⟨by omega, by omega, passes, fun i above below => ?_⟩
        rcases Nat.eq_or_lt_of_le above with rfl | later
        · simpa using fails
        · exact least i later below

theorem firstFrom_isSome {test : Nat → Bool} {count start i : Nat} (low : start ≤ i)
    (high : i < start + count) (passes : test i = true) :
    ∃ found, firstFrom test count start = some found := by
  cases outcome : firstFrom test count start with
  | none => rw [firstFrom_none outcome low high] at passes; cases passes
  | some found => exact ⟨found, rfl⟩

/-- A test that one index alone passes finds that index. -/
theorem firstFrom_unique {test : Nat → Bool} {count start found : Nat} (low : start ≤ found)
    (high : found < start + count) (passes : test found = true)
    (only : ∀ i, start ≤ i → i < start + count → test i = true → i = found) :
    firstFrom test count start = some found := by
  obtain ⟨other, hit⟩ := firstFrom_isSome low high passes
  obtain ⟨above, below, holds, _⟩ := firstFrom_some hit
  rw [hit, only other above below holds]

theorem firstFrom_eq_none {test : Nat → Bool} {count start : Nat}
    (fails : ∀ i, start ≤ i → i < start + count → test i = false) :
    firstFrom test count start = none := by
  cases outcome : firstFrom test count start with
  | none => rfl
  | some found =>
      obtain ⟨above, below, holds, _⟩ := firstFrom_some outcome
      rw [fails found above below] at holds
      cases holds

/-- A scan of another length finds the same index, if it gets there. -/
theorem firstFrom_resized {test : Nat → Bool} {count start found : Nat} (less : Nat)
    (hit : firstFrom test count start = some found) :
    firstFrom test less start = if found < start + less then some found else none := by
  obtain ⟨low, _, passes, least⟩ := firstFrom_some hit
  split
  next reached =>
    obtain ⟨other, early⟩ := firstFrom_isSome low reached passes
    obtain ⟨above, below, holds, first⟩ := firstFrom_some early
    rw [early]
    rcases Nat.lt_trichotomy other found with before | rfl | behind
    · rw [least other above before] at holds
      cases holds
    · rfl
    · rw [first found low behind] at passes
      cases passes
  next beyond => exact firstFrom_eq_none fun i above below => least i above (by omega)

/-! ## Loops over a list -/

/-- A property of the items done so far and of the state, which every round keeps,
holds at the end of the loop. -/
theorem foldlM_invariant {Member State : Type} {body : State → Member → Option State}
    (property : List Member → State → Prop) {items : List Member} {start final : State}
    (begins : property [] start)
    (keep : ∀ left item right state next, items = left ++ item :: right → property left state →
      body state item = some next → property (left ++ [item]) next)
    (ran : items.foldlM body start = some final) : property items final := by
  have general : ∀ rest left state, items = left ++ rest → property left state →
      rest.foldlM body state = some final → property items final := by
    intro rest
    induction rest with
    | nil =>
        intro left state whole held done
        cases done
        rwa [whole, List.append_nil]
    | cons item rest ih =>
        intro left state whole held done
        simp only [List.foldlM_cons, Option.bind_eq_bind, Option.bind_eq_some_iff] at done
        obtain ⟨next, moved, done⟩ := done
        exact ih (left ++ [item]) next (by simp [whole]) (keep left item rest state next whole held moved) done
  exact general items [] start rfl begins ran

end AempOS.Lib
