import Mathlib.Data.List.Basic
import Mathlib.Data.List.Induction

/-! Writes to one place, one after the other, of which the last one counts. -/

set_option autoImplicit false

namespace AempOS.Lib

variable {Entry Value : Type} (kind : Entry → Prop) [DecidablePred kind] (value : Entry → Value)

/-- What is there after the writes: an entry of the kind writes its value. -/
def overwrite (before : Value) (entries : List Entry) : Value :=
  entries.foldl (fun current entry => if kind entry then value entry else current) before

/-- The last entry of a kind. -/
def LastOf (kind : Entry → Prop) (entries : List Entry) (entry : Entry) : Prop :=
  ∃ left right, entries = left ++ entry :: right ∧ kind entry ∧ ∀ later ∈ right, ¬kind later

variable {kind value} {before : Value} {entries : List Entry} {entry : Entry}

omit [DecidablePred kind] in
theorem LastOf.mem (last : LastOf kind entries entry) : entry ∈ entries := by
  obtain ⟨left, right, rfl, _⟩ := last
  simp

omit [DecidablePred kind] in
theorem LastOf.fits (last : LastOf kind entries entry) : kind entry := by
  obtain ⟨_, _, _, fits, _⟩ := last
  exact fits

theorem overwrite_append (before : Value) (first second : List Entry) :
    overwrite kind value before (first ++ second) = overwrite kind value (overwrite kind value before first) second :=
  List.foldl_append ..

theorem overwrite_concat (before : Value) (entries : List Entry) (entry : Entry) :
    overwrite kind value before (entries ++ [entry]) =
      if kind entry then value entry else overwrite kind value before entries :=
  overwrite_append before entries [entry]

theorem overwrite_none (none : ∀ entry ∈ entries, ¬kind entry) : overwrite kind value before entries = before := by
  induction entries with
  | nil => rfl
  | cons entry rest ih =>
      unfold overwrite
      rw [List.foldl_cons, if_neg (none entry (List.mem_cons_self ..))]
      exact ih fun other member => none other (List.mem_cons_of_mem _ member)

theorem overwrite_last (last : LastOf kind entries entry) : overwrite kind value before entries = value entry := by
  obtain ⟨left, right, rfl, fits, others⟩ := last
  rw [overwrite_append]
  unfold overwrite
  rw [List.foldl_cons, if_pos fits]
  exact overwrite_none others

/-- Nothing is written, or there is a last write. -/
theorem overwrite_cases (kind : Entry → Prop) (entries : List Entry) :
    (∀ entry ∈ entries, ¬kind entry) ∨ ∃ entry, LastOf kind entries entry := by
  induction entries using List.reverseRecOn with
  | nil => exact .inl fun _ wrong => by cases wrong
  | append_singleton entries last ih =>
      by_cases here : kind last
      · exact .inr ⟨last, entries, [], rfl, here, fun _ wrong => by cases wrong⟩
      · rcases ih with none | ⟨entry, left, right, rfl, fits, others⟩
        · refine .inl fun entry member => ?_
          rcases List.mem_append.mp member with early | isLast
          · exact none entry early
          · exact List.mem_singleton.mp isLast ▸ here
        · refine .inr ⟨entry, left, right ++ [last], by simp, fits, fun later member => ?_⟩
          rcases List.mem_append.mp member with inRight | isLast
          · exact others later inRight
          · exact List.mem_singleton.mp isLast ▸ here

/-- The writes leave what was there exactly if the last one writes that. -/
theorem overwrite_same_iff : overwrite kind value before entries = before ↔
    ∀ entry, LastOf kind entries entry → value entry = before := by
  constructor
  · intro same entry last
    have written : overwrite kind value before entries = value entry := overwrite_last last
    exact written.symm.trans same
  · intro same
    rcases overwrite_cases kind entries with none | ⟨entry, last⟩
    · exact overwrite_none none
    · rw [overwrite_last last]
      exact same entry last

end AempOS.Lib
