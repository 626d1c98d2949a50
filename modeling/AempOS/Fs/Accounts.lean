import AempOS.Fs.References

/-! Who uses which inode. Every slot of the inode table that is in use has one count for
each descriptor that points to it, one for the root directory, and one for each unlink
that was refused with the inode in hand. -/

set_option autoImplicit false

namespace AempOS.Fs

open Lib

/-- What the tables say about the use of inodes. -/
@[ext]
structure Accounts where
  count : Nat → Int
  num : Nat → Nat
  target : Nat → FdInode
  filp : Nat → Nat → Option Nat
  root : Nat

def FsState.accounts (state : FsState) : Accounts where
  count := state.counts
  num p := (state.inodeTable p).num
  target d := (state.fDescTable d).inode
  filp := state.filp
  root := state.rootInode

/-- The descriptors that point to a slot. -/
def Accounts.users (accounts : Accounts) (p : Nat) : Nat :=
  references (fun d => accounts.target d) p

/-- The reference that `init_fs` keeps. -/
def Accounts.fixed (accounts : Accounts) (p : Nat) : Nat := if p = accounts.root then 1 else 0

/-- Descriptors in use are each behind one `fd`, and the counts add up, with so many kept
references to each inode. Slots in use hold files or inodes that `mkfs` makes. -/
structure Balanced (accounts : Accounts) (file : Nat → Prop) (kept : Nat → Nat) : Prop where
  held : ∀ p < nrInode, accounts.count p ≠ 0 → accounts.num p < 5 ∨ file (accounts.num p)
  target : ∀ d p, accounts.target d = .slot p →
    d < nrFileDesc ∧ p < nrInode ∧ accounts.count p ≠ 0
  owner : ∀ d p, accounts.target d = .slot p → ∃ pid fd, accounts.filp pid fd = some d
  linked : ∀ pid fd d, accounts.filp pid fd = some d →
    fd < nrFiles ∧ ∃ p, accounts.target d = .slot p
  once : ∀ pid fd other place d, accounts.filp pid fd = some d →
    accounts.filp other place = some d → pid = other ∧ fd = place
  balance : ∀ p < nrInode, accounts.count p ≠ 0 →
    accounts.count p = accounts.users p + accounts.fixed p + kept (accounts.num p)
  found : ∀ n, kept n ≠ 0 → ∃ p < nrInode, accounts.count p ≠ 0 ∧ accounts.num p = n

section Targets

variable {accounts : Accounts} {d e p q pid fd : Nat} {inode : FdInode}

theorem users_update (accounts : Accounts) {d : Nat} (inside : d < nrFileDesc) (inode : FdInode)
    (p : Nat) :
    references (fun e => Function.update accounts.target d inode e) p +
        (if accounts.target d = .slot p then 1 else 0) =
      accounts.users p + (if inode = .slot p then 1 else 0) := by
  have updated := references_update (fun e : Fin nrFileDesc => accounts.target e) ⟨d, inside⟩ inode p
  have same : Function.update (fun e : Fin nrFileDesc => accounts.target e) ⟨d, inside⟩ inode =
      fun e : Fin nrFileDesc => Function.update accounts.target d inode e := by
    funext e
    by_cases here : e = ⟨d, inside⟩
    · simp [here]
    · have apart : (e : Nat) ≠ d := fun wrong => here (Fin.ext wrong)
      simp [here, apart]
  rw [same] at updated
  exact updated

theorem users_pos (points : accounts.target d = .slot p) (inside : d < nrFileDesc) :
    0 < accounts.users p :=
  references_pos (d := ⟨d, inside⟩) points

theorem users_some (some : 0 < accounts.users p) :
    ∃ d < nrFileDesc, accounts.target d = .slot p := by
  have nonzero : accounts.users p ≠ 0 := Nat.ne_of_gt some
  rw [Accounts.users, references, Ne, population_eq_zero] at nonzero
  simp only [decide_eq_false_iff_not, not_forall, not_not] at nonzero
  obtain ⟨d, points⟩ := nonzero
  exact ⟨d, d.isLt, points⟩

end Targets

namespace Balanced

variable {accounts : Accounts} {file other : Nat → Prop} {kept : Nat → Nat}
  {n p d pid fd : Nat}

theorem idle (balanced : Balanced accounts file kept) (free : accounts.count p = 0) (d : Nat) :
    accounts.target d ≠ .slot p :=
  fun points => (balanced.target d p points).2.2 free

theorem users_zero (balanced : Balanced accounts file kept) (free : accounts.count p = 0) :
    accounts.users p = 0 := by
  by_contra some
  obtain ⟨d, _, points⟩ := users_some (Nat.pos_of_ne_zero some)
  exact balanced.idle free d points

theorem nonneg (balanced : Balanced accounts file kept) (inside : p < nrInode) :
    0 ≤ accounts.count p := by
  by_cases used : accounts.count p = 0
  · exact Int.le_of_eq used.symm
  · have sum := balanced.balance p inside used
    omega

/-- A slot that is taken once more: it holds the inode, or it is free and nothing is kept
of the inode. -/
def Taken (accounts : Accounts) (kept : Nat → Nat) (n p : Nat) : Prop :=
  p < nrInode ∧ (accounts.count p ≠ 0 ∧ accounts.num p = n ∨
    accounts.count p = 0 ∧ p ≠ accounts.root ∧ kept n = 0)

/-- The count of a slot that is taken. -/
theorem taken_count (balanced : Balanced accounts file kept) (taken : Taken accounts kept n p) :
    accounts.count p = accounts.users p + accounts.fixed p + kept n := by
  obtain ⟨inside, ⟨used, rfl⟩ | ⟨free, apart, none⟩⟩ := taken
  · exact balanced.balance p inside used
  · rw [free, balanced.users_zero free, none, Accounts.fixed, if_neg apart]
    rfl

theorem taken_other (taken : Taken accounts kept n p) {q : Nat} (used : accounts.count q ≠ 0) :
    Function.update accounts.num p n q = accounts.num q := by
  by_cases here : q = p
  · rw [here, Function.update_self]
    rcases taken.2 with ⟨_, same⟩ | ⟨free, _⟩
    · exact same.symm
    · exact absurd (here ▸ free) used
  · exact Function.update_of_ne here _ _

/-- The slots in use after one is taken. -/
private theorem taken_used (balanced : Balanced accounts file kept) (taken : Taken accounts kept n p)
    {q : Nat} :
    Function.update accounts.count p (accounts.count p + 1) q ≠ 0 ↔
      q = p ∨ accounts.count q ≠ 0 := by
  have positive := balanced.nonneg taken.1
  by_cases here : q = p
  · rw [here, Function.update_self]
    constructor
    · exact fun _ => .inl rfl
    · exact fun _ => by omega
  · rw [Function.update_of_ne here]
    constructor
    · exact .inr
    · exact fun either => either.resolve_left here

private theorem taken_held (balanced : Balanced accounts file kept) (taken : Taken accounts kept n p)
    (kind : n < 5 ∨ other n) (grows : ∀ m, file m → other m) {q : Nat} (inside : q < nrInode)
    (used : Function.update accounts.count p (accounts.count p + 1) q ≠ 0) :
    Function.update accounts.num p n q < 5 ∨ other (Function.update accounts.num p n q) := by
  by_cases here : q = p
  · rw [here, Function.update_self]
    exact kind
  · have before := ((balanced.taken_used taken).mp used).resolve_left here
    rw [Function.update_of_ne here]
    exact (balanced.held q inside before).imp id (grows _)

private theorem taken_found (balanced : Balanced accounts file kept) (taken : Taken accounts kept n p)
    {m : Nat} (some : kept m ≠ 0) : ∃ q < nrInode,
      Function.update accounts.count p (accounts.count p + 1) q ≠ 0 ∧
        Function.update accounts.num p n q = m := by
  obtain ⟨q, inside, used, num⟩ := balanced.found m some
  exact ⟨q, inside, (balanced.taken_used taken).mpr (.inr used),
    (taken_other taken used).trans num⟩

/-- A descriptor is put on the inode in a slot, behind an `fd`. -/
theorem link (balanced : Balanced accounts file kept) (taken : Taken accounts kept n p)
    (kind : n < 5 ∨ other n) (grows : ∀ m, file m → other m) (inside : d < nrFileDesc)
    (free : accounts.target d = .free) (place : fd < nrFiles)
    (unused : accounts.filp pid fd = none) :
    Balanced
      { count := Function.update accounts.count p (accounts.count p + 1)
        num := Function.update accounts.num p n
        target := Function.update accounts.target d (.slot p)
        filp := Function.update accounts.filp pid (Function.update (accounts.filp pid) fd (some d))
        root := accounts.root } other kept := by
  have there {e : Nat} (apart : e ≠ d) :
      Function.update accounts.target d (.slot p) e = accounts.target e :=
    Function.update_of_ne apart _ _
  have links {one spot e : Nat} (link : Function.update accounts.filp pid
        (Function.update (accounts.filp pid) fd (some d)) one spot = some e) :
      one = pid ∧ spot = fd ∧ e = d ∨ accounts.filp one spot = some e := by
    by_cases same : one = pid
    · subst same
      rw [Function.update_self] at link
      by_cases here : spot = fd
      · subst here
        rw [Function.update_self] at link
        cases link
        exact .inl ⟨rfl, rfl, rfl⟩
      · rw [Function.update_of_ne here] at link
        exact .inr link
    · rw [Function.update_of_ne same] at link
      exact .inr link
  have apart {one spot e : Nat} (link : accounts.filp one spot = some e) : e ≠ d := by
    rintro rfl
    obtain ⟨_, q, points⟩ := balanced.linked one spot e link
    rw [free] at points
    cases points
  refine ⟨fun q within used => balanced.taken_held taken kind grows within used,
    fun e q points => ?_, fun e q points => ?_, fun one spot e link => ?_,
    fun one spot two place' e left right => ?_, fun q within used => ?_,
    fun m some => balanced.taken_found taken some⟩
  · by_cases here : e = d
    · subst here
      simp only [Function.update_self] at points
      cases points
      exact ⟨inside, taken.1, (balanced.taken_used taken).mpr (.inl rfl)⟩
    · obtain ⟨small, within, used⟩ := balanced.target e q ((there here).symm.trans points)
      exact ⟨small, within, (balanced.taken_used taken).mpr (.inr used)⟩
  · by_cases here : e = d
    · refine ⟨pid, fd, ?_⟩
      simp only [here, Function.update_self]
    · obtain ⟨one, spot, link⟩ := balanced.owner e q ((there here).symm.trans points)
      refine ⟨one, spot, ?_⟩
      by_cases same : one = pid
      · have other' : spot ≠ fd := by
          rintro rfl
          rw [same, unused] at link
          cases link
        rw [same] at link ⊢
        simp only [Function.update_self, Function.update_of_ne other', link]
      · simp only [Function.update_of_ne same, link]
  · rcases links link with ⟨_, rfl, rfl⟩ | before
    · refine ⟨place, p, ?_⟩
      simp only [Function.update_self]
    · obtain ⟨small, q, points⟩ := balanced.linked one spot e before
      exact ⟨small, q, (there (apart before)).trans points⟩
  · rcases links left with ⟨rfl, rfl, rfl⟩ | before
    · rcases links right with ⟨rfl, rfl, _⟩ | also
      · exact ⟨rfl, rfl⟩
      · exact absurd rfl (apart also)
    · rcases links right with ⟨_, _, rfl⟩ | also
      · exact absurd rfl (apart before)
      · exact balanced.once one spot two place' e before also
  · have users := users_update accounts inside (.slot p) q
    rw [free] at users
    simp only [reduceCtorEq, if_false, Nat.add_zero, FdInode.slot.injEq] at users
    show Function.update accounts.count p (accounts.count p + 1) q =
      (references (fun e => Function.update accounts.target d (.slot p) e) q : Nat) +
        (accounts.fixed q : Nat) + (kept (Function.update accounts.num p n q) : Nat)
    by_cases here : q = p
    · subst here
      have sum := balanced.taken_count taken
      rw [users, Function.update_self, Function.update_self, if_pos rfl]
      omega
    · have sum := balanced.balance q within (((balanced.taken_used taken).mp used).resolve_left here)
      rw [users, Function.update_of_ne here, Function.update_of_ne here,
        if_neg (fun same : p = q => here same.symm)]
      omega

/-- An inode stays in hand for good. -/
theorem keep (balanced : Balanced accounts file kept) (taken : Taken accounts kept n p)
    (kind : n < 5 ∨ file n)
    (alone : ∀ q < nrInode, q ≠ p → accounts.count q ≠ 0 → accounts.num q ≠ n) :
    Balanced
      { accounts with
        count := Function.update accounts.count p (accounts.count p + 1)
        num := Function.update accounts.num p n }
      file (Function.update kept n (kept n + 1)) := by
  refine ⟨fun q within used => balanced.taken_held taken kind (fun _ => id) within used,
    fun e q points => ?_, balanced.owner, balanced.linked, balanced.once,
    fun q within used => ?_, fun m some => ?_⟩
  · obtain ⟨small, within, used⟩ := balanced.target e q points
    exact ⟨small, within, (balanced.taken_used taken).mpr (.inr used)⟩
  · show Function.update accounts.count p (accounts.count p + 1) q =
      (accounts.users q : Nat) + (accounts.fixed q : Nat) +
        (Function.update kept n (kept n + 1) (Function.update accounts.num p n q) : Nat)
    by_cases here : q = p
    · subst here
      have sum := balanced.taken_count taken
      rw [Function.update_self, Function.update_self, Function.update_self]
      omega
    · have before := ((balanced.taken_used taken).mp used).resolve_left here
      have sum := balanced.balance q within before
      rw [Function.update_of_ne here, Function.update_of_ne here,
        Function.update_of_ne (alone q within here before)]
      exact sum
  · by_cases here : m = n
    · refine ⟨p, taken.1, (balanced.taken_used taken).mpr (.inl rfl), ?_⟩
      simp only [here, Function.update_self]
    · rw [Function.update_of_ne here] at some
      exact balanced.taken_found taken some

/-- The descriptor behind an `fd` is given back. -/
theorem release (balanced : Balanced accounts file kept) (link : accounts.filp pid fd = some d)
    (points : accounts.target d = .slot p) :
    Balanced
      { accounts with
        count := Function.update accounts.count p (accounts.count p - 1)
        target := Function.update accounts.target d .free
        filp := Function.update accounts.filp pid
          (Function.update (accounts.filp pid) fd none) } file kept := by
  obtain ⟨inside, slot, used⟩ := balanced.target d p points
  have sum := balanced.balance p slot used
  have users := users_update accounts inside .free
  have held {e q : Nat} (target : Function.update accounts.target d .free e = .slot q) :
      e ≠ d ∧ accounts.target e = .slot q := by
    by_cases here : e = d
    · rw [here, Function.update_self] at target
      cases target
    · rw [Function.update_of_ne here] at target
      exact ⟨here, target⟩
  have links {one spot e : Nat} (left : Function.update accounts.filp pid
        (Function.update (accounts.filp pid) fd none) one spot = some e) :
      accounts.filp one spot = some e ∧ e ≠ d := by
    have old : accounts.filp one spot = some e ∧ ¬(one = pid ∧ spot = fd) := by
      by_cases same : one = pid
      · subst same
        rw [Function.update_self] at left
        by_cases here : spot = fd
        · rw [here, Function.update_self] at left
          cases left
        · rw [Function.update_of_ne here] at left
          exact ⟨left, fun both => here both.2⟩
      · rw [Function.update_of_ne same] at left
        exact ⟨left, fun both => same both.1⟩
    refine ⟨old.1, ?_⟩
    rintro rfl
    exact old.2 (balanced.once one spot pid fd e old.1 link)
  have before {q : Nat} (still : Function.update accounts.count p (accounts.count p - 1) q ≠ 0) :
      accounts.count q ≠ 0 := by
    by_cases here : q = p
    · rw [here]
      exact used
    · rwa [Function.update_of_ne here] at still
  refine ⟨fun q within still => balanced.held q within (before still), fun e q target => ?_,
    fun e q target => ?_, fun one spot e left => ?_, fun one spot two place e left right => ?_,
    fun q within still => ?_, fun m some => ?_⟩
  · obtain ⟨apart, old⟩ := held target
    obtain ⟨small, within, busy⟩ := balanced.target e q old
    refine ⟨small, within, ?_⟩
    by_cases here : q = p
    · subst here
      have rest := users q
      have positive : 0 < references (fun e => Function.update accounts.target d .free e) q :=
        references_pos (d := ⟨e, small⟩) target
      rw [if_pos points, if_neg (by simp)] at rest
      simp only [Function.update_self]
      omega
    · simp only [Function.update_of_ne here]
      exact busy
  · obtain ⟨apart, old⟩ := held target
    obtain ⟨one, spot, behind⟩ := balanced.owner e q old
    refine ⟨one, spot, ?_⟩
    by_cases same : one = pid
    · have other' : spot ≠ fd := by
        rintro rfl
        rw [same, link] at behind
        cases behind
        exact apart rfl
      rw [same] at behind ⊢
      simp only [Function.update_self, Function.update_of_ne other', behind]
    · simp only [Function.update_of_ne same, behind]
  · obtain ⟨old, apart⟩ := links left
    obtain ⟨small, q, target⟩ := balanced.linked one spot e old
    exact ⟨small, q, (Function.update_of_ne apart _ _).trans target⟩
  · exact balanced.once one spot two place e (links left).1 (links right).1
  · have rest := users q
    show Function.update accounts.count p (accounts.count p - 1) q =
      (references (fun e => Function.update accounts.target d .free e) q : Nat) +
        (accounts.fixed q : Nat) + (kept (accounts.num q) : Nat)
    by_cases here : q = p
    · subst here
      rw [if_pos points, if_neg (by simp)] at rest
      rw [Function.update_self]
      omega
    · have old := balanced.balance q within (before still)
      rw [points, if_neg (by simpa using fun same : p = q => here same.symm), if_neg (by simp)] at rest
      rw [Function.update_of_ne here]
      omega
  · obtain ⟨q, within, busy, num⟩ := balanced.found m some
    refine ⟨q, within, ?_, num⟩
    by_cases here : q = p
    · subst here
      have positive := users_pos points inside
      rw [← num] at some
      simp only [Function.update_self]
      omega
    · simp only [Function.update_of_ne here]
      exact busy

/-- A file that no slot holds is removed. The number of a free slot does not matter. -/
theorem remove (balanced : Balanced accounts file kept) {num : Nat → Nat}
    (same : ∀ p, accounts.count p ≠ 0 → num p = accounts.num p)
    (absent : ∀ p < nrInode, accounts.count p ≠ 0 → accounts.num p ≠ n)
    (rest : ∀ m, m ≠ n → file m → other m) : Balanced { accounts with num := num } other kept where
  held p inside used := by
    show num p < 5 ∨ other (num p)
    rw [same p used]
    exact (balanced.held p inside used).imp id (rest _ (absent p inside used))
  target := balanced.target
  owner := balanced.owner
  linked := balanced.linked
  once := balanced.once
  balance p inside used := by
    show accounts.count p = accounts.users p + accounts.fixed p + kept (num p)
    rw [same p used]
    exact balanced.balance p inside used
  found m some := by
    obtain ⟨p, inside, used, number⟩ := balanced.found m some
    exact ⟨p, inside, used, (same p used).trans number⟩

/-- A free descriptor is reserved, or a reserved one stays so. -/
theorem reserve (balanced : Balanced accounts file kept) (inside : d < nrFileDesc)
    (free : accounts.target d = .free) :
    Balanced { accounts with target := Function.update accounts.target d .reserved } file kept := by
  have held {e q : Nat} : Function.update accounts.target d .reserved e = .slot q ↔
      accounts.target e = .slot q := by
    by_cases here : e = d
    · simp [here, free]
    · simp [here]
  have users (p : Nat) :
      references (fun e => Function.update accounts.target d .reserved e) p = accounts.users p := by
    have same := users_update accounts inside .reserved p
    simpa [free] using same
  refine ⟨balanced.held, fun e q target => balanced.target e q (held.mp target),
    fun e q target => balanced.owner e q (held.mp target), fun one spot e link => ?_, balanced.once,
    fun p inside used => ?_, balanced.found⟩
  · obtain ⟨small, q, target⟩ := balanced.linked one spot e link
    exact ⟨small, q, held.mpr target⟩
  · rw [Accounts.users, users]
    exact balanced.balance p inside used

end Balanced

end AempOS.Fs
