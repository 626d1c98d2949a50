import AempOS.Kernel.Virtual

/-! Where the way back leads. A frame or a context on a stack stands for the registers
that the instructions of the way back will load from it, and nothing but the words from
the stack pointer up to the end of the frame matters. -/

set_option autoImplicit false

namespace AempOS.Kernel

open Lib

/-- From `regs` the way back leads to `final`, whatever happens to memory outside the
words between the stack pointer and `bound`. -/
inductive Leads (link : Link) (memory : Nat → Nat) (bound : Nat) :
    Registers → Registers → Prop where
  | arrived {regs : Registers} :
      link.Open regs → regs.user ∨ KernelMode regs → Leads link memory bound regs regs
  | step {regs after final : Registers} :
      regs.cs = selectorKernelCs → regs.ss = selectorKernelDs → regs.esp ≤ bound →
      (∀ other, AgreeOn memory other regs.esp bound → link.resume other regs = some after) →
      after.user ∨ regs.esp ≤ after.esp →
      Leads link memory bound after final → Leads link memory bound regs final

/-- The twelve words of `pushad` and the segment registers. -/
def savedWords (regs : Registers) (kernelEsp : Nat) : List Nat :=
  [regs.gs, regs.fs, regs.es, regs.ds, regs.edi, regs.esi, regs.ebp, kernelEsp, regs.ebx,
    regs.edx, regs.ecx, regs.eax]

/-- What the gate pushed. -/
def gateWords (regs : Registers) : List Nat :=
  [regs.eip, regs.cs, regs.eflags] ++ if regs.user then [regs.esp, regs.ss] else []

/-- A frame with `gap` words between the saved registers and those of the gate. -/
def Framed (memory : Nat → Nat) (address gap : Nat) (regs : Registers) : Prop :=
  ∃ kernelEsp skipped, skipped.length = gap ∧
    Stored memory address (savedWords regs kernelEsp ++ skipped ++ gateWords regs)

/-- The context that `sched` pushes. -/
def contextWords (regs : Registers) (kernelEsp back : Nat) : List Nat :=
  [regs.edi, regs.esi, regs.ebp, kernelEsp, regs.ebx, regs.edx, regs.ecx, regs.eax,
    regs.eflags, back]

/-- The registers at the `popfd` of `sched`, with the context at `address`. -/
def popContext (link : Link) (memory : Nat → Nat) (address : Nat) (regs : Registers) : Registers :=
  { Registers.popad { regs with esp := address } memory with eip := link.entry .schedPopfd }

section Mode

variable {regs : Registers}

theorem KernelMode.ring0 (mode : KernelMode regs) : ¬ regs.user := by
  simp [Registers.user, mode.1, selectorKernelCs]

theorem not_user_of_cs (cs : regs.cs = selectorKernelCs) : ¬ regs.user := by
  simp [Registers.user, cs, selectorKernelCs]

@[simp] theorem view_user : regs.view.user ↔ regs.user := by
  unfold Registers.view
  split <;> rfl

@[simp] theorem view_esp : regs.view.esp = regs.esp := by
  unfold Registers.view
  split <;> rfl

@[simp] theorem view_eax : regs.view.eax = regs.eax := by
  unfold Registers.view
  split <;> rfl

@[simp] theorem frameSize_view (gap : Nat) (regs : Registers) :
    frameSize gap regs.view = frameSize gap regs := by
  simp only [frameSize, view_user]

theorem view_of_user (user : regs.user) : regs.view = regs := if_pos user

theorem view_of_ring0 (ring0 : ¬ regs.user) : regs.view = { regs with fs := 0 } := if_neg ring0

end Mode

variable {link : Link} {memory other : Nat → Nat} {bound address gap : Nat}
  {regs after final : Registers}

theorem resume_of_open (open_ : link.Open regs) : link.resume memory regs = none := by
  unfold Link.resume
  rcases open_ with user | outside
  · rw [if_pos user]
  · rw [outside]
    split <;> rfl

theorem Leads.ends (leads : Leads link memory bound regs final) :
    link.Open final ∧ (final.user ∨ KernelMode final) := by
  induction leads with
  | arrived open_ mode => exact ⟨open_, mode⟩
  | step _ _ _ _ _ _ ih => exact ih

theorem Leads.of_open (leads : Leads link memory bound regs final) (open_ : link.Open regs) :
    final = regs := by
  cases leads with
  | arrived => rfl
  | step _ _ _ reads =>
      have moved := reads memory (.refl memory _ _)
      rw [resume_of_open open_] at moved
      cases moved

theorem Leads.next (leads : Leads link memory bound regs final)
    (moved : link.resume memory regs = some after) :
    Leads link memory bound after final := by
  cases leads with
  | arrived open_ =>
      rw [resume_of_open open_] at moved
      cases moved
  | step _ _ _ reads _ rest =>
      have same := (reads memory (.refl memory _ _)).symm.trans moved
      cases same
      exact rest

theorem Leads.rises (leads : Leads link memory bound regs final)
    (moved : link.resume memory regs = some after) : after.user ∨ regs.esp ≤ after.esp := by
  cases leads with
  | arrived open_ =>
      rw [resume_of_open open_] at moved
      cases moved
  | step _ _ _ reads rises =>
      have same := (reads memory (.refl memory _ _)).symm.trans moved
      cases same
      exact rises

/-- The way back goes on as long as it has not led out. -/
theorem Leads.moves (leads : Leads link memory bound regs final) (inside : ¬ link.Open regs) :
    ∃ after, link.resume memory regs = some after := by
  cases leads with
  | arrived open_ => exact absurd open_ inside
  | step _ _ _ reads => exact ⟨_, reads memory (.refl memory _ _)⟩

theorem Leads.mode (leads : Leads link memory bound regs final) :
    regs.user ∨ (regs.cs = selectorKernelCs ∧ regs.ss = selectorKernelDs) := by
  cases leads with
  | arrived _ mode => exact mode.imp_right fun kernel => ⟨kernel.1, kernel.2.1⟩
  | step cs ss => exact .inr ⟨cs, ss⟩

theorem Leads.esp_le (leads : Leads link memory bound regs final) (inside : ¬ link.Open regs) :
    regs.esp ≤ bound := by
  cases leads with
  | arrived open_ => exact absurd open_ inside
  | step _ _ below => exact below

theorem Leads.agree (leads : Leads link memory bound regs final)
    (agree : AgreeOn memory other regs.esp bound) : Leads link other bound regs final := by
  induction leads with
  | arrived open_ mode => exact .arrived open_ mode
  | step cs ss below reads rises rest ih =>
      refine .step cs ss below (fun third same => reads third (agree.trans same)) rises ?_
      rcases rises with user | rises
      · -- out of the kernel no memory is read any more
        cases rest with
        | arrived open_ mode => exact .arrived open_ mode
        | step cs => exact absurd user (not_user_of_cs cs)
      · exact ih (agree.within rises (Nat.le_refl _))

theorem Framed.agree (framed : Framed memory address gap regs)
    (agree : AgreeOn memory other address (address + frameSize gap regs)) :
    Framed other address gap regs := by
  obtain ⟨kernelEsp, skipped, length, stored⟩ := framed
  refine ⟨kernelEsp, skipped, length, stored.agree (agree.within (Nat.le_refl _) ?_)⟩
  subst length
  simp only [frameSize, savedWords, gateWords, List.length_append, List.length_cons,
    List.length_nil]
  split
  · simp only [List.length_cons, List.length_nil]
    omega
  · simp only [List.length_nil]
    omega

/-- One instruction that takes part of a frame off the stack, in either of the two copies
of that code. -/
private theorem Leads.restore {path : Restore → Label} {bytes : Nat} (instruction : Restore)
    (after : Registers)
    (copy : ∀ (instruction : Restore) (memory : Nat → Nat) (regs : Registers), ¬ regs.user →
      link.decode regs.eip = some (path instruction) → link.resume memory regs =
        some (instruction.execute (link.entry (path instruction.following)) bytes memory regs))
    (cs : regs.cs = selectorKernelCs) (ss : regs.ss = selectorKernelDs)
    (below : regs.esp ≤ bound) (here : link.decode regs.eip = some (path instruction))
    (reads : ∀ other, AgreeOn memory other regs.esp bound →
      instruction.execute (link.entry (path instruction.following)) bytes other regs = after)
    (rises : after.user ∨ regs.esp ≤ after.esp) (rest : Leads link memory bound after final) :
    Leads link memory bound regs final := by
  refine .step cs ss below (fun other same => ?_) rises rest
  rw [copy instruction other regs (not_user_of_cs cs) here, reads other same]

/-- A whole frame, in either copy of the code. -/
private theorem framed_leads {path : Restore → Label} {at_ : Registers}
    (copy : ∀ (instruction : Restore) (memory : Nat → Nat) (regs : Registers), ¬ regs.user →
      link.decode regs.eip = some (path instruction) → link.resume memory regs =
        some (instruction.execute (link.entry (path instruction.following)) (4 * gap) memory regs))
    (framed : Framed memory address gap regs)
    (start : at_.eip = link.entry (path .gs)) (esp : at_.esp = address)
    (cs : at_.cs = selectorKernelCs) (ss : at_.ss = selectorKernelDs)
    (fits : address + frameSize gap regs ≤ bound)
    (ring : regs.user ∨ (regs.cs = selectorKernelCs ∧ regs.ss = selectorKernelDs ∧
      regs.esp = address + frameSize gap regs))
    (rest : Leads link memory bound regs final) : Leads link memory bound at_ final := by
  obtain ⟨kernelEsp, skipped, length, stored⟩ := framed
  subst length esp
  simp only [frameSize] at fits ring
  simp only [stored_append, savedWords, gateWords, stored_cons, stored_nil, and_true,
    List.length_append, List.length_cons, List.length_nil, Nat.add_assoc, Nat.reduceAdd,
    Nat.mul_add, Nat.reduceMul] at stored
  obtain ⟨⟨⟨gs, fs, es, ds, edi, esi, ebp, _, ebx, edx, ecx, eax⟩, _⟩, ⟨eip, cs', eflags⟩, outer⟩ :=
    stored
  have room : at_.esp + 60 + 4 * skipped.length ≤ bound := by omega
  apply Leads.restore .gs
    { at_ with gs := regs.gs, esp := at_.esp + 4, eip := link.entry (path .fs) }
    copy cs ss (by omega) (by rw [start, link.decode_entry])
  · intro other same
    simp [Restore.execute, Restore.following, ← gs, same at_.esp (Nat.le_refl _) (by omega)]
  · exact .inr (Nat.le_add_right ..)
  refine Leads.restore .fs { at_ with
      gs := regs.gs, fs := regs.fs, esp := at_.esp + 8, eip := link.entry (path .es) }
    copy cs ss (by simp only; omega) (link.decode_entry _)
    (fun other same => ?_) (.inr (by simp)) ?_
  · simp [Restore.execute, Restore.following, ← fs, same (at_.esp + 4) (by simp) (by omega)]
  refine Leads.restore .es { at_ with
      gs := regs.gs, fs := regs.fs, es := regs.es, esp := at_.esp + 12
      eip := link.entry (path .ds) }
    copy cs ss (by simp only; omega) (link.decode_entry _)
    (fun other same => ?_) (.inr (by simp)) ?_
  · simp [Restore.execute, Restore.following, ← es, same (at_.esp + 8) (by simp) (by omega)]
  refine Leads.restore .ds { at_ with
      gs := regs.gs, fs := regs.fs, es := regs.es, ds := regs.ds, esp := at_.esp + 16
      eip := link.entry (path .popad) }
    copy cs ss (by simp only; omega) (link.decode_entry _)
    (fun other same => ?_) (.inr (by simp)) ?_
  · simp [Restore.execute, Restore.following, ← ds, same (at_.esp + 12) (by simp) (by omega)]
  refine Leads.restore .popad { regs with
      eip := link.entry (path .skip), cs := at_.cs, eflags := at_.eflags
      esp := at_.esp + 48, ss := at_.ss }
    copy cs ss (by simp only; omega) (link.decode_entry _)
    (fun other same => ?_) (.inr (by simp)) ?_
  · have word : ∀ place value, memory place = value → at_.esp + 16 ≤ place →
        place < at_.esp + 48 → other place = value :=
      fun place value held above below => (same place above (by omega)).trans held
    simp [Restore.execute, Restore.following, Registers.popad, Nat.add_assoc,
      word _ _ edi (by simp) (by simp), word _ _ esi (by simp) (by simp),
      word _ _ ebp (by simp) (by simp), word _ _ ebx (by simp) (by simp),
      word _ _ edx (by simp) (by simp), word _ _ ecx (by simp) (by simp),
      word _ _ eax (by simp) (by simp)]
  refine Leads.restore .skip { regs with
      eip := link.entry (path .iretd), cs := at_.cs, eflags := at_.eflags
      esp := at_.esp + 48 + 4 * skipped.length, ss := at_.ss }
    copy cs ss (by simp only; omega) (link.decode_entry _)
    (fun other same => rfl) (.inr (by simp)) ?_
  refine Leads.restore .iretd regs copy cs ss (by simp only; omega) (link.decode_entry _)
    (fun other same => ?_) ?_ rest
  · have word : ∀ place value, memory place = value → at_.esp + 48 + 4 * skipped.length ≤ place →
        place < bound → other place = value :=
      fun place value held above below => (same place above below).trans held
    have eip := word _ _ eip (by omega) (by omega)
    have cs' := word _ _ cs' (by omega) (by omega)
    have eflags := word _ _ eflags (by omega) (by omega)
    simp only [← Nat.add_assoc] at eip cs' eflags
    by_cases user : regs.user
    · simp only [if_pos user, stored_cons, stored_nil, and_true] at outer fits
      have esp := word _ _ outer.1 (by omega) (by omega)
      have ss := word _ _ outer.2 (by omega) (by omega)
      simp only [← Nat.add_assoc] at esp ss
      have mode : regs.cs % 4 ≠ 0 := user
      simp [Restore.execute, Registers.iretd, eip, cs', eflags, mode, esp, ss]
    · simp only [if_neg user] at fits ring
      obtain ⟨_, ss', esp'⟩ := ring.resolve_left user
      have mode : ¬ regs.cs % 4 ≠ 0 := user
      simp only [Restore.execute, Registers.iretd, eip, cs', eflags, if_neg mode, ss, ← ss']
      rw [show at_.esp + 48 + 4 * skipped.length + 12 = regs.esp by omega]
  · cases ring with
    | inl user => exact .inl user
    | inr ring =>
        refine .inr ?_
        simp only
        omega

private theorem resume_restore (instruction : Restore) (memory : Nat → Nat) (regs : Registers)
    (ring0 : ¬ regs.user) (here : link.decode regs.eip = some (.restore instruction)) :
    link.resume memory regs =
      some (instruction.execute (link.entry (.restore instruction.following)) (4 * 1) memory regs) := by
  simp [Link.resume, ring0, here]

private theorem resume_restoreException (instruction : Restore) (memory : Nat → Nat)
    (regs : Registers) (ring0 : ¬ regs.user)
    (here : link.decode regs.eip = some (.restoreException instruction)) :
    link.resume memory regs =
      some (instruction.execute (link.entry (.restoreException instruction.following)) (4 * 2)
        memory regs) := by
  simp [Link.resume, ring0, here]

/-- `restart_restore` on a frame leads to where its registers lead. -/
theorem Framed.restore {start : Registers} (framed : Framed memory address 1 regs)
    (eip : start.eip = link.entry (.restore .gs)) (esp : start.esp = address)
    (cs : start.cs = selectorKernelCs) (ss : start.ss = selectorKernelDs)
    (fits : address + frameSize 1 regs ≤ bound)
    (ring : regs.user ∨ (regs.cs = selectorKernelCs ∧ regs.ss = selectorKernelDs ∧
      regs.esp = address + frameSize 1 regs))
    (rest : Leads link memory bound regs final) : Leads link memory bound start final :=
  framed_leads resume_restore framed eip esp cs ss fits ring rest

/-- The same for the end of `restart_exception`. -/
theorem Framed.restoreException {start : Registers} (framed : Framed memory address 2 regs)
    (eip : start.eip = link.entry (.restoreException .gs)) (esp : start.esp = address)
    (cs : start.cs = selectorKernelCs) (ss : start.ss = selectorKernelDs)
    (fits : address + frameSize 2 regs ≤ bound)
    (ring : regs.user ∨ (regs.cs = selectorKernelCs ∧ regs.ss = selectorKernelDs ∧
      regs.esp = address + frameSize 2 regs))
    (rest : Leads link memory bound regs final) : Leads link memory bound start final :=
  framed_leads resume_restoreException framed eip esp cs ss fits ring rest

/-- A context leads to where its registers lead from the address it returns to. -/
theorem context_leads (regs : Registers) {kernelEsp back : Nat}
    (stored : Stored memory address (contextWords regs kernelEsp back))
    (mode : KernelMode after) (fits : address + 40 ≤ bound)
    (rest : Leads link memory bound
      { regs with
        gs := after.gs, fs := after.fs, es := after.es, ds := after.ds
        cs := after.cs, ss := after.ss, eip := back, esp := address + 40 } final) :
    Leads link memory bound (popContext link memory address after) final := by
  simp only [contextWords, stored_cons, stored_nil, and_true, Nat.add_assoc, Nat.reduceAdd] at stored
  obtain ⟨edi, esi, ebp, _, ebx, edx, ecx, eax, eflags, eip⟩ := stored
  have popped : popContext link memory address after = { regs with
      gs := after.gs, fs := after.fs, es := after.es, ds := after.ds, cs := after.cs
      ss := after.ss, eflags := after.eflags, eip := link.entry .schedPopfd
      esp := address + 32 } := by
    simp [popContext, Registers.popad, edi, esi, ebp, ebx, edx, ecx, eax]
  rw [popped]
  have ring0 := mode.ring0
  have cs4 : ¬ after.cs % 4 ≠ 0 := ring0
  refine @Leads.step _ _ _ _ { regs with
      gs := after.gs, fs := after.fs, es := after.es, ds := after.ds, cs := after.cs
      ss := after.ss, eip := link.entry .schedRet, esp := address + 36 } _
    mode.1 mode.2.1 (by simp only; omega) ?_ (.inr (by simp)) ?_
  · intro other same
    simp only at same
    have value := (same (address + 32) (Nat.le_refl _) (by omega)).trans eflags
    simp [Link.resume, Registers.user, cs4, value]
  refine .step mode.1 mode.2.1 (by simp only; omega) ?_ (.inr (by simp)) rest
  intro other same
  simp only at same
  have value := (same (address + 36) (Nat.le_refl _) (by omega)).trans eip
  simp [Link.resume, Registers.user, cs4, value]

/-- `jmp restart_restore`, behind the `sched` of an interrupt or a system call. -/
theorem Leads.jump
    (here : regs.eip = link.entry .restartIntDone ∨ regs.eip = link.entry .restartSyscallDone)
    (cs : regs.cs = selectorKernelCs) (ss : regs.ss = selectorKernelDs) (below : regs.esp ≤ bound)
    (rest : Leads link memory bound { regs with eip := link.entry (.restore .gs) } final) :
    Leads link memory bound regs final := by
  refine @Leads.step _ _ _ _ { regs with eip := link.entry (.restore .gs) } _ cs ss below
    (fun other _ => ?_) (.inr (Nat.le_refl _)) rest
  rw [Link.resume, if_neg (not_user_of_cs cs)]
  cases here with
  | inl here => rw [here, link.decode_entry]
  | inr here => rw [here, link.decode_entry]

/-- The whole of `restart_restore` on a frame of kernel code. -/
theorem Framed.restartRestore (link : Link) (state : State)
    (framed : Framed state.memory address 1 regs) (place : state.regs.esp = address)
    (ring0 : ¬ regs.user) (ss : state.regs.ss = regs.ss)
    (esp : regs.esp = address + frameSize 1 regs) :
    state.restartRestore link = { state with regs := regs } := by
  subst place
  obtain ⟨kernelEsp, skipped, length, stored⟩ := framed
  obtain ⟨retaddr, rfl⟩ := List.length_eq_one_iff.mp length
  have mode : regs.cs % 4 = 0 := Decidable.not_not.mp ring0
  have size : frameSize 1 regs = 64 := by simp [frameSize, ring0]
  rw [gateWords, if_neg ring0] at stored
  simp only [savedWords, List.cons_append, List.nil_append, List.append_nil, stored_cons,
    stored_nil, and_true, Nat.add_assoc, Nat.reduceAdd] at stored
  obtain ⟨gs, fs, es, ds, edi, esi, ebp, _, ebx, edx, ecx, eax, _, eip, cs, eflags⟩ := stored
  simp [State.restartRestore, Restore.execute, Registers.popad, Registers.iretd, Nat.add_assoc, gs,
    fs, es, ds, edi, esi, ebp, ebx, edx, ecx, eax, eip, cs, eflags, mode, ss, ← size, ← esp]

end AempOS.Kernel
