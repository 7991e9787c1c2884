import Hopter.Lib.AArch64

/-!
# `__morestack`

A failing check calls it. The C runtime says that it hands over to
`overflow_panic_entry` by a tail call and leaves SP where it is, so that the handler
runs on the stack of the task, below the function that overflows. The routine in
assembly moves SP to the emergency stack, of which there is one in the process,
and calls `__morestack_overflow`, which is in no file of the runtime.
-/

namespace Hopter.SplitStack

open AArch64

/-- What the linker gives an address to. -/
inductive Symbol where
  | morestack
  /-- `__overflow_emergency_stack` -/
  | overflowEmergencyStack
  /-- `__morestack_overflow` -/
  | morestackOverflow
  /-- `__morestack_overflow_sp` -/
  | morestackOverflowSp
  | overflowPanicEntry
  deriving DecidableEq

/-- `__morestack`, with `HOPTER_DIAG_SP` or without it. -/
def morestack (diagSp : Bool) : List (Instr Symbol) :=
  (if diagSp then
    [.adrp x1 .morestackOverflowSp,
      .addLo12 x1 x1 .morestackOverflowSp,
      .movFromSp x2,
      .str x2 x1]
  else []) ++
    [.adrp x1 .overflowEmergencyStack,
      .addLo12 x1 x1 .overflowEmergencyStack,
      .addImm x1 x1 65536,
      .movToSp x1,
      .bl .morestackOverflow,
      .b 0]

/-- The index of `bl`. -/
def callIndex (diagSp : Bool) : ℕ := if diagSp then 8 else 4

/-- The top of the emergency stack. -/
def emergencyTop (sym : Symbol → BitVec 64) : BitVec 64 := sym .overflowEmergencyStack + 65536

/-- An address outside the routine. -/
def Elsewhere (diagSp : Bool) (sym : Symbol → BitVec 64) (pc : BitVec 64) : Prop :=
  ∀ k < (morestack diagSp).length, pc ≠ at_ (sym .morestack) k

instance (diagSp : Bool) (sym : Symbol → BitVec 64) (pc : BitVec 64) :
    Decidable (Elsewhere diagSp sym pc) :=
  inferInstanceAs (Decidable (∀ k < (morestack diagSp).length, _))

/-- An instrumented function has called `__morestack`: it returns to that function. -/
structure Entered (diagSp : Bool) (sym : Symbol → BitVec 64) (m : Machine) : Prop where
  pc : m.pc = sym .morestack
  returns : Elsewhere diagSp sym (m.x x30)

/-- The other functions of the runtime are outside the routine. -/
structure Linked (diagSp : Bool) (sym : Symbol → BitVec 64) : Prop where
  overflow : Elsewhere diagSp sym (sym .morestackOverflow)
  handler : Elsewhere diagSp sym (sym .overflowPanicEntry)

/-- In the handler, with the stack and the frame of the function that has called `__morestack`. -/
structure HandedOver (sym : Symbol → BitVec 64) (m t : Machine) : Prop where
  pc : t.pc = sym .overflowPanicEntry
  sp : t.sp = m.sp
  saved : ∀ r, 19 ≤ r → t.x r = m.x r

/-- The instructions of the routine. -/
abbrev runMorestack (diagSp : Bool) (sym : Symbol → BitVec 64) (n : ℕ) (m : Machine) :
    Option Machine :=
  AArch64.run sym (sym .morestack) (morestack diagSp) n m

def HandsOver (diagSp : Bool) (sym : Symbol → BitVec 64) (m : Machine) : Prop :=
  ∃ n t, runMorestack diagSp sym n m = some t ∧ HandedOver sym m t

/-- Control leaves the routine. -/
def Leaves (diagSp : Bool) (sym : Symbol → BitVec 64) (m t : Machine) : Prop :=
  ∃ n, runMorestack diagSp sym n m = some t
    ∧ AArch64.step sym (sym .morestack) (morestack diagSp) t = none

/-- Two threads that overflow go on from different stack pointers. -/
def HandlersApart (diagSp : Bool) (sym : Symbol → BitVec 64) (m m' : Machine) : Prop :=
  ∀ t t', Leaves diagSp sym m t → Leaves diagSp sym m' t' → t.sp ≠ t'.sp

variable {diagSp : Bool} {sym : Symbol → BitVec 64} {m : Machine}

theorem callIndex_lt (diagSp : Bool) : callIndex diagSp + 1 < (morestack diagSp).length := by
  cases diagSp <;> decide

theorem length_lt (diagSp : Bool) : (morestack diagSp).length < 2 ^ 60 := by
  cases diagSp <;> decide

theorem getElem_callIndex (diagSp : Bool) :
    (morestack diagSp)[callIndex diagSp]? = some (.bl .morestackOverflow) := by
  cases diagSp <;> rfl

theorem no_branch_before (diagSp : Bool) :
    ∀ i ∈ (morestack diagSp).take (callIndex diagSp), i.isBranch = false := by
  cases diagSp <;> decide

/-- What the routine does before its call: SP is at the top of the emergency stack, and only `x1`
and `x2` are written. -/
theorem effect_before (diagSp : Bool) (sym : Symbol → BitVec 64) (m : Machine) :
    let t := ((morestack diagSp).take (callIndex diagSp)).foldl (fun m i => i.run sym m) m
    t.sp = emergencyTop sym ∧ ∀ r, r ≠ x1 → r ≠ x2 → t.x r = m.x r := by
  have htop : Instr.page (sym .overflowEmergencyStack) + Instr.lo12 (sym .overflowEmergencyStack)
      + 65536 = emergencyTop sym := by rw [Instr.page_add_lo12]; rfl
  cases diagSp with
  | false =>
      simp only [morestack, callIndex, Instr.run, Instr.effect, Machine.setReg]
      refine ⟨by simpa using htop, fun r h1 h2 => ?_⟩
      simp [Function.update_of_ne h1]
  | true =>
      simp only [morestack, callIndex, Instr.run, Instr.effect, Machine.setReg]
      refine ⟨by simpa using htop, fun r h1 h2 => ?_⟩
      simp [Function.update_of_ne h1, Function.update_of_ne h2]

/-- Until the call the routine is in its own code. -/
theorem runMorestack_pc (hm : m.pc = sym .morestack) {n : ℕ} (hn : n ≤ callIndex diagSp) :
    ∃ t, runMorestack diagSp sym n m = some t ∧ t.pc = at_ (sym .morestack) n := by
  have hpc : m.pc = at_ (sym .morestack) 0 := by rw [hm, at_zero]
  have hlt := callIndex_lt diagSp
  have hstraight : ∀ i ∈ (morestack diagSp).take n, i.isBranch = false := by
    intro i hi
    have htake :
        (morestack diagSp).take n = ((morestack diagSp).take (callIndex diagSp)).take n := by
      rw [List.take_take, Nat.min_eq_left hn]
    rw [htake] at hi
    exact no_branch_before diagSp i (List.mem_of_mem_take hi)
  exact ⟨_, run_straight hpc (by omega) (length_lt diagSp) hstraight⟩

/-- **What the routine does.** It leaves for `__morestack_overflow`, with SP at the top of the
emergency stack and `x30` at its own last instruction. -/
theorem morestack_leaves (hm : m.pc = sym .morestack)
    (hout : Elsewhere diagSp sym (sym .morestackOverflow)) :
    ∃ t, runMorestack diagSp sym (callIndex diagSp + 1) m = some t
      ∧ AArch64.step sym (sym .morestack) (morestack diagSp) t = none
      ∧ t.pc = sym .morestackOverflow ∧ t.sp = emergencyTop sym
      ∧ t.x x30 = at_ (sym .morestack) (callIndex diagSp + 1)
      ∧ ∀ r, 19 ≤ r → r ≠ x30 → t.x r = m.x r := by
  have hpc : m.pc = at_ (sym .morestack) 0 := by rw [hm, at_zero]
  have hlt := callIndex_lt diagSp
  have hsize := length_lt diagSp
  obtain ⟨hrun, hat⟩ : runMorestack diagSp sym (callIndex diagSp) m = some _ ∧ _ :=
    run_straight hpc (by omega) hsize (no_branch_before diagSp)
  obtain ⟨hsp, hregs⟩ := effect_before diagSp sym m
  generalize ((morestack diagSp).take (callIndex diagSp)).foldl (fun m i => i.run sym m) m = u
    at hrun hat hsp hregs
  have hcall : AArch64.step sym (sym .morestack) (morestack diagSp) u
      = some ((Instr.bl .morestackOverflow).run sym u) := by
    unfold AArch64.step
    rw [hat, fetch_at (by omega), getElem_callIndex]
    rfl
  refine ⟨(Instr.bl .morestackOverflow).run sym u, ?_, ?_, rfl, hsp, ?_, fun r hr h30 => ?_⟩
  · show (runMorestack diagSp sym (callIndex diagSp) m).bind _ = _
    rw [hrun, Option.bind_some, hcall]
  · show Option.map _ (fetch _ _ (sym .morestackOverflow)) = none
    rw [fetch_eq_none hout]
    rfl
  · show (u.setReg x30 (u.pc + 4)).x x30 = _
    rw [Machine.setReg_x_self, hat, at_succ]
  · show (u.setReg x30 (u.pc + 4)).x r = _
    rw [Machine.setReg_x_of_ne _ _ _ h30]
    have hne : r ≠ x1 ∧ r ≠ x2 := by
      constructor <;> intro heq <;> rw [heq] at hr <;> exact absurd hr (by decide)
    exact hregs r hne.1 hne.2

/-- In no state on its way has it handed over. -/
theorem not_handsOver (hm : Entered diagSp sym m) (hlink : Linked diagSp sym) :
    ¬ HandsOver diagSp sym m := by
  rintro ⟨n, t, hn, ht⟩
  obtain ⟨u, hu, hstuck, -, -, h30, -⟩ := morestack_leaves hm.pc hlink.overflow
  rcases Nat.lt_trichotomy n (callIndex diagSp + 1) with hlt | heq | hgt
  · -- the handler is not in the routine
    obtain ⟨v, hv, hpc⟩ : ∃ v, runMorestack diagSp sym n m = some v ∧ _ :=
      runMorestack_pc hm.pc (Nat.le_of_lt_succ hlt)
    have hsame : some t = some v := by rw [← hn, ← hv]
    rw [Option.some.inj hsame] at ht
    have hcode := callIndex_lt diagSp
    exact hlink.handler n (by omega) (ht.pc.symm.trans hpc)
  · -- the return address is the one of `bl`
    have hsame : some t = some u := by rw [← hn, ← hu, heq]
    have hkept := ht.saved x30 (by decide)
    rw [Option.some.inj hsame, h30] at hkept
    exact hm.returns _ (callIndex_lt diagSp) hkept.symm
  · -- nothing more is known
    have hnone := run_of_stuck hu hstuck hgt
    rw [runMorestack, hnone] at hn
    cases hn

/-- **It never hands over**, whatever the state it is called in, and the stack pointer that it
leaves with is the same in every thread. -/
theorem morestack_keeps_no_stack (diagSp : Bool) (sym : Symbol → BitVec 64)
    (hlink : Linked diagSp sym) :
    ∀ m, Entered diagSp sym m → ¬ HandsOver diagSp sym m
      ∧ ∀ m', Entered diagSp sym m' → ¬ HandlersApart diagSp sym m m' := by
  intro m hm
  refine ⟨not_handsOver hm hlink, fun m' hm' hapart => ?_⟩
  obtain ⟨t, ht, hstuck, -, hsp, -⟩ := morestack_leaves hm.pc hlink.overflow
  obtain ⟨t', ht', hstuck', -, hsp', -⟩ := morestack_leaves hm'.pc hlink.overflow
  exact hapart t t' ⟨_, ht, hstuck⟩ ⟨_, ht', hstuck'⟩ (by rw [hsp, hsp'])

/-- A layout of the program. -/
def layout : Symbol → BitVec 64
  | .morestack => 0x410000
  | .overflowEmergencyStack => 0x430040
  | .morestackOverflow => 0x411000
  | .morestackOverflowSp => 0x430010
  | .overflowPanicEntry => 0x412000

/-- A thread in an instrumented function, with its check about to call. -/
def overflowing (sp : BitVec 64) : Machine := ⟨fun _ => 0x400100, sp, 0x410000, fun _ => 0⟩

theorem entered_overflowing (diagSp : Bool) (sp : BitVec 64) :
    Entered diagSp layout (overflowing sp) := by
  have hreturn : Elsewhere diagSp layout 0x400100 := by cases diagSp <;> decide
  exact ⟨rfl, hreturn⟩

theorem linked_layout (diagSp : Bool) : Linked diagSp layout := by
  cases diagSp <;> exact ⟨by decide, by decide⟩

/-- Two threads that overflow on their own stacks both go on at the top of the emergency stack, and
not in the handler. -/
theorem morestack_shares_a_stack :
    ¬ HandsOver false layout (overflowing 0x7dfe000)
      ∧ (∃ t, Leaves false layout (overflowing 0x7dfe000) t ∧ t.sp = 0x440040
        ∧ t.pc = layout .morestackOverflow ∧ t.pc ≠ layout .overflowPanicEntry)
      ∧ ¬ HandlersApart false layout (overflowing 0x7dfe000) (overflowing 0x7bfe000) := by
  have hout := (linked_layout false).overflow
  have hm := entered_overflowing false 0x7dfe000
  have hm' := entered_overflowing false 0x7bfe000
  obtain ⟨t, ht, hstuck, hpc, hsp, -⟩ := morestack_leaves hm.pc hout
  obtain ⟨t', ht', hstuck', -, hsp', -⟩ := morestack_leaves hm'.pc hout
  refine ⟨not_handsOver hm (linked_layout false), ⟨t, ⟨_, ht, hstuck⟩, hsp, hpc, ?_⟩, fun h => ?_⟩
  · rw [hpc]
    decide
  · exact h t t' ⟨_, ht, hstuck⟩ ⟨_, ht', hstuck'⟩ (by rw [hsp, hsp'])

/-- With `HOPTER_DIAG_SP` nothing is better. -/
theorem morestack_keeps_no_stack_diag :
    ¬ HandsOver true layout (overflowing 0x7dfe000)
      ∧ ¬ HandlersApart true layout (overflowing 0x7dfe000) (overflowing 0x7bfe000) := by
  obtain ⟨hover, hapart⟩ := morestack_keeps_no_stack true layout (linked_layout true)
    (overflowing 0x7dfe000) (entered_overflowing true _)
  exact ⟨hover, hapart _ (entered_overflowing true _)⟩

end Hopter.SplitStack
