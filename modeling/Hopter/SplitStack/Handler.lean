import Hopter.SplitStack.Stack

/-!
# The overflow handler

A check fails, and `overflow_panic_entry` runs where there is no room for a frame
above the bound. The bound is what it was, so every check that is made there fails
too, and leads to the handler again. Which functions make none is for `shouldSkip` to
say, and it does not know the handler. While only functions without checks run on
behalf of the handler it is entered once; one function with a check is enough to
enter it again.
-/

namespace Hopter.SplitStack

open Conc

/-- The name that the handler has in every module. -/
def overflowPanicEntry : String := "overflow_panic_entry"

/-- The functions of a module that the pass puts checks into. The others, and those of other
modules, have none. -/
def checks (clExtraPad : BitVec 32) (M : List (Func Instruction)) (fn : String) : Bool :=
  M.any fun F => F.name == fn && (instrumentFunction clExtraPad F).2

/-- What the pass skips makes no check, and everything else does. -/
theorem checks_iff {clExtraPad : BitVec 32} {M : List (Func Instruction)} {fn : String} :
    checks clExtraPad M fn = true ↔ ∃ F ∈ M, F.name = fn ∧ shouldSkip F = false := by
  unfold checks
  simp only [List.any_eq_true, Bool.and_eq_true, beq_iff_eq, instrumentFunction_changes,
    Bool.not_eq_true']

/-- `shouldSkip` does not know the name of the handler: an override without attributes makes a
check. -/
theorem override_checks (clExtraPad : BitVec 32) {M : List (Func Instruction)}
    {F : Func Instruction} (hF : F ∈ M) (hname : F.name = overflowPanicEntry)
    (hbody : F.isDeclaration = false) (hattr : F.hasFnAttribute "no-split-stack" = false)
    (hnaked : F.isNaked = false) : checks clExtraPad M overflowPanicEntry = true := by
  refine checks_iff.mpr ⟨F, hF, hname, ?_⟩
  unfold shouldSkip
  rw [hbody, hattr, hnaked, hname]
  decide

/-- A function that is called, and SP in it. -/
structure Activation where
  fn : String
  sp : BitVec 64
  deriving DecidableEq

inductive Doing where
  /-- Code of the source, or of a landing pad. -/
  | body
  | checking
  /-- A check has failed. -/
  | morestack
  deriving DecidableEq

structure Task where
  cur : Activation
  callers : List Activation
  doing : Doing
  /-- How many callers the function had whose check has failed, while the handler is at work. -/
  handling : Option ℕ
  deriving DecidableEq

inductive TaskAction where
  | call (fn : String) (prologue : BitVec 64)
  | alloca (n : BitVec 64)
  | check
  /-- `__morestack` hands over. -/
  | enterHandler (prologue : BitVec 64)
  | ret
  /-- An exception leaves the function; the landing pad of its caller runs. -/
  | unwind
  deriving DecidableEq

namespace Task

section Step

variable (checks : String → Bool) (handOver : BitVec 64 → BitVec 64) (frame bound : BitVec 64)
  (s : Task)

/-- After SP is lowered. -/
def lowered (fn : String) : Doing := if checks fn then .checking else .body

def push (fn : String) (sp : BitVec 64) : Task :=
  ⟨⟨fn, sp⟩, s.cur :: s.callers, lowered checks fn, s.handling⟩

/-- Back in the caller. The handler is over when it is gone, and there is room for a frame again. -/
def pop : Option Task :=
  match s.callers with
  | caller :: callers => some ⟨caller, callers, .body, s.handling.filter fun depth =>
      !decide (callers.length ≤ depth ∧ bound.toNat + frame.toNat ≤ caller.sp.toNat)⟩
  | [] => none

/-- `handOver` is what `__morestack` makes of SP. A handler that terminates the process ends the
run. -/
def step : TaskAction → Option Task
  | .call fn prologue =>
      if s.doing = .body then some (s.push checks fn (s.cur.sp - prologue)) else none
  | .alloca n =>
      if s.doing = .body then
        some { s with cur := ⟨s.cur.fn, s.cur.sp - align16 n⟩, doing := lowered checks s.cur.fn }
      else none
  | .check =>
      if s.doing = .checking then
        if checkOk frame s.cur.sp bound then some { s with doing := .body }
        else some { s with
          doing := .morestack, handling := s.handling.or (some s.callers.length) }
      else none
  | .enterHandler prologue =>
      if s.doing = .morestack then
        some (s.push checks overflowPanicEntry (handOver s.cur.sp - prologue))
      else none
  | .ret =>
      -- the handler does not return
      if s.doing = .body ∧ s.cur.fn ≠ overflowPanicEntry then s.pop frame bound else none
  | .unwind => if s.doing = .body then s.pop frame bound else none

/-- A check that is made on behalf of the handler fails. -/
def Reenters : TaskAction → Prop
  | .check => s.handling ≠ none ∧ s.doing = .checking ∧ checkOk frame s.cur.sp bound = false
  | _ => False

/-- Nothing with a check runs on behalf of the handler. -/
def Unchecked : TaskAction → Prop
  | .call fn _ => s.handling = none ∨ checks fn = false
  | .alloca _ => s.handling = none ∨ checks s.cur.fn = false
  | .enterHandler _ => checks overflowPanicEntry = false
  | .check | .ret | .unwind => True

/-- SP does not wrap around. -/
def NoWrap : TaskAction → Prop
  | .call _ prologue => prologue ≤ s.cur.sp
  | .alloca n => Word.alignUp n.toNat 16 ≤ s.cur.sp.toNat
  | .check => frame ≤ s.cur.sp
  | .enterHandler prologue => prologue ≤ handOver s.cur.sp
  | .ret | .unwind => True

instance : DecidablePred (s.Unchecked checks)
  | .call _ _ | .alloca _ => inferInstanceAs (Decidable (_ ∨ _))
  | .enterHandler _ => inferInstanceAs (Decidable (_ = _))
  | .check | .ret | .unwind => .isTrue trivial

instance : DecidablePred (s.NoWrap handOver frame)
  | .call _ _ | .alloca _ | .check | .enterHandler _ => inferInstanceAs (Decidable (_ ≤ _))
  | .ret | .unwind => .isTrue trivial

end Step

variable {checks : String → Bool} {handOver : BitVec 64 → BitVec 64} {frame bound : BitVec 64}
  {s s' : Task} {a : TaskAction}

/-- **Inversion.** -/
theorem step_cases (h : s.step checks handOver frame bound a = some s') :
    (∃ fn p, a = .call fn p ∧ s.doing = .body ∧ s' = s.push checks fn (s.cur.sp - p))
    ∨ (∃ n, a = .alloca n ∧ s.doing = .body
      ∧ s' = ⟨⟨s.cur.fn, s.cur.sp - align16 n⟩, s.callers, lowered checks s.cur.fn, s.handling⟩)
    ∨ (a = .check ∧ s.doing = .checking ∧ checkOk frame s.cur.sp bound = true
      ∧ s' = ⟨s.cur, s.callers, .body, s.handling⟩)
    ∨ (a = .check ∧ s.doing = .checking ∧ checkOk frame s.cur.sp bound = false
      ∧ s' = ⟨s.cur, s.callers, .morestack, s.handling.or (some s.callers.length)⟩)
    ∨ (∃ p, a = .enterHandler p ∧ s.doing = .morestack
      ∧ s' = s.push checks overflowPanicEntry (handOver s.cur.sp - p))
    ∨ ∃ caller callers, (a = .ret ∨ a = .unwind) ∧ s.doing = .body
      ∧ s.callers = caller :: callers
      ∧ s' = ⟨caller, callers, .body, s.handling.filter fun depth =>
        !decide (callers.length ≤ depth ∧ bound.toNat + frame.toNat ≤ caller.sp.toNat)⟩ := by
  have hpop : s.pop frame bound = some s' → ∃ caller callers, s.callers = caller :: callers
      ∧ s' = ⟨caller, callers, .body, s.handling.filter fun depth =>
        !decide (callers.length ≤ depth ∧ bound.toNat + frame.toNat ≤ caller.sp.toNat)⟩ := by
    intro hpop
    unfold pop at hpop
    split at hpop
    · rename_i caller callers hcallers
      exact ⟨caller, callers, hcallers, (Option.some.inj hpop).symm⟩
    · cases hpop
  cases a with
  | call fn p =>
      obtain ⟨hdoing, heq⟩ := Option.ite_none_right_eq_some.mp h
      exact Or.inl ⟨fn, p, rfl, hdoing, (Option.some.inj heq).symm⟩
  | alloca n =>
      obtain ⟨hdoing, heq⟩ := Option.ite_none_right_eq_some.mp h
      exact Or.inr (Or.inl ⟨n, rfl, hdoing, (Option.some.inj heq).symm⟩)
  | check =>
      obtain ⟨hdoing, heq⟩ := Option.ite_none_right_eq_some.mp h
      split at heq
      · rename_i hok
        exact Or.inr (Or.inr (Or.inl ⟨rfl, hdoing, hok, (Option.some.inj heq).symm⟩))
      · rename_i hno
        exact Or.inr (Or.inr (Or.inr (Or.inl
          ⟨rfl, hdoing, Bool.eq_false_iff.mpr hno, (Option.some.inj heq).symm⟩)))
  | enterHandler p =>
      obtain ⟨hdoing, heq⟩ := Option.ite_none_right_eq_some.mp h
      exact Or.inr (Or.inr (Or.inr (Or.inr (Or.inl
        ⟨p, rfl, hdoing, (Option.some.inj heq).symm⟩))))
  | ret =>
      obtain ⟨⟨hdoing, -⟩, heq⟩ := Option.ite_none_right_eq_some.mp h
      obtain ⟨caller, callers, hcallers, hs'⟩ := hpop heq
      exact Or.inr (Or.inr (Or.inr (Or.inr (Or.inr
        ⟨caller, callers, Or.inl rfl, hdoing, hcallers, hs'⟩))))
  | unwind =>
      obtain ⟨hdoing, heq⟩ := Option.ite_none_right_eq_some.mp h
      obtain ⟨caller, callers, hcallers, hs'⟩ := hpop heq
      exact Or.inr (Or.inr (Or.inr (Or.inr (Or.inr
        ⟨caller, callers, Or.inr rfl, hdoing, hcallers, hs'⟩))))

theorem lowered_of_unchecked {fn : String} (h : checks fn = false) : lowered checks fn = .body :=
  if_neg (Bool.eq_false_iff.mp h)

theorem lowered_ne_morestack (fn : String) : lowered checks fn ≠ .morestack := by
  unfold lowered
  split
  · exact fun h => by cases h
  · exact fun h => by cases h

/-! ## Without checks -/

/-- No check is made on behalf of the handler. -/
def Quiet (s : Task) : Prop := s.doing = .checking → s.handling = none

/-- **A step without checks leads to none.** -/
theorem quiet_step (hs : s.step checks handOver frame bound a = some s')
    (ha : s.Unchecked checks a) : s'.Quiet := by
  have hlowered : ∀ fn, s.handling = none ∨ checks fn = false →
      lowered checks fn = .checking → s.handling = none := by
    intro fn hfn hchecking
    rcases hfn with hnone | hno
    · exact hnone
    · rw [lowered_of_unchecked hno] at hchecking
      cases hchecking
  intro hchecking
  rcases step_cases hs with ⟨fn, p, rfl, -, rfl⟩ | ⟨n, rfl, -, rfl⟩ | ⟨rfl, hdoing, -, rfl⟩
    | ⟨rfl, hdoing, -, rfl⟩ | ⟨p, rfl, -, rfl⟩ | ⟨caller, callers, hback, -, -, rfl⟩
  · exact hlowered fn ha hchecking
  · exact hlowered s.cur.fn ha hchecking
  · cases hchecking
  · cases hchecking
  · exact hlowered overflowPanicEntry (Or.inr ha) hchecking
  · cases hchecking

/-! ## With checks -/

/-- There is no room for a frame. -/
def NoRoom (frame bound : BitVec 64) (c : Activation) : Prop :=
  c.sp.toNat < bound.toNat + frame.toNat

/-- While the handler is at work there is no room in the function that runs, and none in any that
was called later than the one whose check has failed. -/
structure Low (frame bound : BitVec 64) (s : Task) : Prop where
  cur : s.handling ≠ none → NoRoom frame bound s.cur
  callers : ∀ depth, s.handling = some depth →
    ∀ c ∈ s.callers.take (s.callers.length - 1 - depth), NoRoom frame bound c
  morestack : s.doing = .morestack → s.handling ≠ none

theorem low_push {fn : String} {sp : BitVec 64} (h : Low frame bound s)
    (hsp : s.handling ≠ none → sp.toNat ≤ s.cur.sp.toNat) :
    Low frame bound (s.push checks fn sp) := by
  refine ⟨fun hhandling => ?_, fun depth hdepth c hc => ?_, fun hmore => ?_⟩
  · have hcur := h.cur hhandling
    have hle := hsp hhandling
    unfold NoRoom at hcur ⊢
    show sp.toNat < _
    omega
  · replace hdepth : s.handling = some depth := hdepth
    replace hc : c ∈ (s.cur :: s.callers).take (s.callers.length + 1 - 1 - depth) := hc
    by_cases hlt : depth < s.callers.length
    · obtain ⟨k, hk⟩ : ∃ k, s.callers.length + 1 - 1 - depth = k + 1 :=
        ⟨s.callers.length - 1 - depth, by omega⟩
      rw [hk, List.take_succ_cons] at hc
      rcases List.mem_cons.mp hc with rfl | hc
      · exact h.cur (by rw [hdepth]; exact Option.some_ne_none depth)
      · have hlen : k = s.callers.length - 1 - depth := by omega
        exact h.callers depth hdepth c (hlen ▸ hc)
    · have hzero : s.callers.length + 1 - 1 - depth = 0 := by omega
      rw [hzero, List.take_zero] at hc
      exact absurd hc List.not_mem_nil
  · exact absurd hmore (lowered_ne_morestack fn)

theorem low_alloca {n : BitVec 64} (h : Low frame bound s)
    (hn : Word.alignUp n.toNat 16 ≤ s.cur.sp.toNat) :
    Low frame bound ⟨⟨s.cur.fn, s.cur.sp - align16 n⟩, s.callers, lowered checks s.cur.fn,
      s.handling⟩ := by
  have hlt := s.cur.sp.isLt
  have hsize : (align16 n).toNat = Word.alignUp n.toNat 16 := by
    rw [align16_toNat, Nat.mod_eq_of_lt (by omega)]
  refine ⟨fun hhandling => ?_, h.callers, fun hmore => absurd hmore (lowered_ne_morestack s.cur.fn)⟩
  have hcur := h.cur hhandling
  unfold NoRoom at hcur ⊢
  show (s.cur.sp - align16 n).toNat < _
  rw [BitVec.toNat_sub_of_le (BitVec.le_def.mpr (by omega))]
  omega

/-- A check that fails has found no room. -/
theorem low_failed (h : Low frame bound s) (hwrap : frame ≤ s.cur.sp)
    (hfail : checkOk frame s.cur.sp bound = false) :
    Low frame bound ⟨s.cur, s.callers, .morestack, s.handling.or (some s.callers.length)⟩ := by
  have hcur : NoRoom frame bound s.cur := by
    unfold NoRoom
    rw [Bool.eq_false_iff, ne_eq, checkOk_iff hwrap] at hfail
    omega
  cases hhandling : s.handling with
  | none =>
      refine ⟨fun _ => hcur, fun depth hdepth c hc => ?_, fun _ => Option.some_ne_none _⟩
      rw [Option.none_or, Option.some.injEq] at hdepth
      replace hc : c ∈ s.callers.take (s.callers.length - 1 - depth) := hc
      have hzero : s.callers.length - 1 - depth = 0 := by omega
      rw [hzero, List.take_zero] at hc
      exact absurd hc List.not_mem_nil
  | some depth' =>
      refine ⟨fun _ => hcur, fun depth hdepth => ?_, fun _ => Option.some_ne_none _⟩
      rw [Option.some_or] at hdepth
      exact h.callers depth (hhandling.trans hdepth)

/-- The callers that were called later than the function whose check has failed. -/
theorem Low.caller (h : Low frame bound s) {caller : Activation} {callers : List Activation}
    (hcallers : s.callers = caller :: callers) {depth : ℕ} (hdepth : s.handling = some depth)
    (hlt : depth < callers.length) :
    NoRoom frame bound caller
      ∧ ∀ c ∈ callers.take (callers.length - 1 - depth), NoRoom frame bound c := by
  have hlow := h.callers depth hdepth
  have hlen : s.callers.length - 1 - depth = callers.length - 1 - depth + 1 := by
    rw [hcallers, List.length_cons]
    omega
  rw [hlen, hcallers, List.take_succ_cons, List.forall_mem_cons] at hlow
  exact hlow

/-- At the function whose check has failed, and from there on, it is looked at whether there is room
again. -/
theorem low_pop (h : Low frame bound s) {caller : Activation} {callers : List Activation}
    (hcallers : s.callers = caller :: callers) :
    Low frame bound ⟨caller, callers, .body, s.handling.filter fun depth =>
      !decide (callers.length ≤ depth ∧ bound.toNat + frame.toNat ≤ caller.sp.toNat)⟩ := by
  have hold : ∀ depth, s.handling.filter (fun depth =>
      !decide (callers.length ≤ depth ∧ bound.toNat + frame.toNat ≤ caller.sp.toNat)) = some depth →
        s.handling = some depth
          ∧ (callers.length ≤ depth → caller.sp.toNat < bound.toNat + frame.toNat) := by
    intro depth hdepth
    obtain ⟨hsome, hkeep⟩ := Option.filter_eq_some_iff.mp hdepth
    refine ⟨hsome, fun hle => ?_⟩
    rw [Bool.not_eq_true', decide_eq_false_iff_not] at hkeep
    omega
  refine ⟨fun hhandling => ?_, fun depth hdepth c hc => ?_, fun hmore => by cases hmore⟩
  · obtain ⟨depth, hdepth⟩ := Option.ne_none_iff_exists'.mp hhandling
    obtain ⟨hsome, hroom⟩ := hold depth hdepth
    by_cases hle : callers.length ≤ depth
    · exact hroom hle
    · exact (h.caller hcallers hsome (by omega)).1
  · obtain ⟨hsome, -⟩ := hold depth hdepth
    replace hc : c ∈ callers.take (callers.length - 1 - depth) := hc
    by_cases hle : callers.length ≤ depth
    · have hzero : callers.length - 1 - depth = 0 := by omega
      rw [hzero, List.take_zero] at hc
      exact absurd hc List.not_mem_nil
    · exact (h.caller hcallers hsome (by omega)).2 c hc

/-- **One step.** -/
theorem low_step (h : Low frame bound s) (hs : s.step checks handOver frame bound a = some s')
    (ha : s.NoWrap handOver frame a)
    (hdown : ∀ p, a = .enterHandler p → handOver s.cur.sp ≤ s.cur.sp) : Low frame bound s' := by
  rcases step_cases hs with ⟨fn, p, rfl, -, rfl⟩ | ⟨n, rfl, -, rfl⟩ | ⟨rfl, -, -, rfl⟩
    | ⟨rfl, -, hfail, rfl⟩ | ⟨p, rfl, -, rfl⟩ | ⟨caller, callers, hback, -, hcallers, rfl⟩
  · refine low_push h fun _ => ?_
    rw [BitVec.toNat_sub_of_le ha]
    omega
  · exact low_alloca h ha
  · exact ⟨h.cur, h.callers, fun hmore => by cases hmore⟩
  · exact low_failed h ha hfail
  · refine low_push h fun _ => ?_
    have hle := BitVec.le_def.mp (hdown p rfl)
    rw [BitVec.toNat_sub_of_le ha]
    omega
  · exact low_pop h hcallers

/-- **A check that is made on behalf of the handler fails.** -/
theorem Low.reenters (h : Low frame bound s) (hhandling : s.handling ≠ none)
    (hdoing : s.doing = .checking) (hwrap : frame ≤ s.cur.sp) : s.Reenters frame bound .check := by
  have hcur := h.cur hhandling
  unfold NoRoom at hcur
  refine ⟨hhandling, hdoing, ?_⟩
  rw [Bool.eq_false_iff, ne_eq, checkOk_iff hwrap]
  omega

/-- A function with a check that runs on behalf of the handler makes it next. -/
theorem checking_of_checked (h : Low frame bound s)
    (hs : s.step checks handOver frame bound a = some s') (ha : ¬ s.Unchecked checks a) :
    s'.handling ≠ none ∧ s'.doing = .checking := by
  have hlowered : ∀ {fn}, ¬ checks fn = false → lowered checks fn = .checking := fun hfn =>
    if_pos (Bool.eq_true_of_not_eq_false hfn)
  rcases step_cases hs with ⟨fn, p, rfl, -, rfl⟩ | ⟨n, rfl, -, rfl⟩ | ⟨rfl, -, -, rfl⟩
    | ⟨rfl, -, -, rfl⟩ | ⟨p, rfl, hmore, rfl⟩ | ⟨caller, callers, hback, -, -, rfl⟩
  · obtain ⟨hhandling, hfn⟩ := not_or.mp ha
    exact ⟨hhandling, hlowered hfn⟩
  · obtain ⟨hhandling, hfn⟩ := not_or.mp ha
    exact ⟨hhandling, hlowered hfn⟩
  · exact absurd trivial ha
  · exact absurd trivial ha
  · exact ⟨h.morestack hmore, hlowered ha⟩
  · rcases hback with rfl | rfl <;> exact absurd trivial ha

/-- A handler that makes a check is entered again before its first instruction. -/
theorem Low.reenters_handler (h : Low frame bound s) (hdown : handOver s.cur.sp ≤ s.cur.sp)
    (hchecks : checks overflowPanicEntry = true) {p : BitVec 64}
    (hs : s.step checks handOver frame bound (.enterHandler p) = some s')
    (hp : p ≤ handOver s.cur.sp) (hwrap : frame ≤ s'.cur.sp) : s'.Reenters frame bound .check := by
  have hchecked : ¬ s.Unchecked checks (.enterHandler p) := Bool.not_eq_false _ ▸ hchecks
  obtain ⟨hhandling, hdoing⟩ := checking_of_checked h hs hchecked
  exact (low_step h hs hp fun _ _ => hdown).reenters hhandling hdoing hwrap

end Task

/-! ## Runs -/

/-- No step of the run enters the handler while it is at work. -/
def NotReentered (checks : String → Bool) (handOver : BitVec 64 → BitVec 64)
    (frame bound : BitVec 64) (s₀ : Task) (as : List TaskAction) : Prop :=
  ∀ s a, Takes (Task.step checks handOver frame bound) s₀ as s a → ¬ s.Reenters frame bound a

/-- Whenever `__morestack` has handed over, the handler runs its first instruction. -/
def HandlerStarts (checks : String → Bool) (handOver : BitVec 64 → BitVec 64)
    (frame bound : BitVec 64) (s₀ : Task) (as : List TaskAction) : Prop :=
  ∀ s s' p, Takes (Task.step checks handOver frame bound) s₀ as s (.enterHandler p) →
    s.step checks handOver frame bound (.enterHandler p) = some s' →
      s'.cur.fn = overflowPanicEntry ∧ s'.doing = .body

/-- Where `__morestack` hands over in the run, it does not lift SP. -/
def HandsDown (checks : String → Bool) (handOver : BitVec 64 → BitVec 64)
    (frame bound : BitVec 64) (s₀ : Task) (as : List TaskAction) : Prop :=
  ∀ s p, Takes (Task.step checks handOver frame bound) s₀ as s (.enterHandler p) →
    handOver s.cur.sp ≤ s.cur.sp

section

variable {checks : String → Bool} {handOver : BitVec 64 → BitVec 64} {frame bound : BitVec 64}
  {s₀ t : Task} {as : List TaskAction}

theorem notReentered_of_unchecked (hstart : s₀.doing = .body)
    (h : ∀ s a, Takes (Task.step checks handOver frame bound) s₀ as s a → s.Unchecked checks a) :
    NotReentered checks handOver frame bound s₀ as := by
  intro s a htakes hre
  cases a with
  | check =>
      obtain ⟨hhandling, hdoing, -⟩ := hre
      rcases htakes.visits.cases with rfl | ⟨s', a, htakes', hs⟩
      · rw [hstart] at hdoing
        cases hdoing
      · exact hhandling (Task.quiet_step hs (h s' a htakes') hdoing)
  | _ => exact hre

theorem handlerStarts_of_unchecked
    (h : ∀ s a, Takes (Task.step checks handOver frame bound) s₀ as s a → s.Unchecked checks a) :
    HandlerStarts checks handOver frame bound s₀ as := by
  intro s s' p htakes hs
  have hno : checks overflowPanicEntry = false := h s _ htakes
  obtain ⟨-, heq⟩ := Option.ite_none_right_eq_some.mp hs
  cases heq
  exact ⟨rfl, Task.lowered_of_unchecked hno⟩

theorem unchecked_of_notReentered (hstart : s₀.doing = .body) (hnone : s₀.handling = none)
    (hdown : HandsDown checks handOver frame bound s₀ as)
    (hrun : exec (Task.step checks handOver frame bound) s₀ as = some t)
    (hend : t.doing ≠ .checking)
    (hwrap : ∀ s a, Takes (Task.step checks handOver frame bound) s₀ as s a →
      s.NoWrap handOver frame a)
    (hnot : NotReentered checks handOver frame bound s₀ as) :
    ∀ s a, Takes (Task.step checks handOver frame bound) s₀ as s a → s.Unchecked checks a := by
  have hlow : ∀ {s}, Visits (Task.step checks handOver frame bound) s₀ as s →
      Task.Low frame bound s := by
    intro s hvisit
    refine hvisit.invariant ⟨fun h => absurd hnone h, fun depth hdepth => ?_, fun hmore => ?_⟩
      fun htakes h hs => Task.low_step h hs (hwrap _ _ htakes) fun p ha =>
        hdown _ p (ha ▸ htakes)
    · rw [hnone] at hdepth
      cases hdepth
    · rw [hstart] at hmore
      cases hmore
  intro s a htakes
  by_contra hchecked
  obtain ⟨s', hs⟩ := htakes.possible hrun
  obtain ⟨hhandling, hdoing⟩ := Task.checking_of_checked (hlow htakes.visits) hs hchecked
  rcases htakes.next hs hrun with rfl | ⟨b, hnext⟩
  · exact hend hdoing
  · -- there is nothing to do but the check
    have hb : b = .check := by
      obtain ⟨s'', hs''⟩ := hnext.possible hrun
      rcases Task.step_cases hs'' with ⟨fn, p, rfl, hbody, -⟩ | ⟨n, rfl, hbody, -⟩ | ⟨rfl, -⟩
        | ⟨rfl, -⟩ | ⟨p, rfl, hmore, -⟩ | ⟨caller, callers, -, hbody, -⟩
      · rw [hdoing] at hbody
        cases hbody
      · rw [hdoing] at hbody
        cases hbody
      · rfl
      · rfl
      · rw [hdoing] at hmore
        cases hmore
      · rw [hdoing] at hbody
        cases hbody
    subst hb
    exact hnot s' .check hnext
      ((hlow (htakes.visits_next hs)).reenters hhandling hdoing (hwrap s' .check hnext))

end

/-- **The handler is not entered again** as long as nothing with a check runs on its behalf,
wherever `__morestack` leaves SP. If it lifts SP nowhere in the run, that is the only way. -/
theorem handler_not_reentered (clExtraPad : BitVec 32) (M : List (Func Instruction))
    (handOver : BitVec 64 → BitVec 64) (bound : BitVec 64) {s₀ t : Task}
    (hstart : s₀.doing = .body) (hnone : s₀.handling = none) {as : List TaskAction}
    (hrun : exec (Task.step (checks clExtraPad M) handOver (framePad clExtraPad) bound) s₀ as
      = some t) :
    ((∀ s a,
        Takes (Task.step (checks clExtraPad M) handOver (framePad clExtraPad) bound) s₀ as s a →
          s.Unchecked (checks clExtraPad M) a) →
      NotReentered (checks clExtraPad M) handOver (framePad clExtraPad) bound s₀ as
        ∧ HandlerStarts (checks clExtraPad M) handOver (framePad clExtraPad) bound s₀ as)
    ∧ (HandsDown (checks clExtraPad M) handOver (framePad clExtraPad) bound s₀ as →
      t.doing ≠ .checking →
      (∀ s a,
        Takes (Task.step (checks clExtraPad M) handOver (framePad clExtraPad) bound) s₀ as s a →
          s.NoWrap handOver (framePad clExtraPad) a) →
      NotReentered (checks clExtraPad M) handOver (framePad clExtraPad) bound s₀ as →
      ∀ s a,
        Takes (Task.step (checks clExtraPad M) handOver (framePad clExtraPad) bound) s₀ as s a →
          s.Unchecked (checks clExtraPad M) a) :=
  ⟨fun h => ⟨notReentered_of_unchecked hstart h, handlerStarts_of_unchecked h⟩,
    fun hdown hend hwrap hnot =>
      unchecked_of_notReentered hstart hnone hdown hrun hend hwrap hnot⟩

/-- A function that does nothing. -/
def leaf (name : String) (attrs : List FnAttr) : Func Instruction where
  name := name
  attrs := attrs
  blocks := [⟨0, [.op 1 [], .term 2 [] []]⟩]

/-- A program with an override of the handler. -/
def program (attrs : List FnAttr) : List (Func Instruction) :=
  [leaf "recurse" [], leaf overflowPanicEntry attrs, leaf "begin_panic" attrs]

def mainTask : Task := ⟨⟨"main", 0x7e02120⟩, [], .body, none⟩

/-- The second call overflows. -/
def overflowRun : List TaskAction :=
  [.call "recurse" 96, .check, .call "recurse" 96, .check, .enterHandler 16]

/-- An override as the runtime advises makes a check, and enters itself through `__morestack`. -/
theorem override_reenters :
    let run := overflowRun ++ [.check, .enterHandler 16, .check]
    (∃ t, exec (Task.step (checks 0 (program [])) id (framePad 0) 0x7e02000) mainTask run = some t
      ∧ t.doing = .morestack ∧ t.callers.map (·.fn)
        = [overflowPanicEntry, "recurse", "recurse", "main"])
    ∧ ¬ NotReentered (checks 0 (program [])) id (framePad 0) 0x7e02000 mainTask run := by
  intro run
  have hentered : exec (Task.step (checks 0 (program [])) id (framePad 0) 0x7e02000) mainTask
      overflowRun = some ⟨⟨overflowPanicEntry, 0x7e02050⟩,
        [⟨"recurse", 0x7e02060⟩, ⟨"recurse", 0x7e020c0⟩, ⟨"main", 0x7e02120⟩], .checking,
        some 2⟩ := by decide
  have hrun : exec (Task.step (checks 0 (program [])) id (framePad 0) 0x7e02000) mainTask run
      = some ⟨⟨overflowPanicEntry, 0x7e02040⟩,
        [⟨overflowPanicEntry, 0x7e02050⟩, ⟨"recurse", 0x7e02060⟩, ⟨"recurse", 0x7e020c0⟩,
          ⟨"main", 0x7e02120⟩], .morestack, some 2⟩ := by decide
  refine ⟨⟨_, hrun, rfl, rfl⟩, fun hnot => ?_⟩
  refine hnot _ .check ⟨overflowRun, ⟨[.enterHandler 16, .check], rfl⟩, hentered⟩ ⟨?_, rfl, ?_⟩
  · exact Option.some_ne_none 2
  · decide

/-- With the attribute on it and on what it calls the handler unwinds; then a call overflows again.
-/
theorem handler_not_reentered_program :
    let M := program [.string "no-split-stack" ""]
    let run := overflowRun ++ [.call "begin_panic" 512, .unwind, .unwind, .unwind,
      .call "recurse" 96, .check]
    (∃ t, exec (Task.step (checks 0 M) id (framePad 0) 0x7e02000) mainTask run = some t
      ∧ t.doing = .morestack)
    ∧ NotReentered (checks 0 M) id (framePad 0) 0x7e02000 mainTask run
    ∧ HandlerStarts (checks 0 M) id (framePad 0) 0x7e02000 mainTask run
    ∧ ∀ s a, Takes (Task.step (checks 0 M) id (framePad 0) 0x7e02000) mainTask run s a →
      s.Unchecked (checks 0 M) a := by
  intro M run
  have hrun : exec (Task.step (checks 0 M) id (framePad 0) 0x7e02000) mainTask run
      = some ⟨⟨"recurse", 0x7e02060⟩, [⟨"recurse", 0x7e020c0⟩, ⟨"main", 0x7e02120⟩], .morestack,
        some 2⟩ := by decide
  have hall : TakesAll (Task.step (checks 0 M) id (framePad 0) 0x7e02000)
      (fun s a => s.Unchecked (checks 0 M) a) mainTask run := by decide
  have hwrap : TakesAll (Task.step (checks 0 M) id (framePad 0) 0x7e02000)
      (fun s a => s.NoWrap id (framePad 0) a) mainTask run := by decide
  obtain ⟨hquiet, honly⟩ := handler_not_reentered 0 M id 0x7e02000 rfl rfl hrun
  obtain ⟨hnot, hstarts⟩ := hquiet fun s a htakes => hall.takes htakes
  have hdown : HandsDown (checks 0 M) id (framePad 0) 0x7e02000 mainTask run :=
    fun s _ _ => BitVec.le_refl s.cur.sp
  have hend : Doing.morestack ≠ .checking := fun h => by cases h
  exact ⟨⟨_, hrun, rfl⟩, hnot, hstarts,
    honly hdown hend (fun s a htakes => hwrap.takes htakes) hnot⟩

end Hopter.SplitStack
