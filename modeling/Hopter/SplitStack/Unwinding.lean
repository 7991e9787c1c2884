import Hopter.SplitStack.Coverage

/-!
# Exceptions out of a check

An overflow handler that unwinds throws out of the call of `__morestack`. In LLVM an
exception that leaves a plain call goes to the caller, it is for an `invoke` to name
a landing pad, and out of a call that is marked `nounwind` nothing may be thrown.
The pass marks every call that it inserts, so what an exception does there is
undefined at every check that fails.
-/

namespace Hopter.SplitStack

open Conc

variable {V W : Type} {F : Func Code} {frame : BitVec 64} {padded : Prop} {sem : Semantics V W}

/-- What becomes of an exception. -/
inductive Propagation where
  | undefined
  | toPad (pad : Label)
  | toCaller
  deriving DecidableEq

/-- An exception that leaves an inserted instruction. -/
def Code.propagate : Code → Option Propagation
  | .callMorestack _ doesNotThrow => some (if doesNotThrow then .undefined else .toCaller)
  | _ => none

/-- An exception thrown in the next instruction goes to the landing pad that is active there, or to
the caller if there is none. -/
def UnwindsTo (active : Option Label) (c : Config V W) : Prop :=
  ∃ i ∈ c.rest.head?, i.propagate = some (active.elim .toCaller .toPad)

/-- A step in which a check fails. -/
def CheckFails (F : Func Code) (sem : Semantics V W) (c c' : Config V W) : Prop :=
  ∃ es name, step F sem c = some (es, c') ∧ Event.check name false ∈ es

/-- Only the branch of a check decides it. -/
theorem effect_check {i : Code} {st st' : State V W} {flow : Flow} {name : Label} {passed : Bool}
    (h : effect sem st i = some (.check name passed, st', flow)) :
    ∃ pass fail, i = .condBr name pass fail
      ∧ flow = .goto (if passed then pass else fail) ∧ st' = st := by
  cases i with
  | ir i =>
      have hsource := effect_source h
      cases hsource
  | condBr n pass fail =>
      cases h
      exact ⟨pass, fail, rfl, rfl, rfl⟩
  | callMorestack f doesNotThrow =>
      simp only [effect] at h
      split at h <;> cases h
  | readSp n | loadBound n | subFrame n f | cmpUge n | br dest => cases h

/-- The branch of a check that an instrumented function has. -/
theorem Shaped.condBr_spec (h : Shaped frame padded [] F) {b : BasicBlock Code} (hb : b ∈ F.blocks)
    {name pass fail : Label} (hi : Code.condBr name pass fail ∈ b.insts) :
    name = fail ∧ moreBlock frame pass fail ∈ F.blocks := by
  obtain ⟨body, tail, hinsts, hbody, htail⟩ := h.blocks b hb
  rw [hinsts] at hi
  have hcode : ∀ cont more, Code.condBr name pass fail ∈ checkCode frame cont more →
      moreBlock frame cont more ∈ F.blocks →
        name = fail ∧ moreBlock frame pass fail ∈ F.blocks := by
    intro cont more hmem hmore
    have heq : Code.condBr name pass fail = .condBr more cont more := by
      simpa [checkCode] using hmem
    cases heq
    exact ⟨rfl, hmore⟩
  rcases List.mem_append.mp hi with hi | hi
  · have hir := (hbody _ hi).1
    cases hir
  · cases htail with
    | source => exact absurd hi List.not_mem_nil
    | br dest =>
        have heq := List.mem_singleton.mp hi
        cases heq
    | check hmore => exact hcode _ _ hi hmore
    | alloca halloca hmore =>
        rcases List.mem_cons.mp hi with rfl | hi
        · cases halloca
        · exact hcode _ _ hi hmore
    | more cont more =>
        simp [moreBlock] at hi

/-- **A check that fails leads to a call that is marked.** -/
theorem failed_check_calls (h : Shaped frame padded [] F) (hF : F.WellFormed) {c c' : Config V W}
    (hloc : Located F c) (hfail : CheckFails F sem c c') :
    ∃ rest, c'.rest = .callMorestack frame true :: rest := by
  obtain ⟨es, name, hs, hmem⟩ := hfail
  obtain ⟨i, rest, ⟨e, st, flow⟩, hrest, heff, hflow⟩ := step_eq_some hs
  obtain ⟨moves, rfl, hmoves⟩ := follow_events hflow
  have he : e = .check name false := by
    rcases List.mem_cons.mp hmem with heq | hmem
    · exact heq.symm
    · exact absurd (hmoves _ hmem) Bool.noConfusion
  subst he
  obtain ⟨pass, fail, rfl, rfl, -⟩ := effect_check heff
  obtain ⟨b, hb, -, -, hi⟩ := hloc.inst hrest
  obtain ⟨rfl, hmore⟩ := h.condBr_spec hb hi
  have henter : enter F sem st c.cur name
      = some ([], ⟨st, name, (moreBlock frame pass name).insts⟩) :=
    Checked.enter_more hF.labels_nodup hmore st c.cur
  simp only [follow, Bool.false_eq_true, if_false, henter, Option.map_some] at hflow
  cases hflow
  exact ⟨[.br pass], rfl⟩

/-! ## Checks do fail -/

/-- There is no room for a frame above the bound. -/
def fullStack (frame : BitVec 64) : Semantics Unit Unit where
  other _ := ()
  op _ _ _ := some ((), ())
  term _ _ _ := none
  sp _ := frame
  bound _ := 1
  morestack _ _ := none

def fullStart : State Unit Unit := ⟨(), fun _ => (), fun _ => ⟨0, 0, 0, false⟩⟩

/-- EH pads in front of a check. -/
theorem emits_pads {cur : Label} {tail : List Code} (pads : List Code)
    (hpads : ∀ i ∈ pads, i.isEhPad = true) (st : State Unit Unit) :
    ∃ st' es, Emits (step F (fullStack frame)) ⟨st, cur, pads ++ tail⟩ es ⟨st', cur, tail⟩ := by
  induction pads generalizing st with
  | nil => exact ⟨st, [], .refl _⟩
  | cons i pads ih =>
      have hi := hpads i List.mem_cons_self
      rcases i with (_ | ⟨id, args⟩ | _ | _ | _) | _ | _ | _ | _ | _ | _ | _
      case ir.ehPad =>
        obtain ⟨st', es, hrun⟩ := ih (fun j hj => hpads j (List.mem_cons_of_mem _ hj))
          (st.write id () ())
        exact ⟨st', _, .step rfl hrun⟩
      all_goals cases hi

/-- The instructions of a check up to its branch. -/
theorem emits_checkCode {cur cont more : Label} (st : State V W) {k : ℕ} (hk : k ≤ 4) :
    ∃ st' es, Emits (step F sem) ⟨st, cur, checkCode frame cont more⟩ es
        ⟨st', cur, (checkCode frame cont more).drop k⟩
      ∧ ReadUpTo sem frame st' more k := by
  induction k with
  | zero => exact ⟨st, [], .refl _, by omega, by omega, by omega, by omega⟩
  | succ k ih =>
      obtain ⟨st₁, es, hrun, hread⟩ := ih (by omega)
      obtain ⟨i, st₂, hdrop, heff, hread'⟩ := readUpTo_step (by omega) hread cont
      have hs : step F sem ⟨st₁, cur, (checkCode frame cont more).drop k⟩
          = some ([.ss i], ⟨st₂, cur, (checkCode frame cont more).drop (k + 1)⟩) := by
        rw [hdrop]
        show (effect sem st₁ i).bind _ = _
        rw [heff]
        rfl
      exact ⟨st₂, _, hrun.trans (.single hs), hread'⟩

/-- **The first check of a function fails** when the stack is full. -/
theorem entry_fails (h : Shaped frame padded [] F) (hF : F.WellFormed) :
    ∃ es c c', Emits (step F (fullStack frame)) (F.start fullStart) es c
      ∧ CheckFails F (fullStack frame) c c' := by
  obtain ⟨label, pads, cont, more, hstart, hpads, hmore⟩ := h.start_check hF fullStart
  obtain ⟨st₁, es₁, hrun₁⟩ : ∃ st' es, Emits (step F (fullStack frame)) (F.start fullStart) es
      ⟨st', label, checkCode frame cont more⟩ :=
    hstart ▸ emits_pads pads (fun i hi => (hpads i hi).2) fullStart
  obtain ⟨st₂, es₂, hrun₂, hread⟩ : ∃ st' es, Emits (step F (fullStack frame))
      ⟨st₁, label, checkCode frame cont more⟩ es ⟨st', label, (checkCode frame cont more).drop 4⟩
      ∧ ReadUpTo (fullStack frame) frame st' more 4 := emits_checkCode st₁ (Nat.le_refl 4)
  have hok : (st₂.ss more).ok = false := by
    rw [hread.ok (Nat.le_refl 4)]
    show decide (1 ≤ frame - frame) = false
    rw [BitVec.sub_self]
    decide
  have henter : enter F (fullStack frame) st₂ label more
      = some ([], ⟨st₂, more, (moreBlock frame cont more).insts⟩) :=
    Checked.enter_more hF.labels_nodup hmore st₂ label
  refine ⟨_, _, ⟨st₂, more, (moreBlock frame cont more).insts⟩, hrun₁.trans hrun₂,
    [.check more false], more, ?_, List.mem_singleton_self _⟩
  show follow F (fullStack frame) label [] (.check more (st₂.ss more).ok, st₂,
    .goto (if (st₂.ss more).ok then cont else more)) = _
  rw [hok]
  simp only [follow, Bool.false_eq_true, if_false, henter, Option.map_some]

/-- **No exception gets out of a check.** Whatever pad is active at a check that fails, in whatever
run of whatever function, an exception thrown there does not get to it; and every function has such
a run. -/
theorem checks_do_not_unwind (clExtraPad : BitVec 32) (F : Func Instruction)
    (hF : F.code.WellFormed) (hskip : shouldSkip F = false) :
    let F' := (instrumentFunction clExtraPad F).1
    (∀ {V W : Type} (sem : Semantics V W) (st : State V W) es c c',
      Emits (step F' sem) (F'.start st) es c → CheckFails F' sem c c' →
        ∀ active, ¬ UnwindsTo active c')
    ∧ ∃ (sem : Semantics Unit Unit) (st : State Unit Unit) (es : List (Event Unit))
      (c c' : Config Unit Unit),
      Emits (step F' sem) (F'.start st) es c ∧ CheckFails F' sem c c' := by
  have hF' := (instrumentFunction_preserved clExtraPad hF hskip).wellFormed
  have hshaped := instrumentFunction_shaped clExtraPad hF hskip
  refine ⟨fun sem st es c c' hrun hfail active hunwinds => ?_, ?_⟩
  · have hloc := hrun.invariant (located_start hF' st) located_step
    obtain ⟨rest, hrest⟩ := failed_check_calls hshaped hF' hloc hfail
    obtain ⟨i, hi, hto⟩ := hunwinds
    rw [hrest] at hi
    cases hi
    cases active <;> cases hto
  · obtain ⟨es, c, c', hrun, hfail⟩ := entry_fails hshaped hF'
    exact ⟨_, _, es, c, c', hrun, hfail⟩

/-- The check of `vla_test` in front of everything fails in a call from a function without cleanups,
and the exception does not get to the caller. -/
theorem vla_does_not_unwind :
    let F' := (instrumentFunction 0 vlaFunc).1
    ∃ es c c', Emits (step F' (fullStack (framePad 0))) (F'.start fullStart) es c
      ∧ CheckFails F' (fullStack (framePad 0)) c c' ∧ ¬ UnwindsTo none c' := by
  have hskip : shouldSkip vlaFunc = false := by decide
  have hF : vlaFunc.code.WellFormed := by decide
  have hF' := (instrumentFunction_preserved 0 hF hskip).wellFormed
  have hshaped := instrumentFunction_shaped 0 hF hskip
  obtain ⟨es, c, c', hrun, hfail⟩ := entry_fails hshaped hF'
  refine ⟨es, c, c', hrun, hfail, fun ⟨i, hi, hto⟩ => ?_⟩
  obtain ⟨rest, hrest⟩ :=
    failed_check_calls hshaped hF' (hrun.invariant (located_start hF' _) located_step) hfail
  rw [hrest] at hi
  cases hi
  cases hto

/-- In a loop the pads do not help. -/
theorem checks_do_not_unwind_loop :
    let F' := (instrumentFunction 0 loopFunc).1
    ∃ (sem : Semantics Unit Unit) (st : State Unit Unit) (es : List (Event Unit))
      (c c' : Config Unit Unit), Emits (step F' sem) (F'.start st) es c
        ∧ CheckFails F' sem c c' ∧ ∀ pad, ¬ UnwindsTo (some pad) c' := by
  obtain ⟨hnever, sem, st, es, c, c', hrun, hfail⟩ :=
    checks_do_not_unwind 0 loopFunc (by decide) (by decide)
  exact ⟨sem, st, es, c, c', hrun, hfail, fun pad => hnever sem st es c c' hrun hfail (some pad)⟩

end Hopter.SplitStack
