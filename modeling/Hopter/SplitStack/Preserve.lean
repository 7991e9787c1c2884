import Mathlib.Algebra.GroupWithZero.Nat
import Hopter.SplitStack.Edits

/-!
# The pass preserves the program

Every edit the pass makes is a cut or a check, and each of them keeps the
function well-formed and does what the function did. So the loop over the allocas
needs no more than that: whatever list it runs over, and wherever earlier rounds
have moved the allocas, a round finds one in some block of a well-formed function
and cuts there.
-/

namespace Hopter.SplitStack

open Conc

variable {F F' F'' : Func Code}

/-- `F'` is well-formed and does what `F` does, up to a failed check. -/
structure Preserved (F F' : Func Code) : Prop where
  wellFormed : F'.WellFormed
  runs : ∀ {V W : Type} (sem : Semantics V W) (st : State V W),
    Preserves afterDeletion (step F sem) (F.start st) (step F' sem) (F'.start st)

namespace Preserved

theorem refl (hF : F.WellFormed) : Preserved F F := ⟨hF, fun _ _ => .refl _ _⟩

theorem trans (h : Preserved F F') (h' : Preserved F' F'') : Preserved F F'' :=
  ⟨h'.wellFormed, fun sem st => (h.runs sem st).trans (h'.runs sem st)⟩

/-- Only the blocks matter. -/
theorem of_blocks (hF : F.WellFormed) (h : F'.blocks = F.blocks) : Preserved F F' := by
  obtain ⟨name, attrs, blocks⟩ := F
  obtain ⟨name', attrs', blocks'⟩ := F'
  replace h : blocks' = blocks := h
  subst h
  exact ⟨⟨hF.nonempty, hF.labels_nodup, hF.oneTerminator, hF.phisFirst, hF.targets, hF.entry,
    hF.phiPreds, hF.ids_nodup, hF.checks⟩, fun _ _ => .refl _ _⟩

end Preserved

/-! ## The edits -/

theorem EntryEdit.preserved {frame : BitVec 64} (h : EntryEdit frame F F') (hF : F.WellFormed) :
    Preserved F F' := by
  obtain ⟨hcut, -, hchecked, hblocks⟩ := h
  have hF₁ := hcut.wellFormed hF
  exact .trans ⟨hF₁, hcut.preserves hF⟩ (.trans ⟨hchecked.wellFormed hF₁, hchecked.preserves hF₁⟩
    (.of_blocks (hchecked.wellFormed hF₁) hblocks))

theorem AllocaEdit.preserved {frame : BitVec 64} {ai : ValueId} (h : AllocaEdit frame ai F F')
    (hF : F.WellFormed) : Preserved F F' := by
  obtain ⟨-, hcut, hcut', hchecked⟩ := h
  have hF₁ := hcut.wellFormed hF
  have hF₂ := hcut'.wellFormed hF₁
  exact .trans ⟨hF₁, hcut.preserves hF⟩ (.trans ⟨hF₂, hcut'.preserves hF₁⟩
    ⟨hchecked.wellFormed hF₂, hchecked.preserves hF₂⟩)

/-- **One round of the loop.** -/
theorem instrumentAlloca_preserved (hF : F.WellFormed) (frame : BitVec 64) (ai : ValueId) :
    Preserved F (instrumentAlloca frame F ai) := by
  rcases instrumentAlloca_edit hF frame ai with hedit | ⟨hsame, -⟩
  · exact hedit.preserved hF
  · rw [hsame]
    exact .refl hF

/-- **The loop**, whatever allocas it runs over. -/
theorem instrumentAllocas_preserved (hF : F.WellFormed) (frame : BitVec 64) (ais : List ValueId) :
    Preserved F (ais.foldl (instrumentAlloca frame) F) := by
  induction ais generalizing F with
  | nil => exact .refl hF
  | cons ai ais ih =>
      have hround := instrumentAlloca_preserved hF frame ai
      exact hround.trans (ih hround.wellFormed)

/-! ## The pass -/

/-- The whole pass, on a function it does not skip. -/
theorem instrumentFunction_preserved (clExtraPad : BitVec 32) {F : Func Instruction}
    (hF : F.code.WellFormed) (hskip : shouldSkip F = false) :
    Preserved F.code (instrumentFunction clExtraPad F).1 := by
  unfold instrumentFunction
  rw [if_neg (Bool.eq_false_iff.mp hskip)]
  have hentry := (instrumentEntry_edit hF (framePad clExtraPad)).preserved hF
  exact hentry.trans (instrumentAllocas_preserved hentry.wellFormed _ _)

theorem effect_source {V W : Type} {sem : Semantics V W} {st : State V W} {i : Instruction}
    {done : Event V × State V W × Flow} (h : effect sem st (.ir i) = some done) :
    done.1.isSource = true := by
  have hop : ∀ id args, (runOp sem st id args).1.isSource = true := by
    intro id args
    unfold runOp
    split <;> rfl
  cases i with
  | phi id incoming => cases h
  | term id args succs =>
      cases h
      unfold runTerm
      split
      · split <;> rfl
      · rfl
  | ehPad id args => cases h; exact hop id args
  | alloca id constSize inAlloca args => cases h; exact hop id args
  | op id args => cases h; exact hop id args

/-- A function the pass has not seen executes nothing but its own instructions. -/
theorem code_events {F : Func Instruction} {V W : Type} {sem : Semantics V W} {c c' : Config V W}
    {es : List (Event V)} (hrun : Emits (step F.code sem) c es c') (hloc : Located F.code c) :
    ∀ e ∈ es, e.isSource = true := by
  induction hrun with
  | refl c => exact fun _ h => absurd h List.not_mem_nil
  | @step c c' t es es' hs _ ih =>
      obtain ⟨i, rest, done, hrest, heff, hfollow⟩ := step_eq_some hs
      obtain ⟨b, hb, -, -, hi⟩ := hloc.inst hrest
      obtain ⟨b₀, -, rfl⟩ := List.mem_map.mp hb
      obtain ⟨j, -, rfl⟩ := List.mem_map.mp hi
      obtain ⟨e, st, flow⟩ := done
      obtain ⟨moves, rfl, hmoves⟩ := follow_events hfollow
      obtain ⟨st₀, cur, rest₀⟩ := c
      replace hrest : rest₀ = _ := hrest
      subst hrest
      refine List.forall_mem_append.mpr ⟨?_, ih (located_follow hloc hfollow)⟩
      exact List.forall_mem_cons.mpr ⟨effect_source heff, hmoves⟩

/-- **The stack-check pass preserves the program.** -/
theorem instrumentFunction_preserves (clExtraPad : BitVec 32) (F : Func Instruction)
    (hF : F.code.WellFormed) (hskip : shouldSkip F = false) :
    (instrumentFunction clExtraPad F).1.WellFormed
    ∧ ∀ {V W : Type} (sem : Semantics V W) (st : State V W),
      let source := step F.code sem
      let target := step (instrumentFunction clExtraPad F).1 sem
      let start := F.code.start st
      let start' := (instrumentFunction clExtraPad F).1.start st
      -- an execution in which all checks pass is the original one, to its end
      (∀ es' c', Emits target start' es' c' → AllPass es' →
        ∃ c, Emits source start (deleteSs es') c ∧ (target c' = none → source c = none))
      -- and every original one is there, if no check fails on the way
      ∧ (∀ es c, Emits source start es c →
        (∃ es' c', Emits target start' es' c' ∧ AllPass es' ∧ deleteSs es' = es
          ∧ (source c = none → target c' = none))
        ∨ ∃ es' c', Emits target start' es' c' ∧ ¬ AllPass es'
          ∧ deleteSs (es'.takeWhile fun e => !e.isFailedCheck) <+: es) := by
  have hpass := instrumentFunction_preserved clExtraPad hF hskip
  refine ⟨hpass.wellFormed, fun sem st => ?_⟩
  have hruns := hpass.runs sem st
  have hsource : ∀ {es c}, Emits (step F.code sem) (F.code.start st) es c →
      ∀ e ∈ es, e.isSource = true := fun hrun => code_events hrun (located_start hF st)
  constructor
  · intro es' c' hrun hpass
    obtain ⟨es, c, hrun', -, hsees, hend⟩ := hruns.sound hrun hpass
    rw [afterDeletion_sees, afterDeletion_sees] at hsees
    have hes : deleteSs es = es := List.filter_eq_self.mpr (hsource hrun')
    refine ⟨c, ?_, hend⟩
    rw [← hsees, hes]
    exact hrun'
  · intro es c hrun
    have hes : deleteSs es = es := List.filter_eq_self.mpr (hsource hrun)
    rcases hruns.complete hrun (calm_of_source (hsource hrun)) with
      ⟨es', c', hrun', hcalm, hsees, hend⟩ | ⟨es', c', hrun', halarm, hpre⟩
    · rw [afterDeletion_sees, afterDeletion_sees, hes] at hsees
      exact Or.inl ⟨es', c', hrun', hcalm, hsees, hend⟩
    · rw [afterDeletion_sees, hes] at hpre
      refine Or.inr ⟨es', c', hrun', halarm, ?_⟩
      rw [← afterDeletion_sees]
      exact hpre

/-! ## A loop with two allocas side by side -/

/-- A fixed-size local, and a loop whose body starts with two variable-length arrays. -/
def loopFunc : Func Instruction where
  name := "loop"
  attrs := []
  blocks := [
    ⟨0, [.alloca 1 true false [], .op 2 [.other 0], .term 3 [] [1]]⟩,
    ⟨1, [.phi 4 [(.other 0, 0), (.value 7, 1)], .alloca 5 false false [.value 4],
      .alloca 6 false false [.value 4], .op 7 [.value 4], .term 8 [.value 7] [1, 2]]⟩,
    ⟨2, [.term 9 [.value 7] []]⟩]

/-- Instructions count up, the loop runs twice, and there is stack enough. -/
def loopSem : Semantics ℕ ℕ where
  other k := k
  op id args w := some (id + args.sum, w + 1)
  term id _ w := if id = 9 then none else some (if w < 8 then 0 else 1, 0, w + 1)
  sp _ := 1024
  bound _ := 256
  morestack _ w := some w

def loopStart : State ℕ ℕ := ⟨0, fun _ => 0, fun _ => ⟨0, 0, 0, false⟩⟩

/-- The run of the instrumented loop is the run of the loop. -/
theorem instrumentFunction_preserves_loop :
    ∃ c, Emits (step loopFunc.code loopSem) (loopFunc.code.start loopStart)
      [.exec 1 [], .exec 2 [0], .branch 3 [] (some 1),
        .exec 4 [0], .exec 5 [0], .exec 6 [0], .exec 7 [0], .branch 8 [7] (some 1),
        .exec 4 [7], .exec 5 [7], .exec 6 [7], .exec 7 [7], .branch 8 [14] (some 2),
        .branch 9 [14] none] c
      ∧ step loopFunc.code loopSem c = none := by
  have hrun := emits_runFor (step (instrumentFunction 0 loopFunc).1 loopSem) 60
    ((instrumentFunction 0 loopFunc).1.start loopStart)
  have hsource := ((instrumentFunction_preserves 0 loopFunc (by decide) (by decide)).2
    loopSem loopStart).1 _ _ hrun (by unfold AllPass; decide +kernel)
  obtain ⟨c, hrun', hend⟩ := hsource
  exact ⟨c, hrun', hend rfl⟩

end Hopter.SplitStack
