import Hopter.Lib.Simulation
import Hopter.SplitStack.Preserve

/-!
# Where the instrumented function is

`Preserved` compares whole runs of a function and of its instrumented version. A
function that calls others does not run on its own, so here is the relation behind
it, between their states: whatever the instructions turn out to do, the two stay
related. Related states have the same values in the same world. Where the instrumented
function is at an instruction of the source, the function is there too; where it is at
an inserted one, the function waits.
-/

namespace Hopter.SplitStack

open Conc

variable {V W : Type} {F F' F'' : Func Code} {R R' : Config V W → Config V W → Prop}

/-- What a step of the source emits is seen. -/
theorem sees_ne_nil {sem : Semantics V W} {c c₁ : Config V W} {es : List (Event V)}
    {i : Instruction} {rest : List Code} (hrest : c.rest = .ir i :: rest)
    (hs : step F sem c = some (es, c₁)) : afterDeletion.sees es ≠ [] := by
  obtain ⟨j, rest', ⟨e, st, flow⟩, hrest', heff, hflow⟩ := step_eq_some hs
  rw [hrest, List.cons.injEq] at hrest'
  obtain ⟨rfl, -⟩ := hrest'
  obtain ⟨moves, rfl, -⟩ := follow_events hflow
  have he : e.isSource = true := effect_source heff
  rw [afterDeletion_sees]
  unfold deleteSs
  rw [List.filter_cons_of_pos he]
  exact List.cons_ne_nil _ _

/-- `R` tells where `F` is when `F'` is somewhere. -/
structure Track (F F' : Func Code) (R : Config V W → Config V W → Prop) : Prop where
  start : ∀ st, R (F.start st) (F'.start st)
  located : ∀ {c c'}, R c c' → Located F c
  world : ∀ {c c'}, R c c' → c'.st.world = c.st.world
  env : ∀ {c c'}, R c c' → c'.st.env = c.st.env
  same : ∀ {c c' i rest'}, R c c' → c'.rest = .ir i :: rest' → ∃ rest, c.rest = .ir i :: rest
  ended : ∀ {c c'}, R c c' → (c'.rest = [] ↔ c.rest = [])
  /-- In front of an instruction of the source `F` waits while `F'` runs what was inserted. -/
  waits : ∀ {sem : Semantics V W} {c c' c₁' i rest j rest' es}, R c c' → c.rest = .ir i :: rest →
    c'.rest = j :: rest' → j.isIr = false → step F' sem c' = some (es, c₁') →
    afterDeletion.Calm es → afterDeletion.sees es = [] ∧ R c c₁'
  catches : ∀ (sem : Semantics V W) {c c'}, R c c' →
    Catches afterDeletion (step F sem) (step F' sem) R c c'

namespace Track

/-- A function that is left as it is. -/
theorem refl (hF : F.WellFormed) : Track F F fun c c' : Config V W => Located F c ∧ c' = c where
  start st := ⟨located_start hF st, rfl⟩
  located h := h.1
  world := by
    rintro c _ ⟨-, rfl⟩
    rfl
  env := by
    rintro c _ ⟨-, rfl⟩
    rfl
  same := by
    rintro c _ i rest ⟨-, rfl⟩ hrest
    exact ⟨rest, hrest⟩
  ended := by
    rintro c _ ⟨-, rfl⟩
    exact Iff.rfl
  waits := by
    rintro sem _ c c₁ i rest j rest' es ⟨-, rfl⟩ hi hj hjir - -
    rw [hi, List.cons.injEq] at hj
    rw [← hj.1] at hjir
    cases hjir
  catches := by
    rintro sem _ c ⟨hloc, rfl⟩
    cases hs : step F sem c with
    | none => exact .stop hs hs
    | some done =>
        obtain ⟨es, c₁⟩ := done
        by_cases hcalm : afterDeletion.Calm es
        · exact .both hs hs hcalm hcalm rfl ⟨located_step hloc hs, rfl⟩
        · exact .alarm hs hcalm

theorem trans (h : Track F F' R) (h' : Track F' F'' R') : Track F F'' (Relation.Comp R R') where
  start st := ⟨_, h.start st, h'.start st⟩
  located := by
    rintro c c'' ⟨c', hR, hR'⟩
    exact h.located hR
  world := by
    rintro c c'' ⟨c', hR, hR'⟩
    exact (h'.world hR').trans (h.world hR)
  env := by
    rintro c c'' ⟨c', hR, hR'⟩
    exact (h'.env hR').trans (h.env hR)
  same := by
    rintro c c'' i rest ⟨c', hR, hR'⟩ hrest
    obtain ⟨rest', hrest'⟩ := h'.same hR' hrest
    exact h.same hR hrest'
  ended := by
    rintro c c'' ⟨c', hR, hR'⟩
    exact (h'.ended hR').trans (h.ended hR)
  waits := by
    rintro sem c c'' c₁'' i rest j rest' es ⟨c', hR, hR'⟩ hi hj hjir hs hcalm
    cases hmid : c'.rest with
    | nil =>
        rw [(h.ended hR).mp hmid] at hi
        cases hi
    | cons k mid =>
        cases hk : k.isIr with
        | true =>
            cases k with
            | ir k =>
                obtain ⟨hsees, hR₁⟩ := h'.waits hR' hmid hj hjir hs hcalm
                exact ⟨hsees, c', hR, hR₁⟩
            | _ => cases hk
        | false =>
            -- the middle one is at an inserted instruction too, and may take part
            cases h'.catches sem hR' with
            | silent hs' _ hsees hR₁ _ =>
                rw [hs, Option.some.injEq, Prod.mk.injEq] at hs'
                obtain ⟨rfl, rfl⟩ := hs'
                exact ⟨hsees, c', hR, hR₁⟩
            | both hs₁ hs₂ hcalm₁ _ hsees hR₁ =>
                rw [hs, Option.some.injEq, Prod.mk.injEq] at hs₂
                obtain ⟨rfl, rfl⟩ := hs₂
                obtain ⟨hnone, hR₂⟩ := h.waits hR hi hmid hk hs₁ hcalm₁
                exact ⟨hsees.symm.trans hnone, _, hR₂, hR₁⟩
            | stop _ hs' =>
                rw [hs] at hs'
                cases hs'
            | alarm hs' halarm =>
                rw [hs, Option.some.injEq, Prod.mk.injEq] at hs'
                exact absurd hcalm (hs'.1 ▸ halarm)
  catches := by
    rintro sem c c'' ⟨c', hR, hR'⟩
    exact Catches.trans (h'.catches sem) (h.catches sem hR) hR hR'

/-- Only the blocks matter. -/
theorem of_blocks (h : Track F F' R) (hblocks : F''.blocks = F'.blocks) : Track F F'' R := by
  obtain ⟨name, attrs, blocks⟩ := F'
  obtain ⟨name', attrs', blocks'⟩ := F''
  replace hblocks : blocks' = blocks := hblocks
  subst hblocks
  exact ⟨h.start, h.located, h.world, h.env, h.same, h.ended, h.waits, h.catches⟩

end Track

/-! ## The edits -/

section Edits

variable {old new check cont more : Label} {frame : BitVec 64} {front back : List (BasicBlock Code)}
  {pre post body tail : List Code}

theorem Related.world {n : Label} {Pos : Label → List Code → Label → List Code → Prop}
    {c c' : Config V W} (h : Related F n Pos c c') : c'.st.world = c.st.world := by
  obtain ⟨vs, hst⟩ := h.st
  rw [hst]
  rfl

theorem Related.env {n : Label} {Pos : Label → List Code → Label → List Code → Prop}
    {c c' : Config V W} (h : Related F n Pos c c') : c'.st.env = c.st.env := by
  obtain ⟨vs, hst⟩ := h.st
  rw [hst]
  rfl

/-- Where a function starts does not depend on what its instructions do. -/
def Semantics.idle (v : V) : Semantics V W where
  other _ := v
  op _ _ _ := none
  term _ _ _ := none
  sp _ := 0
  bound _ := 0
  morestack _ _ := none

theorem Cut.track (h : Cut F F' old new front pre post back) (hF : F.WellFormed) :
    Track F F' (Related (V := V) (W := W) F new (Cut.Pos old new pre post)) where
  start st := related_start hF (h.wellFormed hF).labels_nodup h.head'
    (fun _ hb => h.counterpart hF (.idle (st.env 0)) hb) st
  located := Related.located
  world := Related.world
  env := Related.env
  same := by
    intro c c' i tail hR hrest
    have hpos := hR.pos
    generalize c'.cur = L', c'.rest = rest' at hpos hrest
    generalize c.cur = L, c.rest = rest at hpos ⊢
    cases hpos with
    | elsewhere _ => exact ⟨tail, hrest⟩
    | @before mid _ =>
        cases mid with
        | nil => cases hrest
        | cons j mid =>
            cases hrest
            exact ⟨mid ++ post, rfl⟩
    | after _ => exact ⟨tail, hrest⟩
    | ended => cases hrest
  ended := by
    intro c c' hR
    have hpos := hR.pos
    generalize c'.cur = L', c'.rest = rest' at hpos ⊢
    generalize c.cur = L, c.rest = rest at hpos ⊢
    cases hpos with
    | elsewhere _ | after _ | ended => exact Iff.rfl
    | before _ => simp [h.post_ne]
  waits := by
    intro sem c c' c₁' i rest j rest' es hR hi hj hjir hs hcalm
    -- it is at the branch between the parts
    have hbr : es = [.ss (.br new)] := by
      obtain ⟨st, L, todo⟩ := c
      obtain ⟨st', L', todo'⟩ := c'
      have hpos : Cut.Pos old new pre post L todo L' todo' := hR.pos
      clear hR
      replace hi : todo = .ir i :: rest := hi
      replace hj : todo' = j :: rest' := hj
      cases hpos with
      | elsewhere _ | after _ =>
          rw [hi, List.cons.injEq] at hj
          rw [← hj.1] at hjir
          cases hjir
      | @before mid _ =>
          cases mid with
          | nil =>
              rw [List.nil_append, h.step_br hF st', Option.some.injEq, Prod.mk.injEq] at hs
              exact hs.1.symm
          | cons k mid =>
              rw [List.cons_append, List.cons.injEq] at hi hj
              rw [← hj.1, hi.1] at hjir
              cases hjir
      | ended => cases hj
    subst hbr
    have hanswer : Answer afterDeletion (step F sem) (step F' sem) _ _ c c' := h.answer hF hR
    cases hanswer with
    | silent hs' _ hsees hR' _ =>
        rw [hs, Option.some.injEq, Prod.mk.injEq] at hs'
        obtain ⟨rfl, rfl⟩ := hs'
        exact ⟨hsees, hR'⟩
    | both hs₁ hs₂ _ _ hsees _ =>
        rw [hs, Option.some.injEq, Prod.mk.injEq] at hs₂
        obtain ⟨rfl, -⟩ := hs₂
        exact absurd hsees (sees_ne_nil hi hs₁)
    | stop _ hs' =>
        rw [hs] at hs'
        cases hs'
    | alarm hs' halarm _ =>
        rw [hs, Option.some.injEq, Prod.mk.injEq] at hs'
        exact absurd hcalm (hs'.1 ▸ halarm)
  catches sem _ _ hR := Catches.of_answer (fun hrel => h.answer hF hrel) hR

theorem Checked.track (h : Checked F F' frame check cont more front body tail back)
    (hF : F.WellFormed) :
    Track F F' (Related (V := V) (W := W) F more (Checked.Pos frame check cont more body)) where
  start st := related_start hF (h.wellFormed hF).labels_nodup h.head'
    (fun _ hb => h.counterpart hF (.idle (st.env 0)) hb) st
  located := Related.located
  world := Related.world
  env := Related.env
  same := by
    intro c c' i tail hR hrest
    have hpos := hR.pos
    generalize c'.cur = L', c'.rest = rest' at hpos hrest
    generalize c.cur = L, c.rest = rest at hpos ⊢
    cases hpos with
    | elsewhere _ => exact ⟨tail, hrest⟩
    | @before mid _ =>
        cases mid with
        | nil => cases hrest
        | cons j mid =>
            cases hrest
            exact ⟨mid ++ [.br cont], rfl⟩
    | checking hsuf _ =>
        -- the code of a check is not of the source
        rw [hrest] at hsuf
        have hir := checkCode_not_ir frame cont more _ (hsuf.subset List.mem_cons_self)
        cases hir
    | ended => cases hrest
  ended := by
    intro c c' hR
    have hpos := hR.pos
    generalize c'.cur = L', c'.rest = rest' at hpos ⊢
    generalize c.cur = L, c.rest = rest at hpos ⊢
    cases hpos with
    | elsewhere _ | ended => exact Iff.rfl
    | before _ => simp [checkCode]
    | checking _ hne => simp [hne]
  waits := by
    intro sem c c' c₁' i rest j rest' es hR hi hj hjir hs hcalm
    -- the function is at the branch while a check runs, and that is no instruction of the source
    exfalso
    obtain ⟨st, L, todo⟩ := c
    obtain ⟨st', L', todo'⟩ := c'
    have hpos : Checked.Pos frame check cont more body L todo L' todo' := hR.pos
    clear hR
    replace hi : todo = .ir i :: rest := hi
    replace hj : todo' = j :: rest' := hj
    cases hpos with
    | elsewhere _ =>
        rw [hi, List.cons.injEq] at hj
        rw [← hj.1] at hjir
        cases hjir
    | @before mid _ =>
        cases mid with
        | nil => cases hi
        | cons k mid =>
            rw [List.cons_append, List.cons.injEq] at hi hj
            rw [← hj.1, hi.1] at hjir
            cases hjir
    | checking _ _ => cases hi
    | ended => cases hi
  catches sem _ _ hR := Catches.of_answer (fun hrel => h.answer hF hrel) hR

theorem EntryEdit.track (h : EntryEdit frame F F') (hF : F.WellFormed) :
    ∃ R : Config V W → Config V W → Prop, Track F F' R := by
  obtain ⟨hcut, -, hchecked, hblocks⟩ := h
  have hF₁ := hcut.wellFormed hF
  exact ⟨_, (hcut.track hF).trans ((hchecked.track hF₁).of_blocks hblocks)⟩

theorem AllocaEdit.track {ai : ValueId} (h : AllocaEdit frame ai F F') (hF : F.WellFormed) :
    ∃ R : Config V W → Config V W → Prop, Track F F' R := by
  obtain ⟨-, hcut, hcut', hchecked⟩ := h
  have hF₁ := hcut.wellFormed hF
  have hF₂ := hcut'.wellFormed hF₁
  exact ⟨_, ((hcut.track hF).trans (hcut'.track hF₁)).trans (hchecked.track hF₂)⟩

end Edits

/-- **The loop**, from where an earlier edit has left the function. -/
theorem instrumentAllocas_track (h : Track F F' R) (hF' : F'.WellFormed) (frame : BitVec 64)
    (ais : List ValueId) :
    ∃ R : Config V W → Config V W → Prop, Track F (ais.foldl (instrumentAlloca frame) F') R := by
  induction ais generalizing F' R with
  | nil => exact ⟨R, h⟩
  | cons ai ais ih =>
      rcases instrumentAlloca_edit hF' frame ai with hedit | ⟨hsame, -⟩
      · obtain ⟨R', hround⟩ := hedit.track (V := V) (W := W) hF'
        exact ih (h.trans hround) (hedit.preserved hF').wellFormed
      · rw [List.foldl_cons, hsame]
        exact ih h hF'

/-- **The pass.** -/
theorem instrumentFunction_track (V W : Type) (clExtraPad : BitVec 32) {F : Func Instruction}
    (hF : F.code.WellFormed) :
    ∃ R : Config V W → Config V W → Prop, Track F.code (instrumentFunction clExtraPad F).1 R := by
  unfold instrumentFunction
  by_cases hskip : shouldSkip F = true
  · rw [if_pos hskip]
    exact ⟨_, Track.refl hF⟩
  · rw [if_neg hskip]
    have hedit := instrumentEntry_edit hF (framePad clExtraPad)
    obtain ⟨R, hentry⟩ := hedit.track (V := V) (W := W) hF
    exact instrumentAllocas_track hentry (hedit.preserved hF).wellFormed _ _

end Hopter.SplitStack
