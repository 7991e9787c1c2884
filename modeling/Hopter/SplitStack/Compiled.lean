import Hopter.SplitStack.Program
import Hopter.SplitStack.Track

/-!
# A compiled program does what the program does

The pass works on one function at a time, and so does the proof that it preserves
them. Here are all functions of a program at once, calling each other, returning and
being unwound, before the pass and behind it, with the same meaning of instructions and
the same frames. In front of an instruction of the source both are in the same
functions with the same values and the same memory. The compiled program has more to
run, and it may stop at a check.
-/

namespace Hopter.SplitStack

open Conc

variable {V M : Type}

/-- The functions of a program in front of the pass. -/
def sourceCode (funcs : ℕ → Func Instruction) (g : ℕ) : Func Code := (funcs g).code

/-- `SplitStackPass::run`. It goes through all functions, and leaves some as they are. -/
def SplitStackPass.run (clExtraPad : BitVec 32) (funcs : ℕ → Func Instruction) (g : ℕ) :
    Func Code :=
  (instrumentFunction clExtraPad (funcs g)).1

/-- From a call of the function `g`. -/
def Interpretation.execute (x : Interpretation V M) (code : ℕ → Func Code) (g : ℕ)
    (other : ℕ → V) (w : World M) (ms : List (Move V)) : Option (CallStack V M) :=
  exec (CallStack.step x code) (x.launch code g other w) ms

/-- The next instruction is the branch of a check, and it goes to `__morestack`. -/
def Call.checkFails (a : Call V M) : Bool :=
  match a.config.rest with
  | .condBr n _ _ :: _ => !(a.config.st.ss n).ok
  | _ => false

theorem Call.checkFails_iff {a : Call V M} : a.checkFails = true ↔ ∃ n pass fail rest,
    a.config.rest = .condBr n pass fail :: rest ∧ (a.config.st.ss n).ok = false := by
  unfold Call.checkFails
  split
  · rename_i n pass fail rest hrest
    rw [Bool.not_eq_true']
    refine ⟨fun hno => ⟨n, pass, fail, rest, hrest, hno⟩, fun hex => ?_⟩
    obtain ⟨n', pass', fail', rest', heq, hno⟩ := hex
    rw [hrest, List.cons.injEq] at heq
    cases heq.1
    exact hno
  · rename_i hno
    refine ⟨fun hfalse => (by cases hfalse), fun hex => ?_⟩
    obtain ⟨n, pass, fail, rest, hrest, -⟩ := hex
    exact absurd hrest (hno n pass fail rest)

/-- The move leads to another function. -/
def Move.crosses : Move V → Bool
  | .run => false
  | .call | .ret _ | .unwind _ _ => true

/-- The second list is the first one with instructions put in. -/
structure Padded (ms ms' : List (Move V)) : Prop where
  sublist : ms.Sublist ms'
  crosses : ms'.filter Move.crosses = ms.filter Move.crosses

/-- The same function, with the same values in the same world. -/
structure Call.Same (a a' : Call V M) : Prop where
  func : a'.func = a.func
  other : a'.other = a.other
  base : a'.base = a.base
  world : a'.config.st.world = a.config.st.world
  env : a'.config.st.env = a.config.st.env

/-- The same calls. What the second stack has to run of the source, the first one has to run. -/
structure CallStack.Same (t t' : CallStack V M) : Prop where
  top : t.top.Same t'.top
  callers : List.Forall₂ Call.Same t.callers t'.callers
  next : ∀ i rest', t'.top.config.rest = .ir i :: rest' → ∃ rest, t.top.config.rest = .ir i :: rest
  ended : t'.top.config.rest = [] ↔ t.top.config.rest = []

/-! ## One function -/

section Function

variable {W : Type} {F F' : Func Code} {R : Config V W → Config V W → Prop} {sem : Semantics V W}

/-- With an instruction of the source in front of both, or nothing. -/
theorem Track.settled_step (h : Track F F' R) {c c' : Config V W} (hR : R c c')
    (hset : c'.rest = [] ∨ ∃ i rest', c'.rest = .ir i :: rest') (sem : Semantics V W) :
    Option.Rel (fun r r' => R r.2 r'.2) (step F sem c) (step F' sem c') := by
  rcases hset with hnil | ⟨i, rest', hi⟩
  · have hnone : step F sem c = none := by
      unfold step
      rw [(h.ended hR).mp hnil]
    have hnone' : step F' sem c' = none := by
      unfold step
      rw [hnil]
    rw [hnone, hnone']
    exact .none
  · have hcalm : ∀ {es c₁'}, step F' sem c' = some (es, c₁') → afterDeletion.Calm es := by
      intro es c₁' hs
      obtain ⟨j, rest, ⟨e, st, flow⟩, hrest, heff, hflow⟩ := step_eq_some hs
      rw [hi, List.cons.injEq] at hrest
      obtain ⟨rfl, -⟩ := hrest
      obtain ⟨moves, rfl, hmoves⟩ := follow_events hflow
      exact calm_of_source (List.forall_mem_cons.mpr ⟨effect_source heff, hmoves⟩)
    cases h.catches sem hR with
    | silent hs _ hsees _ _ => exact absurd hsees (sees_ne_nil hi hs)
    | both hs hs' _ _ _ hR' =>
        rw [hs, hs']
        exact .some hR'
    | stop hs hs' =>
        rw [hs, hs']
        exact .none
    | alarm hs' halarm => exact absurd (hcalm hs') halarm

/-- Nothing comes back to the function. -/
def Semantics.stopped (sem : Semantics V W) : Semantics V W :=
  { sem with op := fun _ _ _ => none, term := fun _ _ _ => none }

theorem phiMoves_stopped (st : State V W) (source : Label) (insts : List Code) :
    phiMoves sem.stopped st source insts = phiMoves sem st source insts := by
  induction insts with
  | nil => rfl
  | cons i insts ih =>
      cases i with
      | ir i =>
          cases i with
          | phi id incoming =>
              simp only [phiMoves, ih]
              rfl
          | _ => rfl
      | _ => rfl

/-- What was inserted works the same. -/
theorem step_stopped {c : Config V W} {j : Code} {rest : List Code} (hj : c.rest = j :: rest)
    (hir : j.isIr = false) : step F sem.stopped c = step F sem c := by
  have heff : effect sem.stopped c.st j = effect sem c.st j := by
    cases j with
    | ir i => cases hir
    | _ => rfl
  have henter : ∀ st cur dest, enter F sem.stopped st cur dest = enter F sem st cur dest := by
    intro st cur dest
    unfold enter
    simp only [phiMoves_stopped]
  unfold step
  rw [hj]
  dsimp only
  rw [heff]
  congr 1
  funext done
  obtain ⟨e, st, flow⟩ := done
  cases flow with
  | goto dest => simp only [follow, henter]
  | _ => rfl

/-- An instruction that is no PHI leaves the function then. -/
theorem step_stopped_isSome {c : Config V W} {i : Instruction} {rest : List Code}
    (hi : c.rest = .ir i :: rest) (hphi : (Code.ir i).isPhi = false) :
    (step F sem.stopped c).isSome := by
  unfold step
  rw [hi]
  cases i with
  | phi id incoming => cases hphi
  | _ => rfl

/-- A check that does not fail. -/
theorem calm_of_passes {c c₁ : Config V W} {es : List (Event V)}
    (hpass : ∀ n pass fail rest, c.rest = .condBr n pass fail :: rest → (c.st.ss n).ok = true)
    (hs : step F sem c = some (es, c₁)) : afterDeletion.Calm es := by
  obtain ⟨j, rest, ⟨e, st, flow⟩, hrest, heff, hflow⟩ := step_eq_some hs
  obtain ⟨moves, rfl, hmoves⟩ := follow_events hflow
  refine List.forall_mem_cons.mpr ⟨?_, calm_of_source hmoves⟩
  show e.isFailedCheck = false
  cases j with
  | ir i =>
      have he : e.isSource = true := effect_source heff
      cases e with
      | check name passed => cases he
      | _ => rfl
  | condBr n pass fail =>
      cases heff
      show (!(c.st.ss n).ok) = false
      rw [hpass n pass fail rest hrest]
      rfl
  | callMorestack frame doesNotThrow =>
      simp only [effect] at heff
      split at heff <;> cases heff <;> rfl
  | readSp n | loadBound n | subFrame n frame | cmpUge n | br dest =>
      cases heff
      rfl

end Function

/-! ## Calls -/

section Calls

variable {x : Interpretation V M} {funcs : ℕ → Func Instruction} {code : ℕ → Func Code}
  {R : ℕ → Config V (World M) → Config V (World M) → Prop}
  {a a' : Call V M} {t t' u u' : CallStack V M} {m : Move V}

/-- `R` tells it of all functions. -/
abbrev Tracks (funcs : ℕ → Func Instruction) (code : ℕ → Func Code)
    (R : ℕ → Config V (World M) → Config V (World M) → Prop) : Prop :=
  ∀ g, Track (sourceCode funcs g) (code g) (R g)

/-- The two versions of one call. -/
structure Call.Tracked (R : ℕ → Config V (World M) → Config V (World M) → Prop)
    (a a' : Call V M) : Prop where
  func : a'.func = a.func
  other : a'.other = a.other
  base : a'.base = a.base
  config : R a.func a.config a'.config

/-- Both have called something. -/
structure Call.Paired (R : ℕ → Config V (World M) → Config V (World M) → Prop)
    (a a' : Call V M) : Prop where
  tracked : a.Tracked R a'
  calls : ∃ i rest', a'.config.rest = .ir i :: rest'

/-- The two versions of a thread. -/
structure CallStack.Tracked (R : ℕ → Config V (World M) → Config V (World M) → Prop)
    (t t' : CallStack V M) : Prop where
  top : t.top.Tracked R t'.top
  callers : List.Forall₂ (Call.Paired R) t.callers t'.callers

/-- Both are in front of an instruction of the source, or the function is left. -/
def Call.Settled (a' : Call V M) : Prop :=
  a'.config.rest = [] ∨ ∃ i rest', a'.config.rest = .ir i :: rest'

theorem Call.Tracked.same (hR : Tracks funcs code R) (h : a.Tracked R a') :
    a.Same a' :=
  ⟨h.func, h.other, h.base, (hR a.func).world h.config, (hR a.func).env h.config⟩

theorem CallStack.Tracked.same (hR : Tracks funcs code R)
    (h : t.Tracked R t') : t.Same t' where
  top := h.top.same hR
  callers := h.callers.imp fun _ _ hp => hp.tracked.same hR
  next _ _ := (hR t.top.func).same h.top.config
  ended := (hR t.top.func).ended h.top.config

/-- The values are the same, so is what the instruction in front of both asks for. -/
theorem Call.Same.requests (h : a.Same a') {i : Instruction} {rest rest' : List Code}
    (hi : a.config.rest = .ir i :: rest) (hi' : a'.config.rest = .ir i :: rest') :
    a'.callee? x = a.callee? x ∧ a'.atTerm = a.atTerm ∧ a'.returns x = a.returns x := by
  obtain ⟨f, o, b, ⟨⟨w, env, ss⟩, cur, todo⟩⟩ := a
  obtain ⟨f', o', b', ⟨⟨w', env', ss'⟩, cur', todo'⟩⟩ := a'
  obtain ⟨hf, ho, hb, hw, he⟩ := h
  cases hf
  cases ho
  cases hw
  cases he
  cases hi
  cases hi'
  cases i <;> exact ⟨rfl, rfl, rfl⟩

variable (x) in
theorem Call.Tracked.requests (hR : Tracks funcs code R)
    (h : a.Tracked R a') (hset : a'.Settled) :
    a'.callee? x = a.callee? x ∧ a'.atTerm = a.atTerm ∧ a'.returns x = a.returns x := by
  rcases hset with hnil | ⟨i, rest', hi'⟩
  · have hnil' := ((hR a.func).ended h.config).mp hnil
    unfold Call.callee? Call.atTerm Call.returns
    rw [hnil, hnil']
    exact ⟨rfl, rfl, rfl⟩
  · obtain ⟨rest, hi⟩ := (hR a.func).same h.config hi'
    exact (h.same hR).requests hi hi'

theorem rel_map {α β γ δ : Type} {P : α → β → Prop} {Q : γ → δ → Prop} {f : α → γ} {g : β → δ}
    {o : Option α} {o' : Option β} (h : Option.Rel P o o') (hf : ∀ a b, P a b → Q (f a) (g b)) :
    Option.Rel Q (o.map f) (o'.map g) := by
  cases h with
  | none => exact .none
  | some h => exact .some (hf _ _ h)

/-- Both are called. -/
theorem tracked_enter (hR : Tracks funcs code R) (g : ℕ) (other : ℕ → V) (w : World M) :
    Call.Tracked R (x.enter (sourceCode funcs) g other w) (x.enter code g other w) :=
  ⟨rfl, rfl, rfl, (hR g).start _⟩

/-- What both have called is over. -/
theorem tracked_resume (hR : Tracks funcs code R) (h : a.Paired R a') (k : ℕ) (v : V)
    (mem : M) :
    Option.Rel (Call.Tracked R) (a.resume x (sourceCode funcs) k v mem)
      (a'.resume x code k v mem) := by
  have hsame := h.tracked.same hR
  have hsem : a'.answered x k v mem = a.answered x k v mem := by
    unfold Call.answered Call.sem Call.sp
    rw [hsame.func, hsame.other, hsame.world]
  unfold Call.resume
  rw [hsem, hsame.func]
  refine rel_map ((hR a.func).settled_step h.tracked.config (Or.inr h.calls) _) fun r r' hr => ?_
  exact ⟨rfl, hsame.other, hsame.base, hr⟩

variable (x) in
/-- **A move of both**, where the instrumented function has nothing inserted in front of it. -/
theorem tracked_move (hR : Tracks funcs code R) (h : t.Tracked R t') (hset : t'.top.Settled)
    (m : Move V) :
    Option.Rel (CallStack.Tracked R) (CallStack.step x (sourceCode funcs) t m)
      (CallStack.step x code t' m) := by
  have hsame := h.top.same hR
  obtain ⟨hcallee, -, hreturns⟩ := h.top.requests x hR hset
  have hmem : t'.top.mem = t.top.mem := by
    unfold Call.mem
    rw [hsame.world]
  cases m with
  | run =>
      have hsem : t'.top.sem x = t.top.sem x := by
        unfold Call.sem
        rw [hsame.func, hsame.other]
      simp only [CallStack.step]
      rw [hcallee, hsem, hsame.func]
      by_cases hnone : (t.top.callee? x).isNone
      · rw [if_pos hnone, if_pos hnone]
        refine rel_map ((hR t.top.func).settled_step h.top.config hset _) fun r r' hr => ?_
        exact ⟨⟨rfl, hsame.other, hsame.base, hr⟩, h.callers⟩
      · rw [if_neg hnone, if_neg hnone]
        exact .none
  | call =>
      simp only [CallStack.step]
      rw [hcallee, hsame.world]
      cases hg : t.top.callee? x with
      | none => exact .none
      | some g =>
          obtain ⟨i, rest', hi, -⟩ := Call.calls (hcallee.trans hg)
          exact .some ⟨tracked_enter hR g.1 g.2 _, .cons ⟨h.top, i, rest', hi⟩ h.callers⟩
  | ret v =>
      simp only [CallStack.step]
      rw [hreturns, hmem]
      have hcallers := h.callers
      generalize t.callers = callers at hcallers
      generalize t'.callers = callers' at hcallers
      cases hcallers with
      | nil => exact .none
      | cons hcaller hrest =>
          dsimp only
          by_cases hret : t.top.returns x = true
          · rw [if_pos hret, if_pos hret]
            exact rel_map (tracked_resume hR hcaller 0 v t.top.mem) fun b b' hb => ⟨hb, hrest⟩
          · rw [if_neg hret, if_neg hret]
            exact .none
  | unwind calls v =>
      simp only [CallStack.step]
      have hended := (hR t.top.func).ended h.top.config
      have hempty : t'.top.config.rest.isEmpty = t.top.config.rest.isEmpty := by
        rw [Bool.eq_iff_iff, List.isEmpty_iff, List.isEmpty_iff]
        exact hended
      rw [hempty, hmem]
      have hcallers := List.forall₂_drop calls h.callers
      generalize t.callers.drop calls = callers at hcallers
      generalize t'.callers.drop calls = callers' at hcallers
      cases hcallers with
      | nil => exact .none
      | @cons caller caller' _ _ hcaller hrest =>
          obtain ⟨-, hterm, -⟩ := hcaller.tracked.requests x hR (Or.inr hcaller.calls)
          dsimp only
          rw [hterm]
          by_cases hcatch : t.top.config.rest.isEmpty = true ∧ caller.atTerm = true
          · rw [if_pos hcatch, if_pos hcatch]
            exact rel_map (tracked_resume hR hcaller 1 v t.top.mem) fun b b' hb => ⟨hb, hrest⟩
          · rw [if_neg hcatch, if_neg hcatch]
            exact .none

/-- In front of the pass there is nothing but the source. -/
theorem source_ir {W : Type} {g : ℕ} {c : Config V W} (h : Located (sourceCode funcs g) c)
    {j : Code} {rest : List Code} (hj : c.rest = j :: rest) : ∃ i, j = .ir i := by
  obtain ⟨b, hb, -, -, hmem⟩ := h.inst hj
  obtain ⟨b₀, -, rfl⟩ := List.mem_map.mp hb
  obtain ⟨i, -, rfl⟩ := List.mem_map.mp hmem
  exact ⟨i, rfl⟩

/-- What was inserted calls nothing and returns from nothing. -/
theorem Call.requests_of_not_ir {j : Code} {rest : List Code} (hj : a.config.rest = j :: rest)
    (hir : j.isIr = false) : a.callee? x = none ∧ a.returns x = false := by
  unfold Call.callee? Call.returns
  rw [hj]
  cases j with
  | ir i => cases hir
  | _ => exact ⟨rfl, rfl⟩

/-- So it is run. -/
theorem run_of_not_ir {j : Code} {rest : List Code} (hj : t.top.config.rest = j :: rest)
    (hir : j.isIr = false) (hs : CallStack.step x code t m = some u) : m = .run := by
  obtain ⟨hcallee, hreturns⟩ := Call.requests_of_not_ir (x := x) hj hir
  cases m with
  | run => rfl
  | call =>
      simp only [CallStack.step, hcallee] at hs
      cases hs
  | ret v =>
      simp only [CallStack.step, hreturns] at hs
      split at hs <;> cases hs
  | unwind calls v =>
      simp only [CallStack.step, hj] at hs
      split at hs
      · cases hs
      · rw [if_neg (by simp)] at hs
        cases hs

theorem passes_of_not_fails (h : a.checkFails = false) (n : Label) (pass fail : Label)
    (rest : List Code) (hrest : a.config.rest = .condBr n pass fail :: rest) :
    (a.config.st.ss n).ok = true := by
  unfold Call.checkFails at h
  rw [hrest] at h
  simpa using h

/-- What the compiled program does, the program does, or it waits. -/
theorem tracked_sound (hR : Tracks funcs code R) (h : t.Tracked R t')
    (hs : CallStack.step x code t' m = some u') (hpass : t'.top.checkFails = false) :
    (m = .run ∧ t.Tracked R u')
      ∨ ∃ u, CallStack.step x (sourceCode funcs) t m = some u ∧ u.Tracked R u' := by
  have hmove : t'.top.Settled →
      ∃ u, CallStack.step x (sourceCode funcs) t m = some u ∧ u.Tracked R u' := by
    intro hset
    have hrel := tracked_move x hR h hset m
    rw [hs] at hrel
    generalize CallStack.step x (sourceCode funcs) t m = o at hrel
    cases hrel with
    | some hu => exact ⟨_, rfl, hu⟩
  cases hj : t'.top.config.rest with
  | nil => exact Or.inr (hmove (Or.inl hj))
  | cons j rest' =>
      cases hir : j.isIr with
      | true =>
          cases j with
          | ir i => exact Or.inr (hmove (Or.inr ⟨i, rest', hj⟩))
          | _ => cases hir
      | false =>
          obtain rfl := run_of_not_ir hj hir hs
          refine Or.inl ⟨rfl, ?_⟩
          -- an instruction of the source is in front of the program, since it has not left
          obtain ⟨k, rest, hk⟩ : ∃ k rest, t.top.config.rest = k :: rest := by
            refine List.exists_cons_of_ne_nil fun hnil => ?_
            rw [((hR t.top.func).ended h.top.config).mpr hnil] at hj
            cases hj
          obtain ⟨i, rfl⟩ := source_ir ((hR t.top.func).located h.top.config) hk
          obtain ⟨-, hmap⟩ := Option.ite_none_right_eq_some.mp hs
          obtain ⟨⟨es, c'⟩, hstep, rfl⟩ := Option.map_eq_some_iff.mp hmap
          rw [h.top.func] at hstep
          obtain ⟨-, hc'⟩ := (hR t.top.func).waits h.top.config hk hj hir hstep
            (calm_of_passes (passes_of_not_fails hpass) hstep)
          exact ⟨⟨h.top.func, h.top.other, h.top.base, hc'⟩, h.callers⟩

/-- Otherwise it is at an inserted instruction. -/
theorem Call.not_settled (h : ¬ a'.Settled) :
    ∃ j rest', a'.config.rest = j :: rest' ∧ j.isIr = false := by
  cases hj : a'.config.rest with
  | nil => exact absurd (Or.inl hj) h
  | cons j rest' =>
      cases j with
      | ir i => exact absurd (Or.inr ⟨i, rest', hj⟩) h
      | _ => exact ⟨_, rest', rfl, rfl⟩

/-- In front of an instruction of the source the compiled program gets there, or a check fails. -/
theorem tracked_settles (hR : Tracks funcs code R) (h : t.Tracked R t')
    {i : Instruction} {rest : List Code} (hi : t.top.config.rest = .ir i :: rest)
    (hphi : (Code.ir i).isPhi = false) :
    ∃ k u', exec (CallStack.step x code) t' (List.replicate k .run) = some u' ∧ t.Tracked R u'
      ∧ (u'.top.checkFails = true ∨ u'.top.Settled) := by
  have hcatch := (hR t.top.func).catches (t.top.sem x).stopped h.top.config
  generalize hc' : t'.top.config = c' at hcatch
  induction hcatch generalizing t' with
  | @silent c' c₁' es hs hcalm hsees hR₁ _ ih =>
      by_cases hset : t'.top.Settled
      · exact ⟨0, t', rfl, h, Or.inr hset⟩
      obtain ⟨j, rest', hj, hir⟩ := Call.not_settled hset
      obtain ⟨hcallee, -⟩ := Call.requests_of_not_ir (x := x) hj hir
      have hsem : t'.top.sem x = t.top.sem x := by
        unfold Call.sem
        rw [h.top.func, h.top.other]
      have hrun : CallStack.step x code t' .run
          = some { t' with top := { t'.top with config := c₁' } } := by
        rw [hc'] at hj
        simp only [CallStack.step]
        rw [hcallee, if_pos (by rfl), hsem, hc', h.top.func, ← step_stopped hj hir, hs]
        rfl
      have hnext : CallStack.Tracked R t { t' with top := { t'.top with config := c₁' } } :=
        ⟨⟨h.top.func, h.top.other, h.top.base, hR₁⟩, h.callers⟩
      obtain ⟨k, u', hk, hu', hend⟩ := ih hnext rfl
      refine ⟨k + 1, u', ?_, hu', hend⟩
      rw [List.replicate_succ, exec_cons, hrun]
      exact hk
  | both hs₁ hs₂ _ hcalm₂ hsees _ =>
      by_cases hset : t'.top.Settled
      · exact ⟨0, t', rfl, h, Or.inr hset⟩
      -- the program does not move before the compiled one is there
      obtain ⟨j, rest', hj, hir⟩ := Call.not_settled hset
      rw [← hc'] at hs₂
      obtain ⟨hnone, -⟩ := (hR t.top.func).waits h.top.config hi hj hir hs₂ hcalm₂
      exact absurd (hsees.trans hnone) (sees_ne_nil hi hs₁)
  | stop hs _ =>
      have hsome : (SplitStack.step (sourceCode funcs t.top.func) (t.top.sem x).stopped
          t.top.config).isSome := step_stopped_isSome hi hphi
      rw [hs] at hsome
      cases hsome
  | alarm hs halarm =>
      refine ⟨0, t', rfl, h, Or.inl ?_⟩
      by_contra hno
      refine halarm (calm_of_passes (fun n pass fail rest hrest => ?_) hs)
      rw [← hc'] at hrest ⊢
      exact passes_of_not_fails (Bool.eq_false_iff.mpr hno) n pass fail rest hrest

/-- A PHI is not run on its own. -/
theorem not_phi_of_step {i : Instruction} {rest : List Code}
    (hi : t.top.config.rest = .ir i :: rest)
    (hs : CallStack.step x (sourceCode funcs) t m = some u) : (Code.ir i).isPhi = false := by
  cases i with
  | phi id incoming =>
      have hcallee : t.top.callee? x = none := by
        unfold Call.callee?
        rw [hi]
      have hreturns : t.top.returns x = false := by
        unfold Call.returns
        rw [hi]
      exfalso
      cases m with
      | run =>
          obtain ⟨-, hmap⟩ := Option.ite_none_right_eq_some.mp hs
          obtain ⟨r, hstep, -⟩ := Option.map_eq_some_iff.mp hmap
          unfold SplitStack.step at hstep
          rw [hi] at hstep
          cases hstep
      | call =>
          obtain ⟨g, hg, -⟩ := Option.map_eq_some_iff.mp hs
          rw [hcallee] at hg
          cases hg
      | ret v =>
          simp only [CallStack.step, hreturns] at hs
          split at hs <;> cases hs
      | unwind calls v =>
          simp only [CallStack.step, hi] at hs
          split at hs
          · cases hs
          · rw [if_neg (by simp)] at hs
            cases hs
  | _ => rfl

/-- What the program does, the compiled program does, unless a check fails first. -/
theorem tracked_complete (hR : Tracks funcs code R) (h : t.Tracked R t')
    (hs : CallStack.step x (sourceCode funcs) t m = some u) :
    ∃ k u', exec (CallStack.step x code) t' (List.replicate k .run) = some u'
      ∧ ((t.Tracked R u' ∧ u'.top.checkFails = true)
        ∨ ∃ v', CallStack.step x code u' m = some v' ∧ u.Tracked R v') := by
  have hsettled : ∃ k u', exec (CallStack.step x code) t' (List.replicate k .run) = some u'
      ∧ t.Tracked R u'
      ∧ (u'.top.checkFails = true ∨ u'.top.Settled) := by
    cases hj : t.top.config.rest with
    | nil => exact ⟨0, t', rfl, h, Or.inr (Or.inl (((hR t.top.func).ended h.top.config).mpr hj))⟩
    | cons j rest =>
        obtain ⟨i, rfl⟩ := source_ir ((hR t.top.func).located h.top.config) hj
        exact tracked_settles hR h hj (not_phi_of_step hj hs)
  obtain ⟨k, u', hk, hu', hfails | hset⟩ := hsettled
  · exact ⟨k, u', hk, Or.inl ⟨hu', hfails⟩⟩
  · refine ⟨k, u', hk, Or.inr ?_⟩
    have hrel := tracked_move x hR hu' hset m
    rw [hs] at hrel
    generalize CallStack.step x code u' m = o at hrel
    cases hrel with
    | some hv => exact ⟨_, rfl, hv⟩

/-! ## Runs -/

theorem Padded.cons {ms ms' : List (Move V)} (h : Padded ms ms') (m : Move V) :
    Padded (m :: ms) (m :: ms') := by
  refine ⟨h.sublist.cons_cons m, ?_⟩
  rw [List.filter_cons, List.filter_cons, h.crosses]

theorem Padded.runs {ms ms' : List (Move V)} (h : Padded ms ms') (k : ℕ) :
    Padded ms (List.replicate k .run ++ ms') := by
  induction k with
  | zero => exact h
  | succ k ih =>
      rw [List.replicate_succ, List.cons_append]
      refine ⟨ih.sublist.cons _, ?_⟩
      rw [List.filter_cons_of_neg (by simp [Move.crosses])]
      exact ih.crosses

theorem padded_nil : Padded ([] : List (Move V)) [] := ⟨.slnil, rfl⟩

/-- **Soundness.** By induction on the run of the compiled program. -/
theorem tracked_sound_run (hR : Tracks funcs code R) {ms : List (Move V)}
    (h : t.Tracked R t') (hs : exec (CallStack.step x code) t' ms = some u')
    (hpass : TakesAll (CallStack.step x code) (fun t _ => t.top.checkFails = false) t' ms) :
    ∃ ms₀ u, Padded ms₀ ms ∧ exec (CallStack.step x (sourceCode funcs)) t ms₀ = some u
      ∧ u.Tracked R u' := by
  induction ms generalizing t t' with
  | nil =>
      cases hs
      exact ⟨[], t, padded_nil, rfl, h⟩
  | cons m ms ih =>
      obtain ⟨v', hv', hrest⟩ := Option.bind_eq_some_iff.mp hs
      obtain ⟨hno, hpass⟩ := hpass
      rcases tracked_sound hR h hv' hno with ⟨rfl, hwait⟩ | ⟨v, hv, hmove⟩
      · obtain ⟨ms₀, u, hpad, hrun, hu⟩ := ih hwait hrest (hpass v' hv')
        exact ⟨ms₀, u, hpad.runs 1, hrun, hu⟩
      · obtain ⟨ms₀, u, hpad, hrun, hu⟩ := ih hmove hrest (hpass v' hv')
        refine ⟨m :: ms₀, u, hpad.cons m, ?_, hu⟩
        rw [exec_cons, hv]
        exact hrun

/-- **Completeness.** By induction on the run of the program. -/
theorem tracked_complete_run (hR : Tracks funcs code R) {ms : List (Move V)}
    (h : t.Tracked R t') (hs : exec (CallStack.step x (sourceCode funcs)) t ms = some u) :
    ∃ ms₀ u₀ ms' u', ms₀ <+: ms ∧ exec (CallStack.step x (sourceCode funcs)) t ms₀ = some u₀
      ∧ exec (CallStack.step x code) t' ms' = some u'
      ∧ Padded ms₀ ms' ∧ u₀.Tracked R u' ∧ (ms₀ = ms ∨ u'.top.checkFails = true) := by
  induction ms generalizing t t' with
  | nil => exact ⟨[], t, [], t', List.prefix_refl _, rfl, rfl, padded_nil, h, Or.inl rfl⟩
  | cons m ms ih =>
      obtain ⟨v, hv, hrest⟩ := Option.bind_eq_some_iff.mp hs
      obtain ⟨k, w', hk, ⟨hw', hfails⟩ | ⟨v', hv', hmove⟩⟩ := tracked_complete hR h hv
      · refine ⟨[], t, _, w', List.nil_prefix, rfl, hk, ?_, hw', Or.inr hfails⟩
        rw [← List.append_nil (List.replicate k Move.run)]
        exact padded_nil.runs k
      · obtain ⟨ms₀, u₀, ms', u', hpre, hrun, hrun', hpad, hu, hend⟩ := ih hmove hrest
        refine ⟨m :: ms₀, u₀, List.replicate k .run ++ m :: ms', u',
          List.cons_prefix_cons.mpr ⟨rfl, hpre⟩, ?_, ?_, (hpad.cons m).runs k, hu, ?_⟩
        · rw [exec_cons, hv]
          exact hrun
        · rw [exec_append, hk, Option.bind_some, exec_cons, hv']
          exact hrun'
        · exact hend.imp_left (congrArg (m :: ·))

/-- Every program that has been through the pass. -/
theorem exists_tracks (V M : Type) (clExtraPad : BitVec 32) {funcs : ℕ → Func Instruction}
    (hF : ∀ g, (funcs g).code.WellFormed) :
    ∃ R : ℕ → Config V (World M) → Config V (World M) → Prop,
      Tracks funcs (SplitStackPass.run clExtraPad funcs) R := by
  have htrack : ∀ g, ∃ R : Config V (World M) → Config V (World M) → Prop,
      Track (sourceCode funcs g) (SplitStackPass.run clExtraPad funcs g) R := fun g =>
    instrumentFunction_track V (World M) clExtraPad (hF g)
  choose R hR using htrack
  exact ⟨R, hR⟩

variable (x) in
theorem tracked_launch (hR : Tracks funcs code R) (g : ℕ) (other : ℕ → V) (w : World M) :
    (x.launch (sourceCode funcs) g other w).Tracked R (x.launch code g other w) :=
  ⟨tracked_enter hR g other w, .nil⟩

end Calls

/-- **A compiled program does what the program does.** Take any program, before the pass and behind
it, from the call of the same function in the same world. A run of the compiled program in which no
check fails is a run of the program, with the same calls, returns and unwindings, in the same
functions with the same values and the same memory. And whatever the program does, the compiled
program does it too, up to the first check that fails. -/
theorem compiled_program_preserved (x : Interpretation V M) (clExtraPad : BitVec 32)
    (funcs : ℕ → Func Instruction) (hF : ∀ g, (funcs g).code.WellFormed) (g : ℕ) (other : ℕ → V)
    (w : World M) :
    (∀ ms t', x.execute (SplitStackPass.run clExtraPad funcs) g other w ms = some t' →
      TakesAll (CallStack.step x (SplitStackPass.run clExtraPad funcs))
        (fun t _ => t.top.checkFails = false)
        (x.launch (SplitStackPass.run clExtraPad funcs) g other w) ms →
      ∃ ms₀ t, Padded ms₀ ms ∧ x.execute (sourceCode funcs) g other w ms₀ = some t ∧ t.Same t')
    ∧ ∀ ms t, x.execute (sourceCode funcs) g other w ms = some t →
      ∃ ms₀ t₀ ms' t', ms₀ <+: ms
        ∧ x.execute (sourceCode funcs) g other w ms₀ = some t₀
        ∧ x.execute (SplitStackPass.run clExtraPad funcs) g other w ms' = some t'
        ∧ Padded ms₀ ms' ∧ t₀.Same t' ∧ (ms₀ = ms ∨ t'.top.checkFails = true) := by
  obtain ⟨R, hR⟩ := exists_tracks V M clExtraPad hF
  have hstart := tracked_launch x hR g other w
  constructor
  · intro ms t' hs hpass
    obtain ⟨ms₀, t, hpad, hrun, ht⟩ := tracked_sound_run hR hstart hs hpass
    exact ⟨ms₀, t, hpad, hrun, ht.same hR⟩
  · intro ms t hs
    obtain ⟨ms₀, t₀, ms', t', hpre, hrun, hrun', hpad, ht, hend⟩ :=
      tracked_complete_run hR hstart hs
    exact ⟨ms₀, t₀, ms', t', hpre, hrun, hrun', hpad, ht.same hR, hend⟩

/-- Two calls of a function that recurses, with their checks and without. -/
theorem compiled_program_preserved_recurse :
    ∃ ms₀ t t', Interpretation.execute recurseProgram (SplitStackPass.run 0 recurseProgram.funcs) 0
        id ⟨4192, ()⟩ recurseRun = some t'
      ∧ Interpretation.execute recurseProgram (sourceCode recurseProgram.funcs) 0 id ⟨4192, ()⟩ ms₀
        = some t
      ∧ Padded ms₀ recurseRun ∧ t.Same t' := by
  have hlast : (Interpretation.execute recurseProgram (SplitStackPass.run 0 recurseProgram.funcs) 0
      id ⟨4192, ()⟩ recurseRun).isSome := by decide +kernel
  obtain ⟨t', hrun⟩ := Option.isSome_iff_exists.mp hlast
  have hpass : TakesAll
      (CallStack.step recurseProgram (SplitStackPass.run 0 recurseProgram.funcs))
      (fun t _ => t.top.checkFails = false)
      (Interpretation.launch recurseProgram (SplitStackPass.run 0 recurseProgram.funcs) 0 id
        ⟨4192, ()⟩) recurseRun := by decide +kernel
  have hsound := (compiled_program_preserved recurseProgram 0 recurseProgram.funcs
    recurseProgram.wellFormed 0 id ⟨4192, ()⟩).1 recurseRun t'
  obtain ⟨ms₀, t, hpad, hsource, hsame⟩ := hsound hrun hpass
  exact ⟨ms₀, t, t', hrun, hsource, hpad, hsame⟩

end Hopter.SplitStack
