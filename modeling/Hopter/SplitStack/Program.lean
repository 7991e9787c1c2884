import Hopter.Lib.Run
import Hopter.SplitStack.Stack

/-!
# Compiled programs

The functions of a program, as the pass leaves them, at work on one stack: they call
each other, to any depth, by calls and by invokes, return, and are unwound. The
prologue of a function runs before the check at its start. What the IR says of an
instruction is a parameter, and so is how far the backend moves SP for it; a check
compares SP and the bound.

`Roomy` says of one call what the checks are there for: when it is covered, a frame
fits between SP and the bound. An instruction of the source runs only then.
-/

namespace Hopter.SplitStack

open Conc

/-! ## In one call -/

section Function

variable {V W : Type} {F : Func Code} {frame : BitVec 64} {sem sem' : Semantics V W}

/-- A frame fits between SP and the bound. -/
def Room (frame : BitVec 64) (sem : Semantics V W) (w : W) : Prop :=
  (sem.bound w).toNat + frame.toNat ≤ (sem.sp w).toNat

/-- A call that is covered, and not over, has room. -/
def Roomy (F : Func Code) (frame : BitVec 64) (sem : Semantics V W) (c : Config V W) : Prop :=
  ∃ es, Covers F frame sem es c ∧ (Since (Event.lowersStack F) Event.covers es → c.rest ≠ [] →
    Room frame sem c.st.world)

/-- Only what a check reads matters. -/
theorem Covers.congr {es : List (Event V)} {c c' : Config V W} (h : Covers F frame sem es c)
    (hcur : c'.cur = c.cur) (hrest : c'.rest = c.rest) (hss : c'.st.ss = c.st.ss)
    (hsp : sem'.sp c'.st.world = sem.sp c.st.world)
    (hbound : sem'.bound c'.st.world = sem.bound c.st.world) : Covers F frame sem' es c' := by
  obtain ⟨hloc, hguard, covered, hat, hsince⟩ := h
  obtain ⟨b, hb, hlabel, hsuf⟩ := hloc
  refine ⟨⟨b, hb, hlabel.trans hcur.symm, hrest ▸ hsuf⟩, hguard, covered, ?_, hsince⟩
  rw [hrest]
  generalize c.st = st at hat hss hsp hbound
  generalize c.rest = rest at hat
  cases hat with
  | body hmid htail => exact .body hmid htail
  | check hk hmore hread =>
      refine .check hk hmore ⟨?_, ?_, ?_, ?_⟩
      · rw [hss, hsp]
        exact hread.sp
      · rw [hss, hbound]
        exact hread.bound
      · rw [hss, hsp]
        exact hread.need
      · rw [hss, hsp, hbound]
        exact hread.ok
  | more cont more => exact .more cont more
  | ended => exact .ended

theorem Roomy.congr {c c' : Config V W} (h : Roomy F frame sem c) (hcur : c'.cur = c.cur)
    (hrest : c'.rest = c.rest) (hss : c'.st.ss = c.st.ss)
    (hsp : sem'.sp c'.st.world = sem.sp c.st.world)
    (hbound : sem'.bound c'.st.world = sem.bound c.st.world) : Roomy F frame sem' c' := by
  obtain ⟨es, hcovers, hroom⟩ := h
  refine ⟨es, hcovers.congr hcur hrest hss hsp hbound, fun hes hne => ?_⟩
  unfold Room
  rw [hsp, hbound]
  exact hroom hes (hrest ▸ hne)

/-- In front of an instruction of the source a call is covered. -/
theorem Roomy.room {c : Config V W} (h : Roomy F frame sem c) {i : Instruction} {rest : List Code}
    (hrest : c.rest = .ir i :: rest) : Room frame sem c.st.world := by
  obtain ⟨es, ⟨-, -, covered, hat, hsince⟩, hroom⟩ := h
  have hcovered : covered = true := by
    rw [hrest] at hat
    generalize htodo : Code.ir i :: rest = todo at hat
    cases hat with
    | body hmid htail => rfl
    | @check covered cont more k hk hmore hread =>
        have hmem : Code.ir i ∈ checkCode frame cont more := by
          refine List.mem_of_mem_drop (i := k) ?_
          rw [← htodo]
          exact List.mem_cons_self
        have hcheck := checkCode_check frame cont more _ hmem
        cases hcheck
    | more cont more => cases htodo
    | ended => cases htodo
  refine hroom (hsince hcovered) ?_
  rw [hrest]
  exact List.cons_ne_nil _ _

theorem covers_of_source {e : Event V} (h : e.isSource = true) : e.covers = false := by
  cases e with
  | exec id args => rfl
  | branch id args taken => rfl
  | ss i => cases h
  | check name passed => cases h

/-- A check passed, or the call is over. -/
theorem effect_covers {st : State V W} {i : Code} {e : Event V} {st' : State V W} {flow : Flow}
    (hmorestack : ∀ frame w, sem.morestack frame w = none)
    (h : effect sem st i = some (e, st', flow)) (he : e.covers = true) :
    (∃ name, e = .check name true) ∨ flow = .leave := by
  cases i with
  | ir i =>
      rw [covers_of_source (effect_source h)] at he
      cases he
  | condBr n pass fail =>
      cases h
      replace he : (st.ss n).ok = true := he
      exact Or.inl ⟨n, by rw [he]⟩
  | callMorestack f doesNotThrow =>
      simp only [effect, hmorestack] at h
      cases h
      exact Or.inr rfl
  | readSp n | loadBound n | subFrame n f | cmpUge n | br dest =>
      cases h
      cases he

theorem effect_lowers (hF : F.WellFormed) {b : BasicBlock Code} (hb : b ∈ F.blocks) {i : Code}
    (hi : i ∈ b.insts) {ai : ValueId} (hai : i.allocaId? = some ai) {st : State V W}
    {done : Event V × State V W × Flow} (h : effect sem st i = some done) :
    done.1.lowersStack F = true := by
  have hmem : decide (ai ∈ F.allocaIds) = true :=
    decide_eq_true ((mem_allocaIds_iff hF hb hi (Code.id?_of_alloca hai)).mpr hai)
  rcases i with (_ | _ | ⟨id, constSize, inAlloca, args⟩ | _ | _) | _ | _ | _ | _ | _ | _ | _
  case ir.alloca =>
    cases hai
    cases h
    unfold runOp
    split <;> exact hmem
  all_goals cases hai

/-- **One step** of a call whose instructions do not lower SP, but for the allocas. -/
theorem roomy_step (h : Shaped frame False [] F) (hF : F.WellFormed)
    (hmorestack : ∀ frame w, sem.morestack frame w = none) {es' : List (Event V)}
    {c c' : Config V W} (hc : Roomy F frame sem c) (hs : step F sem c = some (es', c'))
    (hfit : frame ≤ sem.sp c.st.world) (hbound : sem.bound c'.st.world = sem.bound c.st.world)
    (hsp : c.rest.head?.bind Code.allocaId? = none →
      sem.sp c.st.world ≤ sem.sp c'.st.world) : Roomy F frame sem c' := by
  obtain ⟨es, hcovers, hroom⟩ := hc
  obtain ⟨hcovers', htrue⟩ := covers_step h hF hcovers hs
  refine ⟨es ++ es', hcovers', fun hsince hrest => ?_⟩
  obtain ⟨i, rest, ⟨e, st', flow⟩, hi, heff, hflow⟩ := step_eq_some hs
  obtain ⟨moves, rfl, hmoves⟩ := follow_events hflow
  rw [List.append_cons] at hsince
  have hsince' := hsince.of_append fun m hm => covers_of_source (hmoves m hm)
  -- an alloca would not be covered
  have hno : i.allocaId? = none := by
    refine Option.eq_none_iff_forall_ne_some.mpr fun ai hai => ?_
    obtain ⟨b, hb, -, -, hmem⟩ := hcovers.located.inst hi
    exact not_since_concat (effect_lowers hF hb hmem hai heff) hsince'
  have hle := BitVec.le_def.mp (hsp (by rw [hi]; exact hno))
  unfold Room
  rw [hbound]
  cases hcov : e.covers with
  | true =>
      rcases effect_covers hmorestack heff hcov with ⟨name, rfl⟩ | rfl
      · have hok := (checkOk_iff hfit).mp (htrue name true List.mem_cons_self).symm
        omega
      · cases hflow
        exact absurd rfl hrest
  | false =>
      have hes := hsince'.of_append fun x hx => List.mem_singleton.mp hx ▸ hcov
      have hroom := hroom hes (by rw [hi]; exact List.cons_ne_nil _ _)
      unfold Room at hroom
      omega

/-- Control does not change the world. -/
theorem follow_world {cur : Label} {rest : List Code} {e : Event V} {st : State V W} {flow : Flow}
    {es : List (Event V)} {c : Config V W}
    (h : follow F sem cur rest (e, st, flow) = some (es, c)) :
    c.st.world = st.world := by
  cases flow with
  | next =>
      cases h
      rfl
  | leave =>
      cases h
      rfl
  | goto dest =>
      simp only [follow, Option.map_eq_some_iff] at h
      obtain ⟨⟨moves, c''⟩, henter, heq⟩ := h
      obtain ⟨b, ms, -, -, -, rfl⟩ := enter_eq_some.mp henter
      cases heq
      rfl

/-- SP goes down with an alloca only, if that is so of the instructions of the source. -/
theorem step_sp (hF : F.WellFormed) (hmorestack : ∀ frame w, sem.morestack frame w = none)
    (hop : ∀ id ∉ F.allocaIds, ∀ vs w v w', sem.op id vs w = some (v, w') → sem.sp w ≤ sem.sp w')
    (hterm : ∀ id vs w k v w', sem.term id vs w = some (k, v, w') → sem.sp w ≤ sem.sp w')
    {c c' : Config V W} {es : List (Event V)} (hloc : Located F c)
    (hs : step F sem c = some (es, c')) (hno : c.rest.head?.bind Code.allocaId? = none) :
    sem.sp c.st.world ≤ sem.sp c'.st.world := by
  obtain ⟨i, rest, ⟨e, st, flow⟩, hrest, heff, hflow⟩ := step_eq_some hs
  obtain ⟨b, hb, -, -, hi⟩ := hloc.inst hrest
  rw [hrest] at hno
  replace hno : i.allocaId? = none := hno
  rw [follow_world hflow]
  have hrun : ∀ {id args}, i.id? = some id → runOp sem c.st id args = (e, st, flow) →
      sem.sp c.st.world ≤ sem.sp st.world := by
    intro id args hid hdone
    have hnot : id ∉ F.allocaIds := by
      rw [mem_allocaIds_iff hF hb hi hid, hno]
      exact fun h => by cases h
    unfold runOp at hdone
    split at hdone
    · rename_i v w hop'
      cases hdone
      exact hop id hnot _ _ _ _ hop'
    · cases hdone
      exact BitVec.le_refl _
  cases i with
  | ir i =>
      cases i with
      | phi id incoming => cases heff
      | ehPad id args => exact hrun rfl (Option.some.inj heff)
      | alloca id constSize inAlloca args => cases hno
      | op id args => exact hrun rfl (Option.some.inj heff)
      | term id args succs =>
          replace heff : runTerm sem c.st id args succs = (e, st, flow) := Option.some.inj heff
          unfold runTerm at heff
          split at heff
          · rename_i k v w hterm'
            split at heff
            · cases heff
              exact hterm id _ _ _ _ _ hterm'
            · cases heff
              exact BitVec.le_refl _
          · cases heff
            exact BitVec.le_refl _
  | callMorestack f doesNotThrow =>
      simp only [effect, hmorestack] at heff
      cases heff
      exact BitVec.le_refl _
  | readSp n | loadBound n | subFrame n f | cmpUge n | condBr n pass fail | br dest =>
      cases heff
      exact BitVec.le_refl _

/-- A function starts with its check. -/
theorem roomy_start (h : Shaped frame False [] F) (hF : F.WellFormed) (st : State V W) :
    Roomy F frame sem (F.start st) :=
  ⟨[], covers_run h hF (.refl _), fun ⟨before, after, heq, _, _, x, hx, _⟩ => by
    rw [(List.append_eq_nil_iff.mp heq.symm).2] at hx
    exact absurd hx List.not_mem_nil⟩

end Function

/-! ## Calls on top of each other -/

/-- SP, and everything else. -/
structure World (M : Type) where
  sp : BitVec 64
  mem : M

/-- What the calls and the instructions of a program do, whoever has compiled it. -/
structure Interpretation (V M : Type) where
  /-- `__hopter_stklet_bound` -/
  bound : BitVec 64
  /-- What a prologue subtracts from SP. -/
  prologue : ℕ → BitVec 64
  /-- The function of the program that an instruction calls, if it calls one. -/
  callee : ℕ → ValueId → List V → M → Option ℕ
  /-- The arguments and constants in a function that was called with these values. -/
  other : ℕ → List V → M → ℕ → V
  op : ℕ → ValueId → List V → World M → Option (V × World M)
  term : ℕ → ValueId → List V → World M → Option (ℕ × V × World M)
  poison : V

/-- A program whose functions have all been through the pass. -/
structure Executable (V M : Type) extends Interpretation V M where
  clExtraPad : BitVec 32
  funcs : ℕ → Func Instruction
  wellFormed : ∀ g, (funcs g).code.WellFormed
  /-- The verifier allows no EH pad in an entry block. -/
  noPads : ∀ g, ∀ entry ∈ (funcs g).code.blocks.head?, ∀ i ∈ entry.insts, i.isEhPad = false
  notSkipped : ∀ g, shouldSkip (funcs g) = false
  /-- SP is lowered by allocas only; `llvm.stackrestore` raises it. -/
  op_sp : ∀ g, ∀ id ∉ (funcs g).code.allocaIds, ∀ vs w v w', op g id vs w = some (v, w') →
    w.sp ≤ w'.sp
  term_sp : ∀ g id vs w k v w', term g id vs w = some (k, v, w') → w.sp ≤ w'.sp

variable {V M : Type}

instance : CoeOut (Executable V M) (Interpretation V M) := ⟨Executable.toInterpretation⟩

/-- `__morestack` does not come back. -/
def Interpretation.sem (x : Interpretation V M) (g : ℕ) (other : ℕ → V) :
    Semantics V (World M) where
  other := other
  op := x.op g
  term := x.term g
  sp := World.sp
  bound _ := x.bound
  morestack _ _ := none

namespace Executable

variable (x : Executable V M)

def frame : BitVec 64 := framePad x.clExtraPad

def code (g : ℕ) : Func Code := (instrumentFunction x.clExtraPad (x.funcs g)).1

/-- The same program against another bound. -/
def withBound (bound : BitVec 64) : Executable V M := { x with bound := bound }

theorem code_wellFormed (g : ℕ) : (x.code g).WellFormed :=
  (instrumentFunction_preserved x.clExtraPad (x.wellFormed g) (x.notSkipped g)).wellFormed

theorem code_shaped (g : ℕ) : Shaped x.frame False [] (x.code g) := by
  have hshaped := instrumentFunction_shaped x.clExtraPad (x.wellFormed g) (x.notSkipped g)
  have hnone : (∃ b ∈ (x.funcs g).code.blocks.head?, ∃ i ∈ b.insts, i.isEhPad = true) = False := by
    rw [eq_iff_iff, iff_false]
    rintro ⟨b, hb, i, hi, hpad⟩
    rw [x.noPads g b hb i hi] at hpad
    cases hpad
  rwa [hnone] at hshaped

theorem code_allocaIds (g : ℕ) : (x.code g).allocaIds = (x.funcs g).code.allocaIds :=
  instrumentFunction_gather x.clExtraPad (x.wellFormed g) Code.allocaId?_replaceIncoming
    fun _ hi => Option.map_eq_none_iff.mpr (Code.alloca?_of_not_ir hi)

end Executable

/-- A function that was called and has not returned. -/
structure Call (V M : Type) where
  func : ℕ
  other : ℕ → V
  /-- SP behind the prologue. -/
  base : BitVec 64
  config : Config V (World M)

namespace Call

variable (x : Interpretation V M) (code : ℕ → Func Code) (a : Call V M)

def sp : BitVec 64 := a.config.st.world.sp

def mem : M := a.config.st.world.mem

def sem : Semantics V (World M) := x.sem a.func a.other

/-- What the next instruction calls, and what is passed. -/
def callee? : Option (ℕ × (ℕ → V)) :=
  match a.config.rest with
  | .ir (.op id args) :: _ | .ir (.term id args _) :: _ =>
      let vs := a.config.st.values (a.sem x) args
      (x.callee a.func id vs a.mem).map fun g => (g, x.other g vs a.mem)
  | _ => none

/-- The next instruction is an `invoke`, or another terminator. -/
def atTerm : Bool :=
  match a.config.rest with
  | .ir (.term _ _ _) :: _ => true
  | _ => false

/-- It leaves the function. -/
def returns : Bool :=
  match a.config.rest with
  | .ir (.term id args _) :: _ =>
      (x.callee a.func id (a.config.st.values (a.sem x) args) a.mem).isNone
        && (x.term a.func id (a.config.st.values (a.sem x) args) a.config.st.world).isNone
  | _ => false

/-- What the instruction has called is over, and SP is what it was. An `invoke` goes to its
successor number `k`. -/
def answered (k : ℕ) (v : V) (mem : M) : Semantics V (World M) :=
  { a.sem x with
    op := fun _ _ _ => some (v, ⟨a.sp, mem⟩)
    term := fun _ _ _ => some (k, v, ⟨a.sp, mem⟩) }

def resume (k : ℕ) (v : V) (mem : M) : Option (Call V M) :=
  (SplitStack.step (code a.func) (a.answered x k v mem) a.config).map fun r =>
    { a with config := r.2 }

end Call

/-- The prologue, and the first instruction behind it. -/
def Interpretation.enter (x : Interpretation V M) (code : ℕ → Func Code) (g : ℕ) (other : ℕ → V)
    (w : World M) : Call V M :=
  let sp := w.sp - x.prologue g
  ⟨g, other, sp, (code g).start ⟨⟨sp, w.mem⟩, fun _ => x.poison, fun _ => ⟨0, 0, 0, false⟩⟩⟩

structure CallStack (V M : Type) where
  top : Call V M
  callers : List (Call V M)

inductive Move (V : Type) where
  /-- An instruction that calls nothing. -/
  | run
  | call
  | ret (v : V)
  /-- So many callers are unwound, and the next one catches. -/
  | unwind (calls : ℕ) (v : V)

/-- A thread whose functions are `code` moves. -/
def CallStack.step (x : Interpretation V M) (code : ℕ → Func Code) (t : CallStack V M) :
    Move V → Option (CallStack V M)
  | .run =>
      if (t.top.callee? x).isNone then
        (SplitStack.step (code t.top.func) (t.top.sem x) t.top.config).map fun r =>
          { t with top := { t.top with config := r.2 } }
      else none
  | .call =>
      (t.top.callee? x).map fun g =>
        ⟨x.enter code g.1 g.2 t.top.config.st.world, t.top :: t.callers⟩
  | .ret v =>
      match t.callers with
      | [] => none
      | caller :: callers =>
          if t.top.returns x then (caller.resume x code 0 v t.top.mem).map fun a => ⟨a, callers⟩
          else none
  | .unwind calls v =>
      match t.callers.drop calls with
      | [] => none
      | caller :: callers =>
          if t.top.config.rest.isEmpty ∧ caller.atTerm then
            (caller.resume x code 1 v t.top.mem).map fun a => ⟨a, callers⟩
          else none

/-- The thread calls its first function. -/
def Interpretation.launch (x : Interpretation V M) (code : ℕ → Func Code) (g : ℕ) (other : ℕ → V)
    (w : World M) : CallStack V M := ⟨x.enter code g other w, []⟩

/-- With the functions as the pass leaves them. -/
abbrev Executable.step (x : Executable V M) : CallStack V M → Move V → Option (CallStack V M) :=
  CallStack.step x x.code

namespace CallStack

/-- **Inversion.** -/
theorem step_cases {x : Interpretation V M} {code : ℕ → Func Code} {t t' : CallStack V M}
    {m : Move V} (h : step x code t m = some t') :
    (∃ es c, m = .run
      ∧ SplitStack.step (code t.top.func) (t.top.sem x) t.top.config = some (es, c)
      ∧ t' = { t with top := { t.top with config := c } })
    ∨ (∃ g, m = .call ∧ t.top.callee? x = some g
      ∧ t' = ⟨x.enter code g.1 g.2 t.top.config.st.world, t.top :: t.callers⟩)
    ∨ ∃ caller callers k v a, ((m = .ret v ∧ t.callers = caller :: callers
        ∧ t.top.returns x = true) ∨ ∃ calls, m = .unwind calls v
        ∧ t.callers.drop calls = caller :: callers ∧ t.top.config.rest = [])
      ∧ (caller :: callers) <:+ t.callers ∧ caller.resume x code k v t.top.mem = some a
      ∧ t' = ⟨a, callers⟩ := by
  cases m with
  | run =>
      obtain ⟨-, hmap⟩ := Option.ite_none_right_eq_some.mp h
      obtain ⟨⟨es, c⟩, hs, rfl⟩ := Option.map_eq_some_iff.mp hmap
      exact Or.inl ⟨es, c, rfl, hs, rfl⟩
  | call =>
      obtain ⟨g, hg, rfl⟩ := Option.map_eq_some_iff.mp h
      exact Or.inr (Or.inl ⟨g, rfl, hg, rfl⟩)
  | ret v =>
      simp only [step] at h
      split at h
      · cases h
      · rename_i caller callers hcallers
        obtain ⟨hreturns, hs⟩ := Option.ite_none_right_eq_some.mp h
        obtain ⟨a, ha, rfl⟩ := Option.map_eq_some_iff.mp hs
        refine Or.inr (Or.inr
          ⟨caller, callers, 0, v, a, Or.inl ⟨rfl, hcallers, hreturns⟩, ?_, ha, rfl⟩)
        rw [hcallers]
  | unwind calls v =>
      simp only [step] at h
      split at h
      · cases h
      · rename_i caller callers hcallers
        obtain ⟨⟨hempty, -⟩, hs⟩ := Option.ite_none_right_eq_some.mp h
        obtain ⟨a, ha, rfl⟩ := Option.map_eq_some_iff.mp hs
        refine Or.inr (Or.inr ⟨caller, callers, 1, v, a,
          Or.inr ⟨calls, rfl, hcallers, List.isEmpty_iff.mp hempty⟩, ?_, ha, rfl⟩)
        rw [← hcallers]
        exact List.drop_suffix calls t.callers

variable (x : Executable V M) (t : CallStack V M)

/-- What is assumed of a move: the stack is not that close to the start of memory, and a prologue
lowers SP by no more than a frame. -/
def Assumed : Move V → Prop
  | .run => x.frame ≤ t.top.sp
  | .call => ∀ g ∈ t.top.callee? x, x.prologue g.1 ≤ x.frame
  | .ret _ | .unwind _ _ => True

instance : DecidablePred (t.Assumed x)
  | .run => inferInstanceAs (Decidable (x.frame ≤ t.top.sp))
  | .call => inferInstanceAs (Decidable (∀ g ∈ t.top.callee? x, x.prologue g.1 ≤ x.frame))
  | .ret _ | .unwind _ _ => .isTrue trivial

/-- It leaves SP in the frame of the function that runs then. -/
def InFrame (m : Move V) : Prop := ∀ t' ∈ x.step t m, t'.top.sp ≤ t'.top.base

instance : DecidablePred (t.InFrame x) := fun m =>
  inferInstanceAs (Decidable (∀ t' ∈ x.step t m, t'.top.sp ≤ t'.top.base))

end CallStack

/-! ## The checks keep a window open -/

variable {x : Executable V M} {t t' : CallStack V M} {m : Move V}

/-- A call that waits for another one. -/
def Call.Waiting (x : Executable V M) (a : Call V M) : Prop :=
  Roomy (x.code a.func) x.frame (a.sem x) a.config
    ∧ ∃ i rest, a.config.rest = .ir i :: rest ∧ (Code.ir i).allocaId? = none

theorem Call.Waiting.room {a : Call V M} (h : a.Waiting x) :
    x.bound.toNat + x.frame.toNat ≤ a.sp.toNat := by
  obtain ⟨hroomy, i, rest, hrest, -⟩ := h
  exact hroomy.room hrest

/-- What calls is neither an alloca nor part of a check. -/
theorem Call.calls {x : Interpretation V M} {a : Call V M} {g : ℕ × (ℕ → V)}
    (h : a.callee? x = some g) :
    ∃ i rest, a.config.rest = .ir i :: rest ∧ (Code.ir i).allocaId? = none := by
  unfold Call.callee? at h
  split at h
  · rename_i id args rest hrest
    exact ⟨_, rest, hrest, rfl⟩
  · rename_i id args succs rest hrest
    exact ⟨_, rest, hrest, rfl⟩
  · cases h

/-- When what it called is over, SP is what it was. -/
theorem Call.resume_sp {x : Interpretation V M} {code : ℕ → Func Code} {a a' : Call V M}
    (h : ∃ i rest, a.config.rest = .ir i :: rest ∧ (Code.ir i).allocaId? = none) {k : ℕ} {v : V}
    {mem : M} (hresume : a.resume x code k v mem = some a') :
    a'.base = a.base ∧ a'.sp = a.sp := by
  obtain ⟨i, rest, hrest, hno⟩ := h
  obtain ⟨⟨es, c⟩, hs, rfl⟩ := Option.map_eq_some_iff.mp hresume
  refine ⟨rfl, ?_⟩
  show c.st.world.sp = a.sp
  obtain ⟨i', rest', ⟨e, st, flow⟩, hrest', heff, hflow⟩ := step_eq_some hs
  rw [hrest, List.cons.injEq] at hrest'
  obtain ⟨rfl, -⟩ := hrest'
  rw [follow_world hflow]
  cases i with
  | phi id incoming => cases heff
  | alloca id constSize inAlloca args => cases hno
  | ehPad id args | op id args =>
      cases heff
      rfl
  | term id args succs =>
      replace heff : runTerm _ a.config.st id args succs = (e, st, flow) := Option.some.inj heff
      unfold runTerm at heff
      split at heff
      · rename_i k' v' w' hterm
        cases hterm
        split at heff <;> cases heff <;> rfl
      · cases heff
        rfl

/-- A call starts with its check. -/
theorem Executable.roomy_enter (x : Executable V M) (g : ℕ) (other : ℕ → V) (w : World M) :
    Roomy (x.code g) x.frame (x.sem g other) (x.enter x.code g other w).config :=
  roomy_start (x.code_shaped g) (x.code_wellFormed g) _

/-- An instruction that calls nothing. -/
theorem Call.roomy_run {a : Call V M} (h : Roomy (x.code a.func) x.frame (a.sem x) a.config)
    {es : List (Event V)} {c : Config V (World M)}
    (hs : SplitStack.step (x.code a.func) (a.sem x) a.config = some (es, c))
    (hfit : x.frame ≤ a.sp) : Roomy (x.code a.func) x.frame (a.sem x) c := by
  refine roomy_step (x.code_shaped a.func) (x.code_wellFormed a.func) (fun _ _ => rfl) h hs hfit rfl
    fun hno => ?_
  obtain ⟨es', hcovers, -⟩ := h
  refine step_sp (x.code_wellFormed a.func) (fun _ _ => rfl) ?_ (x.term_sp a.func) hcovers.located
    hs hno
  rw [x.code_allocaIds]
  exact x.op_sp a.func

/-- What it called is over. -/
theorem Call.Waiting.resume {a a' : Call V M} (h : a.Waiting x) {k : ℕ} {v : V} {mem : M}
    (hresume : a.resume x x.code k v mem = some a') :
    Roomy (x.code a'.func) x.frame (a'.sem x) a'.config ∧ a'.base = a.base ∧ a'.sp = a.sp := by
  have hroom := h.room
  obtain ⟨hroomy, hcalls⟩ := h
  obtain ⟨hbase, hsp⟩ := Call.resume_sp hcalls hresume
  obtain ⟨⟨es, c⟩, hs, rfl⟩ := Option.map_eq_some_iff.mp hresume
  have hroomy' : Roomy (x.code a.func) x.frame (a.answered x k v mem) a.config :=
    hroomy.congr rfl rfl rfl rfl rfl
  have hafter : Roomy (x.code a.func) x.frame (a.answered x k v mem) c := by
    refine roomy_step (x.code_shaped a.func) (x.code_wellFormed a.func) (fun _ _ => rfl) hroomy' hs
      (BitVec.le_def.mpr ?_) rfl fun _ => ?_
    · show x.frame.toNat ≤ a.sp.toNat
      omega
    · replace hsp : c.st.world.sp = a.sp := hsp
      show a.sp ≤ c.st.world.sp
      rw [hsp]
      exact BitVec.le_refl _
  exact ⟨hafter.congr rfl rfl rfl rfl rfl, hbase, hsp⟩

/-- Every call is covered or checked, and behind every prologue SP was not below the bound. -/
structure CallStack.Safe (x : Executable V M) (t : CallStack V M) : Prop where
  top : Roomy (x.code t.top.func) x.frame (t.top.sem x) t.top.config
  callers : ∀ a ∈ t.callers, a.Waiting x
  base : ∀ a ∈ t.top :: t.callers, x.bound ≤ a.base

/-- **One move.** -/
theorem safe_step (h : t.Safe x) (hs : x.step t m = some t') (hm : t.Assumed x m) : t'.Safe x := by
  rcases CallStack.step_cases hs with ⟨es, c, rfl, hrun, rfl⟩ | ⟨g, rfl, hg, rfl⟩
    | ⟨caller, callers, k, v, a, -, hsuf, hresume, rfl⟩
  · obtain ⟨htop, hcallers⟩ := List.forall_mem_cons.mp h.base
    exact ⟨Call.roomy_run h.top hrun hm, h.callers, List.forall_mem_cons.mpr ⟨htop, hcallers⟩⟩
  · have hwaiting : t.top.Waiting x := ⟨h.top, Call.calls hg⟩
    have hroom := hwaiting.room
    have hprologue := BitVec.le_def.mp (hm g hg)
    refine ⟨x.roomy_enter g.1 g.2 _, List.forall_mem_cons.mpr ⟨hwaiting, h.callers⟩,
      List.forall_mem_cons.mpr ⟨?_, h.base⟩⟩
    -- the last check of the caller has left a frame
    show x.bound ≤ t.top.sp - x.prologue g.1
    rw [BitVec.le_def, BitVec.toNat_sub_of_le (BitVec.le_def.mpr (by omega))]
    omega
  · have hcaller : caller ∈ t.callers := hsuf.subset List.mem_cons_self
    obtain ⟨hroomy, hbase, -⟩ := (h.callers caller hcaller).resume hresume
    refine ⟨hroomy, fun b hb => h.callers b (hsuf.subset (List.mem_cons_of_mem _ hb)),
      List.forall_mem_cons.mpr ⟨?_, fun b hb => ?_⟩⟩
    · rw [hbase]
      exact h.base caller (List.mem_cons_of_mem _ hcaller)
    · exact h.base b (List.mem_cons_of_mem _ (hsuf.subset (List.mem_cons_of_mem _ hb)))

theorem Executable.enter_sp (x : Executable V M) (g : ℕ) (other : ℕ → V) (w : World M) :
    (x.enter x.code g other w).sp = (x.enter x.code g other w).base := by
  unfold Interpretation.enter Call.sp Func.start
  dsimp only
  split <;> rfl

theorem safe_launch {g : ℕ} {other : ℕ → V} {w : World M}
    (hroom : x.bound.toNat + x.frame.toNat ≤ w.sp.toNat) (hprologue : x.prologue g ≤ x.frame) :
    (x.launch x.code g other w).Safe x := by
  refine ⟨x.roomy_enter g other w, fun a ha => absurd ha List.not_mem_nil, fun a ha => ?_⟩
  have hle := BitVec.le_def.mp hprologue
  rw [List.mem_singleton.mp ha]
  show x.bound ≤ w.sp - x.prologue g
  rw [BitVec.le_def, BitVec.toNat_sub_of_le (BitVec.le_def.mpr (by omega))]
  omega

theorem safe_visits {g : ℕ} {other : ℕ → V} {w : World M} {ms : List (Move V)}
    (hroom : x.bound.toNat + x.frame.toNat ≤ w.sp.toNat) (hprologue : x.prologue g ≤ x.frame)
    (hassumed : ∀ t m, Takes x.step (x.launch x.code g other w) ms t m → t.Assumed x m)
    (ht : Visits x.step (x.launch x.code g other w) ms t) : t.Safe x :=
  ht.invariant (safe_launch hroom hprologue) fun htakes h hs => safe_step h hs (hassumed _ _ htakes)

/-- **Compiled programs keep the window open.** In every run of a program whose functions have been
through the pass, however they call each other, return and are unwound, an instruction of the
source runs with a frame left above the bound, so does every call that waits, and no prologue
lowers SP below the bound, also where the check behind it fails. -/
theorem compiled_window (x : Executable V M) {g : ℕ} {other : ℕ → V} {w : World M}
    {ms : List (Move V)} (hroom : x.bound.toNat + x.frame.toNat ≤ w.sp.toNat)
    (hprologue : x.prologue g ≤ x.frame)
    (hassumed : ∀ t m, Takes (x.step) (x.launch x.code g other w) ms t m → t.Assumed x m) :
    ∀ t, Visits (x.step) (x.launch x.code g other w) ms t →
      (∀ i rest, t.top.config.rest = .ir i :: rest →
        x.bound.toNat + x.frame.toNat ≤ t.top.sp.toNat)
      ∧ (∀ a ∈ t.callers, x.bound.toNat + x.frame.toNat ≤ a.sp.toNat)
      ∧ ∀ a ∈ t.top :: t.callers, x.bound ≤ a.base := by
  intro t ht
  have hsafe := safe_visits hroom hprologue hassumed ht
  exact ⟨fun i rest hrest => hsafe.top.room hrest, fun a ha => (hsafe.callers a ha).room,
    hsafe.base⟩

/-- A function with a variable-length array that calls itself for ever. -/
def recurseFunc : Func Instruction where
  name := "recurse"
  attrs := []
  blocks := [⟨0, [.alloca 3 false false [], .op 1 [.other 0], .term 2 [] []]⟩]

def recurseProgram : Executable ℕ Unit where
  clExtraPad := 0
  bound := 2816
  funcs _ := recurseFunc
  wellFormed _ := by decide
  noPads _ := by decide
  notSkipped _ := by decide
  prologue _ := 96
  callee _ id _ _ := if id = 1 then some 0 else none
  other _ _ _ k := k
  op _ id _ w := some (0, if id = 3 then ⟨w.sp - 32, ()⟩ else w)
  term _ _ _ _ := none
  op_sp _ id hid vs w v w' h := by
    have hne : id ≠ 3 := fun heq => hid (heq ▸ by decide)
    rw [if_neg hne] at h
    cases h
    exact BitVec.le_refl _
  term_sp _ _ _ _ _ _ _ h := by cases h
  poison := 0

/-- The second call overflows, behind a prologue that was above the bound. -/
theorem compiled_window_recurse :
    ∃ t, exec (recurseProgram.step) (recurseProgram.launch recurseProgram.code 0 id ⟨3100, ()⟩)
        (List.replicate 12 .run ++ .call :: List.replicate 6 .run) = some t
      ∧ t.top.config.rest = [] ∧ ∀ a ∈ t.top :: t.callers, (2816 : BitVec 64) ≤ a.base := by
  have hlast : (exec (recurseProgram.step)
      (recurseProgram.launch recurseProgram.code 0 id ⟨3100, ()⟩)
      (List.replicate 12 .run ++ .call :: List.replicate 6 .run)).map (·.top.config.rest)
      = some [] := by decide +kernel
  obtain ⟨t, hrun, hrest⟩ := Option.map_eq_some_iff.mp hlast
  have hassumed : TakesAll (recurseProgram.step) (fun t m => t.Assumed recurseProgram m)
      (recurseProgram.launch recurseProgram.code 0 id ⟨3100, ()⟩)
      (List.replicate 12 .run ++ .call :: List.replicate 6 .run) := by decide +kernel
  exact ⟨t, hrun, hrest, (compiled_window recurseProgram (by decide) (by decide)
    (fun t m htakes => hassumed.takes htakes) t (visits_last hrun)).2.2⟩

/-! ## How deep calls can go -/

/-- The calls that wait stand one above the other, each in its own frame, and `base` is at least `m`
below the last one. -/
def Deep (m base₀ : ℕ) : ℕ → List (Call V M) → Prop
  | base, [] => base ≤ base₀
  | base, a :: callers =>
      base + m ≤ a.sp.toNat ∧ a.sp ≤ a.base ∧ Deep m base₀ a.base.toNat callers

theorem Deep.le {m base₀ base : ℕ} {callers : List (Call V M)} (h : Deep m base₀ base callers) :
    base + m * callers.length ≤ base₀ := by
  induction callers generalizing base with
  | nil => exact h
  | cons a callers ih =>
      obtain ⟨hm, hbase, hrest⟩ := h
      have hle := ih hrest
      have hbase := BitVec.le_def.mp hbase
      rw [List.length_cons, Nat.mul_add, Nat.mul_one]
      omega

theorem Deep.suffix {m base₀ base : ℕ} {callers callers' : List (Call V M)} {a : Call V M}
    (h : Deep m base₀ base callers) (hsuf : (a :: callers') <:+ callers) :
    Deep m base₀ a.base.toNat callers' := by
  induction callers generalizing base with
  | nil => exact absurd (List.suffix_nil.mp hsuf) (List.cons_ne_nil _ _)
  | cons b callers ih =>
      obtain ⟨-, -, hrest⟩ := h
      rcases List.suffix_cons_iff.mp hsuf with heq | hsuf
      · rw [List.cons.injEq] at heq
        obtain ⟨rfl, rfl⟩ := heq
        exact hrest
      · exact ih hrest hsuf

/-- The calls of a thread that started at `top`, with at least `n` bytes for each prologue. -/
structure CallStack.Layered (n : ℕ) (top : BitVec 64) (t : CallStack V M) : Prop where
  deep : Deep n (top.toNat - n) t.top.base.toNat t.callers
  inFrame : t.top.sp ≤ t.top.base

theorem layered_launch {n : ℕ} {g : ℕ} {other : ℕ → V} {w : World M} (hn : n ≤ (x.prologue g).toNat)
    (hprologue : x.prologue g ≤ w.sp) : (x.launch x.code g other w).Layered n w.sp := by
  refine ⟨?_, x.enter_sp g other w ▸ BitVec.le_refl _⟩
  show (w.sp - x.prologue g).toNat ≤ w.sp.toNat - n
  rw [BitVec.toNat_sub_of_le hprologue]
  omega

/-- **One move.** -/
theorem layered_step {n : ℕ} {top : BitVec 64} (hn : ∀ f, n ≤ (x.prologue f).toNat)
    (hsafe : t.Safe x) (h : t.Layered n top) (hs : x.step t m = some t') (hm : t.Assumed x m)
    (hframe : t.InFrame x m) : t'.Layered n top := by
  refine ⟨?_, hframe t' hs⟩
  rcases CallStack.step_cases hs with ⟨es, c, rfl, hrun, rfl⟩ | ⟨g, rfl, hg, rfl⟩
    | ⟨caller, callers, k, v, a, -, hsuf, hresume, rfl⟩
  · exact h.deep
  · have hroom := Call.Waiting.room ⟨hsafe.top, Call.calls hg⟩
    have hprologue := BitVec.le_def.mp (hm g hg)
    have hmin := hn g.1
    refine ⟨?_, h.inFrame, h.deep⟩
    show (t.top.sp - x.prologue g.1).toNat + n ≤ t.top.sp.toNat
    rw [BitVec.toNat_sub_of_le (BitVec.le_def.mpr (by omega))]
    omega
  · have hcaller : caller ∈ t.callers := hsuf.subset List.mem_cons_self
    obtain ⟨-, hbase, -⟩ := (hsafe.callers caller hcaller).resume hresume
    show Deep n _ a.base.toNat callers
    rw [hbase]
    exact h.deep.suffix hsuf

/-- While source code runs, the room of all calls fits between the bound and the top. -/
theorem CallStack.Layered.fits {n : ℕ} {top : BitVec 64} (h : t.Layered n top) (hsafe : t.Safe x)
    (hn : n ≤ top.toNat) {i : Instruction} {rest : List Code}
    (hrest : t.top.config.rest = .ir i :: rest) :
    x.bound.toNat + x.frame.toNat + n * (t.callers.length + 1) ≤ top.toNat := by
  have hwindow : x.bound.toNat + x.frame.toNat ≤ t.top.sp.toNat := hsafe.top.room hrest
  have hbase := BitVec.le_def.mp h.inFrame
  have htotal := h.deep.le
  rw [Nat.mul_add, Nat.mul_one]
  omega

/-- **Runaway recursion is caught.** If every prologue takes at least `n` bytes, and no alloca takes
SP out of the frame of its function, then source code of a function runs only while all the calls
below it fit between the bound and where the thread started; a call that is one too deep is stopped
by its check. -/
theorem recursion_bounded (x : Executable V M) {g : ℕ} {other : ℕ → V} {w : World M}
    {ms : List (Move V)} (hroom : x.bound.toNat + x.frame.toNat ≤ w.sp.toNat)
    (hprologue : x.prologue g ≤ x.frame)
    (hassumed : ∀ t m, Takes x.step (x.launch x.code g other w) ms t m → t.Assumed x m)
    (hframe : ∀ t m, Takes x.step (x.launch x.code g other w) ms t m → t.InFrame x m)
    {n : ℕ} (hn : ∀ f, n ≤ (x.prologue f).toNat) :
    ∀ t, Visits x.step (x.launch x.code g other w) ms t →
      ∀ i rest, t.top.config.rest = .ir i :: rest →
        x.bound.toNat + x.frame.toNat + n * (t.callers.length + 1) ≤ w.sp.toNat := by
  intro t ht i rest hrest
  have hle := BitVec.le_def.mp hprologue
  have hlayered : t.Layered n w.sp := by
    refine ht.invariant (layered_launch (hn g) (BitVec.le_def.mpr (by omega))) ?_
    intro t t' m htakes h hs
    exact layered_step hn (safe_visits hroom hprologue hassumed htakes.visits) h hs
      (hassumed t m htakes) (hframe t m htakes)
  have := hn g
  exact hlayered.fits (safe_visits hroom hprologue hassumed ht) (by omega) hrest

/-- Both checks, the call, and both checks of the function that was called. -/
def recurseRun : List (Move ℕ) :=
  List.replicate 12 .run ++ .call :: List.replicate 12 .run

/-- By their prologues alone there would be room for more. -/
theorem recursion_bounded_recurse :
    ∃ t, exec (recurseProgram.step) (recurseProgram.launch recurseProgram.code 0 id ⟨4192, ()⟩)
        recurseRun = some t
      ∧ t.callers.length = 1 ∧ 2816 + 128 + 96 * (t.callers.length + 1) ≤ 4192 := by
  have hlast : (exec (recurseProgram.step)
      (recurseProgram.launch recurseProgram.code 0 id ⟨4192, ()⟩) recurseRun).map
        (fun t => (t.callers.length, t.top.config.rest))
      = some (1, [.ir (.op 1 [.other 0]), .ir (.term 2 [] [])]) := by decide +kernel
  obtain ⟨t, hrun, ht⟩ := Option.map_eq_some_iff.mp hlast
  obtain ⟨hlength, hrest⟩ := Prod.mk.inj ht
  have hassumed : TakesAll (recurseProgram.step) (fun t m => t.Assumed recurseProgram m)
      (recurseProgram.launch recurseProgram.code 0 id ⟨4192, ()⟩) recurseRun := by decide +kernel
  have hframe : TakesAll (recurseProgram.step) (fun t m => t.InFrame recurseProgram m)
      (recurseProgram.launch recurseProgram.code 0 id ⟨4192, ()⟩) recurseRun := by decide +kernel
  exact ⟨t, hrun, hlength, recursion_bounded recurseProgram (by decide) (by decide)
    (fun t m htakes => hassumed.takes htakes) (fun t m htakes => hframe.takes htakes)
    (fun _ => Nat.le_refl 96) t (visits_last hrun) _ _ hrest⟩

end Hopter.SplitStack
