import Hopter.SplitStack.Ir

/-!
# Execution

One instruction at a time, with the PHIs of a block evaluated together on the
edge into it. Every instruction leaves an event: those of the source with their
operand values, terminators with the branch taken, and a check with whether it
passed. `afterDeletion` is who looks at a function with the `ss.*` instructions
deleted, and stops where a check fails.
-/

namespace Hopter.SplitStack

open Conc

variable {V W : Type}

/-- What the instructions of a function compute, in a world that holds the memory and the stack. -/
structure Semantics (V W : Type) where
  other : ℕ → V
  /-- `none` when control does not come back to the function. -/
  op : ValueId → List V → W → Option (V × W)
  /-- The successor taken, by its position; `none` when the function is left. -/
  term : ValueId → List V → W → Option (ℕ × V × W)
  sp : W → BitVec 64
  /-- `__hopter_stklet_bound` -/
  bound : W → BitVec 64
  morestack : BitVec 64 → W → Option W

/-- `%ss.sp`, `%ss.bound`, `%ss.need` and `%ss.ok` of one check. -/
structure CheckValues where
  sp : BitVec 64
  bound : BitVec 64
  need : BitVec 64
  ok : Bool

structure State (V W : Type) where
  world : W
  env : ValueId → V
  ss : Label → CheckValues

inductive Event (V : Type) where
  | exec (id : ValueId) (args : List V)
  | branch (id : ValueId) (args : List V) (taken : Option Label)
  /-- An inserted instruction. -/
  | ss (i : Code)
  | check (name : Label) (passed : Bool)

/-- Where control goes after an instruction. -/
inductive Flow where
  | next
  | goto (dest : Label)
  | leave

namespace State

variable (sem : Semantics V W) (st : State V W)

def eval : Operand → V
  | .value id => st.env id
  | .other k => sem.other k

def values (args : List Operand) : List V := args.map (st.eval sem)

def write (id : ValueId) (v : V) (w : W) : State V W :=
  { st with world := w, env := Function.update st.env id v }

def setCheck (check : Label) (vs : CheckValues) : State V W :=
  { st with ss := Function.update st.ss check vs }

end State

/-- The effect of an instruction that is not a terminator. -/
def runOp (sem : Semantics V W) (st : State V W) (id : ValueId) (args : List Operand) :
    Event V × State V W × Flow :=
  match sem.op id (st.values sem args) st.world with
  | some (v, w) => (.exec id (st.values sem args), st.write id v w, .next)
  | none => (.exec id (st.values sem args), st, .leave)

/-- The effect of a terminator of the source. -/
def runTerm (sem : Semantics V W) (st : State V W) (id : ValueId) (args : List Operand)
    (succs : List Label) : Event V × State V W × Flow :=
  match sem.term id (st.values sem args) st.world with
  | some (k, v, w) =>
      match succs[k]? with
      | some dest =>
          (.branch id (st.values sem args) (some dest), st.write id v w, .goto dest)
      | none => (.branch id (st.values sem args) none, st, .leave)
  | none => (.branch id (st.values sem args) none, st, .leave)

/-- What an instruction does, wherever it stands. PHIs are not run on their own. -/
def effect (sem : Semantics V W) (st : State V W) : Code →
    Option (Event V × State V W × Flow)
  | .ir (.phi _ _) => none
  | .ir (.ehPad id args) | .ir (.alloca id _ _ args) | .ir (.op id args) =>
      some (runOp sem st id args)
  | .ir (.term id args succs) => some (runTerm sem st id args succs)
  | .readSp n =>
      some (.ss (.readSp n), st.setCheck n { st.ss n with sp := sem.sp st.world }, .next)
  | .loadBound n =>
      some (.ss (.loadBound n), st.setCheck n { st.ss n with bound := sem.bound st.world }, .next)
  | .subFrame n frame =>
      some (.ss (.subFrame n frame), st.setCheck n { st.ss n with need := (st.ss n).sp - frame },
        .next)
  | .cmpUge n =>
      some (.ss (.cmpUge n),
        st.setCheck n { st.ss n with ok := decide ((st.ss n).bound ≤ (st.ss n).need) }, .next)
  | .condBr n pass fail =>
      some (.check n (st.ss n).ok, st, .goto (if (st.ss n).ok then pass else fail))
  | .callMorestack frame doesNotThrow =>
      match sem.morestack frame st.world with
      | some w => some (.ss (.callMorestack frame doesNotThrow), { st with world := w }, .next)
      | none => some (.ss (.callMorestack frame doesNotThrow), st, .leave)
  | .br dest => some (.ss (.br dest), st, .goto dest)

/-- What the PHIs in front of a block are assigned on the edge from `source`, all at once. -/
def phiMoves (sem : Semantics V W) (st : State V W) (source : Label) :
    List Code → Option (List (ValueId × V))
  | .ir (.phi id incoming) :: rest => do
      let entry ← incoming.find? (·.2 = source)
      let moves ← phiMoves sem st source rest
      some ((id, st.eval sem entry.1) :: moves)
  | _ => some []

def State.assign (st : State V W) (moves : List (ValueId × V)) : State V W :=
  { st with env := moves.foldl (fun env m => Function.update env m.1 m.2) st.env }

/-- A function at work: in the block `cur`, with `rest` of it to do. -/
structure Config (V W : Type) where
  st : State V W
  cur : Label
  rest : List Code

def afterPhis (insts : List Code) : List Code := insts.dropWhile Code.isPhi

def Func.block? (F : Func Code) (label : Label) : Option (BasicBlock Code) :=
  F.blocks.find? (·.label = label)

/-- Along the edge from `source` into `dest`. -/
def enter (F : Func Code) (sem : Semantics V W) (st : State V W) (source dest : Label) :
    Option (List (Event V) × Config V W) := do
  let b ← F.block? dest
  let moves ← phiMoves sem st source b.insts
  some (moves.map fun m => .exec m.1 [m.2], ⟨st.assign moves, dest, afterPhis b.insts⟩)

/-- Control after an instruction in `cur`. -/
def follow (F : Func Code) (sem : Semantics V W) (cur : Label) (rest : List Code)
    (done : Event V × State V W × Flow) : Option (List (Event V) × Config V W) :=
  match done with
  | (e, st, .next) => some ([e], ⟨st, cur, rest⟩)
  | (e, st, .leave) => some ([e], ⟨st, cur, []⟩)
  | (e, st, .goto dest) => (enter F sem st cur dest).map fun r => (e :: r.1, r.2)

def step (F : Func Code) (sem : Semantics V W) (c : Config V W) :
    Option (List (Event V) × Config V W) :=
  match c.rest with
  | [] => none
  | i :: rest => (effect sem c.st i).bind (follow F sem c.cur rest)

/-- A call of the function. -/
def Func.start (F : Func Code) (st : State V W) : Config V W :=
  match F.blocks with
  | [] => ⟨st, 0, []⟩
  | b :: _ => ⟨st, b.label, afterPhis b.insts⟩

/-! ## What is compared -/

def Event.isSource : Event V → Bool
  | .exec _ _ | .branch _ _ _ => true
  | .ss _ | .check _ _ => false

def Event.isFailedCheck : Event V → Bool
  | .check _ passed => !passed
  | _ => false

/-- The execution after deleting the `ss.*` instructions. -/
def deleteSs (es : List (Event V)) : List (Event V) := es.filter Event.isSource

/-- All inserted checks pass. -/
def AllPass (es : List (Event V)) : Prop := ∀ e ∈ es, e.isFailedCheck = false

def afterDeletion : Observer (Event V) (Event V) where
  view := Option.guard Event.isSource
  alarm := Event.isFailedCheck

theorem afterDeletion_sees (es : List (Event V)) : afterDeletion.sees es = deleteSs es := by
  unfold Observer.sees deleteSs afterDeletion
  rw [List.filterMap_eq_filter]

end Hopter.SplitStack
