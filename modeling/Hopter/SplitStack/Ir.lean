import Mathlib.Data.List.Perm.Basic
import Mathlib.Logic.Function.Basic
import Hopter.Lib.Trace

/-!
# The IR the plugin works on

Functions of LLVM IR, as far as the stack-check pass looks at them: basic blocks
with their successors, PHIs with their incoming blocks, EH pads, allocas with
what makes them static, and every other instruction by the name of its value and
its operands. What an instruction computes is a parameter; the order in which
instructions run, and the block a branch leads to, are not.

`Instruction` is what a front end writes, `Code` is that and what the pass
inserts. The values of a check are named after its `ss.morestack` block.
-/

namespace Hopter.SplitStack

/-- A basic block, by its name. -/
abbrev Label := ℕ

/-- The value of an instruction, by its name. -/
abbrev ValueId := ℕ

inductive Operand where
  | value (id : ValueId)
  /-- A constant, an argument, a global. -/
  | other (k : ℕ)
  deriving DecidableEq

inductive Instruction where
  | phi (id : ValueId) (incoming : List (Operand × Label))
  | ehPad (id : ValueId) (args : List Operand)
  /-- Its size may be a constant, and it may be `inalloca`. -/
  | alloca (id : ValueId) (constSize inAlloca : Bool) (args : List Operand)
  | op (id : ValueId) (args : List Operand)
  /-- A terminator: `ret`, `br`, `switch`, `invoke`, `unreachable`. -/
  | term (id : ValueId) (args : List Operand) (succs : List Label)
  deriving DecidableEq

inductive Code where
  | ir (i : Instruction)
  /-- `%ss.sp = call i64 @llvm.read_register.i64(metadata !"sp")` -/
  | readSp (check : Label)
  /-- `%ss.bound = load i64, i64* @__hopter_stklet_bound` -/
  | loadBound (check : Label)
  /-- `%ss.need = sub i64 %ss.sp, frame` -/
  | subFrame (check : Label) (frame : BitVec 64)
  /-- `%ss.ok = icmp uge i64 %ss.need, %ss.bound` -/
  | cmpUge (check : Label)
  /-- `br i1 %ss.ok, label %pass, label %fail` -/
  | condBr (check pass fail : Label)
  /-- `call void @__morestack(i64 frame)` -/
  | callMorestack (frame : BitVec 64) (doesNotThrow : Bool)
  | br (dest : Label)
  deriving DecidableEq

namespace Code

/-- Code of the source. -/
def isIr : Code → Bool
  | ir _ => true
  | _ => false

def isPhi : Code → Bool
  | ir (.phi _ _) => true
  | _ => false

def isTerm : Code → Bool
  | ir (.term _ _ _) | condBr _ _ _ | br _ => true
  | _ => false

def succs : Code → List Label
  | ir (.term _ _ succs) => succs
  | condBr _ pass fail => [pass, fail]
  | br dest => [dest]
  | _ => []

/-- The instruction of the source. -/
def id? : Code → Option ValueId
  | ir (.phi id _) | ir (.ehPad id _) | ir (.alloca id _ _ _) | ir (.op id _)
  | ir (.term id _ _) => some id
  | _ => none

def incoming? : Code → Option (List (Operand × Label))
  | ir (.phi _ incoming) => some incoming
  | _ => none

/-- The check whose values the instruction reads or writes. -/
def check? : Code → Option Label
  | readSp check | loadBound check | subFrame check _ | cmpUge check | condBr check _ _ =>
      some check
  | _ => none

theorem succs_of_not_term {i : Code} (h : i.isTerm = false) : i.succs = [] := by
  cases i with
  | ir i =>
      cases i with
      | term id args succs => cases h
      | _ => rfl
  | condBr check pass fail => cases h
  | br dest => cases h
  | _ => rfl

theorem incoming?_of_not_phi {i : Code} (h : i.isPhi = false) : i.incoming? = none := by
  cases i with
  | ir i =>
      cases i with
      | phi id incoming => cases h
      | _ => rfl
  | _ => rfl

end Code

structure BasicBlock (α : Type) where
  label : Label
  insts : List α
  deriving DecidableEq

inductive FnAttr where
  | naked
  | string (key value : String)
  deriving DecidableEq

/-- A function; its entry block is the first one. -/
structure Func (α : Type) where
  name : String
  attrs : List FnAttr
  blocks : List (BasicBlock α)
  deriving DecidableEq

/-- The function as the pass finds it. -/
def Func.code (F : Func Instruction) : Func Code where
  name := F.name
  attrs := F.attrs
  blocks := F.blocks.map fun b => ⟨b.label, b.insts.map .ir⟩

/-! ## Well-formed functions -/

def BasicBlock.succs (b : BasicBlock Code) : List Label := b.insts.flatMap Code.succs

/-- The block once for each of its edges to `dest`. -/
def BasicBlock.edgesTo (b : BasicBlock Code) (dest : Label) : List Label :=
  (b.succs.filter (· = dest)).map fun _ => b.label

namespace Func

variable (F : Func Code)

def labels : List Label := F.blocks.map (·.label)

/-- The predecessors of a block, once for each edge. -/
def preds (dest : Label) : List Label := F.blocks.flatMap (·.edgesTo dest)

/-- The instructions of the source, in layout order. -/
def ids : List ValueId := F.blocks.flatMap fun b => b.insts.filterMap Code.id?

/-- One terminator, and it is the last instruction. -/
def OneTerminator (insts : List Code) : Prop :=
  (∃ t ∈ insts.getLast?, t.isTerm = true) ∧ ∀ i ∈ insts.dropLast, i.isTerm = false

instance (insts : List Code) : Decidable (OneTerminator insts) :=
  inferInstanceAs (Decidable (_ ∧ _))

/-- What the verifier asks of the control flow of a function. -/
structure WellFormed : Prop where
  nonempty : F.blocks ≠ []
  labels_nodup : F.labels.Nodup
  oneTerminator : ∀ b ∈ F.blocks, OneTerminator b.insts
  /-- Nothing but PHIs stands before a PHI. -/
  phisFirst : ∀ b ∈ F.blocks, b.insts.Pairwise fun i j => j.isPhi = true → i.isPhi = true
  targets : ∀ b ∈ F.blocks, ∀ dest ∈ b.succs, dest ∈ F.labels
  entry : ∀ b ∈ F.blocks.head?, F.preds b.label = []
  /-- A PHI has one entry for each edge into its block. -/
  phiPreds : ∀ b ∈ F.blocks, ∀ i ∈ b.insts, ∀ incoming ∈ i.incoming?,
    (incoming.map Prod.snd).Perm (F.preds b.label)
  ids_nodup : F.ids.Nodup
  /-- The values of a check are named after a block. -/
  checks : ∀ b ∈ F.blocks, ∀ i ∈ b.insts, ∀ check ∈ i.check?, check ∈ F.labels

instance : Decidable F.WellFormed :=
  decidable_of_iff
    (F.blocks ≠ [] ∧ F.labels.Nodup ∧ (∀ b ∈ F.blocks, OneTerminator b.insts)
      ∧ (∀ b ∈ F.blocks, b.insts.Pairwise fun i j => j.isPhi = true → i.isPhi = true)
      ∧ (∀ b ∈ F.blocks, ∀ dest ∈ b.succs, dest ∈ F.labels)
      ∧ (∀ b ∈ F.blocks.head?, F.preds b.label = [])
      ∧ (∀ b ∈ F.blocks, ∀ i ∈ b.insts, ∀ incoming ∈ i.incoming?,
        (incoming.map Prod.snd).Perm (F.preds b.label))
      ∧ F.ids.Nodup ∧ ∀ b ∈ F.blocks, ∀ i ∈ b.insts, ∀ check ∈ i.check?, check ∈ F.labels)
    ⟨fun ⟨h₁, h₂, h₃, h₄, h₅, h₆, h₇, h₈, h₉⟩ => ⟨h₁, h₂, h₃, h₄, h₅, h₆, h₇, h₈, h₉⟩,
      fun ⟨h₁, h₂, h₃, h₄, h₅, h₆, h₇, h₈, h₉⟩ => ⟨h₁, h₂, h₃, h₄, h₅, h₆, h₇, h₈, h₉⟩⟩

theorem oneTerminator_iff {insts : List Code} :
    OneTerminator insts ↔ ∃ body t, insts = body ++ [t] ∧ t.isTerm = true
      ∧ ∀ i ∈ body, i.isTerm = false := by
  constructor
  · rintro ⟨⟨t, ht, hterm⟩, hbody⟩
    refine ⟨insts.dropLast, t, ?_, hterm, hbody⟩
    exact (List.dropLast_append_getLast? t ht).symm
  · rintro ⟨body, t, rfl, hterm, hbody⟩
    refine ⟨⟨t, by rw [List.getLast?_concat]; rfl, hterm⟩, ?_⟩
    rw [List.dropLast_concat]
    exact hbody

end Func

end Hopter.SplitStack
