import Hopter.SplitStack.Ir

/-!
# The stack-check pass

`instrumentFunction` as the plugin has it. The entry block is cut in two and a
check put between the halves; then the allocas that are not static are collected,
in a function whose old entry is no longer the entry, and a check is put behind
each of them. A new block takes a name that is not in use.
-/

namespace Hopter.SplitStack

def kFramePadding : BitVec 64 := 128

/-- `((kFramePadding + ClExtraPad + 15) & ~uint64_t(15))` -/
def framePad (clExtraPad : BitVec 32) : BitVec 64 :=
  (kFramePadding + clExtraPad.setWidth 64 + 15) &&& ~~~15

/-! ## LLVM -/

namespace Func

def isDeclaration (F : Func Instruction) : Bool := F.blocks.isEmpty

def hasFnAttribute (F : Func Instruction) (key : String) : Bool :=
  F.attrs.any fun
    | .string k _ => k == key
    | .naked => false

def isNaked (F : Func Instruction) : Bool := F.attrs.contains .naked

def addFnAttr (F : Func Code) (key value : String) : Func Code :=
  { F with attrs := .string key value :: F.attrs }

/-- A name that is not in use. -/
def freshLabel (F : Func Code) : Label := F.labels.foldr max 0 + 1

end Func

def rename (old new L : Label) : Label := if L = old then new else L

/-- The entries for the block `old` are for `new` now. -/
def Code.replaceIncoming (old new : Label) : Code → Code
  | .ir (.phi id incoming) => .ir (.phi id (incoming.map fun p => (p.1, rename old new p.2)))
  | i => i

def BasicBlock.replacePhiUsesWith (b : BasicBlock Code) (old new : Label) : BasicBlock Code :=
  { b with insts := b.insts.map (Code.replaceIncoming old new) }

/-- `getFirstInsertionPt`, by its position: behind the PHIs, and behind an EH pad. -/
def getFirstInsertionPt (insts : List Code) : ℕ :=
  let phis := (insts.takeWhile Code.isPhi).length
  match insts[phis]? with
  | some (.ir (.ehPad _ _)) => phis + 1
  | _ => phis

/-- `splitBasicBlock`: the instructions from position `at_` on go to the block `new`, which stands
behind `old`. The PHIs of the successors of `new` are told of it. -/
def splitBasicBlock (F : Func Code) (old : Label) (at_ : ℕ) (new : Label) : Func Code :=
  let blocks := F.blocks.flatMap fun b =>
    if b.label = old then
      [⟨old, b.insts.take at_ ++ [.br new]⟩, ⟨new, b.insts.drop at_⟩]
    else [b]
  let successors := (blocks.filter (·.label = new)).flatMap (·.succs)
  { F with
    blocks := blocks.map fun b =>
      if b.label ∈ successors then b.replacePhiUsesWith old new else b }

/-- `isStaticAlloca` -/
def isStaticAlloca (F : Func Code) (parent : Label) (constSize inAlloca : Bool) : Bool :=
  constSize && F.blocks.head?.any (·.label = parent) && !inAlloca

def Code.isAlloca (ai : ValueId) : Code → Bool
  | .ir (.alloca id _ _ _) => id == ai
  | _ => false

/-- The block of an alloca, and its position there. -/
def getParent (F : Func Code) (ai : ValueId) : Option (Label × ℕ) :=
  F.blocks.findSome? fun b => (b.insts.findIdx? (Code.isAlloca ai)).map fun k => (b.label, k)

/-! ## The pass -/

def shouldSkip (F : Func Instruction) : Bool :=
  F.isDeclaration || F.hasFnAttribute "no-split-stack" || F.isNaked
    || "__morestack".toList.isPrefixOf F.name.toList
    || "__split_stack".toList.isPrefixOf F.name.toList
    || F.name == "__hopter_stklet_bound"

/-- The instructions of a check, up to the branch. -/
def checkCode (frame : BitVec 64) (cont more : Label) : List Code :=
  [.readSp more, .loadBound more, .subFrame more frame, .cmpUge more, .condBr more cont more]

/-- The terminator of the block `check` gives way to a check, and the block `more` is created in
front of `cont`. -/
def insertCheck (F : Func Code) (frame : BitVec 64) (check cont more : Label) : Func Code :=
  { F with
    blocks := F.blocks.flatMap fun b =>
      (if b.label = cont then [⟨more, [.callMorestack frame true, .br cont]⟩] else [])
        ++ [if b.label = check then ⟨check, b.insts.dropLast ++ checkCode frame cont more⟩ else b] }

/-- The first half of `instrumentFunction`. -/
def instrumentEntry (frame : BitVec 64) (F : Func Code) : Func Code :=
  match F.blocks with
  | [] => F
  | oldEntry :: _ =>
      let cont := F.freshLabel
      let F := splitBasicBlock F oldEntry.label (getFirstInsertionPt oldEntry.insts) cont
      let F := insertCheck F frame oldEntry.label cont F.freshLabel
      (F.addFnAttr "split-stack-instrumented" "").addFnAttr "split-stack-frame-estimate"
        (toString frame.toNat)

/-- `DynAllocas` -/
def dynAllocas (F : Func Code) : List ValueId :=
  F.blocks.flatMap fun b => b.insts.filterMap fun
    | .ir (.alloca id constSize inAlloca _) =>
        if isStaticAlloca F b.label constSize inAlloca then none else some id
    | _ => none

/-- One round of the loop over `DynAllocas`. -/
def instrumentAlloca (frame : BitVec 64) (F : Func Code) (ai : ValueId) : Func Code :=
  match getParent F ai with
  | none => F
  | some (parent, k) =>
      let allocaBB := F.freshLabel
      let F := splitBasicBlock F parent k allocaBB
      let restBB := F.freshLabel
      -- `ai` is the first instruction of its block now
      let F := splitBasicBlock F allocaBB 1 restBB
      insertCheck F frame allocaBB restBB F.freshLabel

/-- `instrumentFunction`, and whether it changed the function. -/
def instrumentFunction (clExtraPad : BitVec 32) (F : Func Instruction) : Func Code × Bool :=
  if shouldSkip F then (F.code, false)
  else
    let frame := framePad clExtraPad
    let F := instrumentEntry frame F.code
    ((dynAllocas F).foldl (instrumentAlloca frame) F, true)

theorem instrumentFunction_changes (clExtraPad : BitVec 32) (F : Func Instruction) :
    (instrumentFunction clExtraPad F).2 = !shouldSkip F := by
  unfold instrumentFunction
  cases shouldSkip F with
  | true => rfl
  | false => rfl

end Hopter.SplitStack
