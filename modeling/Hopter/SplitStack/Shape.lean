import Mathlib.Data.List.Pairwise
import Hopter.SplitStack.Preserve

/-!
# What an instrumented function looks like

Every block is code of the source, and then a branch, or a check, or nothing
more; besides there are the blocks that call `__morestack`. `Shaped` says so while
the loop is at work: the allocas it has still to visit are in `todo`, and every
other one stands directly in front of a check. The entry has no alloca from the
first cut on, which makes every alloca of the function one for the loop.
-/

namespace Hopter.SplitStack

variable {F F' : Func Code} {frame : BitVec 64} {padded : Prop} {todo : List ValueId}

/-! ## Allocas -/

namespace Code

/-- The name of an alloca, whether its size is a constant, and whether it is `inalloca`. -/
def alloca? : Code → Option (ValueId × Bool × Bool)
  | ir (.alloca id constSize inAlloca _) => some (id, constSize, inAlloca)
  | _ => none

/-- The name of an alloca. -/
def allocaId? (i : Code) : Option ValueId := i.alloca?.map Prod.fst

theorem allocaId?_eq_some {i : Code} {ai : ValueId} :
    i.allocaId? = some ai ↔ i.isAlloca ai = true := by
  rcases i with (_ | _ | ⟨id, _, _, _⟩ | _ | _) | _ | _ | _ | _ | _ | _ | _
  case ir.alloca =>
    show some id = some ai ↔ (id == ai) = true
    rw [Option.some.injEq, beq_iff_eq]
  all_goals exact ⟨fun h => (by cases h), fun h => (by cases h)⟩

theorem allocaId?_of_phi {i : Code} (h : i.isPhi = true ∨ i.isEhPad = true) :
    i.alloca? = none := by
  rcases i with (_ | _ | _ | _ | _) | _ | _ | _ | _ | _ | _ | _
  case ir.alloca => rcases h with h | h <;> cases h
  all_goals rfl

theorem isIr_of_alloca {i : Code} {ai : ValueId} (h : i.allocaId? = some ai) : i.isIr = true := by
  rcases i with (_ | _ | _ | _ | _) | _ | _ | _ | _ | _ | _ | _ <;> first | rfl | cases h

theorem alloca?_of_not_ir {i : Code} (h : i.isIr = false) : i.alloca? = none := by
  rcases i with _ | _ | _ | _ | _ | _ | _ | _ <;> first | rfl | cases h

@[simp] theorem isIr_replaceIncoming (old new : Label) (i : Code) :
    (i.replaceIncoming old new).isIr = i.isIr := by
  rcases i with (_ | _ | _ | _ | _) | _ | _ | _ | _ | _ | _ | _ <;> rfl

@[simp] theorem alloca?_replaceIncoming (old new : Label) (i : Code) :
    (i.replaceIncoming old new).alloca? = i.alloca? := by
  rcases i with (_ | _ | _ | _ | _) | _ | _ | _ | _ | _ | _ | _ <;> rfl

@[simp] theorem allocaId?_replaceIncoming (old new : Label) (i : Code) :
    (i.replaceIncoming old new).allocaId? = i.allocaId? := by
  unfold allocaId?
  rw [alloca?_replaceIncoming]

@[simp] theorem isEhPad_replaceIncoming (old new : Label) (i : Code) :
    (i.replaceIncoming old new).isEhPad = i.isEhPad := by
  rcases i with (_ | _ | _ | _ | _) | _ | _ | _ | _ | _ | _ | _ <;> rfl

/-- An alloca is an instruction of its name. -/
theorem id?_of_alloca {i : Code} {ai : ValueId} (h : i.allocaId? = some ai) : i.id? = some ai :=
  (isAlloca_spec (allocaId?_eq_some.mp h)).2.2

end Code

/-- Names are given once. -/
theorem eq_of_id (hF : F.WellFormed) {b b' : BasicBlock Code} (hb : b ∈ F.blocks)
    (hb' : b' ∈ F.blocks) {i i' : Code} (hi : i ∈ b.insts) (hi' : i' ∈ b'.insts) {id : ValueId}
    (hid : i.id? = some id) (hid' : i'.id? = some id) : b = b' ∧ i = i' := by
  have hnodup := hF.ids_nodup
  unfold Func.ids at hnodup
  rw [List.nodup_flatMap] at hnodup
  obtain ⟨hblock, hpair⟩ := hnodup
  have hmem : id ∈ b.insts.filterMap Code.id? := List.mem_filterMap.mpr ⟨i, hi, hid⟩
  have hmem' : id ∈ b'.insts.filterMap Code.id? := List.mem_filterMap.mpr ⟨i', hi', hid'⟩
  have hbb' : b = b' := by
    by_contra hne
    have hsymm : Std.Symm (Function.onFun List.Disjoint
        fun b : BasicBlock Code => b.insts.filterMap Code.id?) := ⟨fun _ _ h _ hx hx' => h hx' hx⟩
    exact hpair.forall hb hb' hne hmem hmem'
  subst hbb'
  refine ⟨rfl, ?_⟩
  obtain ⟨s, t, hst⟩ := List.append_of_mem hi
  have hnodup := hblock b hb
  rw [hst, List.filterMap_append, List.filterMap_cons_some hid, List.nodup_append,
    List.nodup_cons] at hnodup
  obtain ⟨-, ⟨hno, -⟩, hdisj⟩ := hnodup
  rw [hst] at hi'
  rcases List.mem_append.mp hi' with hi' | hi'
  · exact absurd rfl (hdisj id (List.mem_filterMap.mpr ⟨i', hi', hid'⟩) id List.mem_cons_self)
  · rcases List.mem_cons.mp hi' with rfl | hi'
    · rfl
    · exact absurd (List.mem_filterMap.mpr ⟨i', hi', hid'⟩) hno

/-! ## Blocks -/

/-- What may stand behind the code of the source; a check may have an alloca to itself. -/
inductive Tail (frame : BitVec 64) (F : Func Code) : List Code → Prop where
  | source : Tail frame F []
  | br (dest : Label) : Tail frame F [.br dest]
  | check {cont more : Label} : moreBlock frame cont more ∈ F.blocks →
      Tail frame F (checkCode frame cont more)
  | alloca {i : Code} {ai : ValueId} {cont more : Label} : i.allocaId? = some ai →
      moreBlock frame cont more ∈ F.blocks → Tail frame F (i :: checkCode frame cont more)
  | more (cont more : Label) : Tail frame F (moreBlock frame cont more).insts

/-- Code of the source whose allocas are still to be visited. -/
def Pending (todo : List ValueId) (body : List Code) : Prop :=
  ∀ i ∈ body, i.isIr = true ∧ ∀ ai ∈ i.allocaId?, ai ∈ todo

/-- A block while the loop is at work. -/
def BlockShape (frame : BitVec 64) (F : Func Code) (todo : List ValueId) (insts : List Code) :
    Prop :=
  ∃ body tail, insts = body ++ tail ∧ Pending todo body ∧ Tail frame F tail

/-- A function while the loop is at work. `padded` is whether the source had an EH pad in its
entry. -/
structure Shaped (frame : BitVec 64) (padded : Prop) (todo : List ValueId) (F : Func Code) :
    Prop where
  blocks : ∀ b ∈ F.blocks, BlockShape frame F todo b.insts
  /-- The entry is a check. -/
  entry : ∀ b ∈ F.blocks.head?, ∃ pads cont more,
    (∀ i ∈ pads, i.isPhi = true ∨ padded ∧ i.isEhPad = true)
      ∧ b.insts = pads ++ checkCode frame cont more ∧ moreBlock frame cont more ∈ F.blocks

theorem Pending.map {body : List Code} (h : Pending todo body) (old new : Label) :
    Pending todo (body.map (Code.replaceIncoming old new)) := by
  intro i hi
  obtain ⟨j, hj, rfl⟩ := List.mem_map.mp hi
  rw [Code.isIr_replaceIncoming, Code.allocaId?_replaceIncoming]
  exact h j hj

/-- The only code of the source in a tail is an alloca's, with its check. -/
theorem Tail.eq_of_ir {tail : List Code} (h : Tail frame F tail) {i : Code} (hi : i ∈ tail)
    (hir : i.isIr = true) :
    ∃ cont more, tail = i :: checkCode frame cont more ∧ moreBlock frame cont more ∈ F.blocks := by
  cases h with
  | source => exact absurd hi List.not_mem_nil
  | br dest =>
      rw [List.mem_singleton.mp hi] at hir
      cases hir
  | more cont more =>
      rw [moreBlock_not_ir frame cont more i hi] at hir
      cases hir
  | @check cont more hmore =>
      rw [checkCode_not_ir frame cont more i hi] at hir
      cases hir
  | @alloca j aj cont more hj hmore =>
      rcases List.mem_cons.mp hi with rfl | hi
      · exact ⟨cont, more, rfl, hmore⟩
      · rw [checkCode_not_ir frame cont more i hi] at hir
        cases hir

/-- Behind its code of the source a tail is still one. -/
theorem Tail.drop {pre post : List Code} (h : Tail frame F (pre ++ post))
    (hpre : ∀ i ∈ pre, i.isIr = true) : Tail frame F post := by
  cases pre with
  | nil => exact h
  | cons i pre =>
      obtain ⟨cont, more, htail, hmore⟩ := h.eq_of_ir List.mem_cons_self (hpre i List.mem_cons_self)
      rw [List.cons_append, List.cons.injEq] at htail
      have hnil : pre = [] := by
        refine List.eq_nil_iff_forall_not_mem.mpr fun j hj => ?_
        have hmem : j ∈ checkCode frame cont more := htail.2 ▸ List.mem_append_left _ hj
        have hir := hpre j (List.mem_cons_of_mem i hj)
        rw [checkCode_not_ir frame cont more j hmem] at hir
        cases hir
      rw [hnil, List.nil_append] at htail
      rw [htail.2]
      exact .check hmore

theorem Tail.mono {tail : List Code} (h : Tail frame F tail)
    (hmore : ∀ cont more, moreBlock frame cont more ∈ F.blocks →
      moreBlock frame cont more ∈ F'.blocks) :
    Tail frame F' tail := by
  cases h with
  | source => exact .source
  | br dest => exact .br dest
  | more cont more => exact .more cont more
  | check hmem => exact .check (hmore _ _ hmem)
  | alloca hi hmem => exact .alloca hi (hmore _ _ hmem)

/-- A tail has no PHI to be told of another block. -/
theorem Tail.map {tail : List Code} (h : Tail frame F tail) (old new : Label) :
    Tail frame F (tail.map (Code.replaceIncoming old new)) := by
  cases h with
  | source => exact .source
  | br dest => exact .br dest
  | more cont more =>
      rw [replaceIncoming_eq_self (moreBlock_phis frame cont more)]
      exact .more cont more
  | @check cont more hmem =>
      rw [replaceIncoming_eq_self (checkCode_phis frame cont more)]
      exact .check hmem
  | @alloca i ai cont more hi hmem =>
      rw [List.map_cons, replaceIncoming_eq_self (checkCode_phis frame cont more)]
      exact .alloca ((Code.allocaId?_replaceIncoming old new i).trans hi) hmem

namespace BlockShape

variable {insts pre post : List Code}

theorem mono (h : BlockShape frame F todo insts)
    (hmore : ∀ cont more, moreBlock frame cont more ∈ F.blocks →
      moreBlock frame cont more ∈ F'.blocks) :
    BlockShape frame F' todo insts := by
  obtain ⟨body, tail, hinsts, hbody, htail⟩ := h
  exact ⟨body, tail, hinsts, hbody, htail.mono hmore⟩

theorem map (h : BlockShape frame F todo insts) (old new : Label) :
    BlockShape frame F todo (insts.map (Code.replaceIncoming old new)) := by
  obtain ⟨body, tail, rfl, hbody, htail⟩ := h
  exact ⟨_, _, List.map_append, hbody.map old new, htail.map old new⟩

/-- Code in front of code of the source is code of the source, and no check is there. -/
theorem pending {i : Code} (h : BlockShape frame F todo (pre ++ i :: post)) (hi : i.isIr = true) :
    Pending todo pre := by
  obtain ⟨body, tail, heq, hbody, htail⟩ := h
  rcases List.append_eq_append_iff.mp heq with ⟨mid, rfl, -⟩ | ⟨mid, rfl, htail'⟩
  · exact fun j hj => hbody j (List.mem_append_left _ hj)
  · cases mid with
    | nil =>
        rw [List.append_nil]
        exact hbody
    | cons j mid =>
        -- the tail would have two instructions of the source
        rw [htail'] at htail
        obtain ⟨cont, more, hcheck, -⟩ :=
          htail.eq_of_ir (List.mem_append_right _ List.mem_cons_self) hi
        rw [List.cons_append, List.cons.injEq] at hcheck
        have hmem : i ∈ checkCode frame cont more :=
          hcheck.2 ▸ List.mem_append_right _ List.mem_cons_self
        rw [checkCode_not_ir frame cont more i hmem] at hi
        cases hi

/-- What stands behind code of the source. -/
theorem drop (h : BlockShape frame F todo (pre ++ post)) (hpre : ∀ i ∈ pre, i.isIr = true) :
    BlockShape frame F todo post := by
  obtain ⟨body, tail, heq, hbody, htail⟩ := h
  rcases List.append_eq_append_iff.mp heq with ⟨mid, rfl, rfl⟩ | ⟨mid, rfl, rfl⟩
  · exact ⟨mid, tail, rfl, fun i hi => hbody i (List.mem_append_right _ hi), htail⟩
  · refine ⟨[], post, rfl, fun _ h => absurd h List.not_mem_nil, ?_⟩
    exact htail.drop fun i hi => hpre i (List.mem_append_right _ hi)

/-- Code of the source with a branch. -/
theorem of_pending (h : Pending todo pre) (dest : Label) :
    BlockShape frame F todo (pre ++ [.br dest]) := ⟨pre, _, rfl, h, .br dest⟩

/-- An alloca that is not in the block is not pending there. -/
theorem visited {ai : ValueId} (h : BlockShape frame F (ai :: todo) insts)
    (hno : ∀ i ∈ insts, i.allocaId? ≠ some ai) : BlockShape frame F todo insts := by
  obtain ⟨body, tail, rfl, hbody, htail⟩ := h
  refine ⟨body, tail, rfl, fun i hi => ⟨(hbody i hi).1, fun x hx => ?_⟩, htail⟩
  rcases List.mem_cons.mp ((hbody i hi).2 x hx) with rfl | hx'
  · exact absurd hx (hno i (List.mem_append_left _ hi))
  · exact hx'

end BlockShape

/-! ## A cut -/

variable {old new more cont check : Label} {front back : List (BasicBlock Code)}
  {pre post body tail : List Code}

/-- A block with code of the source is no call of `__morestack`. -/
theorem Cut.more_mem (h : Cut F F' old new front pre post back) (hF : F.WellFormed) {i : Code}
    (hi : i ∈ pre ++ post) (hir : i.isIr = true)
    (hmem : moreBlock frame cont more ∈ F.blocks) : moreBlock frame cont more ∈ F'.blocks := by
  have hne : (moreBlock frame cont more).label ≠ old := by
    intro heq
    have hsome := (block?_eq_some hF.labels_nodup).mpr ⟨hmem, heq⟩
    rw [(block?_eq_some hF.labels_nodup).mpr ⟨h.cut_mem, rfl⟩, Option.some.injEq] at hsome
    have hinsts : pre ++ post = (moreBlock frame cont more).insts := congrArg BasicBlock.insts hsome
    rw [moreBlock_not_ir frame cont more i (hinsts ▸ hi)] at hir
    cases hir
  have hmem' := h.mem_other hmem hne
  have hsame :
      (moreBlock frame cont more).replacePhiUsesWith old new = moreBlock frame cont more := by
    unfold BasicBlock.replacePhiUsesWith
    rw [replaceIncoming_eq_self (moreBlock_phis frame cont more)]
  rwa [hsame] at hmem'

namespace Shaped

/-- There is no alloca in the entry. -/
theorem entry_alloca (h : Shaped frame padded todo F) {b : BasicBlock Code}
    (hb : b ∈ F.blocks.head?) : ∀ i ∈ b.insts, i.alloca? = none := by
  obtain ⟨pads, cont, more, hpads, hinsts, -⟩ := h.entry b hb
  rw [hinsts, List.forall_mem_append]
  exact ⟨fun i hi => Code.allocaId?_of_phi ((hpads i hi).imp_right And.right),
    fun i hi => Code.alloca?_of_not_ir (checkCode_not_ir frame cont more i hi)⟩

/-- **A cut at an alloca.** -/
theorem cut (h : Shaped frame padded todo F) (hF : F.WellFormed)
    (hcut : Cut F F' old new front pre post back) {i : Code} {ai : ValueId} (hi : i ∈ pre ++ post)
    (halloca : i.allocaId? = some ai) (hpre : Pending todo pre)
    (hpost : BlockShape frame F todo post) : Shaped frame padded todo F' := by
  have hmore : ∀ cont more, moreBlock frame cont more ∈ F.blocks →
      moreBlock frame cont more ∈ F'.blocks := fun cont more hmem =>
    hcut.more_mem hF hi (Code.isIr_of_alloca halloca) hmem
  refine ⟨hcut.forall_blocks' hF (fun b hb _ => ((h.blocks b hb).map old new).mono hmore) ?_
    (hpost.mono hmore), fun b hb => ?_⟩
  · exact ((BlockShape.of_pending hpre new).map old new).mono hmore
  · rw [hcut.blocks'] at hb
    cases front with
    | nil =>
        -- the entry has no alloca to be cut at
        have hhead : (⟨old, pre ++ post⟩ : BasicBlock Code) ∈ F.blocks.head? := by
          rw [hcut.blocks]
          rfl
        have hnone := h.entry_alloca hhead i hi
        unfold Code.allocaId? at halloca
        rw [hnone] at halloca
        cases halloca
    | cons c front =>
        obtain rfl : c.replacePhiUsesWith old new = b := Option.some.inj hb
        have hhead : c ∈ F.blocks.head? := by
          rw [hcut.blocks]
          rfl
        obtain ⟨pads, cont, more, hpads, hinsts, hmem⟩ := h.entry c hhead
        refine ⟨pads.map (Code.replaceIncoming old new), cont, more, ?_, ?_, hmore _ _ hmem⟩
        · rw [List.forall_mem_map]
          intro i hi
          rw [Code.isPhi_replaceIncoming, Code.isEhPad_replaceIncoming]
          exact hpads i hi
        · unfold BasicBlock.replacePhiUsesWith
          rw [hinsts, List.map_append, replaceIncoming_eq_self (checkCode_phis frame cont more)]

/-- **A check behind an alloca**, which is visited with it. -/
theorem checked {ai : ValueId} {i : Code} (h : Shaped frame padded (ai :: todo) F)
    (hF : F.WellFormed)
    (hcheck : Checked F F' frame check cont more front [i] tail back)
    (hi : i.allocaId? = some ai) : Shaped frame padded todo F' := by
  have hmem : moreBlock frame cont more ∈ F'.blocks := by
    rw [hcheck.blocks']
    exact List.mem_append_right _ (List.mem_cons_of_mem _ List.mem_cons_self)
  have hmore : ∀ cont more, moreBlock frame cont more ∈ F.blocks →
      moreBlock frame cont more ∈ F'.blocks := by
    intro cont' more' hmem
    refine hcheck.mem_other hmem fun heq => ?_
    have hinsts : [Code.callMorestack frame true, .br cont'] = [i, .br cont] :=
      congrArg BasicBlock.insts heq
    obtain ⟨rfl, -⟩ := List.cons.injEq .. ▸ hinsts
    cases hi
  refine ⟨hcheck.forall_blocks' hF (fun b hb hne => ?_) ?_ ⟨[], _, rfl, ?_, .more cont more⟩,
    fun b hb => ?_⟩
  · -- the alloca is in the checked block and so in no other
    refine ((h.blocks b hb).mono hmore).visited fun j hj heq => hne ?_
    exact congrArg BasicBlock.label (eq_of_id hF hb hcheck.check_mem hj List.mem_cons_self
      (Code.id?_of_alloca heq) (Code.id?_of_alloca hi)).1
  · exact ⟨[], _, rfl, fun _ h => absurd h List.not_mem_nil, .alloca hi hmem⟩
  · exact fun _ h => absurd h List.not_mem_nil
  · rw [hcheck.blocks'] at hb
    cases front with
    | nil =>
        have hhead : (⟨check, [i] ++ [.br cont]⟩ : BasicBlock Code) ∈ F.blocks.head? := by
          rw [hcheck.blocks]
          rfl
        have hnone := h.entry_alloca hhead i List.mem_cons_self
        unfold Code.allocaId? at hi
        rw [hnone] at hi
        cases hi
    | cons c front =>
        obtain rfl : c = b := Option.some.inj hb
        have hhead : c ∈ F.blocks.head? := by
          rw [hcheck.blocks]
          rfl
        obtain ⟨pads, cont, more, hpads, hinsts, hmem⟩ := h.entry c hhead
        exact ⟨pads, cont, more, hpads, hinsts, hmore _ _ hmem⟩

/-- Every alloca is for the loop, once the entry has none. -/
theorem mem_dynAllocas (hF : F.WellFormed)
    (hentry : ∀ b ∈ F.blocks.head?, ∀ i ∈ b.insts, i.alloca? = none) {b : BasicBlock Code}
    (hb : b ∈ F.blocks) {i : Code} (hi : i ∈ b.insts) {ai : ValueId}
    (hai : i.allocaId? = some ai) : ai ∈ dynAllocas F := by
  obtain ⟨⟨id, constSize, inAlloca⟩, halloca, rfl⟩ := Option.map_eq_some_iff.mp hai
  have hdyn : isStaticAlloca F b.label constSize inAlloca = false := by
    unfold isStaticAlloca
    cases hhead : F.blocks.head? with
    | none =>
        rw [Option.any_none, Bool.and_false, Bool.false_and]
    | some e =>
        have hne : e.label ≠ b.label := by
          intro heq
          have he : e ∈ F.blocks := List.mem_of_mem_head? hhead
          have hsome := (block?_eq_some hF.labels_nodup).mpr ⟨he, heq⟩
          rw [(block?_eq_some hF.labels_nodup).mpr ⟨hb, rfl⟩, Option.some.injEq] at hsome
          subst hsome
          rw [hentry b hhead i hi] at halloca
          cases halloca
        rw [Option.any_some, decide_eq_false hne, Bool.and_false, Bool.false_and]
  unfold dynAllocas
  refine List.mem_flatMap.mpr ⟨b, hb, List.mem_filterMap.mpr ⟨i, hi, ?_⟩⟩
  rcases i with (_ | _ | ⟨id', constSize', inAlloca', args⟩ | _ | _) | _ | _ | _ | _ | _ | _ | _
  case ir.alloca =>
    cases halloca
    show (if isStaticAlloca F b.label constSize inAlloca = true then none else some id) = some id
    rw [hdyn]
    rfl
  all_goals cases halloca

/-- **The first half of the pass** leaves every alloca to the loop. -/
theorem of_entry {F : Func Instruction} {F' : Func Code} (hF : F.code.WellFormed)
    (hedit : EntryEdit frame F.code F') :
    Shaped frame (∃ b ∈ F.code.blocks.head?, ∃ i ∈ b.insts, i.isEhPad = true) (dynAllocas F')
      F' := by
  have hF' := (hedit.preserved hF).wellFormed
  obtain ⟨hcut, hpads, hcheck, hblocks⟩ := hedit
  rename_i F₁ F₂ entry cont more pre post back
  have hsource : ∀ b ∈ F.code.blocks, ∀ i ∈ b.insts, i.isIr = true := by
    intro b hb i hi
    obtain ⟨b, -, rfl⟩ := List.mem_map.mp hb
    obtain ⟨i, -, rfl⟩ := List.mem_map.mp hi
    rfl
  have hhead : (⟨entry, pre ++ post⟩ : BasicBlock Code) ∈ F.code.blocks.head? := by
    rw [hcut.blocks]
    rfl
  have hpads' : ∀ i ∈ pre.map (Code.replaceIncoming entry cont), i.isPhi = true
      ∨ (∃ b ∈ F.code.blocks.head?, ∃ i ∈ b.insts, i.isEhPad = true) ∧ i.isEhPad = true := by
    rw [List.forall_mem_map]
    intro i hi
    rw [Code.isPhi_replaceIncoming, Code.isEhPad_replaceIncoming]
    refine (hpads i hi).imp_right fun hpad => ⟨⟨_, hhead, i, ?_, hpad⟩, hpad⟩
    exact List.mem_append_left _ hi
  have hir : ∀ i ∈ pre ++ post, i.isIr = true := hsource _ hcut.cut_mem
  have hmem : moreBlock frame cont more ∈ F'.blocks := by
    rw [hblocks, hcheck.blocks']
    exact List.mem_append_right _ (List.mem_cons_of_mem _ List.mem_cons_self)
  have hentry : ∀ b ∈ F'.blocks.head?, ∃ pads cont more,
      (∀ i ∈ pads, i.isPhi = true
        ∨ (∃ b ∈ F.code.blocks.head?, ∃ i ∈ b.insts, i.isEhPad = true) ∧ i.isEhPad = true)
        ∧ b.insts = pads ++ checkCode frame cont more ∧ moreBlock frame cont more ∈ F'.blocks := by
    intro b hb
    rw [hblocks, hcheck.blocks'] at hb
    obtain rfl := Option.some.inj hb
    exact ⟨_, cont, more, hpads', rfl, hmem⟩
  have hnone : ∀ b ∈ F'.blocks.head?, ∀ i ∈ b.insts, i.alloca? = none := by
    intro b hb
    obtain ⟨pads, cont, more, hpads, hinsts, -⟩ := hentry b hb
    rw [hinsts, List.forall_mem_append]
    exact ⟨fun i hi => Code.allocaId?_of_phi ((hpads i hi).imp_right And.right),
      fun i hi => Code.alloca?_of_not_ir (checkCode_not_ir frame cont more i hi)⟩
  -- a block of code of the source needs no more than that its allocas are collected
  have hpending : ∀ b ∈ F'.blocks, (∀ i ∈ b.insts, i.isIr = true) →
      BlockShape frame F' (dynAllocas F') b.insts := by
    intro b hb hir
    refine ⟨b.insts, [], (List.append_nil _).symm, fun i hi => ⟨hir i hi, fun ai hai => ?_⟩,
      .source⟩
    exact mem_dynAllocas hF' hnone hb hi hai
  have hF₁ := hcut.wellFormed hF
  have hother : ∀ b ∈ F₁.blocks, b.label ≠ entry → ∀ i ∈ b.insts, i.isIr = true := by
    refine hcut.forall_blocks' hF (fun b hb _ _ => ?_) (fun hne => absurd rfl hne) fun _ i hi =>
      hir i (List.mem_append_right _ hi)
    refine List.forall_mem_map.mpr fun i hi => ?_
    rw [Code.isIr_replaceIncoming]
    exact hsource b hb i hi
  have hshape : ∀ b ∈ F₂.blocks, b ∈ F'.blocks → BlockShape frame F' (dynAllocas F') b.insts := by
    refine hcheck.forall_blocks' hF₁ (fun b hb hne hb' => hpending b hb' (hother b hb hne))
      (fun _ => ⟨_, _, rfl, fun i hi => ?_, .check hmem⟩) fun _ =>
        ⟨[], _, rfl, fun _ h => absurd h List.not_mem_nil, .more cont more⟩
    have hno : i.allocaId? = none := Option.map_eq_none_iff.mpr
      (Code.allocaId?_of_phi ((hpads' i hi).imp_right And.right))
    obtain ⟨j, hj, rfl⟩ := List.mem_map.mp hi
    rw [hno, Code.isIr_replaceIncoming]
    exact ⟨hir j (List.mem_append_left _ hj), fun _ h => by cases h⟩
  exact ⟨fun b hb => hshape b (hblocks ▸ hb) hb, hentry⟩

/-- **One round of the loop.** -/
theorem round {ai : ValueId} (h : Shaped frame padded (ai :: todo) F) (hF : F.WellFormed)
    (hedit : AllocaEdit frame ai F F') : Shaped frame padded todo F' := by
  obtain ⟨halloca, hcut, hcut', hcheck⟩ := hedit
  rename_i F₁ F₂ parent allocaBB restBB more pre rest i front back front' back'
  have hi : i.allocaId? = some ai := Code.allocaId?_eq_some.mpr halloca
  have hir : i.isIr = true := Code.isIr_of_alloca hi
  have hir' : ∀ j ∈ [i], j.isIr = true := fun j hj => List.mem_singleton.mp hj ▸ hir
  have hblock := h.blocks _ hcut.cut_mem
  have hpre := hblock.pending hir
  have h₁ : Shaped frame padded (ai :: todo) F₁ := h.cut hF hcut
    (List.mem_append_right _ List.mem_cons_self) hi hpre (hblock.drop fun j hj => (hpre j hj).1)
  have hF₁ := hcut.wellFormed hF
  have hsingle : Pending (ai :: todo) [i] := by
    intro j hj
    rw [List.mem_singleton.mp hj, hi]
    exact ⟨hir, fun x hx => Option.some.inj hx ▸ List.mem_cons_self⟩
  have h₂ : Shaped frame padded (ai :: todo) F₂ := h₁.cut hF₁ hcut'
    (List.mem_append_left _ List.mem_cons_self) hi hsingle
    ((h₁.blocks _ hcut'.cut_mem).drop hir')
  exact h₂.checked (hcut'.wellFormed hF₁) hcheck hi

/-- An alloca that is nowhere needs no visit. -/
theorem absent {ai : ValueId} (h : Shaped frame padded (ai :: todo) F)
    (hnone : getParent F ai = none) :
    Shaped frame padded todo F := by
  refine ⟨fun b hb => (h.blocks b hb).visited fun i hi heq => ?_, h.entry⟩
  unfold getParent at hnone
  rw [List.findSome?_eq_none_iff] at hnone
  have hidx := Option.map_eq_none_iff.mp (hnone b hb)
  rw [List.findIdx?_eq_none_iff] at hidx
  rw [Code.allocaId?_eq_some, hidx i hi] at heq
  cases heq

/-- **The loop visits every alloca.** -/
theorem loop (ais : List ValueId) (h : Shaped frame padded ais F) (hF : F.WellFormed) :
    Shaped frame padded [] (ais.foldl (instrumentAlloca frame) F) := by
  induction ais generalizing F with
  | nil => exact h
  | cons ai ais ih =>
      refine ih ?_ (instrumentAlloca_preserved hF frame ai).wellFormed
      rcases instrumentAlloca_edit hF frame ai with hedit | ⟨hsame, hnone⟩
      · exact h.round hF hedit
      · rw [hsame]
        exact h.absent hnone

end Shaped

/-- What is gathered from the code of the source is what the pass found there. -/
theorem instrumentFunction_gather (clExtraPad : BitVec 32) {F : Func Instruction}
    (hF : F.code.WellFormed) {α : Type} {f : Code → Option α}
    (hf : ∀ old new i, f (i.replaceIncoming old new) = f i)
    (hno : ∀ i, i.isIr = false → f i = none) :
    (instrumentFunction clExtraPad F).1.blocks.flatMap (fun b => b.insts.filterMap f)
      = F.code.blocks.flatMap fun b => b.insts.filterMap f := by
  have hround : ∀ (ais : List ValueId) {G : Func Code}, G.WellFormed →
      (ais.foldl (instrumentAlloca (framePad clExtraPad)) G).blocks.flatMap
          (fun b => b.insts.filterMap f) = G.blocks.flatMap fun b => b.insts.filterMap f := by
    intro ais
    induction ais with
    | nil => exact fun _ => rfl
    | cons ai ais ih =>
        intro G hG
        refine (ih (instrumentAlloca_preserved hG _ ai).wellFormed).trans ?_
        rcases instrumentAlloca_edit hG (framePad clExtraPad) ai with hedit | ⟨hsame, -⟩
        · obtain ⟨-, hcut, hcut', hcheck⟩ := hedit
          rw [hcheck.gather' hno, hcut'.gather' (hf _ _) (hno _ rfl),
            hcut.gather' (hf _ _) (hno _ rfl)]
        · rw [hsame]
  unfold instrumentFunction
  split
  · rfl
  · have hedit := instrumentEntry_edit hF (framePad clExtraPad)
    refine (hround _ (hedit.preserved hF).wellFormed).trans ?_
    obtain ⟨hcut, -, hcheck, hblocks⟩ := hedit
    rw [hblocks, hcheck.gather' hno, hcut.gather' (hf _ _) (hno _ rfl)]

/-- **The shape of an instrumented function.** -/
theorem instrumentFunction_shaped (clExtraPad : BitVec 32) {F : Func Instruction}
    (hF : F.code.WellFormed) (hskip : shouldSkip F = false) :
    Shaped (framePad clExtraPad) (∃ b ∈ F.code.blocks.head?, ∃ i ∈ b.insts, i.isEhPad = true) []
      (instrumentFunction clExtraPad F).1 := by
  unfold instrumentFunction
  rw [if_neg (Bool.eq_false_iff.mp hskip)]
  have hedit := instrumentEntry_edit hF (framePad clExtraPad)
  exact (Shaped.of_entry hF hedit).loop _ (hedit.preserved hF).wellFormed

end Hopter.SplitStack
