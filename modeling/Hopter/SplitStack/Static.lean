import Hopter.SplitStack.Shape

/-!
# Static allocas

Whether an alloca is static depends on the block it stands in, and the pass makes
the old entry a block among others before it asks. So the function that is
instrumented has no static alloca left: the backend lowers each of them at run
time, behind the entry check, and each gets a check of its own.
-/

namespace Hopter.SplitStack

/-- The alloca `id` is static in `F`. -/
def IsStatic (F : Func Code) (id : ValueId) : Prop :=
  ∃ b ∈ F.blocks, ∃ i ∈ b.insts, ∃ a ∈ i.alloca?, a.1 = id ∧ isStaticAlloca F b.label a.2.1 a.2.2

instance (F : Func Code) (id : ValueId) : Decidable (IsStatic F id) :=
  inferInstanceAs (Decidable (∃ b ∈ F.blocks, _))

/-- The alloca `id` has a check directly behind it. -/
def HasCheck (frame : BitVec 64) (F : Func Code) (id : ValueId) : Prop :=
  ∃ b ∈ F.blocks, ∃ pre i cont more, b.insts = pre ++ i :: checkCode frame cont more
    ∧ i.allocaId? = some id ∧ moreBlock frame cont more ∈ F.blocks

/-- Static allocas of `F` are static in `F'`, and only the others get a check. -/
structure StaticAllocasStay (frame : BitVec 64) (F F' : Func Code) : Prop where
  static : ∀ id, IsStatic F id → IsStatic F' id
  dynamic : ∀ id, HasCheck frame F' id → ¬ IsStatic F id

variable {F : Func Code} {frame : BitVec 64} {padded : Prop}

/-- A static alloca is in the entry, with a constant size and not `inalloca`. -/
theorem isStatic_iff (hF : F.WellFormed) {id : ValueId} :
    IsStatic F id ↔ ∃ b ∈ F.blocks.head?, ∃ i ∈ b.insts, i.alloca? = some (id, true, false) := by
  constructor
  · rintro ⟨b, hb, i, hi, ⟨id, constSize, inAlloca⟩, halloca, rfl, hstatic⟩
    unfold isStaticAlloca at hstatic
    rw [Bool.and_eq_true, Bool.and_eq_true, Bool.not_eq_true'] at hstatic
    obtain ⟨⟨hconst, hhead⟩, hin⟩ := hstatic
    obtain ⟨e, he, hlabel⟩ := (Option.any_eq_true _ _).mp hhead
    have hlabel : e.label = b.label := of_decide_eq_true hlabel
    -- labels are given once
    have hsome := (block?_eq_some hF.labels_nodup).mpr ⟨List.mem_of_mem_head? he, hlabel⟩
    rw [(block?_eq_some hF.labels_nodup).mpr ⟨hb, rfl⟩, Option.some.injEq] at hsome
    subst hsome
    refine ⟨b, he, i, hi, ?_⟩
    rw [halloca]
    simp only at hconst hin
    rw [hconst, hin]
  · rintro ⟨b, hb, i, hi, halloca⟩
    refine ⟨b, List.mem_of_mem_head? hb, i, hi, _, halloca, rfl, ?_⟩
    have hhead : F.blocks.head? = some b := hb
    unfold isStaticAlloca
    rw [hhead, Option.any_some, decide_eq_true rfl]
    rfl

namespace Shaped

/-- There is no static alloca left. -/
theorem not_isStatic (h : Shaped frame padded [] F) (hF : F.WellFormed) (id : ValueId) :
    ¬ IsStatic F id := by
  rw [isStatic_iff hF]
  rintro ⟨b, hb, i, hi, halloca⟩
  rw [h.entry_alloca hb i hi] at halloca
  cases halloca

/-- Every alloca has a check. -/
theorem hasCheck (h : Shaped frame padded [] F) {b : BasicBlock Code} (hb : b ∈ F.blocks) {i : Code}
    (hi : i ∈ b.insts) {id : ValueId} (halloca : i.allocaId? = some id) : HasCheck frame F id := by
  obtain ⟨body, tail, hinsts, hbody, htail⟩ := h.blocks b hb
  rw [hinsts, List.mem_append] at hi
  rcases hi with hi | hi
  · exact absurd ((hbody i hi).2 id halloca) List.not_mem_nil
  · obtain ⟨cont, more, rfl, hmore⟩ := htail.eq_of_ir hi (Code.isIr_of_alloca halloca)
    exact ⟨b, hb, body, i, cont, more, hinsts, halloca, hmore⟩

end Shaped

/-- Every alloca of the source gets a check, the static ones too. -/
theorem alloca_hasCheck {clExtraPad : BitVec 32} {F : Func Instruction} (hF : F.code.WellFormed)
    (hskip : shouldSkip F = false) {b : BasicBlock Code} (hb : b ∈ F.code.blocks) {i : Code}
    (hi : i ∈ b.insts) {id : ValueId} (halloca : i.allocaId? = some id) :
    HasCheck (framePad clExtraPad) (instrumentFunction clExtraPad F).1 id := by
  have hmem : id ∈ F.code.blocks.flatMap fun b => b.insts.filterMap Code.allocaId? :=
    List.mem_flatMap.mpr ⟨b, hb, List.mem_filterMap.mpr ⟨i, hi, halloca⟩⟩
  rw [← instrumentFunction_gather clExtraPad hF Code.allocaId?_replaceIncoming
    fun i hi => Option.map_eq_none_iff.mpr (Code.alloca?_of_not_ir hi)] at hmem
  obtain ⟨b', hb', hmem⟩ := List.mem_flatMap.mp hmem
  obtain ⟨i', hi', halloca'⟩ := List.mem_filterMap.mp hmem
  exact (instrumentFunction_shaped clExtraPad hF hskip).hasCheck hb' hi' halloca'

/-- **Static allocas stay static** when there are none. -/
theorem instrumentFunction_staticAllocas_iff (clExtraPad : BitVec 32) (F : Func Instruction)
    (hF : F.code.WellFormed) (hskip : shouldSkip F = false) :
    StaticAllocasStay (framePad clExtraPad) F.code (instrumentFunction clExtraPad F).1
      ↔ ∀ entry ∈ F.blocks.head?, ∀ id args,
        Instruction.alloca id true false args ∉ entry.insts := by
  have hF' := (instrumentFunction_preserved clExtraPad hF hskip).wellFormed
  have hshaped := instrumentFunction_shaped clExtraPad hF hskip
  constructor
  · intro hstay entry hentry id args hmem
    have hstatic : IsStatic F.code id := by
      refine (isStatic_iff hF).mpr ⟨⟨entry.label, entry.insts.map .ir⟩, ?_, _,
        List.mem_map_of_mem hmem, rfl⟩
      unfold Func.code
      rw [List.head?_map, hentry]
      rfl
    exact hshaped.not_isStatic hF' id (hstay.static id hstatic)
  · intro hno
    have hnone : ∀ id, ¬ IsStatic F.code id := by
      intro id
      rw [isStatic_iff hF]
      rintro ⟨b, hb, i, hi, halloca⟩
      unfold Func.code at hb
      rw [List.head?_map, Option.mem_def, Option.map_eq_some_iff] at hb
      obtain ⟨entry, hentry, rfl⟩ := hb
      obtain ⟨i, hi', rfl⟩ := List.mem_map.mp hi
      cases i with
      | alloca id' constSize inAlloca args =>
          cases halloca
          exact hno entry hentry id args hi'
      | _ => cases halloca
    exact ⟨fun id hstatic => absurd hstatic (hnone id), fun id _ => hnone id⟩

/-- `loopFunc` has a fixed-size local. -/
theorem loop_static_lost : loopFunc.code.WellFormed ∧ shouldSkip loopFunc = false
    ∧ ¬ StaticAllocasStay (framePad 0) loopFunc.code (instrumentFunction 0 loopFunc).1 := by
  refine ⟨by decide, by decide, fun hstay => ?_⟩
  have hstatic : IsStatic loopFunc.code 1 := by decide
  have hlost : ¬ IsStatic (instrumentFunction 0 loopFunc).1 1 := by decide
  exact hlost (hstay.static 1 hstatic)

/-- A variable-length array, and what is done with it. -/
def vlaFunc : Func Instruction where
  name := "vla_test"
  attrs := []
  blocks := [⟨0, [.alloca 1 false false [.other 0], .op 2 [.value 1], .term 3 [.value 2] []]⟩]

theorem vla_static_kept :
    StaticAllocasStay (framePad 0) vlaFunc.code (instrumentFunction 0 vlaFunc).1 := by
  refine (instrumentFunction_staticAllocas_iff 0 vlaFunc (by decide) (by decide)).mpr ?_
  intro entry hentry id args hmem
  obtain rfl := Option.some.inj hentry
  simp at hmem

end Hopter.SplitStack
