import Mathlib.Data.List.TakeWhile
import Hopter.SplitStack.Check

/-!
# What the pass does to a function

The pass as a sequence of cuts and checks. `EntryEdit` is its first half,
`AllocaEdit` one round of its loop, with the places where they cut. What holds of
a function the pass has been over is shown from these two and no longer from the
code of the pass.
-/

namespace Hopter.SplitStack

variable {F F' : Func Code} {old new more : Label}

/-! ## The edits -/

/-- **`insertCheck` puts a check** at the end of a block that branches to the next one. -/
theorem insertCheck_checked (hF : F.WellFormed) (frame : BitVec 64)
    {front back : List (BasicBlock Code)}
    {body tail : List Code}
    (hblocks : F.blocks = front ++ ⟨old, body ++ [.br new]⟩ :: ⟨new, tail⟩ :: back)
    (hmore : more ∉ F.labels) (htail : ∀ i ∈ tail, i.isPhi = false) :
    Checked F (insertCheck F frame old new more) frame old new more front body tail back := by
  refine ⟨hblocks, ?_, hmore, htail⟩
  have hnodup := hF.labels_nodup
  unfold Func.labels at hnodup
  rw [hblocks] at hnodup
  simp only [List.map_append, List.map_cons, List.nodup_append, List.nodup_cons, List.mem_cons,
    not_or] at hnodup
  obtain ⟨-, ⟨⟨hne, hback⟩, hback', -⟩, hfront⟩ := hnodup
  show (F.blocks.flatMap _) = _
  rw [hblocks, List.flatMap_append, List.flatMap_cons, List.flatMap_cons, flatMap_other,
    flatMap_other]
  · rw [if_neg hne, if_pos rfl, if_pos rfl, if_neg (Ne.symm hne), List.dropLast_concat]
    rfl
  · intro b hb
    have hmem : b.label ∈ back.map (·.label) := List.mem_map_of_mem hb
    have hne' : b.label ≠ new := fun heq => hback' (heq ▸ hmem)
    have hne'' : b.label ≠ old := fun heq => hback (heq ▸ hmem)
    rw [if_neg hne', if_neg hne'']
    rfl
  · intro b hb
    have hmem : b.label ∈ front.map (·.label) := List.mem_map_of_mem hb
    rw [if_neg fun heq => hfront _ hmem new (Or.inr (Or.inl rfl)) heq,
      if_neg fun heq => hfront _ hmem old (Or.inl rfl) heq]
    rfl

/-- The blocks of a cut function. -/
theorem Cut.blocks_cut {front back : List (BasicBlock Code)} {pre post : List Code}
    (h : Cut F F' old new front pre post back) :
    F'.blocks = front.map (·.replacePhiUsesWith old new)
      ++ ⟨old, pre.map (Code.replaceIncoming old new) ++ [.br new]⟩ :: ⟨new, post⟩
      :: back.map (·.replacePhiUsesWith old new) := by
  have hpost : (⟨new, post⟩ : BasicBlock Code).replacePhiUsesWith old new = ⟨new, post⟩ := by
    unfold BasicBlock.replacePhiUsesWith
    rw [replaceIncoming_eq_self h.post_phis]
  have hpre : (⟨old, pre ++ [.br new]⟩ : BasicBlock Code).replacePhiUsesWith old new
      = ⟨old, pre.map (Code.replaceIncoming old new) ++ [.br new]⟩ := by
    unfold BasicBlock.replacePhiUsesWith
    rw [List.map_append]
    rfl
  rw [h.blocks', List.map_append, List.map_cons, List.map_cons, hpre, hpost]

/-! ## The entry -/

/-- A block does not end before its terminator. -/
theorem drop_ne_nil {insts : List Code} {k : ℕ} (h : Func.OneTerminator insts)
    (hk : ∀ i ∈ insts.take k, i.isTerm = false) : insts.drop k ≠ [] := by
  intro hnil
  have htake : insts.take k = insts := by
    have happend := List.take_append_drop k insts
    rwa [hnil, List.append_nil] at happend
  obtain ⟨t, ht, hterm⟩ := h.1
  rw [htake] at hk
  rw [hk t (List.mem_of_getLast? ht)] at hterm
  cases hterm

/-- An EH pad. -/
def Code.isEhPad : Code → Bool
  | .ir (.ehPad _ _) => true
  | _ => false

/-- `getFirstInsertionPt` is in front of the terminator, and behind PHIs and EH pads only. -/
theorem getFirstInsertionPt_spec {insts : List Code} (hterm : Func.OneTerminator insts)
    (hphis : insts.Pairwise fun i j => j.isPhi = true → i.isPhi = true) :
    insts.drop (getFirstInsertionPt insts) ≠ []
      ∧ (∀ i ∈ insts.drop (getFirstInsertionPt insts), i.isPhi = false)
      ∧ ∀ i ∈ insts.take (getFirstInsertionPt insts), i.isPhi = true ∨ i.isEhPad = true := by
  have hinsts : insts.takeWhile Code.isPhi ++ afterPhis insts = insts :=
    List.takeWhile_append_dropWhile
  have htake : insts.take (insts.takeWhile Code.isPhi).length = insts.takeWhile Code.isPhi := by
    have hleft : (insts.takeWhile Code.isPhi ++ afterPhis insts).take
        (insts.takeWhile Code.isPhi).length = insts.takeWhile Code.isPhi := List.take_left
    rwa [hinsts] at hleft
  have hdrop : insts.drop (insts.takeWhile Code.isPhi).length = afterPhis insts := by
    have hright : (insts.takeWhile Code.isPhi ++ afterPhis insts).drop
        (insts.takeWhile Code.isPhi).length = afterPhis insts := List.drop_left
    rwa [hinsts] at hright
  have hphi : ∀ i ∈ insts.takeWhile Code.isPhi, i.isPhi = true := fun i hi =>
    List.mem_takeWhile_imp hi
  have hno : ∀ i ∈ insts.takeWhile Code.isPhi, i.isTerm = false := by
    intro i hi
    have hphi := hphi i hi
    cases i with
    | ir i =>
        cases i with
        | phi id incoming => rfl
        | _ => cases hphi
    | _ => cases hphi
  unfold getFirstInsertionPt
  dsimp only
  split
  · rename_i id args hpad
    have hpre : insts.take ((insts.takeWhile Code.isPhi).length + 1)
        = insts.takeWhile Code.isPhi ++ [.ir (.ehPad id args)] := by
      rw [List.take_add_one, htake, hpad]
      rfl
    rw [hpre]
    refine ⟨drop_ne_nil hterm fun i hi => ?_, fun i hi => ?_, fun i hi => ?_⟩
    · rw [hpre] at hi
      rcases List.mem_append.mp hi with hi | hi
      · exact hno i hi
      · rw [List.mem_singleton.mp hi]
        rfl
    · refine not_phi_of_mem_afterPhis hphis i ?_
      rw [← hdrop]
      rw [← List.drop_drop] at hi
      exact List.mem_of_mem_drop hi
    · rcases List.mem_append.mp hi with hi | hi
      · exact Or.inl (hphi i hi)
      · rw [List.mem_singleton.mp hi]
        exact Or.inr rfl
  · refine ⟨drop_ne_nil hterm fun i hi => hno i (htake ▸ hi), fun i hi => ?_, fun i hi => ?_⟩
    · exact not_phi_of_mem_afterPhis hphis i (hdrop ▸ hi)
    · exact Or.inl (hphi i (htake ▸ hi))

/-- The first half of the pass, up to attributes: the entry is cut behind its PHIs, and a check is
put between the halves. -/
inductive EntryEdit (frame : BitVec 64) (F F' : Func Code) : Prop where
  | mk {F₁ F₂ : Func Code} {entry cont more : Label} {pre post : List Code}
      {back : List (BasicBlock Code)} (cut : Cut F F₁ entry cont [] pre post back)
      (pre_phis : ∀ i ∈ pre, i.isPhi = true ∨ i.isEhPad = true)
      (checked : Checked F₁ F₂ frame entry cont more [] (pre.map (Code.replaceIncoming entry cont))
        post (back.map (·.replacePhiUsesWith entry cont)))
      (blocks : F'.blocks = F₂.blocks)

/-- **The first half of `instrumentFunction`.** -/
theorem instrumentEntry_edit (hF : F.WellFormed) (frame : BitVec 64) :
    EntryEdit frame F (instrumentEntry frame F) := by
  unfold instrumentEntry
  split
  · rename_i hnil
    exact absurd hnil hF.nonempty
  · rename_i b bs hblocks
    have hb : b ∈ F.blocks := hblocks ▸ List.mem_cons_self
    obtain ⟨hne, hphis, hpre⟩ :=
      getFirstInsertionPt_spec (hF.oneTerminator b hb) (hF.phisFirst b hb)
    generalize getFirstInsertionPt b.insts = k at hne hphis hpre ⊢
    have hinsts : (⟨b.label, b.insts.take k ++ b.insts.drop k⟩ : BasicBlock Code) = b := by
      rw [List.take_append_drop]
    have hmem : (⟨b.label, b.insts.take k ++ b.insts.drop k⟩ : BasicBlock Code) ∈ F.blocks := by
      rwa [hinsts]
    have hlen : (b.insts.take k).length = k := by
      rw [List.length_take]
      exact Nat.min_eq_left (Nat.le_of_not_le fun hle => hne (List.drop_eq_nil_of_le hle))
    obtain ⟨front, back, hcut⟩ := splitBasicBlock_cut hF hmem (freshLabel_not_mem F) hne hphis
    rw [hlen] at hcut
    -- nothing stands in front of the entry
    have hfront : front = [] := by
      cases front with
      | nil => rfl
      | cons c front =>
          have hhead : b = c := by
            have heq := hblocks.symm.trans hcut.blocks
            rw [List.cons_append, List.cons.injEq] at heq
            exact heq.1
          exact absurd (congrArg BasicBlock.label hhead.symm)
            (hcut.other hF (Or.inl List.mem_cons_self)).2
    subst hfront
    have hchecked := insertCheck_checked (hcut.wellFormed hF) frame hcut.blocks_cut
      (freshLabel_not_mem _) hphis
    exact .mk hcut hpre hchecked rfl

/-! ## The loop over the allocas -/

/-- The alloca is where `getParent` says. -/
theorem getParent_spec {ai : ValueId} {parent : Label} {k : ℕ}
    (h : getParent F ai = some (parent, k)) :
    ∃ b ∈ F.blocks, b.label = parent ∧ ∃ i rest, i.isAlloca ai = true ∧ k < b.insts.length
      ∧ b.insts.drop k = i :: rest := by
  unfold getParent at h
  obtain ⟨b, hb, hidx⟩ := List.exists_of_findSome?_eq_some h
  obtain ⟨k', hk', heq⟩ := Option.map_eq_some_iff.mp hidx
  cases heq
  obtain ⟨hlt, halloca, -⟩ := List.findIdx?_eq_some_iff_getElem.mp hk'
  exact ⟨b, hb, rfl, _, _, halloca, hlt, List.drop_eq_getElem_cons hlt⟩

/-- One round of the loop: the block of the alloca is cut in front of it and behind it, and a check
is put behind it. -/
inductive AllocaEdit (frame : BitVec 64) (ai : ValueId) (F F' : Func Code) : Prop where
  | mk {F₁ F₂ : Func Code} {parent allocaBB restBB more : Label} {pre rest : List Code} {i : Code}
      {front back : List (BasicBlock Code)} (alloca : i.isAlloca ai = true)
      (cut : Cut F F₁ parent allocaBB front pre (i :: rest) back)
      {front' back' : List (BasicBlock Code)}
      (cut' : Cut F₁ F₂ allocaBB restBB front' [i] rest back')
      (checked : Checked F₂ F' frame allocaBB restBB more
        (front'.map (·.replacePhiUsesWith allocaBB restBB)) [i] rest
        (back'.map (·.replacePhiUsesWith allocaBB restBB)))

/-- An alloca is neither a PHI nor a terminator. -/
theorem Code.isAlloca_spec {i : Code} {ai : ValueId} (h : i.isAlloca ai = true) :
    i.isPhi = false ∧ i.isTerm = false ∧ i.id? = some ai := by
  cases i with
  | ir i =>
      cases i with
      | alloca id constSize inAlloca args => exact ⟨rfl, rfl, congrArg some (eq_of_beq h)⟩
      | _ => cases h
  | _ => cases h

/-- **One round of the loop**, if the alloca is there. -/
theorem instrumentAlloca_edit (hF : F.WellFormed) (frame : BitVec 64) (ai : ValueId) :
    AllocaEdit frame ai F (instrumentAlloca frame F ai)
      ∨ instrumentAlloca frame F ai = F ∧ getParent F ai = none := by
  unfold instrumentAlloca
  split
  · rename_i hnone
    exact Or.inr ⟨rfl, hnone⟩
  · rename_i parent k hparent
    obtain ⟨b, hb, rfl, i, rest, halloca, hlt, hdrop⟩ := getParent_spec hparent
    obtain ⟨hphi, hterm, -⟩ := Code.isAlloca_spec halloca
    have hinsts : b.insts = b.insts.take k ++ i :: rest := by
      rw [← hdrop, List.take_append_drop]
    have hmem : (⟨b.label, b.insts.take k ++ i :: rest⟩ : BasicBlock Code) ∈ F.blocks := by
      rwa [← hinsts]
    have hlen : (b.insts.take k).length = k := by
      rw [List.length_take]
      exact Nat.min_eq_left (Nat.le_of_lt hlt)
    -- behind an alloca there are no PHIs, and there is the terminator
    have hpair : (i :: rest).Pairwise fun i j => j.isPhi = true → i.isPhi = true :=
      hdrop ▸ (hF.phisFirst b hb).drop
    have hphis : ∀ j ∈ i :: rest, j.isPhi = false := by
      refine List.forall_mem_cons.mpr ⟨hphi, fun j hj => Bool.eq_false_iff.mpr fun hphi' => ?_⟩
      rw [(List.pairwise_cons.mp hpair).1 j hj hphi'] at hphi
      cases hphi
    have hrest : rest ≠ [] := by
      rintro rfl
      have hone := hF.oneTerminator b hb
      rw [hinsts] at hone
      obtain ⟨t, ht, hterm'⟩ := (terminators_append (List.cons_ne_nil _ _) hone).2.1
      rw [List.getLast?_singleton] at ht
      cases ht
      rw [hterm] at hterm'
      cases hterm'
    obtain ⟨front, back, hcut⟩ := splitBasicBlock_cut hF hmem (freshLabel_not_mem F)
      (List.cons_ne_nil _ _) hphis
    rw [hlen] at hcut
    have hF' := hcut.wellFormed hF
    have hmem' : (⟨F.freshLabel, [i] ++ rest⟩ : BasicBlock Code)
        ∈ (splitBasicBlock F b.label k F.freshLabel).blocks := by
      rw [hcut.blocks_cut]
      exact List.mem_append_right _ (List.mem_cons_of_mem _ List.mem_cons_self)
    have hphis' : ∀ j ∈ rest, j.isPhi = false := fun j hj => hphis j (List.mem_cons_of_mem _ hj)
    obtain ⟨front', back', hcut'⟩ := splitBasicBlock_cut hF' hmem' (freshLabel_not_mem _) hrest
      hphis'
    have hi : [i].map (Code.replaceIncoming F.freshLabel
        (splitBasicBlock F b.label k F.freshLabel).freshLabel) = [i] :=
      replaceIncoming_eq_self fun j hj => List.mem_singleton.mp hj ▸ hphi
    have hblocks := hcut'.blocks_cut
    rw [hi] at hblocks
    exact Or.inl (.mk halloca hcut hcut' (insertCheck_checked (hcut'.wellFormed hF') frame hblocks
      (freshLabel_not_mem _) hphis'))

end Hopter.SplitStack
