import Mathlib.Data.List.Find
import Hopter.SplitStack.Pass
import Hopter.SplitStack.Shared

/-!
# Cutting a block

`Cut F F' old new` says what `splitBasicBlock` leaves. The rest of the block goes
to a block of its own, and the edges out of it now start there, so a list of
predecessors changes by a renaming and nothing else. Everything the verifier asks
for follows from that.

For the simulation a position in the old block is either still in front of the
cut, with the branch to the new block instead of the rest, or already behind it.
-/

namespace Hopter.SplitStack

open Conc

variable {V W : Type} {F F' : Func Code} {sem : Semantics V W} {old new : Label}

/-! ## Telling the PHIs -/

theorem rename_of_ne {L : Label} (h : L ≠ old) : rename old new L = L := if_neg h

theorem rename_self (old new : Label) : rename old new old = new := if_pos rfl

namespace Code

variable (i : Code)

@[simp] theorem isPhi_replaceIncoming : (i.replaceIncoming old new).isPhi = i.isPhi := by
  rcases i with (_ | _ | _ | _ | _) | _ | _ | _ | _ | _ | _ | _ <;> rfl

@[simp] theorem isTerm_replaceIncoming : (i.replaceIncoming old new).isTerm = i.isTerm := by
  rcases i with (_ | _ | _ | _ | _) | _ | _ | _ | _ | _ | _ | _ <;> rfl

@[simp] theorem succs_replaceIncoming : (i.replaceIncoming old new).succs = i.succs := by
  rcases i with (_ | _ | _ | _ | _) | _ | _ | _ | _ | _ | _ | _ <;> rfl

@[simp] theorem id?_replaceIncoming : (i.replaceIncoming old new).id? = i.id? := by
  rcases i with (_ | _ | _ | _ | _) | _ | _ | _ | _ | _ | _ | _ <;> rfl

@[simp] theorem check?_replaceIncoming : (i.replaceIncoming old new).check? = i.check? := by
  rcases i with (_ | _ | _ | _ | _) | _ | _ | _ | _ | _ | _ | _ <;> rfl

theorem incoming?_replaceIncoming :
    (i.replaceIncoming old new).incoming?
      = i.incoming?.map fun inc => inc.map fun p => (p.1, rename old new p.2) := by
  rcases i with (_ | _ | _ | _ | _) | _ | _ | _ | _ | _ | _ | _ <;> rfl

variable {i}

theorem replaceIncoming_of_not_phi (h : i.isPhi = false) : i.replaceIncoming old new = i := by
  rcases i with (_ | _ | _ | _ | _) | _ | _ | _ | _ | _ | _ | _ <;> first | rfl | cases h

/-- A PHI without an entry for `old` stays as it is. -/
theorem replaceIncoming_of_not_mem
    (h : ∀ incoming ∈ i.incoming?, old ∉ incoming.map Prod.snd) :
    i.replaceIncoming old new = i := by
  cases hi : i.isPhi with
  | false => exact replaceIncoming_of_not_phi hi
  | true =>
      cases i with
      | ir i =>
          cases i with
          | phi id incoming =>
              have hinc : (incoming.map fun p => (p.1, rename old new p.2)) = incoming := by
                refine (List.map_congr_left fun p hp => ?_).trans (List.map_id incoming)
                have hne : p.2 ≠ old := fun heq => h incoming rfl (heq ▸ List.mem_map_of_mem hp)
                rw [rename_of_ne hne]
                rfl
              simp only [replaceIncoming, hinc]
          | _ => cases hi
      | _ => cases hi

end Code

theorem replaceIncoming_eq_self {insts : List Code} (h : ∀ i ∈ insts, i.isPhi = false) :
    insts.map (Code.replaceIncoming old new) = insts :=
  (List.map_congr_left fun i hi => Code.replaceIncoming_of_not_phi (h i hi)).trans
    (List.map_id insts)

theorem afterPhis_replaceIncoming (insts : List Code) :
    afterPhis (insts.map (Code.replaceIncoming old new))
      = (afterPhis insts).map (Code.replaceIncoming old new) := by
  unfold afterPhis
  rw [List.dropWhile_map]
  exact congrArg (fun p => (insts.dropWhile p).map _) (funext Code.isPhi_replaceIncoming)

namespace BasicBlock

variable (b : BasicBlock Code)

@[simp] theorem label_replacePhiUsesWith : (b.replacePhiUsesWith old new).label = b.label := rfl

@[simp] theorem succs_replacePhiUsesWith : (b.replacePhiUsesWith old new).succs = b.succs := by
  unfold replacePhiUsesWith succs
  rw [List.flatMap_map]
  exact congrArg (List.flatMap · b.insts) (funext Code.succs_replaceIncoming)

@[simp] theorem edgesTo_replacePhiUsesWith (dest : Label) :
    (b.replacePhiUsesWith old new).edgesTo dest = b.edgesTo dest := by
  unfold edgesTo
  rw [succs_replacePhiUsesWith, label_replacePhiUsesWith]

theorem gather_replacePhiUsesWith {α : Type} {f : Code → Option α}
    (hf : ∀ i, f (i.replaceIncoming old new) = f i) :
    (b.replacePhiUsesWith old new).insts.filterMap f = b.insts.filterMap f := by
  unfold replacePhiUsesWith
  rw [List.filterMap_map]
  exact congrArg (List.filterMap · b.insts) (funext hf)

end BasicBlock

/-! ## Where the terminator goes -/

theorem terminators_append {pre post : List Code} (hne : post ≠ [])
    (h : Func.OneTerminator (pre ++ post)) :
    (∀ i ∈ pre, i.isTerm = false) ∧ Func.OneTerminator post := by
  obtain ⟨hlast, hbody⟩ := h
  rw [List.getLast?_append_of_ne_nil _ hne] at hlast
  rw [List.dropLast_append_of_ne_nil hne] at hbody
  exact ⟨fun i hi => hbody i (List.mem_append_left _ hi),
    hlast, fun i hi => hbody i (List.mem_append_right _ hi)⟩

theorem succs_of_no_term {insts : List Code} (h : ∀ i ∈ insts, i.isTerm = false) :
    insts.flatMap Code.succs = [] :=
  List.flatMap_eq_nil_iff.mpr fun i hi => Code.succs_of_not_term (h i hi)

/-! ## What a cut leaves -/

/-- `F'` is `F` with the block `old` cut in two between `pre` and `post`. -/
structure Cut (F F' : Func Code) (old new : Label) (front : List (BasicBlock Code))
    (pre post : List Code) (back : List (BasicBlock Code)) : Prop where
  blocks : F.blocks = front ++ ⟨old, pre ++ post⟩ :: back
  blocks' : F'.blocks = (front ++ ⟨old, pre ++ [.br new]⟩ :: ⟨new, post⟩ :: back).map
    fun b => b.replacePhiUsesWith old new
  fresh : new ∉ F.labels
  post_ne : post ≠ []
  post_phis : ∀ i ∈ post, i.isPhi = false

namespace Cut

variable {front back : List (BasicBlock Code)} {pre post : List Code}

theorem labels (h : Cut F F' old new front pre post back) :
    F.labels = front.map (·.label) ++ old :: back.map (·.label) := by
  unfold Func.labels
  rw [h.blocks, List.map_append, List.map_cons]

theorem labels' (h : Cut F F' old new front pre post back) :
    F'.labels = front.map (·.label) ++ old :: new :: back.map (·.label) := by
  unfold Func.labels
  rw [h.blocks', List.map_map, List.map_append, List.map_cons, List.map_cons]
  rfl

theorem labels_perm (h : Cut F F' old new front pre post back) :
    F'.labels.Perm (new :: F.labels) := by
  rw [h.labels, h.labels', List.append_cons]
  refine List.perm_middle.trans ?_
  rw [← List.append_cons]

theorem mem_labels' (h : Cut F F' old new front pre post back) {L : Label} :
    L ∈ F'.labels ↔ L = new ∨ L ∈ F.labels := by
  rw [h.labels_perm.mem_iff, List.mem_cons]

theorem old_mem (h : Cut F F' old new front pre post back) : old ∈ F.labels := by
  rw [h.labels]
  exact List.mem_append_right _ List.mem_cons_self

theorem old_ne_new (h : Cut F F' old new front pre post back) : old ≠ new := fun heq =>
  h.fresh (heq ▸ h.old_mem)

/-- The blocks that are not cut. -/
theorem other (h : Cut F F' old new front pre post back) (hF : F.WellFormed)
    {b : BasicBlock Code} (hb : b ∈ front ∨ b ∈ back) : b ∈ F.blocks ∧ b.label ≠ old := by
  have hnodup := hF.labels_nodup
  rw [h.labels, List.nodup_append, List.nodup_cons] at hnodup
  obtain ⟨-, ⟨hback, -⟩, hfront⟩ := hnodup
  rw [h.blocks]
  rcases hb with hb | hb
  · refine ⟨List.mem_append_left _ hb, fun heq => ?_⟩
    exact hfront _ (List.mem_map_of_mem hb) old List.mem_cons_self heq
  · refine ⟨List.mem_append_right _ (List.mem_cons_of_mem _ hb), fun heq => ?_⟩
    exact hback (heq ▸ List.mem_map_of_mem hb)

theorem cut_mem (h : Cut F F' old new front pre post back) :
    (⟨old, pre ++ post⟩ : BasicBlock Code) ∈ F.blocks := by
  rw [h.blocks]
  exact List.mem_append_right _ List.mem_cons_self

/-- A block that is not cut stays, up to what its PHIs are told. -/
theorem mem_other (h : Cut F F' old new front pre post back) {b : BasicBlock Code}
    (hb : b ∈ F.blocks) (hne : b.label ≠ old) : b.replacePhiUsesWith old new ∈ F'.blocks := by
  rw [h.blocks, List.mem_append, List.mem_cons] at hb
  rw [h.blocks']
  refine List.mem_map_of_mem ?_
  rw [List.mem_append, List.mem_cons, List.mem_cons]
  rcases hb with hb | rfl | hb
  · exact Or.inl hb
  · exact absurd rfl hne
  · exact Or.inr (Or.inr (Or.inr hb))

/-- What holds of the blocks that are not cut, and of the two halves, holds of every block. -/
theorem forall_blocks' (h : Cut F F' old new front pre post back) (hF : F.WellFormed)
    {P : BasicBlock Code → Prop}
    (hother : ∀ b ∈ F.blocks, b.label ≠ old → P (b.replacePhiUsesWith old new))
    (hpre : P ((⟨old, pre ++ [.br new]⟩ : BasicBlock Code).replacePhiUsesWith old new))
    (hpost : P ⟨new, post⟩) : ∀ b ∈ F'.blocks, P b := by
  intro b hb
  rw [h.blocks', List.mem_map] at hb
  obtain ⟨b, hb, rfl⟩ := hb
  rw [List.mem_append, List.mem_cons, List.mem_cons] at hb
  rcases hb with hb | rfl | rfl | hb
  · exact hother b (h.other hF (Or.inl hb)).1 (h.other hF (Or.inl hb)).2
  · exact hpre
  · unfold BasicBlock.replacePhiUsesWith
    rwa [replaceIncoming_eq_self h.post_phis]
  · exact hother b (h.other hF (Or.inr hb)).1 (h.other hF (Or.inr hb)).2

/-- In front of the cut there is no terminator, and behind it there is one. -/
theorem terminators (h : Cut F F' old new front pre post back) (hF : F.WellFormed) :
    (∀ i ∈ pre, i.isTerm = false) ∧ Func.OneTerminator post := by
  exact terminators_append h.post_ne (hF.oneTerminator _ h.cut_mem)

theorem succs_pre (h : Cut F F' old new front pre post back) (hF : F.WellFormed) :
    pre.flatMap Code.succs = [] := succs_of_no_term (h.terminators hF).1

/-! ## Predecessors -/

/-- A block that is not cut keeps its edges. -/
theorem edgesTo_other {b : BasicBlock Code} (hb : b.label ≠ old) (dest : Label) :
    b.edgesTo dest = (b.edgesTo dest).map (rename old new) := by
  unfold BasicBlock.edgesTo
  rw [List.map_map]
  refine List.map_congr_left fun L _ => ?_
  exact (rename_of_ne hb).symm

theorem edgesTo_others {bs : List (BasicBlock Code)} (hbs : ∀ b ∈ bs, b.label ≠ old)
    (dest : Label) :
    bs.flatMap (·.edgesTo dest) = (bs.flatMap (·.edgesTo dest)).map (rename old new) := by
  rw [List.map_flatMap]
  exact List.flatMap_congr fun b hb => edgesTo_other (hbs b hb) dest

/-- **The predecessors change by the renaming.** -/
theorem preds' (h : Cut F F' old new front pre post back) (hF : F.WellFormed) {dest : Label}
    (hdest : dest ≠ new) : F'.preds dest = (F.preds dest).map (rename old new) := by
  have hpre : (⟨old, pre ++ [.br new]⟩ : BasicBlock Code).edgesTo dest = [] := by
    unfold BasicBlock.edgesTo BasicBlock.succs
    rw [List.flatMap_append, h.succs_pre hF]
    show ([new].filter (· = dest)).map _ = []
    rw [List.filter_cons_of_neg (by simpa using Ne.symm hdest)]
    rfl
  have hpost : (⟨new, post⟩ : BasicBlock Code).edgesTo dest
      = ((⟨old, pre ++ post⟩ : BasicBlock Code).edgesTo dest).map (rename old new) := by
    unfold BasicBlock.edgesTo BasicBlock.succs
    rw [List.flatMap_append, h.succs_pre hF, List.nil_append, List.map_map]
    exact List.map_congr_left fun L _ => (rename_self old new).symm
  unfold Func.preds
  rw [h.blocks, h.blocks', List.flatMap_map]
  simp only [BasicBlock.edgesTo_replacePhiUsesWith, List.flatMap_append, List.flatMap_cons,
    List.map_append]
  rw [hpre, hpost, List.nil_append,
    ← edgesTo_others (fun b hb => (h.other hF (Or.inl hb)).2),
    ← edgesTo_others (fun b hb => (h.other hF (Or.inr hb)).2)]

/-- What is gathered from the code of the source is the same, in the same order. -/
theorem gather' (h : Cut F F' old new front pre post back) {α : Type} {f : Code → Option α}
    (hf : ∀ i, f (i.replaceIncoming old new) = f i) (hbr : f (.br new) = none) :
    F'.blocks.flatMap (fun b => b.insts.filterMap f)
      = F.blocks.flatMap fun b => b.insts.filterMap f := by
  rw [h.blocks, h.blocks', List.flatMap_map]
  simp only [BasicBlock.gather_replacePhiUsesWith _ hf, List.flatMap_append, List.flatMap_cons,
    List.filterMap_append]
  rw [List.filterMap_cons_none hbr, List.filterMap_nil, List.append_nil, List.append_assoc]

theorem ids' (h : Cut F F' old new front pre post back) : F'.ids = F.ids :=
  h.gather' Code.id?_replaceIncoming rfl

theorem oneTerminator' (h : Cut F F' old new front pre post back) (hF : F.WellFormed) :
    ∀ b ∈ F'.blocks, Func.OneTerminator b.insts := by
  refine h.forall_blocks' hF (fun b hb _ => ?_) ?_ (h.terminators hF).2
  · obtain ⟨body, t, hinsts, hterm, hbody⟩ := Func.oneTerminator_iff.mp (hF.oneTerminator b hb)
    refine Func.oneTerminator_iff.mpr ⟨body.map (Code.replaceIncoming old new),
      t.replaceIncoming old new, ?_, ?_, ?_⟩
    · show b.insts.map _ = _
      rw [hinsts, List.map_append]
      rfl
    · rw [Code.isTerm_replaceIncoming, hterm]
    · rw [List.forall_mem_map]
      intro i hi
      rw [Code.isTerm_replaceIncoming, hbody i hi]
  · refine Func.oneTerminator_iff.mpr ⟨pre.map (Code.replaceIncoming old new), .br new, ?_, rfl, ?_⟩
    · show (pre ++ [Code.br new]).map _ = _
      rw [List.map_append]
      rfl
    · rw [List.forall_mem_map]
      intro i hi
      rw [Code.isTerm_replaceIncoming, (h.terminators hF).1 i hi]

theorem phisFirst' (h : Cut F F' old new front pre post back) (hF : F.WellFormed) :
    ∀ b ∈ F'.blocks, b.insts.Pairwise fun i j => j.isPhi = true → i.isPhi = true := by
  have hmap : ∀ {insts : List Code},
      (insts.Pairwise fun i j => j.isPhi = true → i.isPhi = true) →
        (insts.map (Code.replaceIncoming old new)).Pairwise
          fun i j => j.isPhi = true → i.isPhi = true := by
    intro insts hinsts
    rw [List.pairwise_map]
    simpa only [Code.isPhi_replaceIncoming] using hinsts
  have hcut := List.pairwise_append.mp (hF.phisFirst _ h.cut_mem)
  refine h.forall_blocks' hF (fun b hb _ => hmap (hF.phisFirst b hb)) (hmap ?_) hcut.2.1
  refine List.pairwise_append.mpr ⟨hcut.1, List.pairwise_singleton _ _, ?_⟩
  intro i _ j hj hphi
  rw [List.mem_singleton.mp hj] at hphi
  cases hphi

theorem targets' (h : Cut F F' old new front pre post back) (hF : F.WellFormed) :
    ∀ b ∈ F'.blocks, ∀ dest ∈ b.succs, dest ∈ F'.labels := by
  refine h.forall_blocks' hF (fun b hb _ dest hdest => ?_) (fun dest hdest => ?_)
    fun dest hdest => ?_
  · rw [BasicBlock.succs_replacePhiUsesWith] at hdest
    exact h.mem_labels'.mpr (Or.inr (hF.targets b hb dest hdest))
  · rw [BasicBlock.succs_replacePhiUsesWith] at hdest
    unfold BasicBlock.succs at hdest
    rw [List.flatMap_append, h.succs_pre hF] at hdest
    exact h.mem_labels'.mpr (Or.inl (List.mem_singleton.mp hdest))
  · refine h.mem_labels'.mpr (Or.inr (hF.targets _ h.cut_mem dest ?_))
    unfold BasicBlock.succs
    rw [List.flatMap_append]
    exact List.mem_append_right _ hdest

theorem phiPreds' (h : Cut F F' old new front pre post back) (hF : F.WellFormed) :
    ∀ b ∈ F'.blocks, ∀ i ∈ b.insts, ∀ incoming ∈ i.incoming?,
      (incoming.map Prod.snd).Perm (F'.preds b.label) := by
  -- an instruction of `F` in a block that keeps its name
  have hkept : ∀ b ∈ F.blocks, ∀ i ∈ b.insts, ∀ incoming ∈ (i.replaceIncoming old new).incoming?,
      (incoming.map Prod.snd).Perm (F'.preds b.label) := by
    intro b hb i hi incoming hinc
    rw [Code.incoming?_replaceIncoming] at hinc
    obtain ⟨inc, hsome, rfl⟩ := Option.map_eq_some_iff.mp hinc
    have hlabel : b.label ≠ new := fun heq => h.fresh (heq ▸ mem_labels.mpr ⟨b, hb, rfl⟩)
    rw [h.preds' hF hlabel, List.map_map]
    have hperm := (hF.phiPreds b hb i hi inc hsome).map (rename old new)
    rwa [List.map_map] at hperm
  refine h.forall_blocks' hF (fun b hb _ => ?_) ?_ fun i hi => ?_
  · exact List.forall_mem_map.mpr (hkept b hb)
  · refine List.forall_mem_map.mpr fun i hi => ?_
    rcases List.mem_append.mp hi with hi | hi
    · exact hkept _ h.cut_mem i (List.mem_append_left _ hi)
    · rw [List.mem_singleton.mp hi]
      exact fun _ hinc => by cases hinc
  · rw [Code.incoming?_of_not_phi (h.post_phis i hi)]
    exact fun _ hinc => by cases hinc

theorem checks' (h : Cut F F' old new front pre post back) (hF : F.WellFormed) :
    ∀ b ∈ F'.blocks, ∀ i ∈ b.insts, ∀ check ∈ i.check?, check ∈ F'.labels := by
  have hkept : ∀ b ∈ F.blocks, ∀ i ∈ b.insts, ∀ check ∈ (i.replaceIncoming old new).check?,
      check ∈ F'.labels := by
    intro b hb i hi check hcheck
    rw [Code.check?_replaceIncoming] at hcheck
    exact h.mem_labels'.mpr (Or.inr (hF.checks b hb i hi check hcheck))
  refine h.forall_blocks' hF (fun b hb _ => List.forall_mem_map.mpr (hkept b hb)) ?_
    fun i hi check hcheck => ?_
  · refine List.forall_mem_map.mpr fun i hi => ?_
    rcases List.mem_append.mp hi with hi | hi
    · exact hkept _ h.cut_mem i (List.mem_append_left _ hi)
    · rw [List.mem_singleton.mp hi]
      exact fun _ hcheck => by cases hcheck
  · exact h.mem_labels'.mpr
      (Or.inr (hF.checks _ h.cut_mem i (List.mem_append_right _ hi) check hcheck))

/-- The entry keeps its name. -/
theorem head' (h : Cut F F' old new front pre post back) :
    F'.blocks.head?.map (·.label) = F.blocks.head?.map (·.label) := by
  rw [h.blocks, h.blocks']
  cases front with
  | nil => rfl
  | cons b front => rfl

theorem entry' (h : Cut F F' old new front pre post back) (hF : F.WellFormed) :
    ∀ b ∈ F'.blocks.head?, F'.preds b.label = [] := by
  intro b hb
  have hhead := h.head'
  rw [hb, Option.map_some] at hhead
  obtain ⟨b₀, hb₀, hlabel⟩ := Option.map_eq_some_iff.mp hhead.symm
  have hne : b.label ≠ new := fun heq =>
    h.fresh (mem_labels.mpr ⟨b₀, List.mem_of_mem_head? hb₀, hlabel.trans heq⟩)
  rw [h.preds' hF hne, ← hlabel, hF.entry b₀ hb₀]
  rfl

/-- **A cut keeps a function well-formed.** -/
theorem wellFormed (h : Cut F F' old new front pre post back) (hF : F.WellFormed) :
    F'.WellFormed where
  nonempty := by
    rw [h.blocks']
    exact fun hnil => by simp at hnil
  labels_nodup := by
    rw [h.labels_perm.nodup_iff, List.nodup_cons]
    exact ⟨h.fresh, hF.labels_nodup⟩
  oneTerminator := h.oneTerminator' hF
  phisFirst := h.phisFirst' hF
  targets := h.targets' hF
  entry := h.entry' hF
  phiPreds := h.phiPreds' hF
  ids_nodup := h.ids' ▸ hF.ids_nodup
  checks := h.checks' hF

/-! ## Running the two halves -/

theorem rename_inj {L L' : Label} (h : L ≠ new) (h' : L' ≠ new) :
    rename old new L = rename old new L' ↔ L = L' := by
  unfold rename
  by_cases hL : L = old
  · by_cases hL' : L' = old
    · rw [hL, hL', if_pos rfl]
      exact ⟨fun _ => rfl, fun _ => rfl⟩
    · rw [if_pos hL, if_neg hL']
      exact ⟨fun heq => absurd heq.symm h', fun heq => absurd (heq ▸ hL) hL'⟩
  · by_cases hL' : L' = old
    · rw [if_neg hL, if_pos hL']
      exact ⟨fun heq => absurd heq h, fun heq => absurd (heq.trans hL') hL⟩
    · rw [if_neg hL, if_neg hL']

/-- The PHIs that were told of the new block assign on its edges what they did on the old one. -/
theorem phiMoves_replaceIncoming {insts : List Code} {cur : Label} (hcur : cur ≠ new)
    (hinsts : ∀ i ∈ insts, ∀ incoming ∈ i.incoming?, new ∉ incoming.map Prod.snd)
    (st : State V W) :
    phiMoves sem st (rename old new cur) (insts.map (Code.replaceIncoming old new))
      = phiMoves sem st cur insts := by
  induction insts with
  | nil => rfl
  | cons i insts ih =>
      rw [List.forall_mem_cons] at hinsts
      rw [List.map_cons]
      cases hi : i.isPhi with
      | false =>
          rw [phiMoves_of_not_phi, phiMoves_of_not_phi]
          · rintro j ⟨⟩
            exact hi
          · rintro j ⟨⟩
            rw [Code.isPhi_replaceIncoming, hi]
      | true =>
          cases i with
          | ir i =>
              cases i with
              | phi id incoming =>
                  have hfind : ((incoming.map fun p => (p.1, rename old new p.2)).find?
                        fun p => p.2 = rename old new cur)
                      = (incoming.find? fun p => p.2 = cur).map
                        fun p => (p.1, rename old new p.2) := by
                    rw [List.find?_map]
                    refine congrArg _ (List.find?_congr fun p hp => ?_)
                    refine decide_eq_decide.mpr (rename_inj (fun heq => ?_) hcur)
                    exact hinsts.1 incoming rfl (heq ▸ List.mem_map_of_mem hp)
                  simp only [Code.replaceIncoming, phiMoves, hfind, ih hinsts.2]
                  cases incoming.find? fun p => p.2 = cur with
                  | none => rfl
                  | some p => rfl
              | _ => cases hi
          | _ => cases hi

/-- Where the cut function is when `F` is in the block `L` with `rest` to do. -/
inductive Pos (old new : Label) (pre post : List Code) :
    Label → List Code → Label → List Code → Prop where
  | elsewhere {L rest} : L ≠ old → Pos old new pre post L rest L rest
  | before {mid} : mid <:+ pre →
      Pos old new pre post old (mid ++ post) old (mid ++ [.br new])
  | after {rest} : rest <:+ post → Pos old new pre post old rest new rest
  | ended {L L'} : Pos old new pre post L [] L' []

/-- Predecessors are blocks. -/
theorem mem_labels_of_mem_preds {L dest : Label} (h : L ∈ F.preds dest) : L ∈ F.labels := by
  unfold Func.preds at h
  obtain ⟨b, hb, hL⟩ := List.mem_flatMap.mp h
  obtain ⟨_, -, rfl⟩ := List.mem_map.mp hL
  exact mem_labels.mpr ⟨b, hb, rfl⟩

theorem phis_fresh (h : Cut F F' old new front pre post back) (hF : F.WellFormed)
    {b : BasicBlock Code} (hb : b ∈ F.blocks) :
    ∀ i ∈ b.insts, ∀ incoming ∈ i.incoming?, new ∉ incoming.map Prod.snd :=
  fun i hi incoming hinc hnew =>
    h.fresh (mem_labels_of_mem_preds ((hF.phiPreds b hb i hi incoming hinc).subset hnew))

/-- What each block has become; `rename` tells where its edges come from. -/
theorem counterpart (h : Cut F F' old new front pre post back) (hF : F.WellFormed)
    (sem : Semantics V W) {b : BasicBlock Code} (hb : b ∈ F.blocks) :
    ∃ b', Counterpart F F' sem (rename old new) (Pos old new pre post) b b' := by
  have hsource : ∀ cur ∈ F.labels, cur ≠ new := fun cur hcur heq => h.fresh (heq ▸ hcur)
  by_cases hold : b.label = old
  · -- the block that is cut: its PHIs are in front of the cut
    have hbcut : b = ⟨old, pre ++ post⟩ :=
      List.inj_on_of_nodup_map hF.labels_nodup hb h.cut_mem hold
    subst hbcut
    have hpost : ∀ i ∈ post.head?, i.isPhi = false := fun i hi =>
      h.post_phis i (List.mem_of_mem_head? hi)
    have hbr : ∀ i ∈ [Code.br new].head?, i.isPhi = false := by
      rintro i ⟨⟩
      rfl
    have hinsts : (pre ++ [Code.br new]).map (Code.replaceIncoming old new)
        = pre.map (Code.replaceIncoming old new) ++ [Code.br new] := List.map_append
    have hphis : ∀ i ∈ afterPhis pre, i.isPhi = false :=
      not_phi_of_mem_afterPhis (List.pairwise_append.mp (hF.phisFirst _ hb)).1
    refine ⟨(⟨old, pre ++ [.br new]⟩ : BasicBlock Code).replacePhiUsesWith old new, ?_, rfl,
      fun st cur hcur => ?_, ?_⟩
    · rw [h.blocks']
      exact List.mem_map_of_mem (List.mem_append_right _ List.mem_cons_self)
    · show phiMoves sem st _ ((pre ++ [Code.br new]).map _) = _
      rw [hinsts, phiMoves_append _ _ _ hbr, phiMoves_append _ _ _ hpost]
      exact phiMoves_replaceIncoming (hsource cur hcur)
        (fun i hi => h.phis_fresh hF hb i (List.mem_append_left _ hi)) st
    · show Pos old new pre post old (afterPhis (pre ++ post)) old
        (afterPhis ((pre ++ [Code.br new]).map _))
      rw [hinsts, afterPhis_append _ hbr, afterPhis_append _ hpost, afterPhis_replaceIncoming,
        replaceIncoming_eq_self hphis]
      exact .before (afterPhis_suffix pre)
  · refine ⟨b.replacePhiUsesWith old new, h.mem_other hb hold, rfl, fun st cur hcur =>
      phiMoves_replaceIncoming (hsource cur hcur) (h.phis_fresh hF hb) st, ?_⟩
    show Pos old new pre post b.label (afterPhis b.insts) b.label (afterPhis (b.insts.map _))
    rw [afterPhis_replaceIncoming,
      replaceIncoming_eq_self (not_phi_of_mem_afterPhis (hF.phisFirst b hb))]
    exact .elsewhere hold

/-- How much of the first half there is to do. -/
def rank (old : Label) (c : Config V W) : ℕ := if c.cur = old then c.rest.length else 0

theorem step_br (h : Cut F F' old new front pre post back) (hF : F.WellFormed)
    (st : State V W) :
    step F' sem ⟨st, old, [.br new]⟩ = some ([.ss (.br new)], ⟨st, new, post⟩) := by
  have hb : F'.block? new = some ⟨new, post⟩ := by
    refine (block?_eq_some (h.wellFormed hF).labels_nodup).mpr ⟨?_, rfl⟩
    rw [h.blocks']
    refine List.mem_map.mpr ⟨⟨new, post⟩, ?_, ?_⟩
    · exact List.mem_append_right _ (List.mem_cons_of_mem _ List.mem_cons_self)
    · unfold BasicBlock.replacePhiUsesWith
      rw [replaceIncoming_eq_self h.post_phis]
  have henter : enter F' sem st old new = some ([], ⟨st, new, post⟩) :=
    enter_of_no_phi (b := ⟨new, post⟩) hb h.post_phis
  show (enter F' sem st old new).map _ = _
  rw [henter]
  rfl

/-- **The simulation.** -/
theorem answer (h : Cut F F' old new front pre post back) (hF : F.WellFormed) {c c' : Config V W}
    (hrel : Related F new (Pos old new pre post) c c') :
    Answer afterDeletion (step F sem) (step F' sem) (Related F new (Pos old new pre post))
      (rank old) c c' := by
  obtain ⟨st, L, rest⟩ := c
  obtain ⟨st', L', rest'⟩ := c'
  obtain ⟨hloc, ⟨vs, hst⟩, hpos⟩ := hrel
  replace hst : st' = st.setCheck new vs := hst
  replace hpos : Pos old new pre post L rest L' rest' := hpos
  subst hst
  have hL : L ∈ F.labels := by
    obtain ⟨b, hb, hlabel, -⟩ := hloc
    exact mem_labels.mpr ⟨b, hb, hlabel⟩
  -- the edges out of the block
  have hgoto : ∀ dest ∈ F.labels, ∀ st' : State V W,
      SameResult (Related F new (Pos old new pre post)) (enter F sem st' L dest)
        (enter F' sem (st'.setCheck new vs) (rename old new L) dest) := by
    intro dest hdest st'
    obtain ⟨b, hb, rfl⟩ := mem_labels.mp hdest
    obtain ⟨b', hcp⟩ := h.counterpart hF sem hb
    exact hcp.enter hF.labels_nodup (h.wellFormed hF).labels_nodup hb hL st' vs
  cases hpos with
  | elsewhere hne =>
      rw [rename_of_ne hne] at hgoto
      cases rest with
      | nil => exact answer_ended
      | cons i rest =>
          exact related_same hF h.fresh hloc (.elsewhere hne) .ended
            fun dest _ hdest => hgoto dest hdest
  | @before mid hmid =>
      cases mid with
      | nil =>
          -- at the cut the later version takes the branch to the new block
          refine .silent (h.step_br hF (st.setCheck new vs)) (Observer.calm_singleton rfl) rfl
            ⟨hloc, ⟨vs, rfl⟩, .after (List.suffix_refl _)⟩ ?_
          unfold rank
          rw [if_neg h.old_ne_new.symm, if_pos rfl]
          exact Nat.one_pos
      | cons i mid =>
          refine related_same hF h.fresh hloc (.before ((List.suffix_cons i mid).trans hmid)) .ended
            fun dest hdest => ?_
          -- no edge starts in front of the cut
          rw [Code.succs_of_not_term ((h.terminators hF).1 i (hmid.subset List.mem_cons_self))]
            at hdest
          exact absurd hdest List.not_mem_nil
  | after hsuf =>
      rw [rename_self] at hgoto
      cases rest with
      | nil => exact answer_ended
      | cons i rest =>
          exact related_same hF h.fresh hloc (.after ((List.suffix_cons i rest).trans hsuf)) .ended
            fun dest _ hdest => hgoto dest hdest
  | ended => exact answer_ended

/-- **A cut preserves the function.** -/
theorem preserves (h : Cut F F' old new front pre post back) (hF : F.WellFormed)
    (sem : Semantics V W) (st : State V W) :
    Preserves afterDeletion (step F sem) (F.start st) (step F' sem) (F'.start st) :=
  preserves_of_answer (fun hrel => h.answer hF hrel)
    (related_start hF (h.wellFormed hF).labels_nodup h.head' (fun _ hb => h.counterpart hF sem hb)
      st)

end Cut

/-! ## `splitBasicBlock` -/

theorem freshLabel_not_mem (F : Func Code) : F.freshLabel ∉ F.labels := by
  have hmax : ∀ {ls : List Label} {L}, L ∈ ls → L ≤ ls.foldr max 0 := by
    intro ls
    induction ls with
    | nil => exact fun h => absurd h List.not_mem_nil
    | cons L' ls ih =>
        intro L hL
        rw [List.foldr_cons]
        rcases List.mem_cons.mp hL with rfl | hL
        · exact Nat.le_max_left _ _
        · exact (ih hL).trans (Nat.le_max_right _ _)
  intro h
  have hle : F.freshLabel ≤ F.labels.foldr max 0 := hmax h
  exact absurd hle (Nat.not_succ_le_self _)

/-- A block of another name stays, if one block is replaced by others. -/
theorem flatMap_other {bs : List (BasicBlock Code)} {f : BasicBlock Code → List (BasicBlock Code)}
    (h : ∀ b ∈ bs, f b = [b]) : bs.flatMap f = bs := by
  induction bs with
  | nil => rfl
  | cons b bs ih =>
      rw [List.forall_mem_cons] at h
      rw [List.flatMap_cons, h.1, ih h.2]
      rfl

/-- A block without an edge from `b'` has no PHI with an entry for it. -/
theorem replaceIncoming_of_no_edge (hF : F.WellFormed) {b b' : BasicBlock Code}
    (hb : b ∈ F.blocks) (hb' : b' ∈ F.blocks) (hno : b.label ∉ b'.succs) :
    ∀ i ∈ b.insts, i.replaceIncoming b'.label new = i := by
  intro i hi
  refine Code.replaceIncoming_of_not_mem fun incoming hinc hmem => hno ?_
  have hpred := (hF.phiPreds b hb i hi incoming hinc).subset hmem
  unfold Func.preds at hpred
  obtain ⟨b'', hb'', hedge⟩ := List.mem_flatMap.mp hpred
  obtain ⟨dest, hdest, hlabel⟩ := List.mem_map.mp hedge
  obtain ⟨hdest, hdecide⟩ := List.mem_filter.mp hdest
  rw [List.inj_on_of_nodup_map hF.labels_nodup hb'' hb' hlabel, of_decide_eq_true hdecide] at hdest
  exact hdest

/-- **`splitBasicBlock` cuts the block.** The PHIs it does not tell have nothing to be told. -/
theorem splitBasicBlock_cut (hF : F.WellFormed) {pre post : List Code}
    (hmem : (⟨old, pre ++ post⟩ : BasicBlock Code) ∈ F.blocks) (hnew : new ∉ F.labels)
    (hne : post ≠ []) (hphis : ∀ i ∈ post, i.isPhi = false) :
    ∃ front back, Cut F (splitBasicBlock F old pre.length new) old new front pre post back := by
  obtain ⟨front, back, hblocks⟩ := List.append_of_mem hmem
  refine ⟨front, back, hblocks, ?_, hnew, hne, hphis⟩
  have hnodup := hF.labels_nodup
  unfold Func.labels at hnodup
  rw [hblocks, List.map_append, List.map_cons, List.nodup_append, List.nodup_cons] at hnodup
  obtain ⟨-, ⟨hback, -⟩, hfront⟩ := hnodup
  have hfront' : ∀ b ∈ front, b.label ≠ old := fun b hb =>
    hfront _ (List.mem_map_of_mem hb) old List.mem_cons_self
  have hback' : ∀ b ∈ back, b.label ≠ old := fun b hb heq =>
    hback (List.mem_map.mpr ⟨b, hb, heq⟩)
  have hfresh : ∀ b ∈ F.blocks, b.label ≠ new := fun b hb heq =>
    hnew (mem_labels.mpr ⟨b, hb, heq⟩)
  -- the blocks before the PHIs are told
  have hcut : (F.blocks.flatMap fun b =>
      if b.label = old then
        [⟨old, b.insts.take pre.length ++ [.br new]⟩, ⟨new, b.insts.drop pre.length⟩]
      else [b]) = front ++ ⟨old, pre ++ [.br new]⟩ :: ⟨new, post⟩ :: back := by
    rw [hblocks, List.flatMap_append, List.flatMap_cons,
      flatMap_other fun b hb => if_neg (hfront' b hb),
      flatMap_other fun b hb => if_neg (hback' b hb), if_pos rfl]
    dsimp only
    rw [List.take_left, List.drop_left]
    rfl
  -- the successors of the new block
  have hsucc : ((front ++ ⟨old, pre ++ [.br new]⟩ :: ⟨new, post⟩ :: back).filter
      (·.label = new)).flatMap BasicBlock.succs = post.flatMap Code.succs := by
    have hnone : ∀ bs : List (BasicBlock Code), (∀ b ∈ bs, b ∈ F.blocks) →
        bs.filter (·.label = new) = [] := fun bs hbs =>
      List.filter_eq_nil_iff.mpr fun b hb => by simpa using hfresh b (hbs b hb)
    rw [List.filter_append, hnone front fun b hb => hblocks ▸ List.mem_append_left _ hb,
      List.filter_cons_of_neg (by simpa using hfresh _ hmem),
      List.filter_cons_of_pos (by simp),
      hnone back fun b hb => hblocks ▸ List.mem_append_right _ (List.mem_cons_of_mem _ hb)]
    exact List.append_nil _
  have hpost : (⟨old, pre ++ post⟩ : BasicBlock Code).succs = post.flatMap Code.succs := by
    unfold BasicBlock.succs
    rw [List.flatMap_append,
      succs_of_no_term (terminators_append hne (hF.oneTerminator _ hmem)).1]
    rfl
  have htold : ∀ b ∈ F.blocks, b.label ∉ post.flatMap Code.succs → ∀ i ∈ b.insts,
      i.replaceIncoming old new = i := fun b hb hno =>
    replaceIncoming_of_no_edge hF hb hmem (hpost ▸ hno)
  show (List.map _ (F.blocks.flatMap _)) = _
  rw [hcut, hsucc]
  refine List.map_congr_left fun b hb => ?_
  split
  · rfl
  · rename_i hno
    have hinsts : ∀ i ∈ b.insts, i.replaceIncoming old new = i := by
      rcases List.mem_append.mp hb with hb | hb
      · exact htold b (hblocks ▸ List.mem_append_left _ hb) hno
      · rcases List.mem_cons.mp hb with rfl | hb
        · intro i hi
          rcases List.mem_append.mp hi with hi | hi
          · exact htold _ hmem hno i (List.mem_append_left _ hi)
          · rw [List.mem_singleton.mp hi]
            rfl
        · rcases List.mem_cons.mp hb with rfl | hb
          · exact fun i hi => Code.replaceIncoming_of_not_phi (hphis i hi)
          · exact htold b (hblocks ▸ List.mem_append_right _ (List.mem_cons_of_mem _ hb)) hno
    unfold BasicBlock.replacePhiUsesWith
    rw [(List.map_congr_left hinsts).trans (List.map_id' _)]

end Hopter.SplitStack
