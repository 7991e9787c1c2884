import Hopter.SplitStack.Split

/-!
# Putting a check at the end of a block

`Checked F F'` says what `insertCheck` leaves: the branch that ended the block is
a check now, and a block for the call of `__morestack` stands behind it. The
values of the check have names of their own, so the other instructions do not see
them, and the block the check continues in must have no PHIs, or they would miss
the new edge.
-/

namespace Hopter.SplitStack

open Conc

variable {V W : Type} {F F' : Func Code} {sem : Semantics V W} {frame : BitVec 64}
  {check cont more : Label}

/-- The call of `__morestack`, and back. -/
def moreBlock (frame : BitVec 64) (cont more : Label) : BasicBlock Code :=
  ⟨more, [.callMorestack frame true, .br cont]⟩

section Code

variable (frame cont more)

theorem checkCode_phis : ∀ i ∈ checkCode frame cont more, i.isPhi = false := by
  simp [checkCode, Code.isPhi]

/-- A check has one set of values. -/
theorem checkCode_check : ∀ i ∈ checkCode frame cont more, i.check? = some more := by
  simp [checkCode, Code.check?]

theorem oneTerminator_checkCode {body : List Code} (h : ∀ i ∈ body, i.isTerm = false) :
    Func.OneTerminator (body ++ checkCode frame cont more) := by
  refine Func.oneTerminator_iff.mpr ⟨body ++ [.readSp more, .loadBound more,
    .subFrame more frame, .cmpUge more], .condBr more cont more, ?_, rfl, ?_⟩
  · rw [List.append_assoc]
    rfl
  · refine List.forall_mem_append.mpr ⟨h, ?_⟩
    simp [Code.isTerm]

theorem moreBlock_phis : ∀ i ∈ (moreBlock frame cont more).insts, i.isPhi = false := by
  simp [moreBlock, Code.isPhi]

theorem moreBlock_check : ∀ i ∈ (moreBlock frame cont more).insts, i.check? = none := by
  simp [moreBlock, Code.check?]

theorem checkCode_not_ir : ∀ i ∈ checkCode frame cont more, i.isIr = false := by
  simp [checkCode, Code.isIr]

theorem moreBlock_not_ir : ∀ i ∈ (moreBlock frame cont more).insts, i.isIr = false := by
  simp [moreBlock, Code.isIr]

theorem oneTerminator_moreBlock : Func.OneTerminator (moreBlock frame cont more).insts :=
  Func.oneTerminator_iff.mpr ⟨[.callMorestack frame true], .br cont, rfl, rfl,
    by simp [Code.isTerm]⟩

/-- Among instructions that are no PHIs there is no order to keep. -/
theorem phisFirst_of_no_phi {insts : List Code} (h : ∀ i ∈ insts, i.isPhi = false) :
    insts.Pairwise fun i j => j.isPhi = true → i.isPhi = true :=
  List.pairwise_of_forall_mem_list fun i _ j hj hphi => by
    rw [h j hj] at hphi
    cases hphi

end Code

/-- `F'` is `F` with a check instead of the branch from `check` to `cont`. -/
structure Checked (F F' : Func Code) (frame : BitVec 64) (check cont more : Label)
    (front : List (BasicBlock Code)) (body tail : List Code) (back : List (BasicBlock Code)) :
    Prop where
  blocks : F.blocks = front ++ ⟨check, body ++ [.br cont]⟩ :: ⟨cont, tail⟩ :: back
  blocks' : F'.blocks = front ++ ⟨check, body ++ checkCode frame cont more⟩
    :: moreBlock frame cont more :: ⟨cont, tail⟩ :: back
  fresh : more ∉ F.labels
  tail_phis : ∀ i ∈ tail, i.isPhi = false

namespace Checked

variable {front back : List (BasicBlock Code)} {body tail : List Code}

theorem check_mem (h : Checked F F' frame check cont more front body tail back) :
    (⟨check, body ++ [.br cont]⟩ : BasicBlock Code) ∈ F.blocks := by
  rw [h.blocks]
  exact List.mem_append_right _ List.mem_cons_self

theorem cont_mem (h : Checked F F' frame check cont more front body tail back) :
    (⟨cont, tail⟩ : BasicBlock Code) ∈ F.blocks := by
  rw [h.blocks]
  exact List.mem_append_right _ (List.mem_cons_of_mem _ List.mem_cons_self)

theorem labels_perm (h : Checked F F' frame check cont more front body tail back) :
    F'.labels.Perm (more :: F.labels) := by
  unfold Func.labels
  rw [h.blocks, h.blocks']
  simp only [List.map_append, List.map_cons]
  rw [List.append_cons]
  refine List.perm_middle.trans ?_
  rw [← List.append_cons]
  exact List.Perm.refl _

theorem mem_labels' (h : Checked F F' frame check cont more front body tail back) {L : Label} :
    L ∈ F'.labels ↔ L = more ∨ L ∈ F.labels := by
  rw [h.labels_perm.mem_iff, List.mem_cons]

/-- The new names are new, and the blocks that stay are those of another name. -/
theorem other (h : Checked F F' frame check cont more front body tail back) (hF : F.WellFormed)
    {b : BasicBlock Code} (hb : b ∈ front ∨ b = ⟨cont, tail⟩ ∨ b ∈ back) :
    b ∈ F.blocks ∧ b.label ≠ check := by
  have hnodup := hF.labels_nodup
  unfold Func.labels at hnodup
  rw [h.blocks, List.map_append, List.map_cons, List.nodup_append, List.nodup_cons] at hnodup
  obtain ⟨-, ⟨hback, -⟩, hfront⟩ := hnodup
  rw [h.blocks]
  rcases hb with hb | hb
  · refine ⟨List.mem_append_left _ hb, fun heq => ?_⟩
    exact hfront _ (List.mem_map_of_mem hb) check List.mem_cons_self heq
  · have hmem : b ∈ (⟨cont, tail⟩ : BasicBlock Code) :: back := List.mem_cons.mpr hb
    refine ⟨List.mem_append_right _ (List.mem_cons_of_mem _ hmem), fun heq => ?_⟩
    exact hback (List.mem_map.mpr ⟨b, hmem, heq⟩)

theorem of_mem (h : Checked F F' frame check cont more front body tail back)
    {b : BasicBlock Code} (hb : b ∈ F'.blocks) :
    b = ⟨check, body ++ checkCode frame cont more⟩ ∨ b = moreBlock frame cont more
      ∨ (b ∈ front ∨ b = ⟨cont, tail⟩ ∨ b ∈ back) := by
  rw [h.blocks'] at hb
  simp only [List.mem_append, List.mem_cons] at hb
  tauto

/-- A block that gets no check stays. -/
theorem mem_other (h : Checked F F' frame check cont more front body tail back)
    {b : BasicBlock Code} (hb : b ∈ F.blocks)
    (hne : b ≠ ⟨check, body ++ [.br cont]⟩) : b ∈ F'.blocks := by
  rw [h.blocks, List.mem_append, List.mem_cons] at hb
  rw [h.blocks', List.mem_append, List.mem_cons, List.mem_cons]
  rcases hb with hb | rfl | hb
  · exact Or.inl hb
  · exact absurd rfl hne
  · exact Or.inr (Or.inr (Or.inr hb))

/-- What holds of the blocks that stay, of the checked one and of the new one, holds of all. -/
theorem forall_blocks' (h : Checked F F' frame check cont more front body tail back)
    (hF : F.WellFormed) {P : BasicBlock Code → Prop}
    (hother : ∀ b ∈ F.blocks, b.label ≠ check → P b)
    (hcheck : P ⟨check, body ++ checkCode frame cont more⟩)
    (hmore : P (moreBlock frame cont more)) : ∀ b ∈ F'.blocks, P b := by
  intro b hb
  rcases h.of_mem hb with rfl | rfl | hb
  · exact hcheck
  · exact hmore
  · exact hother b (h.other hF hb).1 (h.other hF hb).2

theorem body_terms (h : Checked F F' frame check cont more front body tail back)
    (hF : F.WellFormed) : ∀ i ∈ body, i.isTerm = false :=
  (terminators_append (List.cons_ne_nil _ _) (hF.oneTerminator _ h.check_mem)).1

theorem body_phis (h : Checked F F' frame check cont more front body tail back)
    (hF : F.WellFormed) : body.Pairwise fun i j => j.isPhi = true → i.isPhi = true :=
  (List.pairwise_append.mp (hF.phisFirst _ h.check_mem)).1

theorem succs_check (h : Checked F F' frame check cont more front body tail back)
    (hF : F.WellFormed) (last : List Code) :
    (⟨check, body ++ last⟩ : BasicBlock Code).succs = last.flatMap Code.succs := by
  unfold BasicBlock.succs
  rw [List.flatMap_append, succs_of_no_term (h.body_terms hF)]
  rfl

/-- **The predecessors of every other block are the same.** -/
theorem preds' (h : Checked F F' frame check cont more front body tail back) (hF : F.WellFormed)
    {dest : Label} (hcont : dest ≠ cont) (hmore : dest ≠ more) :
    F'.preds dest = F.preds dest := by
  have hbefore : (⟨check, body ++ [.br cont]⟩ : BasicBlock Code).edgesTo dest = [] := by
    unfold BasicBlock.edgesTo
    rw [h.succs_check hF]
    show ([cont].filter (· = dest)).map _ = []
    rw [List.filter_cons_of_neg (by simpa using hcont.symm)]
    rfl
  have hafter : (⟨check, body ++ checkCode frame cont more⟩ : BasicBlock Code).edgesTo dest
      = [] := by
    unfold BasicBlock.edgesTo
    rw [h.succs_check hF]
    show ([cont, more].filter (· = dest)).map _ = []
    rw [List.filter_cons_of_neg (by simpa using hcont.symm),
      List.filter_cons_of_neg (by simpa using hmore.symm)]
    rfl
  have hcall : (moreBlock frame cont more).edgesTo dest = [] := by
    show ([cont].filter (· = dest)).map _ = []
    rw [List.filter_cons_of_neg (by simpa using hcont.symm)]
    rfl
  unfold Func.preds
  rw [h.blocks, h.blocks']
  simp only [List.flatMap_append, List.flatMap_cons]
  rw [hbefore, hafter, hcall]
  rfl

/-- What is gathered from the code of the source is the same, in the same order. -/
theorem gather' (h : Checked F F' frame check cont more front body tail back) {α : Type}
    {f : Code → Option α} (hf : ∀ i, i.isIr = false → f i = none) :
    F'.blocks.flatMap (fun b => b.insts.filterMap f)
      = F.blocks.flatMap fun b => b.insts.filterMap f := by
  have hcheck : (checkCode frame cont more).filterMap f = [] :=
    List.filterMap_eq_nil_iff.mpr fun i hi => hf i (checkCode_not_ir frame cont more i hi)
  have hmore : (moreBlock frame cont more).insts.filterMap f = [] :=
    List.filterMap_eq_nil_iff.mpr fun i hi => hf i (moreBlock_not_ir frame cont more i hi)
  rw [h.blocks, h.blocks']
  simp only [List.flatMap_append, List.flatMap_cons, List.filterMap_append]
  rw [hcheck, hmore, List.filterMap_cons_none (hf _ rfl), List.filterMap_nil, List.nil_append]

theorem ids' (h : Checked F F' frame check cont more front body tail back) : F'.ids = F.ids :=
  h.gather' fun i hi => by rcases i with _ | _ | _ | _ | _ | _ | _ | _ <;> first | rfl | cases hi

/-- The entry keeps its name. -/
theorem head' (h : Checked F F' frame check cont more front body tail back) :
    F'.blocks.head?.map (·.label) = F.blocks.head?.map (·.label) := by
  rw [h.blocks, h.blocks']
  cases front with
  | nil => rfl
  | cons b front => rfl

theorem phisFirst' (h : Checked F F' frame check cont more front body tail back)
    (hF : F.WellFormed) :
    ∀ b ∈ F'.blocks, b.insts.Pairwise fun i j => j.isPhi = true → i.isPhi = true := by
  refine h.forall_blocks' hF (fun b hb _ => hF.phisFirst b hb) ?_
    (phisFirst_of_no_phi (moreBlock_phis frame cont more))
  have hno := checkCode_phis frame cont more
  refine List.pairwise_append.mpr ⟨h.body_phis hF, phisFirst_of_no_phi hno, ?_⟩
  intro i _ j hj hphi
  rw [hno j hj] at hphi
  cases hphi

theorem targets' (h : Checked F F' frame check cont more front body tail back)
    (hF : F.WellFormed) : ∀ b ∈ F'.blocks, ∀ dest ∈ b.succs, dest ∈ F'.labels := by
  have hcont : cont ∈ F'.labels :=
    h.mem_labels'.mpr (Or.inr (mem_labels.mpr ⟨_, h.cont_mem, rfl⟩))
  refine h.forall_blocks' hF (fun b hb _ dest hdest => ?_) (fun dest hdest => ?_)
    fun dest hdest => ?_
  · exact h.mem_labels'.mpr (Or.inr (hF.targets b hb dest hdest))
  · rw [h.succs_check hF] at hdest
    replace hdest : dest ∈ [cont, more] := hdest
    rcases List.mem_cons.mp hdest with rfl | hdest
    · exact hcont
    · exact h.mem_labels'.mpr (Or.inl (List.mem_singleton.mp hdest))
  · rw [List.mem_singleton.mp (show dest ∈ [cont] from hdest)]
    exact hcont

/-- The block that the check continues in has a predecessor. -/
theorem preds_cont (h : Checked F F' frame check cont more front body tail back)
    (hF : F.WellFormed) : check ∈ F.preds cont := by
  refine List.mem_flatMap.mpr ⟨_, h.check_mem, List.mem_map.mpr ⟨cont, ?_, rfl⟩⟩
  rw [h.succs_check hF]
  exact List.mem_filter.mpr ⟨List.mem_cons_self, decide_eq_true rfl⟩

theorem entry' (h : Checked F F' frame check cont more front body tail back)
    (hF : F.WellFormed) : ∀ b ∈ F'.blocks.head?, F'.preds b.label = [] := by
  intro b hb
  have hhead := h.head'
  rw [hb, Option.map_some] at hhead
  obtain ⟨b₀, hb₀, hlabel⟩ := Option.map_eq_some_iff.mp hhead.symm
  have hentry := hF.entry b₀ hb₀
  rw [hlabel] at hentry
  have hcont : b.label ≠ cont := by
    intro heq
    have hpred := h.preds_cont hF
    rw [heq] at hentry
    rw [hentry] at hpred
    cases hpred
  have hmore : b.label ≠ more := fun heq =>
    h.fresh (mem_labels.mpr ⟨b₀, List.mem_of_mem_head? hb₀, hlabel.trans heq⟩)
  rw [h.preds' hF hcont hmore, hentry]

theorem phiPreds' (h : Checked F F' frame check cont more front body tail back)
    (hF : F.WellFormed) : ∀ b ∈ F'.blocks, ∀ i ∈ b.insts, ∀ incoming ∈ i.incoming?,
      (incoming.map Prod.snd).Perm (F'.preds b.label) := by
  have hkept : ∀ b ∈ F.blocks, ∀ i ∈ b.insts, ∀ incoming ∈ i.incoming?,
      (incoming.map Prod.snd).Perm (F'.preds b.label) := by
    intro b hb i hi incoming hinc
    have hmore : b.label ≠ more := fun heq => h.fresh (mem_labels.mpr ⟨b, hb, heq⟩)
    have hcont : b.label ≠ cont := by
      intro heq
      have hbcont : b = ⟨cont, tail⟩ :=
        List.inj_on_of_nodup_map hF.labels_nodup hb h.cont_mem heq
      subst hbcont
      rw [Code.incoming?_of_not_phi (h.tail_phis i hi)] at hinc
      cases hinc
    rw [h.preds' hF hcont hmore]
    exact hF.phiPreds b hb i hi incoming hinc
  have hnone : ∀ last : List Code, (∀ i ∈ last, i.isPhi = false) → ∀ L, ∀ i ∈ last,
      ∀ incoming ∈ i.incoming?, (incoming.map Prod.snd).Perm (F'.preds L) := by
    intro last hlast L i hi incoming hinc
    rw [Code.incoming?_of_not_phi (hlast i hi)] at hinc
    cases hinc
  refine h.forall_blocks' hF (fun b hb _ => hkept b hb) (fun i hi => ?_)
    (hnone _ (moreBlock_phis frame cont more) _)
  rcases List.mem_append.mp hi with hi | hi
  · exact hkept _ h.check_mem i (List.mem_append_left _ hi)
  · exact hnone _ (checkCode_phis frame cont more) _ i hi

theorem checks' (h : Checked F F' frame check cont more front body tail back)
    (hF : F.WellFormed) :
    ∀ b ∈ F'.blocks, ∀ i ∈ b.insts, ∀ name ∈ i.check?, name ∈ F'.labels := by
  have hkept : ∀ b ∈ F.blocks, ∀ i ∈ b.insts, ∀ name ∈ i.check?, name ∈ F'.labels :=
    fun b hb i hi name hname => h.mem_labels'.mpr (Or.inr (hF.checks b hb i hi name hname))
  have hmore : more ∈ F'.labels := h.mem_labels'.mpr (Or.inl rfl)
  refine h.forall_blocks' hF (fun b hb _ => hkept b hb) (fun i hi name hname => ?_)
    fun i hi name hname => ?_
  · rcases List.mem_append.mp hi with hi | hi
    · exact hkept _ h.check_mem i (List.mem_append_left _ hi) name hname
    · rw [checkCode_check frame cont more i hi] at hname
      cases hname
      exact hmore
  · rw [moreBlock_check frame cont more i hi] at hname
    cases hname

/-- **A check keeps a function well-formed.** -/
theorem wellFormed (h : Checked F F' frame check cont more front body tail back)
    (hF : F.WellFormed) : F'.WellFormed where
  nonempty := by
    rw [h.blocks']
    exact fun hnil => by simp at hnil
  labels_nodup := by
    rw [h.labels_perm.nodup_iff, List.nodup_cons]
    exact ⟨h.fresh, hF.labels_nodup⟩
  oneTerminator := h.forall_blocks' hF (fun b hb _ => hF.oneTerminator b hb)
    (oneTerminator_checkCode frame cont more (h.body_terms hF))
    (oneTerminator_moreBlock frame cont more)
  phisFirst := h.phisFirst' hF
  targets := h.targets' hF
  entry := h.entry' hF
  phiPreds := h.phiPreds' hF
  ids_nodup := h.ids' ▸ hF.ids_nodup
  checks := h.checks' hF

/-! ## Running the check -/

/-- Where the checked function is when `F` is in the block `L` with `rest` to do. -/
inductive Pos (frame : BitVec 64) (check cont more : Label) (body : List Code) :
    Label → List Code → Label → List Code → Prop where
  | elsewhere {L rest} : L ≠ check → Pos frame check cont more body L rest L rest
  | before {mid} : mid <:+ body → Pos frame check cont more body check (mid ++ [.br cont]) check
      (mid ++ checkCode frame cont more)
  | checking {todo} : todo <:+ checkCode frame cont more → todo ≠ [] →
      Pos frame check cont more body check [.br cont] check todo
  | ended {L} : Pos frame check cont more body L [] L []

/-- What is left of a check is the branch, or starts with an instruction that writes one of its
values and does nothing else. -/
theorem checkCode_cases {todo : List Code} (h : todo <:+ checkCode frame cont more)
    (hne : todo ≠ []) :
    todo = [.condBr more cont more]
      ∨ ∃ i todo', todo = i :: todo' ∧ todo' ≠ [] ∧ todo' <:+ checkCode frame cont more
        ∧ ∀ (sem : Semantics V W) (st : State V W),
          ∃ vs, effect sem st i = some (.ss i, st.setCheck more vs, .next) := by
  have htail : ∀ {i todo'}, todo = i :: todo' → todo' <:+ checkCode frame cont more := by
    rintro i todo' rfl
    exact (List.suffix_cons i todo').trans h
  unfold checkCode at h
  simp only [List.suffix_cons_iff, List.suffix_nil] at h
  rcases h with heq | heq | heq | heq | heq | heq
  · exact Or.inr ⟨_, _, heq, List.cons_ne_nil _ _, htail heq, fun _ _ => ⟨_, rfl⟩⟩
  · exact Or.inr ⟨_, _, heq, List.cons_ne_nil _ _, htail heq, fun _ _ => ⟨_, rfl⟩⟩
  · exact Or.inr ⟨_, _, heq, List.cons_ne_nil _ _, htail heq, fun _ _ => ⟨_, rfl⟩⟩
  · exact Or.inr ⟨_, _, heq, List.cons_ne_nil _ _, htail heq, fun _ _ => ⟨_, rfl⟩⟩
  · exact Or.inl heq
  · exact absurd heq hne

/-- What each block has become. -/
theorem counterpart (h : Checked F F' frame check cont more front body tail back)
    (hF : F.WellFormed) (sem : Semantics V W) {b : BasicBlock Code} (hb : b ∈ F.blocks) :
    ∃ b', Counterpart F F' sem id (Pos frame check cont more body) b b' := by
  by_cases hcheck : b.label = check
  · have hbcheck : b = ⟨check, body ++ [.br cont]⟩ :=
      List.inj_on_of_nodup_map hF.labels_nodup hb h.check_mem hcheck
    subst hbcheck
    have hbr : ∀ i ∈ [Code.br cont].head?, i.isPhi = false := by
      rintro i ⟨⟩
      rfl
    have hcode : ∀ i ∈ (checkCode frame cont more).head?, i.isPhi = false := fun i hi =>
      checkCode_phis frame cont more i (List.mem_of_mem_head? hi)
    refine ⟨⟨check, body ++ checkCode frame cont more⟩, ?_, rfl, fun st cur _ => ?_, ?_⟩
    · rw [h.blocks']
      exact List.mem_append_right _ List.mem_cons_self
    · show phiMoves sem st cur (body ++ checkCode frame cont more) = _
      rw [phiMoves_append _ _ _ hcode, phiMoves_append _ _ _ hbr]
    · show Pos frame check cont more body check (afterPhis (body ++ [.br cont])) check
        (afterPhis (body ++ checkCode frame cont more))
      rw [afterPhis_append _ hbr, afterPhis_append _ hcode]
      exact .before (afterPhis_suffix body)
  · have hne : b ≠ ⟨check, body ++ [.br cont]⟩ := fun heq => hcheck (heq ▸ rfl)
    exact ⟨b, h.mem_other hb hne, rfl, fun st cur _ => rfl, .elsewhere hcheck⟩

/-- How much of the checked block there is to do. -/
def rank (check : Label) (c : Config V W) : ℕ := if c.cur = check then c.rest.length else 0

theorem enter_cont {G : Func Code} (hG : G.labels.Nodup)
    (hcont : (⟨cont, tail⟩ : BasicBlock Code) ∈ G.blocks) (htail : ∀ i ∈ tail, i.isPhi = false)
    (st : State V W) (source : Label) :
    enter G sem st source cont = some ([], ⟨st, cont, tail⟩) :=
  enter_of_no_phi (b := ⟨cont, tail⟩) ((block?_eq_some hG).mpr ⟨hcont, rfl⟩) htail

/-- Where a check that fails leads. -/
theorem enter_more {G : Func Code} (hG : G.labels.Nodup)
    (hmore : moreBlock frame cont more ∈ G.blocks) (st : State V W) (source : Label) :
    enter G sem st source more = some ([], ⟨st, more, (moreBlock frame cont more).insts⟩) :=
  enter_of_no_phi (b := moreBlock frame cont more) ((block?_eq_some hG).mpr ⟨hmore, rfl⟩)
    (moreBlock_phis frame cont more)

/-- **The branch of the check** does what the branch it replaces did, or fails. -/
theorem answer_condBr (h : Checked F F' frame check cont more front body tail back)
    (hF : F.WellFormed) (st : State V W) (vs : CheckValues) :
    Answer afterDeletion (step F sem) (step F' sem)
      (Related F more (Pos frame check cont more body)) (rank check) ⟨st, check, [.br cont]⟩
      ⟨st.setCheck more vs, check, [.condBr more cont more]⟩ := by
  have hF' := h.wellFormed hF
  have hok : ((st.setCheck more vs).ss more).ok = vs.ok := by
    show (Function.update st.ss more vs more).ok = vs.ok
    rw [Function.update_self]
  have hstep' : step F' sem ⟨st.setCheck more vs, check, [.condBr more cont more]⟩
      = (enter F' sem (st.setCheck more vs) check (if vs.ok then cont else more)).map
        fun r => (.check more vs.ok :: r.1, r.2) := by
    rw [← hok]
    rfl
  cases hvs : vs.ok with
  | true =>
      have hstep : step F sem ⟨st, check, [.br cont]⟩
          = some ([.ss (.br cont)], ⟨st, cont, tail⟩) := by
        show (enter F sem st check cont).map _ = _
        rw [enter_cont hF.labels_nodup h.cont_mem h.tail_phis]
        rfl
      rw [hvs, if_pos rfl, enter_cont hF'.labels_nodup (by
        rw [h.blocks']
        exact List.mem_append_right _
          (List.mem_cons_of_mem _ (List.mem_cons_of_mem _ List.mem_cons_self))) h.tail_phis]
        at hstep'
      refine .both hstep hstep' (Observer.calm_singleton rfl) (Observer.calm_singleton rfl) rfl
        ⟨?_, ⟨vs, rfl⟩, ?_⟩
      · refine ⟨_, h.cont_mem, rfl, ?_⟩
        rw [show afterPhis tail = tail from afterPhis_append []
          fun i hi => h.tail_phis i (List.mem_of_mem_head? hi)]
      · refine .elsewhere fun heq => ?_
        exact (h.other hF (Or.inr (Or.inl rfl))).2 heq
  | false =>
      have hmore : moreBlock frame cont more ∈ F'.blocks := by
        rw [h.blocks']
        exact List.mem_append_right _ (List.mem_cons_of_mem _ List.mem_cons_self)
      rw [hvs, if_neg Bool.false_ne_true, enter_more hF'.labels_nodup hmore] at hstep'
      refine .alarm hstep' (fun hcalm => ?_) rfl
      exact Bool.noConfusion (hcalm _ List.mem_cons_self)

/-- In the check, the function waits at the branch it replaces. -/
theorem answer_checking (h : Checked F F' frame check cont more front body tail back)
    (hF : F.WellFormed) {st : State V W} {vs : CheckValues} {todo : List Code}
    (hloc : Located F ⟨st, check, [.br cont]⟩) (hsuf : todo <:+ checkCode frame cont more)
    (hne : todo ≠ []) :
    Answer afterDeletion (step F sem) (step F' sem)
      (Related F more (Pos frame check cont more body)) (rank check) ⟨st, check, [.br cont]⟩
      ⟨st.setCheck more vs, check, todo⟩ := by
  rcases checkCode_cases (V := V) (W := W) hsuf hne with rfl | ⟨i, todo', rfl, hne', hsuf', heff⟩
  · exact h.answer_condBr hF st vs
  · obtain ⟨vs', heff⟩ := heff sem (st.setCheck more vs)
    rw [State.setCheck_setCheck] at heff
    have hstep : step F' sem ⟨st.setCheck more vs, check, i :: todo'⟩
        = some ([.ss i], ⟨st.setCheck more vs', check, todo'⟩) := by
      show (effect sem (st.setCheck more vs) i).bind _ = _
      rw [heff]
      rfl
    refine .silent hstep (Observer.calm_singleton rfl) rfl
      ⟨hloc, ⟨vs', rfl⟩, .checking hsuf' hne'⟩ ?_
    unfold rank
    rw [if_pos rfl, if_pos rfl, List.length_cons]
    exact Nat.lt_succ_self _

/-- **The simulation.** -/
theorem answer (h : Checked F F' frame check cont more front body tail back) (hF : F.WellFormed)
    {c c' : Config V W} (hrel : Related F more (Pos frame check cont more body) c c') :
    Answer afterDeletion (step F sem) (step F' sem)
      (Related F more (Pos frame check cont more body)) (rank check) c c' := by
  obtain ⟨st, L, rest⟩ := c
  obtain ⟨st', L', rest'⟩ := c'
  obtain ⟨hloc, ⟨vs, hst⟩, hpos⟩ := hrel
  replace hst : st' = st.setCheck more vs := hst
  replace hpos : Pos frame check cont more body L rest L' rest' := hpos
  subst hst
  have hL : L ∈ F.labels := by
    obtain ⟨b, hb, hlabel, -⟩ := hloc
    exact mem_labels.mpr ⟨b, hb, hlabel⟩
  -- the edges out of the block
  have hgoto : ∀ dest ∈ F.labels, ∀ st' : State V W,
      SameResult (Related F more (Pos frame check cont more body)) (enter F sem st' L dest)
        (enter F' sem (st'.setCheck more vs) L dest) := by
    intro dest hdest st'
    obtain ⟨b, hb, rfl⟩ := mem_labels.mp hdest
    obtain ⟨b', hcp⟩ := h.counterpart hF sem hb
    exact hcp.enter hF.labels_nodup (h.wellFormed hF).labels_nodup hb hL st' vs
  cases hpos with
  | elsewhere hne =>
      cases rest with
      | nil => exact answer_ended
      | cons i rest =>
          exact related_same hF h.fresh hloc (.elsewhere hne) .ended
            fun dest _ hdest => hgoto dest hdest
  | @before mid hmid =>
      cases mid with
      | nil => exact h.answer_checking hF hloc (List.suffix_refl _) (List.cons_ne_nil _ _)
      | cons i mid =>
          exact related_same hF h.fresh hloc (.before ((List.suffix_cons i mid).trans hmid)) .ended
            fun dest _ hdest => hgoto dest hdest
  | checking hsuf hne => exact h.answer_checking hF hloc hsuf hne
  | ended => exact answer_ended

/-- **A check that passes changes nothing.** -/
theorem preserves (h : Checked F F' frame check cont more front body tail back)
    (hF : F.WellFormed) (sem : Semantics V W) (st : State V W) :
    Preserves afterDeletion (step F sem) (F.start st) (step F' sem) (F'.start st) :=
  preserves_of_answer (fun hrel => h.answer hF hrel)
    (related_start hF (h.wellFormed hF).labels_nodup h.head' (fun _ hb => h.counterpart hF sem hb)
      st)

end Checked

end Hopter.SplitStack
