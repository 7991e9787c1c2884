import Hopter.SplitStack.Static

/-!
# Every path is checked

A run of an instrumented function is either *covered*, which is to say that a
check passed or `__morestack` was called since SP was last lowered, or it is in a
check. In the shape the pass leaves there is nothing else: an alloca stands
directly in front of its check, a check that fails leads to the call of
`__morestack`, and a function starts with a check.
-/

namespace Hopter.SplitStack

open Conc

variable {V W : Type} {F : Func Code} {frame : BitVec 64} {padded : Prop} {sem : Semantics V W}

/-! ## Events -/

/-- The allocas of a function. -/
def Func.allocaIds (F : Func Code) : List ValueId :=
  F.blocks.flatMap fun b => b.insts.filterMap Code.allocaId?

/-- An alloca of `F` ran. -/
def Event.lowersStack (F : Func Code) : Event V → Bool
  | .exec id _ => decide (id ∈ F.allocaIds)
  | _ => false

/-- A check passed, or `__morestack` was called. -/
def Event.covers : Event V → Bool
  | .check _ passed => passed
  | .ss (.callMorestack _ _) => true
  | _ => false

/-- `%ss.ok`, for SP and the bound. -/
def checkOk (frame sp bound : BitVec 64) : Bool := decide (bound ≤ sp - frame)

/-- The checks among the events compared SP and the bound. -/
def Truthful (frame : BitVec 64) (sem : Semantics V W) (w : W) (es : List (Event V)) : Prop :=
  ∀ name passed, Event.check name passed ∈ es → passed = checkOk frame (sem.sp w) (sem.bound w)

theorem mem_allocaIds_iff (hF : F.WellFormed) {b : BasicBlock Code} (hb : b ∈ F.blocks) {i : Code}
    (hi : i ∈ b.insts) {id : ValueId} (hid : i.id? = some id) :
    id ∈ F.allocaIds ↔ i.allocaId? = some id := by
  unfold Func.allocaIds
  rw [List.mem_flatMap]
  constructor
  · intro h
    obtain ⟨b', hb', h⟩ := h
    obtain ⟨i', hi', halloca⟩ := List.mem_filterMap.mp h
    rw [(eq_of_id hF hb hb' hi hi' hid (Code.id?_of_alloca halloca)).2]
    exact halloca
  · intro h
    exact ⟨b, hb, List.mem_filterMap.mpr ⟨i, hi, h⟩⟩

/-- Nothing but an alloca lowers the stack. -/
theorem effect_not_lowers (hF : F.WellFormed) {b : BasicBlock Code} (hb : b ∈ F.blocks) {i : Code}
    (hi : i ∈ b.insts) (hno : i.allocaId? = none) {st : State V W}
    {done : Event V × State V W × Flow} (h : effect sem st i = some done) :
    done.1.lowersStack F = false := by
  have hop : ∀ id args, i.id? = some id → (runOp sem st id args).1.lowersStack F = false := by
    intro id args hid
    have hnot : decide (id ∈ F.allocaIds) = false := by
      rw [decide_eq_false_iff_not, mem_allocaIds_iff hF hb hi hid, hno]
      exact fun h => by cases h
    unfold runOp
    split <;> exact hnot
  cases i with
  | ir i =>
      cases i with
      | phi id incoming => cases h
      | ehPad id args => cases h; exact hop id args rfl
      | alloca id constSize inAlloca args => cases hno
      | op id args => cases h; exact hop id args rfl
      | term id args succs =>
          cases h
          unfold runTerm
          split
          · split <;> rfl
          · rfl
  | callMorestack f doesNotThrow =>
      simp only [effect] at h
      split at h <;> cases h <;> rfl
  | readSp n | loadBound n | subFrame n f | cmpUge n | condBr n pass fail | br dest =>
      cases h
      rfl

theorem phiMoves_ids {st : State V W} {source : Label} {insts : List Code}
    {moves : List (ValueId × V)} (h : phiMoves sem st source insts = some moves) :
    ∀ m ∈ moves, ∃ i ∈ insts, i.isPhi = true ∧ i.id? = some m.1 := by
  induction insts generalizing moves with
  | nil =>
      cases h
      exact fun _ h => absurd h List.not_mem_nil
  | cons i insts ih =>
      cases hi : i.isPhi with
      | false =>
          have hhead : ∀ j ∈ (i :: insts).head?, j.isPhi = false := by
            intro j hj
            cases hj
            exact hi
          rw [phiMoves_of_not_phi hhead] at h
          cases h
          exact fun _ h => absurd h List.not_mem_nil
      | true =>
          rcases i with (⟨id, incoming⟩ | _ | _ | _ | _) | _ | _ | _ | _ | _ | _ | _
          case ir.phi =>
            simp only [phiMoves, Option.bind_eq_bind, Option.bind_eq_some_iff] at h
            obtain ⟨entry, -, moves', hmoves', heq⟩ := h
            cases heq
            intro m hm
            rcases List.mem_cons.mp hm with rfl | hm
            · exact ⟨_, List.mem_cons_self, rfl, rfl⟩
            · obtain ⟨j, hj, hphi⟩ := ih hmoves' m hm
              exact ⟨j, List.mem_cons_of_mem _ hj, hphi⟩
          all_goals cases hi

/-- PHIs do not lower the stack. -/
theorem enter_not_lowers (hF : F.WellFormed) {st : State V W} {source dest : Label}
    {es : List (Event V)} {c : Config V W} (h : enter F sem st source dest = some (es, c)) :
    ∀ e ∈ es, e.lowersStack F = false := by
  obtain ⟨b, moves, hb, hmoves, rfl, -⟩ := enter_eq_some.mp h
  intro e he
  obtain ⟨m, hm, rfl⟩ := List.mem_map.mp he
  obtain ⟨i, hi, hphi, hid⟩ := phiMoves_ids hmoves m hm
  show decide (m.1 ∈ F.allocaIds) = false
  rw [decide_eq_false_iff_not,
    mem_allocaIds_iff hF ((block?_eq_some hF.labels_nodup).mp hb).1 hi hid]
  intro halloca
  have hnone := Code.allocaId?_of_phi (Or.inl hphi)
  unfold Code.allocaId? at halloca
  rw [hnone] at halloca
  cases halloca

/-! ## Where a run is -/

/-- What the first `k` instructions of a check have left. -/
structure ReadUpTo (sem : Semantics V W) (frame : BitVec 64) (st : State V W) (more : Label)
    (k : ℕ) : Prop where
  sp : 1 ≤ k → (st.ss more).sp = sem.sp st.world
  bound : 2 ≤ k → (st.ss more).bound = sem.bound st.world
  need : 3 ≤ k → (st.ss more).need = sem.sp st.world - frame
  ok : 4 ≤ k → (st.ss more).ok = checkOk frame (sem.sp st.world) (sem.bound st.world)

/-- What there is to do, and whether it is covered. -/
inductive At (F : Func Code) (frame : BitVec 64) (sem : Semantics V W) (st : State V W) :
    Bool → List Code → Prop where
  | body {mid tail : List Code} : Pending [] mid → Tail frame F tail →
      At F frame sem st true (mid ++ tail)
  | check {covered : Bool} {cont more : Label} {k : ℕ} : k < 5 →
      moreBlock frame cont more ∈ F.blocks → ReadUpTo sem frame st more k →
      At F frame sem st covered ((checkCode frame cont more).drop k)
  | more {covered : Bool} (cont more : Label) :
      At F frame sem st covered (moreBlock frame cont more).insts
  | ended {covered : Bool} : At F frame sem st covered []

/-- The trace is guarded so far, and what there is to do keeps it guarded. -/
structure Covers (F : Func Code) (frame : BitVec 64) (sem : Semantics V W) (es : List (Event V))
    (c : Config V W) : Prop where
  located : Located F c
  guarded : Guarded (Event.lowersStack F) Event.covers Event.isSource es
  position : ∃ covered, At F frame sem c.st covered c.rest
    ∧ (covered = true → Since (Event.lowersStack F) Event.covers es)

/-- A check reads SP first, then the bound, subtracts, compares. -/
theorem readUpTo_step {st : State V W} {more : Label} {k : ℕ} (hk : k < 4)
    (h : ReadUpTo sem frame st more k) (cont : Label) :
    ∃ i st', (checkCode frame cont more).drop k = i :: (checkCode frame cont more).drop (k + 1)
      ∧ effect sem st i = some (.ss i, st', .next) ∧ ReadUpTo sem frame st' more (k + 1) := by
  have hself : ∀ vs, (st.setCheck more vs).ss more = vs := fun vs => Function.update_self ..
  obtain ⟨hsp, hbound, hneed, -⟩ := h
  have hcases : k = 0 ∨ k = 1 ∨ k = 2 ∨ k = 3 := by omega
  rcases hcases with rfl | rfl | rfl | rfl
  · refine ⟨_, _, rfl, rfl, fun _ => ?_, by omega, by omega, by omega⟩
    rw [hself]
    rfl
  · refine ⟨_, _, rfl, rfl, fun _ => ?_, fun _ => ?_, by omega, by omega⟩
    · rw [hself]
      exact hsp (by omega)
    · rw [hself]
      rfl
  · refine ⟨_, _, rfl, rfl, fun _ => ?_, fun _ => ?_, fun _ => ?_, by omega⟩
    · rw [hself]
      exact hsp (by omega)
    · rw [hself]
      exact hbound (by omega)
    · rw [hself]
      show (st.ss more).sp - frame = sem.sp st.world - frame
      rw [hsp (by omega)]
  · refine ⟨_, _, rfl, rfl, fun _ => ?_, fun _ => ?_, fun _ => ?_, fun _ => ?_⟩
    · rw [hself]
      exact hsp (by omega)
    · rw [hself]
      exact hbound (by omega)
    · rw [hself]
      exact hneed (by omega)
    · rw [hself]
      show decide ((st.ss more).bound ≤ (st.ss more).need) = checkOk frame _ _
      rw [hbound (by omega), hneed (by omega)]
      rfl

/-! ## One step -/

theorem Tail.head_not_phi {tail : List Code} (h : Tail frame F tail) :
    ∀ i ∈ tail.head?, i.isPhi = false := by
  intro i hi
  cases h with
  | source => cases hi
  | br dest => cases hi; rfl
  | check hmore => cases hi; rfl
  | more cont more => cases hi; rfl
  | alloca halloca hmore =>
      cases hi
      exact (Code.isAlloca_spec (Code.allocaId?_eq_some.mp halloca)).1

/-- A block is covered from its PHIs on. -/
theorem at_block (h : Shaped frame padded [] F) {b : BasicBlock Code} (hb : b ∈ F.blocks)
    (st : State V W) : At F frame sem st true (afterPhis b.insts) := by
  obtain ⟨body, tail, hinsts, hbody, htail⟩ := h.blocks b hb
  rw [hinsts, afterPhis_append body htail.head_not_phi]
  exact .body (fun i hi => hbody i ((afterPhis_suffix body).subset hi)) htail

/-- Control goes on after an event that leaves the function covered. -/
theorem covers_follow (h : Shaped frame padded [] F) (hF : F.WellFormed)
    {es es' : List (Event V)} {st st' : State V W} {cur : Label} {i : Code} {rest : List Code}
    {e : Event V} {flow : Flow} {c' : Config V W} (hloc : Located F ⟨st, cur, i :: rest⟩)
    (hguard : Guarded (Event.lowersStack F) Event.covers Event.isSource es)
    (hsource : e.isSource = true → Since (Event.lowersStack F) Event.covers es)
    (hsince : Since (Event.lowersStack F) Event.covers (es ++ [e]))
    (hnext : flow = .next → At F frame sem st' true rest)
    (hflow : follow F sem cur rest (e, st', flow) = some (es', c')) :
    Covers F frame sem (es ++ es') c' := by
  have hloc' := located_follow hloc hflow
  cases flow with
  | next =>
      cases hflow
      exact ⟨hloc', hguard.concat hsource, true, hnext rfl, fun _ => hsince⟩
  | leave =>
      cases hflow
      exact ⟨hloc', hguard.concat hsource, true, .ended, fun _ => hsince⟩
  | goto dest =>
      simp only [follow, Option.map_eq_some_iff] at hflow
      obtain ⟨⟨moves, c''⟩, henter, heq⟩ := hflow
      cases heq
      have hmoves := enter_not_lowers hF henter
      obtain ⟨b, ms, hb, -, -, rfl⟩ := enter_eq_some.mp henter
      have happend : es ++ e :: moves = es ++ [e] ++ moves := List.append_cons _ _ _
      refine ⟨hloc', ?_, true, at_block h ((block?_eq_some hF.labels_nodup).mp hb).1 _, fun _ => ?_⟩
      · rw [happend]
        refine (hguard.concat hsource).append fun before x after heq _ => ?_
        exact hsince.append fun y hy => hmoves y (heq ▸ List.mem_append_left _ hy)
      · rw [happend]
        exact hsince.append hmoves

/-- An instruction of a covered function that is no alloca. -/
theorem covers_other (h : Shaped frame padded [] F) (hF : F.WellFormed)
    {es es' : List (Event V)} {st : State V W} {cur : Label} {i : Code} {rest : List Code}
    {done : Event V × State V W × Flow} {c' : Config V W} (hloc : Located F ⟨st, cur, i :: rest⟩)
    (hguard : Guarded (Event.lowersStack F) Event.covers Event.isSource es)
    (hsince : Since (Event.lowersStack F) Event.covers es) (hno : i.allocaId? = none)
    (heff : effect sem st i = some done)
    (hnext : done.2.2 = .next → At F frame sem done.2.1 true rest)
    (hflow : follow F sem cur rest done = some (es', c')) :
    Covers F frame sem (es ++ es') c' := by
  obtain ⟨b, hb, -, -, hi⟩ := hloc.inst rfl
  refine covers_follow h hF hloc hguard (fun _ => hsince) (hsince.append fun e he => ?_) hnext hflow
  rw [List.mem_singleton.mp he]
  exact effect_not_lowers hF hb hi hno heff

/-- Of the events of a step the first one only can be a check. -/
theorem truthful_follow {w : W} {cur : Label} {rest : List Code} {e : Event V} {st : State V W}
    {flow : Flow} {es : List (Event V)} {c : Config V W}
    (h : follow F sem cur rest (e, st, flow) = some (es, c))
    (he : ∀ name passed, e = .check name passed →
      passed = checkOk frame (sem.sp w) (sem.bound w)) : Truthful frame sem w es := by
  obtain ⟨moves, rfl, hmoves⟩ := follow_events h
  intro name passed hmem
  rcases List.mem_cons.mp hmem with heq | hmem
  · exact he name passed heq.symm
  · exact absurd (hmoves _ hmem) Bool.noConfusion

/-- The call of `__morestack`. -/
theorem covers_more (h : Shaped frame padded [] F) (hF : F.WellFormed)
    {es es' : List (Event V)} {st : State V W} {cur cont more : Label} {c' : Config V W}
    (hloc : Located F ⟨st, cur, (moreBlock frame cont more).insts⟩)
    (hguard : Guarded (Event.lowersStack F) Event.covers Event.isSource es)
    (hs : step F sem ⟨st, cur, (moreBlock frame cont more).insts⟩ = some (es', c')) :
    Covers F frame sem (es ++ es') c' ∧ Truthful frame sem st.world es' := by
  obtain ⟨i, rest, done, hrest, heff, hflow⟩ := step_eq_some hs
  replace hrest : [Code.callMorestack frame true, .br cont] = i :: rest := hrest
  rw [List.cons.injEq] at hrest
  obtain ⟨rfl, rfl⟩ := hrest
  obtain ⟨e, st', flow⟩ := done
  have he : e = .ss (.callMorestack frame true) := by
    simp only [effect] at heff
    split at heff <;> cases heff <;> rfl
  subst he
  have hnil : Pending [] [] := fun _ h => absurd h List.not_mem_nil
  have hbr : ∀ {st : State V W}, At F frame sem st true ([] ++ [.br cont]) :=
    .body hnil (.br cont)
  exact ⟨covers_follow h hF hloc hguard (fun hno => absurd hno Bool.noConfusion)
    (since_concat es rfl rfl) (fun _ => hbr) hflow,
    truthful_follow hflow fun name passed heq => by cases heq⟩

/-- **A check.** -/
theorem covers_check (h : Shaped frame padded [] F) (hF : F.WellFormed)
    {es es' : List (Event V)} {st : State V W} {cur cont more : Label} {k : ℕ} {covered : Bool}
    {c' : Config V W} (hk : k < 5) (hmore : moreBlock frame cont more ∈ F.blocks)
    (hread : ReadUpTo sem frame st more k)
    (hloc : Located F ⟨st, cur, (checkCode frame cont more).drop k⟩)
    (hguard : Guarded (Event.lowersStack F) Event.covers Event.isSource es)
    (hsince : covered = true → Since (Event.lowersStack F) Event.covers es)
    (hs : step F sem ⟨st, cur, (checkCode frame cont more).drop k⟩ = some (es', c')) :
    Covers F frame sem (es ++ es') c' ∧ Truthful frame sem st.world es' := by
  by_cases hlt : k < 4
  · obtain ⟨i, st', hdrop, heff, hread'⟩ := readUpTo_step hlt hread cont
    rw [hdrop] at hloc hs
    have hflow : follow F sem cur ((checkCode frame cont more).drop (k + 1)) (.ss i, st', .next)
        = some (es', c') := by
      rw [← hs]
      show _ = (effect sem st i).bind _
      rw [heff]
      rfl
    have hloc' := located_follow hloc hflow
    have htrue : Truthful frame sem st.world es' :=
      truthful_follow hflow fun name passed heq => by cases heq
    cases hflow
    refine ⟨⟨hloc', hguard.concat fun hno => absurd hno Bool.noConfusion, covered,
      .check (by omega) hmore hread', fun hcov => (hsince hcov).append fun e he => ?_⟩, htrue⟩
    rw [List.mem_singleton.mp he]
    rfl
  · obtain rfl : k = 4 := by omega
    have hok := hread.ok (Nat.le_refl 4)
    have hflow : follow F sem cur [] (.check more (st.ss more).ok, st,
        .goto (if (st.ss more).ok then cont else more)) = some (es', c') := hs
    have htrue : Truthful frame sem st.world es' := truthful_follow hflow fun name passed heq => by
      rw [← hok]
      cases heq
      rfl
    refine ⟨?_, htrue⟩
    cases hpassed : (st.ss more).ok with
    | true =>
        rw [hpassed] at hflow
        exact covers_follow h hF hloc hguard (fun hno => absurd hno Bool.noConfusion)
          (since_concat es rfl rfl) (fun hnext => by cases hnext) hflow
    | false =>
        have henter : enter F sem st cur more
            = some ([], ⟨st, more, (moreBlock frame cont more).insts⟩) :=
          Checked.enter_more hF.labels_nodup hmore st cur
        have hloc' := located_follow hloc hflow
        rw [hpassed] at hflow
        simp only [follow, if_neg Bool.false_ne_true, henter, Option.map_some] at hflow
        cases hflow
        refine ⟨hloc', hguard.concat fun hno => absurd hno Bool.noConfusion, covered,
          .more cont more, fun hcov => (hsince hcov).append fun e he => ?_⟩
        rw [List.mem_singleton.mp he]
        rfl

/-- **One step.** -/
theorem covers_step (h : Shaped frame padded [] F) (hF : F.WellFormed) {es es' : List (Event V)}
    {c c' : Config V W} (hc : Covers F frame sem es c) (hs : step F sem c = some (es', c')) :
    Covers F frame sem (es ++ es') c' ∧ Truthful frame sem c.st.world es' := by
  obtain ⟨st, cur, rest⟩ := c
  obtain ⟨hloc, hguard, covered, hat, hsince⟩ := hc
  replace hat : At F frame sem st covered rest := hat
  have hsource : ∀ {i : Code} {rest' : List Code} {done : Event V × State V W × Flow},
      effect sem st i = some done → follow F sem cur rest' done = some (es', c') → i.isIr = true →
        Truthful frame sem st.world es' := by
    intro i rest' done heff hflow hir
    refine truthful_follow hflow fun name passed heq => ?_
    cases i with
    | ir i =>
        have hsource := effect_source heff
        rw [heq] at hsource
        cases hsource
    | _ => cases hir
  cases hat with
  | ended => cases hs
  | more cont more => exact covers_more h hF hloc hguard hs
  | check hk hmore hread => exact covers_check h hF hk hmore hread hloc hguard hsince hs
  | @body mid tail hmid htail =>
      cases mid with
      | cons i mid =>
          -- an instruction of the source that is no alloca
          obtain ⟨i', rest', done, hrest, heff, hflow⟩ := step_eq_some hs
          replace hrest : i :: (mid ++ tail) = i' :: rest' := hrest
          rw [List.cons.injEq] at hrest
          obtain ⟨rfl, rfl⟩ := hrest
          obtain ⟨hir, hpending⟩ := hmid i List.mem_cons_self
          have hno : i.allocaId? = none := Option.eq_none_iff_forall_ne_some.mpr fun ai hai =>
            absurd (hpending ai hai) List.not_mem_nil
          refine ⟨covers_other h hF hloc hguard (hsince rfl) hno heff (fun _ => ?_) hflow,
            hsource heff hflow hir⟩
          exact .body (fun j hj => hmid j (List.mem_cons_of_mem i hj)) htail
      | nil =>
          cases htail with
          | source => cases hs
          | more cont more =>
              replace hs : step F sem ⟨st, cur, (moreBlock frame cont more).insts⟩
                = some (es', c') := hs
              exact covers_more h hF hloc hguard hs
          | check hmore =>
              refine covers_check h hF (Nat.zero_lt_succ 4) hmore ?_ hloc hguard hsince hs
              exact ⟨by omega, by omega, by omega, by omega⟩
          | br dest =>
              have hflow : follow F sem cur [] (.ss (.br dest), st, .goto dest)
                = some (es', c') := hs
              exact ⟨covers_other h hF hloc hguard (hsince rfl) rfl rfl
                (fun hnext => by cases hnext) hflow,
                truthful_follow hflow fun name passed heq => by cases heq⟩
          | @alloca i ai cont more hi hmore =>
              obtain ⟨i', rest', done, hrest, heff, hflow⟩ := step_eq_some hs
              replace hrest : i :: checkCode frame cont more = i' :: rest' := hrest
              rw [List.cons.injEq] at hrest
              obtain ⟨rfl, rfl⟩ := hrest
              have htrue := hsource heff hflow (Code.isIr_of_alloca hi)
              have hloc' := located_follow hloc hflow
              have hread : ∀ st : State V W, ReadUpTo sem frame st more 0 := fun _ =>
                ⟨by omega, by omega, by omega, by omega⟩
              refine ⟨?_, htrue⟩
              rcases i with (_ | _ | ⟨id, constSize, inAlloca, args⟩ | _ | _)
                | _ | _ | _ | _ | _ | _ | _
              case ir.alloca =>
                replace heff : some (runOp sem st id args) = some done := heff
                rw [Option.some.injEq] at heff
                subst heff
                unfold runOp at hflow
                split at hflow
                · cases hflow
                  exact ⟨hloc', hguard.concat fun _ => hsince rfl, false,
                    .check (Nat.zero_lt_succ 4) hmore (hread _), Bool.noConfusion⟩
                · cases hflow
                  exact ⟨hloc', hguard.concat fun _ => hsince rfl, false, .ended, Bool.noConfusion⟩
              all_goals cases hi

/-- A function starts with its check, behind the EH pads of the source. -/
theorem Shaped.start_check {todo : List ValueId} (h : Shaped frame padded todo F)
    (hF : F.WellFormed) (st : State V W) :
    ∃ label pads cont more, F.start st = ⟨st, label, pads ++ checkCode frame cont more⟩
      ∧ (∀ i ∈ pads, padded ∧ i.isEhPad = true) ∧ moreBlock frame cont more ∈ F.blocks := by
  obtain ⟨b, bs, hblocks⟩ := List.exists_cons_of_ne_nil hF.nonempty
  obtain ⟨pads, cont, more, hpads, hinsts, hmore⟩ := h.entry b (hblocks ▸ rfl)
  have hafter : afterPhis b.insts = afterPhis pads ++ checkCode frame cont more := by
    rw [hinsts]
    exact afterPhis_append pads fun i hi =>
      checkCode_phis frame cont more i (List.mem_of_mem_head? hi)
  refine ⟨b.label, afterPhis pads, cont, more, ?_, fun i hi => ?_, hmore⟩
  · unfold Func.start
    rw [hblocks, ← hafter]
  · have hphi : i.isPhi = false := not_phi_of_mem_afterPhis
      (hF.phisFirst b (hblocks ▸ List.mem_cons_self)) i (hafter ▸ List.mem_append_left _ hi)
    rcases hpads i ((afterPhis_suffix pads).subset hi) with hyes | hyes
    · rw [hphi] at hyes
      cases hyes
    · exact hyes

/-- **Every path.** -/
theorem covers_run (h : Shaped frame False [] F) (hF : F.WellFormed) {st : State V W}
    {es : List (Event V)} {c : Config V W} (hrun : Emits (step F sem) (F.start st) es c) :
    Covers F frame sem es c := by
  refine hrun.trace_invariant ⟨located_start hF st, guarded_nil, false, ?_, Bool.noConfusion⟩
    fun hc hs => (covers_step h hF hc hs).1
  obtain ⟨label, pads, cont, more, hstart, hpads, hmore⟩ := h.start_check hF st
  have hnil : pads = [] := List.eq_nil_iff_forall_not_mem.mpr fun i hi => (hpads i hi).1
  rw [hstart, hnil]
  exact .check (Nat.zero_lt_succ 4) hmore ⟨by omega, by omega, by omega, by omega⟩

/-- **Check coverage on every path.** The verifier allows no EH pad in an entry block. -/
theorem instrumentFunction_covers (clExtraPad : BitVec 32) (F : Func Instruction)
    (hF : F.code.WellFormed)
    (hpad : ∀ entry ∈ F.code.blocks.head?, ∀ i ∈ entry.insts, i.isEhPad = false)
    (hskip : shouldSkip F = false) :
    let F' := (instrumentFunction clExtraPad F).1
    let frame := framePad clExtraPad
    -- no alloca is left without a check
    (∀ id ∈ F.code.allocaIds, HasCheck frame F' id)
    ∧ ∀ {V W : Type} (sem : Semantics V W) (st : State V W) es c,
      Emits (step F' sem) (F'.start st) es c →
        -- no instruction of the source runs before the check
        Guarded (Event.lowersStack F.code) Event.covers Event.isSource es
        -- and the check compares the SP there is with the bound
        ∧ ∀ es' c', step F' sem c = some (es', c') → Truthful frame sem c.st.world es' := by
  have hF' := (instrumentFunction_preserved clExtraPad hF hskip).wellFormed
  have hshaped := instrumentFunction_shaped clExtraPad hF hskip
  have hnone : (∃ b ∈ F.code.blocks.head?, ∃ i ∈ b.insts, i.isEhPad = true) = False := by
    rw [eq_iff_iff, iff_false]
    rintro ⟨b, hb, i, hi, hpad'⟩
    rw [hpad b hb i hi] at hpad'
    cases hpad'
  rw [hnone] at hshaped
  have hids : (instrumentFunction clExtraPad F).1.allocaIds = F.code.allocaIds :=
    instrumentFunction_gather clExtraPad hF Code.allocaId?_replaceIncoming
      fun i hi => Option.map_eq_none_iff.mpr (Code.alloca?_of_not_ir hi)
  have hlowers : ∀ {V : Type}, Event.lowersStack (V := V) (instrumentFunction clExtraPad F).1
      = Event.lowersStack F.code := by
    intro V
    funext e
    cases e with
    | exec id args => simp only [Event.lowersStack, hids]
    | _ => rfl
  refine ⟨fun id hid => ?_, fun sem st es c hrun => ?_⟩
  · obtain ⟨b, hb, hmem⟩ := List.mem_flatMap.mp hid
    obtain ⟨i, hi, halloca⟩ := List.mem_filterMap.mp hmem
    exact alloca_hasCheck hF hskip hb hi halloca
  · have hcovers := covers_run hshaped hF' hrun
    exact ⟨hlowers ▸ hcovers.guarded, fun es' c' hs => (covers_step hshaped hF' hcovers hs).2⟩

/-- Of two allocas side by side the second one is checked before what follows. -/
theorem instrumentFunction_covers_loop :
    Since (Event.lowersStack loopFunc.code) Event.covers
      ((runFor (step (instrumentFunction 0 loopFunc).1 loopSem) 29
        ((instrumentFunction 0 loopFunc).1.start loopStart)).1.take 29) := by
  have hrun := emits_runFor (step (instrumentFunction 0 loopFunc).1 loopSem) 29
    ((instrumentFunction 0 loopFunc).1.start loopStart)
  have hcovers := (instrumentFunction_covers 0 loopFunc (by decide) (by decide) (by decide)).2
    loopSem loopStart _ _ hrun
  exact hcovers.1 _ (.exec 7 [0]) [] rfl rfl

end Hopter.SplitStack
