import Mathlib.Data.List.Nodup
import Hopter.SplitStack.Exec

/-!
# Two versions of a function

What the proofs about the edits of a function share. An edit leaves most
instructions as they are, and `answer_same` is the case of an instruction that
both versions have to run. The later version may have values for a check of its
own (`State.setCheck`); an instruction that does not name the check works the
same with and without them.
-/

namespace Hopter.SplitStack

open Conc

variable {V W : Type} {F F' : Func Code} {sem : Semantics V W}

/-! ## Blocks -/

theorem block?_eq_some (h : F.labels.Nodup) {L : Label} {b : BasicBlock Code} :
    F.block? L = some b ↔ b ∈ F.blocks ∧ b.label = L := by
  unfold Func.block?
  constructor
  · intro hb
    exact ⟨List.mem_of_find?_eq_some hb, by simpa using List.find?_some hb⟩
  · rintro ⟨hb, rfl⟩
    have hsome : (F.blocks.find? fun b' => decide (b'.label = b.label)).isSome := by
      rw [List.find?_isSome]
      exact ⟨b, hb, decide_eq_true rfl⟩
    obtain ⟨b', hb'⟩ := Option.isSome_iff_exists.mp hsome
    have hlabel : b'.label = b.label := by simpa using List.find?_some hb'
    rw [hb', List.inj_on_of_nodup_map h (List.mem_of_find?_eq_some hb') hb hlabel]

theorem mem_labels {L : Label} : L ∈ F.labels ↔ ∃ b ∈ F.blocks, b.label = L := List.mem_map

/-! ## PHIs -/

theorem afterPhis_suffix (insts : List Code) : afterPhis insts <:+ insts :=
  List.dropWhile_suffix _

/-- Behind the PHIs there are none. -/
theorem not_phi_of_mem_afterPhis {insts : List Code}
    (h : insts.Pairwise fun i j => j.isPhi = true → i.isPhi = true) :
    ∀ i ∈ afterPhis insts, i.isPhi = false := by
  induction insts with
  | nil => exact fun _ hi => absurd hi List.not_mem_nil
  | cons j insts ih =>
      rw [List.pairwise_cons] at h
      unfold afterPhis
      rw [List.dropWhile_cons]
      split
      · exact ih h.2
      · rename_i hj
        rintro i hi
        rcases List.mem_cons.mp hi with rfl | hi
        · exact Bool.eq_false_iff.mpr hj
        · exact Bool.eq_false_iff.mpr fun hphi => hj (h.1 i hi hphi)

/-- A list that does not start with a PHI stays behind whatever stands in front of it. -/
theorem afterPhis_append (insts : List Code) {tail : List Code}
    (h : ∀ i ∈ tail.head?, i.isPhi = false) :
    afterPhis (insts ++ tail) = afterPhis insts ++ tail := by
  unfold afterPhis
  induction insts with
  | nil =>
      cases tail with
      | nil => rfl
      | cons i tail => exact List.dropWhile_cons_of_neg (by rw [h i rfl]; exact Bool.false_ne_true)
  | cons i insts ih =>
      rw [List.cons_append, List.dropWhile_cons, List.dropWhile_cons]
      split
      · exact ih
      · rfl

theorem phiMoves_of_not_phi {st : State V W} {source : Label} {insts : List Code}
    (h : ∀ i ∈ insts.head?, i.isPhi = false) : phiMoves sem st source insts = some [] := by
  unfold phiMoves
  split
  · exact absurd (h _ rfl) Bool.noConfusion
  · rfl

theorem phiMoves_append (st : State V W) (source : Label) (insts : List Code) {tail : List Code}
    (h : ∀ i ∈ tail.head?, i.isPhi = false) :
    phiMoves sem st source (insts ++ tail) = phiMoves sem st source insts := by
  induction insts with
  | nil => exact (phiMoves_of_not_phi h).trans rfl
  | cons i insts ih =>
      cases hi : i.isPhi with
      | false =>
          have hhead : ∀ j ∈ (i :: insts).head?, j.isPhi = false := by
            rintro j ⟨⟩
            exact hi
          rw [phiMoves_of_not_phi hhead]
          exact phiMoves_of_not_phi hhead
      | true =>
          cases i with
          | ir i =>
              cases i with
              | phi id incoming => simp only [List.cons_append, phiMoves, ih]
              | _ => cases hi
          | _ => cases hi

theorem enter_eq_some {st : State V W} {source dest : Label} {es : List (Event V)}
    {c : Config V W} :
    enter F sem st source dest = some (es, c) ↔
      ∃ b moves, F.block? dest = some b ∧ phiMoves sem st source b.insts = some moves
        ∧ es = (moves.map fun m => .exec m.1 [m.2])
        ∧ c = ⟨st.assign moves, dest, afterPhis b.insts⟩ := by
  unfold enter
  simp only [Option.bind_eq_bind, Option.bind_eq_some_iff, Option.some.injEq, Prod.mk.injEq]
  constructor
  · rintro ⟨b, hb, moves, hmoves, rfl, rfl⟩
    exact ⟨b, moves, hb, hmoves, rfl, rfl⟩
  · rintro ⟨b, moves, hb, hmoves, rfl, rfl⟩
    exact ⟨b, hb, moves, hmoves, rfl, rfl⟩

theorem enter_of_no_phi {st : State V W} {source : Label} {b : BasicBlock Code}
    (hb : F.block? b.label = some b) (h : ∀ i ∈ b.insts, i.isPhi = false) :
    enter F sem st source b.label = some ([], ⟨st, b.label, b.insts⟩) := by
  have hhead : ∀ i ∈ b.insts.head?, i.isPhi = false := fun i hi => h i (List.mem_of_mem_head? hi)
  refine enter_eq_some.mpr ⟨b, [], hb, phiMoves_of_not_phi hhead, rfl, ?_⟩
  rw [show afterPhis b.insts = b.insts from afterPhis_append [] hhead]
  rfl

/-! ## Where a run is -/

/-- What is left to do is the end of the block. -/
def Located (F : Func Code) (c : Config V W) : Prop :=
  ∃ b ∈ F.blocks, b.label = c.cur ∧ c.rest <:+ afterPhis b.insts

theorem located_start (hF : F.WellFormed) (st : State V W) : Located F (F.start st) := by
  unfold Func.start
  split
  · rename_i hnil
    exact absurd hnil hF.nonempty
  · rename_i b bs hblocks
    exact ⟨b, hblocks ▸ List.mem_cons_self, rfl, List.suffix_refl _⟩

theorem Located.inst {c : Config V W} {i : Code} {rest : List Code} (h : Located F c)
    (hrest : c.rest = i :: rest) :
    ∃ b ∈ F.blocks, b.label = c.cur ∧ i ∈ afterPhis b.insts ∧ i ∈ b.insts := by
  obtain ⟨b, hb, hcur, hsuf⟩ := h
  have hi : i ∈ afterPhis b.insts := hsuf.subset (hrest ▸ List.mem_cons_self)
  exact ⟨b, hb, hcur, hi, (afterPhis_suffix _).subset hi⟩

/-- **Inversion.** A step runs the next instruction and follows control. -/
theorem step_eq_some {c c' : Config V W} {es : List (Event V)}
    (h : step F sem c = some (es, c')) :
    ∃ i rest done, c.rest = i :: rest ∧ effect sem c.st i = some done
      ∧ follow F sem c.cur rest done = some (es, c') := by
  unfold step at h
  split at h
  · cases h
  · rename_i i rest hrest
    obtain ⟨done, heff, hfollow⟩ := Option.bind_eq_some_iff.mp h
    exact ⟨i, rest, done, hrest, heff, hfollow⟩

/-- Control goes on in the block, ends, or goes to another block along an edge. -/
theorem located_follow {cur : Label} {i : Code} {rest : List Code} {st : State V W}
    {done : Event V × State V W × Flow} {es : List (Event V)} {c' : Config V W}
    (h : Located F ⟨st, cur, i :: rest⟩) (hs : follow F sem cur rest done = some (es, c')) :
    Located F c' := by
  obtain ⟨b, hb, hcur, hsuf⟩ := h
  unfold follow at hs
  split at hs
  · cases hs
    exact ⟨b, hb, hcur, (List.suffix_cons i rest).trans hsuf⟩
  · cases hs
    exact ⟨b, hb, hcur, List.nil_suffix⟩
  · rename_i e st' dest
    rw [Option.map_eq_some_iff] at hs
    obtain ⟨⟨es', c''⟩, henter, heq⟩ := hs
    obtain ⟨b', moves, hb', -, rfl, rfl⟩ := enter_eq_some.mp henter
    cases heq
    exact ⟨b', List.mem_of_find?_eq_some hb', by simpa using List.find?_some hb',
      List.suffix_refl _⟩

theorem located_step {c c' : Config V W} {es : List (Event V)} (h : Located F c)
    (hs : step F sem c = some (es, c')) : Located F c' := by
  obtain ⟨st, cur, rest⟩ := c
  obtain ⟨i, rest', done, hrest, -, hflow⟩ := step_eq_some hs
  replace hrest : rest = i :: rest' := hrest
  rw [hrest] at h
  exact located_follow h hflow

/-! ## An instruction both versions run -/

section SetCheck

variable {n : Label} {vs : CheckValues}

theorem values_setCheck (st : State V W) (args : List Operand) :
    (st.setCheck n vs).values sem args = st.values sem args := rfl

theorem world_setCheck (st : State V W) : (st.setCheck n vs).world = st.world := rfl

theorem runOp_setCheck (st : State V W) (id : ValueId) (args : List Operand) :
    some (runOp sem (st.setCheck n vs) id args)
      = (some (runOp sem st id args)).map fun r => (r.1, r.2.1.setCheck n vs, r.2.2) := by
  unfold runOp
  rw [values_setCheck, world_setCheck]
  cases sem.op id (st.values sem args) st.world with
  | none => rfl
  | some r => rfl

theorem runTerm_setCheck (st : State V W) (id : ValueId) (args : List Operand)
    (succs : List Label) :
    some (runTerm sem (st.setCheck n vs) id args succs)
      = (some (runTerm sem st id args succs)).map fun r => (r.1, r.2.1.setCheck n vs, r.2.2) := by
  unfold runTerm
  rw [values_setCheck, world_setCheck]
  cases sem.term id (st.values sem args) st.world with
  | none => rfl
  | some r =>
      dsimp only
      cases succs[r.1]? with
      | none => rfl
      | some dest => rfl

/-- An instruction works the same with the values of a check it does not name. -/
theorem effect_setCheck {i : Code} (hi : n ∉ i.check?) (st : State V W) :
    effect sem (st.setCheck n vs) i
      = (effect sem st i).map fun r => (r.1, r.2.1.setCheck n vs, r.2.2) := by
  -- reading and writing the values of another check
  have hread : ∀ {m}, m ≠ n → (st.setCheck n vs).ss m = st.ss m := by
    intro m hm
    exact Function.update_of_ne hm vs st.ss
  have hwrite : ∀ {m}, m ≠ n → ∀ vs',
      (st.setCheck n vs).setCheck m vs' = (st.setCheck m vs').setCheck n vs := by
    intro m hm vs'
    unfold State.setCheck
    rw [Function.update_comm hm.symm]
  have hne : ∀ {m}, i.check? = some m → m ≠ n := by
    rintro m hm rfl
    exact hi hm
  cases i with
  | ir i =>
      cases i with
      | phi id incoming => rfl
      | term id args succs => exact runTerm_setCheck st id args succs
      | ehPad id args => exact runOp_setCheck st id args
      | alloca id constSize inAlloca args => exact runOp_setCheck st id args
      | op id args => exact runOp_setCheck st id args
  | readSp m | loadBound m | subFrame m frame | cmpUge m =>
      simp only [effect]
      rw [hread (hne rfl), hwrite (hne rfl)]
      rfl
  | condBr m pass fail =>
      simp only [effect]
      rw [hread (hne rfl)]
      rfl
  | callMorestack frame doesNotThrow =>
      simp only [effect]
      rw [world_setCheck]
      cases sem.morestack frame st.world with
      | none => rfl
      | some w => rfl
  | br dest => rfl

end SetCheck

/-- Control leaves a block along one of its edges. -/
theorem goto_mem_succs {st st' : State V W} {i : Code} {e : Event V} {dest : Label}
    (h : effect sem st i = some (e, st', .goto dest)) : dest ∈ i.succs := by
  have hop : ∀ {id args}, some (runOp sem st id args) ≠ some (e, st', .goto dest) := by
    intro id args hrun
    unfold runOp at hrun
    split at hrun <;> cases hrun
  cases i with
  | ir i =>
      cases i with
      | phi id incoming => cases h
      | ehPad id args => exact absurd h hop
      | alloca id constSize inAlloca args => exact absurd h hop
      | op id args => exact absurd h hop
      | term id args succs =>
          replace h : some (runTerm sem st id args succs) = _ := h
          unfold runTerm at h
          split at h
          · split at h
            · rename_i hdest
              cases h
              exact List.mem_of_getElem? hdest
            · cases h
          · cases h
  | condBr m pass fail =>
      simp only [effect, Option.some.injEq, Prod.mk.injEq, Flow.goto.injEq] at h
      obtain ⟨-, -, rfl⟩ := h
      show (if _ then pass else fail) ∈ [pass, fail]
      split
      · exact List.mem_cons_self
      · exact List.mem_cons_of_mem _ List.mem_cons_self
  | callMorestack frame doesNotThrow =>
      simp only [effect] at h
      split at h <;> cases h
  | br dest' =>
      cases h
      exact List.mem_singleton_self dest
  | readSp m | loadBound m | subFrame m frame | cmpUge m => cases h

/-- Instructions of the source raise no alarm. -/
theorem calm_of_source {es : List (Event V)} (h : ∀ e ∈ es, e.isSource = true) :
    afterDeletion.Calm es := by
  intro e he
  have hsource := h e he
  cases e with
  | check name passed => cases hsource
  | _ => rfl

/-- Behind an instruction come the PHIs of the block it leads to. -/
theorem follow_events {cur : Label} {rest : List Code} {e : Event V} {st : State V W} {flow : Flow}
    {es : List (Event V)} {c : Config V W}
    (h : follow F sem cur rest (e, st, flow) = some (es, c)) :
    ∃ moves, es = e :: moves ∧ ∀ m ∈ moves, m.isSource = true := by
  cases flow with
  | next =>
      cases h
      exact ⟨[], rfl, fun _ h => absurd h List.not_mem_nil⟩
  | leave =>
      cases h
      exact ⟨[], rfl, fun _ h => absurd h List.not_mem_nil⟩
  | goto dest =>
      simp only [follow, Option.map_eq_some_iff] at h
      obtain ⟨⟨es', c'⟩, henter, heq⟩ := h
      cases heq
      refine ⟨es', rfl, ?_⟩
      obtain ⟨b, moves, -, -, rfl, rfl⟩ := enter_eq_some.mp henter
      intro e' he'
      obtain ⟨m, -, rfl⟩ := List.mem_map.mp he'
      rfl

/-- Two results of a step that the observer cannot tell apart, with related ends. -/
def SameResult (R : Config V W → Config V W → Prop) :
    Option (List (Event V) × Config V W) → Option (List (Event V) × Config V W) → Prop :=
  Option.Rel fun r r' => r.1 = r'.1 ∧ R r.2 r'.2

/-- **An instruction both versions run.** -/
theorem answer_same {R : Config V W → Config V W → Prop} {rank : Config V W → ℕ} {n : Label}
    {vs : CheckValues} {st : State V W} {cur cur' : Label} {i : Code} {rest rest' : List Code}
    (hi : n ∉ i.check?)
    (hnext : ∀ st', R ⟨st', cur, rest⟩ ⟨st'.setCheck n vs, cur', rest'⟩)
    (hleave : ∀ st', R ⟨st', cur, []⟩ ⟨st'.setCheck n vs, cur', []⟩)
    (hgoto : ∀ st', ∀ dest ∈ i.succs, SameResult R (enter F sem st' cur dest)
      (enter F' sem (st'.setCheck n vs) cur' dest)) :
    Answer afterDeletion (step F sem) (step F' sem) R rank ⟨st, cur, i :: rest⟩
      ⟨st.setCheck n vs, cur', i :: rest'⟩ := by
  have h₁ : step F sem ⟨st, cur, i :: rest⟩ = (effect sem st i).bind (follow F sem cur rest) := rfl
  have h₂ : step F' sem ⟨st.setCheck n vs, cur', i :: rest'⟩
      = ((effect sem st i).map fun r => (r.1, r.2.1.setCheck n vs, r.2.2)).bind
        (follow F' sem cur' rest') := by
    rw [← effect_setCheck hi]
    rfl
  cases heff : effect sem st i with
  | none =>
      rw [heff] at h₁ h₂
      exact .stop h₁ h₂
  | some done =>
      obtain ⟨e, st', flow⟩ := done
      rw [heff] at h₁ h₂
      replace h₁ : _ = follow F sem cur rest (e, st', flow) := h₁
      replace h₂ : _ = follow F' sem cur' rest' (e, st'.setCheck n vs, flow) := h₂
      have hsame : SameResult R (follow F sem cur rest (e, st', flow))
          (follow F' sem cur' rest' (e, st'.setCheck n vs, flow)) := by
        cases flow with
        | next => exact .some ⟨rfl, hnext st'⟩
        | leave => exact .some ⟨rfl, hleave st'⟩
        | goto dest =>
            have hdest := hgoto st' dest (goto_mem_succs heff)
            simp only [follow]
            revert hdest
            generalize enter F sem st' cur dest = r
            generalize enter F' sem (st'.setCheck n vs) cur' dest = r'
            rintro (⟨hes, hR⟩ | _)
            · exact .some ⟨congrArg (e :: ·) hes, hR⟩
            · exact .none
      generalize hr : follow F sem cur rest (e, st', flow) = r at hsame h₁
      generalize hr' : follow F' sem cur' rest' (e, st'.setCheck n vs, flow) = r' at hsame h₂
      cases hsame with
      | none => exact .stop h₁ h₂
      | @some r r' hrel =>
          obtain ⟨es, c⟩ := r
          obtain ⟨es', c'⟩ := r'
          obtain ⟨hes, hR⟩ := hrel
          replace hes : es = es' := hes
          subst hes
          obtain ⟨moves, rfl, hmoves⟩ := follow_events hr
          by_cases he : e.isFailedCheck = true
          · refine .alarm h₂ (fun hno => ?_) ?_
            · exact Bool.noConfusion (he.symm.trans (hno e List.mem_cons_self))
            · unfold Observer.seesCalm
              rw [List.takeWhile_cons_of_neg (by
                show ¬ (!e.isFailedCheck) = true
                rw [he]
                exact Bool.false_ne_true)]
              rfl
          · have hall : afterDeletion.Calm (e :: moves) := by
              refine List.forall_mem_cons.mpr ⟨?_, calm_of_source hmoves⟩
              exact Bool.eq_false_iff.mpr he
            exact .both h₁ h₂ hall hall rfl hR

/-! ## Related runs -/

/-- Where the later version is, and with what, when the earlier one is somewhere: the states are
the same but for the values of the check `n`, and the positions are related by `Pos`. -/
structure Related (F : Func Code) (n : Label) (Pos : Label → List Code → Label → List Code → Prop)
    (c c' : Config V W) : Prop where
  located : Located F c
  st : ∃ vs, c'.st = c.st.setCheck n vs
  pos : Pos c.cur c.rest c'.cur c'.rest

section Related

variable {n : Label} {Pos : Label → List Code → Label → List Code → Prop}

theorem State.setCheck_self (st : State V W) (n : Label) : st.setCheck n (st.ss n) = st := by
  unfold State.setCheck
  rw [Function.update_eq_self]

theorem State.setCheck_setCheck (st : State V W) (n : Label) (vs vs' : CheckValues) :
    (st.setCheck n vs).setCheck n vs' = st.setCheck n vs' := by
  unfold State.setCheck
  dsimp only
  rw [Function.update_idem]

theorem phiMoves_setCheck (st : State V W) (vs : CheckValues) (source : Label)
    (insts : List Code) :
    phiMoves sem (st.setCheck n vs) source insts = phiMoves sem st source insts := by
  induction insts with
  | nil => rfl
  | cons i insts ih =>
      cases i with
      | ir i =>
          cases i with
          | phi id incoming =>
              simp only [phiMoves, ih]
              rfl
          | _ => rfl
      | _ => rfl

/-- What a block has become: it has kept its name, its PHIs assign the same on the edges, which
may start in another block now, and its code is related by `Pos`. -/
structure Counterpart (F F' : Func Code) (sem : Semantics V W) (source : Label → Label)
    (Pos : Label → List Code → Label → List Code → Prop) (b b' : BasicBlock Code) : Prop where
  mem : b' ∈ F'.blocks
  label : b'.label = b.label
  moves : ∀ st, ∀ cur ∈ F.labels,
    phiMoves sem st (source cur) b'.insts = phiMoves sem st cur b.insts
  pos : Pos b.label (afterPhis b.insts) b.label (afterPhis b'.insts)

/-- Both versions enter a block. -/
theorem Counterpart.enter {source : Label → Label} {b b' : BasicBlock Code}
    (h : Counterpart F F' sem source Pos b b') (hF : F.labels.Nodup) (hF' : F'.labels.Nodup)
    (hb : b ∈ F.blocks) {cur : Label} (hcur : cur ∈ F.labels) (st : State V W)
    (vs : CheckValues) :
    SameResult (Related F n Pos) (enter F sem st cur b.label)
      (enter F' sem (st.setCheck n vs) (source cur) b.label) := by
  unfold SplitStack.enter
  rw [(block?_eq_some hF).mpr ⟨hb, rfl⟩, (block?_eq_some hF').mpr ⟨h.mem, h.label⟩]
  simp only [Option.bind_eq_bind, Option.bind_some]
  rw [phiMoves_setCheck, h.moves st cur hcur]
  cases phiMoves sem st cur b.insts with
  | none => exact .none
  | some moves => exact .some ⟨rfl, ⟨b, hb, rfl, List.suffix_refl _⟩, ⟨vs, rfl⟩, h.pos⟩

theorem start_eq {b : BasicBlock Code} (h : b ∈ F.blocks.head?) (st : State V W) :
    F.start st = ⟨st, b.label, afterPhis b.insts⟩ := by
  unfold Func.start
  cases hF : F.blocks with
  | nil => rw [hF] at h; cases h
  | cons b' bs => rw [hF] at h; cases h; rfl

/-- Both versions are called. -/
theorem related_start {source : Label → Label} (hF : F.WellFormed) (hF' : F'.labels.Nodup)
    (hhead : F'.blocks.head?.map (·.label) = F.blocks.head?.map (·.label))
    (hcp : ∀ b ∈ F.blocks, ∃ b', Counterpart F F' sem source Pos b b') (st : State V W) :
    Related F n Pos (F.start st) (F'.start st) := by
  obtain ⟨b, hb⟩ : ∃ b, F.blocks.head? = some b := by
    rw [← Option.isSome_iff_exists, List.isSome_head?]
    exact hF.nonempty
  rw [hb, Option.map_some, Option.map_eq_some_iff] at hhead
  obtain ⟨b₁, hb₁, hlabel⟩ := hhead
  obtain ⟨b', h⟩ := hcp b (List.mem_of_mem_head? hb)
  have heq : b₁ = b' := List.inj_on_of_nodup_map hF' (List.mem_of_mem_head? hb₁) h.mem
    (hlabel.trans h.label.symm)
  subst heq
  refine ⟨located_start hF st, ⟨(F.start st).st.ss n, ?_⟩, ?_⟩
  · rw [State.setCheck_self, start_eq hb, start_eq hb₁]
  · rw [start_eq hb, start_eq hb₁, hlabel]
    exact h.pos

/-- An instruction both versions have in front of them. -/
theorem related_same (hF : F.WellFormed) (hn : n ∉ F.labels) {rank : Config V W → ℕ}
    {st : State V W} {vs : CheckValues} {L L' : Label} {i : Code} {rest rest' : List Code}
    (hloc : Located F ⟨st, L, i :: rest⟩) (hnext : Pos L rest L' rest') (hleave : Pos L [] L' [])
    (hgoto : ∀ dest ∈ i.succs, dest ∈ F.labels → ∀ st' : State V W,
      SameResult (Related F n Pos) (SplitStack.enter F sem st' L dest)
        (SplitStack.enter F' sem (st'.setCheck n vs) L' dest)) :
    Answer afterDeletion (step F sem) (step F' sem) (Related F n Pos) rank ⟨st, L, i :: rest⟩
      ⟨st.setCheck n vs, L', i :: rest'⟩ := by
  obtain ⟨b, hb, hcur, hi, hmem⟩ := hloc.inst rfl
  obtain ⟨b', hb', hcur', hsuf⟩ := hloc
  refine answer_same (fun hcheck => hn (hF.checks b hb i hmem n hcheck)) ?_ ?_ ?_
  · exact fun st' => ⟨⟨b', hb', hcur', (List.suffix_cons i rest).trans hsuf⟩, ⟨vs, rfl⟩, hnext⟩
  · exact fun st' => ⟨⟨b', hb', hcur', List.nil_suffix⟩, ⟨vs, rfl⟩, hleave⟩
  · intro st' dest hdest
    exact hgoto dest hdest (hF.targets b hb dest (List.mem_flatMap.mpr ⟨i, hmem, hdest⟩)) st'

/-- Both are at the end. -/
theorem answer_ended {R : Config V W → Config V W → Prop} {rank : Config V W → ℕ}
    {st st' : State V W} {L L' : Label} :
    Answer afterDeletion (step F sem) (step F' sem) R rank ⟨st, L, []⟩ ⟨st', L', []⟩ :=
  .stop rfl rfl

end Related

end Hopter.SplitStack
