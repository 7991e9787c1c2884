import Hopter.SplitStack.Compiled
import Hopter.SplitStack.Vla

/-!
# A compiled program on its stack

What `Stack` knows of a thread is its SP, the SP of every call that waits, and whether a
check is to be made. Here the calls of a compiled program are put on such a stack. A move
of the program is one action of the stack, or none, and a check fails in the program
where it fails on the stack. So what is shown of every run of the stack is true of the
program: while its allocas are modest, the overflow handler finds its guard margin.

Before that there is what a check has read when it branches. It has been read in the
same call with no instruction of the source in between, whatever was called before.
-/

namespace Hopter.SplitStack

open Conc

variable {V M : Type}

/-! ## In one call -/

section Function

variable {W : Type} {F : Func Code} {frame : BitVec 64} {sem : Semantics V W} {c c' : Config V W}
  {es : List (Event V)} {covered : Bool}

/-- At the branch of a check SP and the bound have been compared, and if it fails it leads to the
call of `__morestack`. -/
theorem At.condBr {st : State V W} {n pass fail : Label} {rest : List Code}
    (h : At F frame sem st covered (.condBr n pass fail :: rest)) :
    (st.ss n).ok = checkOk frame (sem.sp st.world) (sem.bound st.world)
      ∧ fail = n ∧ moreBlock frame pass n ∈ F.blocks := by
  generalize htodo : Code.condBr n pass fail :: rest = todo at h
  cases h with
  | @body mid tail hmid htail =>
      cases mid with
      | cons i mid =>
          have hir := (hmid i List.mem_cons_self).1
          rw [List.cons_append, List.cons.injEq] at htodo
          rw [← htodo.1] at hir
          cases hir
      | nil =>
          -- a block ends with a check from its start, or with an alloca in front of it
          rw [List.nil_append] at htodo
          cases htail with
          | source | br | check | more => cases htodo
          | alloca hi hmore =>
              rw [List.cons.injEq] at htodo
              rw [← htodo.1] at hi
              cases hi
  | @check _ cont more k hk hmore hread =>
      have hcases : k = 0 ∨ k = 1 ∨ k = 2 ∨ k = 3 ∨ k = 4 := by omega
      rcases hcases with rfl | rfl | rfl | rfl | rfl
      · cases htodo
      · cases htodo
      · cases htodo
      · cases htodo
      · cases htodo
        exact ⟨hread.ok (Nat.le_refl 4), rfl, hmore⟩
  | more cont more => cases htodo
  | ended => cases htodo

/-- In front of an alloca there is nothing but the alloca and its check. -/
theorem At.alloca {st : State V W} {i : Code} {rest : List Code} {ai : ValueId}
    (h : At F frame sem st covered (i :: rest)) (hai : i.allocaId? = some ai) :
    ∃ cont more, rest = checkCode frame cont more := by
  have hno : ∀ {j : Code}, j.isIr = false → i ≠ j := by
    rintro j hj rfl
    rw [Code.isIr_of_alloca hai] at hj
    cases hj
  generalize htodo : i :: rest = todo at h
  cases h with
  | @body mid tail hmid htail =>
      cases mid with
      | cons j mid =>
          rw [List.cons_append, List.cons.injEq] at htodo
          obtain ⟨rfl, -⟩ := htodo
          exact absurd ((hmid i List.mem_cons_self).2 ai hai) List.not_mem_nil
      | nil =>
          rw [List.nil_append] at htodo
          have hmem : i ∈ tail := htodo ▸ List.mem_cons_self
          obtain ⟨cont, more, htail, -⟩ := htail.eq_of_ir hmem (Code.isIr_of_alloca hai)
          rw [htail, List.cons.injEq] at htodo
          exact ⟨cont, more, htodo.2⟩
  | @check _ cont more k hk hmore hread =>
      have hmem : i ∈ checkCode frame cont more :=
        List.mem_of_mem_drop (htodo ▸ List.mem_cons_self)
      exact absurd rfl (hno (checkCode_not_ir frame cont more i hmem))
  | more cont more =>
      have hmem : i ∈ (moreBlock frame cont more).insts := htodo ▸ List.mem_cons_self
      exact absurd rfl (hno (moreBlock_not_ir frame cont more i hmem))
  | ended => cases htodo

/-- A check is to be made. -/
def AtCheck (frame : BitVec 64) (rest : List Code) : Prop :=
  ∃ cont more k, k < 5 ∧ rest = (checkCode frame cont more).drop k

/-- A check has failed. -/
def AtMore (frame : BitVec 64) (rest : List Code) : Prop :=
  rest = [] ∨ ∃ cont more, rest = (moreBlock frame cont more).insts

theorem AtCheck.not_ir {i : Code} {rest : List Code} (h : AtCheck frame (i :: rest)) :
    i.isIr = false := by
  obtain ⟨cont, more, k, -, hrest⟩ := h
  exact checkCode_not_ir frame cont more i (List.mem_of_mem_drop (hrest ▸ List.mem_cons_self))

theorem AtCheck.ne_nil {rest : List Code} (h : AtCheck frame rest) : rest ≠ [] := by
  obtain ⟨cont, more, k, hk, rfl⟩ := h
  intro hnil
  have hlength := List.drop_eq_nil_iff.mp hnil
  replace hlength : 5 ≤ k := hlength
  omega

theorem AtMore.head {i : Code} {rest : List Code} (h : AtMore frame (i :: rest)) :
    i = .callMorestack frame true := by
  rcases h with hnil | ⟨cont, more, hrest⟩
  · cases hnil
  · exact (List.cons.inj hrest).1

/-- **A check goes on**, and ends with its branch. -/
theorem atCheck_step (h : AtCheck frame c.rest) (hs : step F sem c = some (es, c')) :
    AtCheck frame c'.rest ∨ ∃ n pass fail, c.rest = [.condBr n pass fail] := by
  obtain ⟨st, cur, rest⟩ := c
  obtain ⟨cont, more, k, hk, hrest⟩ := h
  replace hrest : rest = (checkCode frame cont more).drop k := hrest
  subst hrest
  have hcases : k = 0 ∨ k = 1 ∨ k = 2 ∨ k = 3 ∨ k = 4 := by omega
  rcases hcases with rfl | rfl | rfl | rfl | rfl
  · cases hs
    exact Or.inl ⟨cont, more, 1, by omega, rfl⟩
  · cases hs
    exact Or.inl ⟨cont, more, 2, by omega, rfl⟩
  · cases hs
    exact Or.inl ⟨cont, more, 3, by omega, rfl⟩
  · cases hs
    exact Or.inl ⟨cont, more, 4, by omega, rfl⟩
  · exact Or.inr ⟨more, cont, more, rfl⟩

/-- `__morestack` does not come back. -/
theorem atMore_step (hmorestack : ∀ frame w, sem.morestack frame w = none)
    (h : AtMore frame c.rest) (hs : step F sem c = some (es, c')) : c'.rest = [] := by
  obtain ⟨i, rest, ⟨e, st, flow⟩, hrest, heff, hflow⟩ := step_eq_some hs
  rw [hrest] at h
  obtain rfl := h.head
  simp only [effect, hmorestack] at heff
  cases heff
  cases hflow
  rfl

/-- What was inserted leaves SP and memory as they are. -/
theorem step_world (hmorestack : ∀ frame w, sem.morestack frame w = none) {i : Code}
    {rest : List Code} (hrest : c.rest = i :: rest) (hir : i.isIr = false)
    (hs : step F sem c = some (es, c')) : c'.st.world = c.st.world := by
  obtain ⟨j, rest', ⟨e, st, flow⟩, hrest', heff, hflow⟩ := step_eq_some hs
  rw [hrest, List.cons.injEq] at hrest'
  obtain ⟨rfl, -⟩ := hrest'
  rw [follow_world hflow]
  cases i with
  | ir i => cases hir
  | callMorestack f doesNotThrow =>
      simp only [effect, hmorestack] at heff
      cases heff
      rfl
  | readSp n | loadBound n | subFrame n f | cmpUge n | condBr n pass fail | br dest =>
      cases heff
      rfl

/-- A check that fails leads to the call of `__morestack`. -/
theorem condBr_fails (hF : F.WellFormed) {n pass fail : Label} {rest : List Code}
    (hat : At F frame sem c.st covered c.rest) (hrest : c.rest = .condBr n pass fail :: rest)
    (hfalse : (c.st.ss n).ok = false) (hs : step F sem c = some (es, c')) :
    AtMore frame c'.rest := by
  rw [hrest] at hat
  obtain ⟨-, rfl, hmore⟩ := hat.condBr
  obtain ⟨i, rest', ⟨e, st, flow⟩, hrest', heff, hflow⟩ := step_eq_some hs
  rw [hrest, List.cons.injEq] at hrest'
  obtain ⟨rfl, -⟩ := hrest'
  cases heff
  rw [hfalse, if_neg Bool.false_ne_true] at hflow
  simp only [follow, Checked.enter_more hF.labels_nodup hmore, Option.map_some] at hflow
  cases hflow
  exact Or.inr ⟨pass, fail, rfl⟩

/-- **An alloca** lowers SP, and its check is to be made. If it does not come back, nothing is to be
done. -/
theorem alloca_step (hat : At F frame sem c.st covered c.rest) {i : Code} {rest : List Code}
    {ai : ValueId} (hrest : c.rest = i :: rest) (hai : i.allocaId? = some ai)
    (hs : step F sem c = some (es, c')) :
    (c'.rest = [] ∧ c'.st.world = c.st.world)
      ∨ AtCheck frame c'.rest ∧ ∃ vs v, sem.op ai vs c.st.world = some (v, c'.st.world) := by
  rw [hrest] at hat
  obtain ⟨cont, more, hcheck⟩ := hat.alloca hai
  obtain ⟨j, rest', done, hrest', heff, hflow⟩ := step_eq_some hs
  rw [hrest, List.cons.injEq] at hrest'
  obtain ⟨rfl, rfl⟩ := hrest'
  rcases i with (_ | _ | ⟨id, constSize, inAlloca, args⟩ | _ | _) | _ | _ | _ | _ | _ | _ | _
  case ir.alloca =>
    cases hai
    cases heff
    unfold runOp at hflow
    split at hflow
    · rename_i v w hop
      cases hflow
      exact Or.inr ⟨⟨cont, more, 0, Nat.zero_lt_succ 4, hcheck⟩, _, v, hop⟩
    · cases hflow
      exact Or.inl ⟨rfl, rfl⟩
  all_goals cases hai

end Function

/-! ## What a check has read -/

section Reads

variable {x : Interpretation V M} {clExtraPad : BitVec 32} {funcs : ℕ → Func Instruction}
  {a : Call V M} {t t' : CallStack V M} {m : Move V}

/-- A function that the pass has seen starts with its check, behind the EH pads of the source. -/
theorem at_start {W : Type} {F : Func Code} {frame : BitVec 64} {padded : Prop}
    (h : Shaped frame padded [] F) (hF : F.WellFormed) (sem : Semantics V W) (st : State V W) :
    At F frame sem (F.start st).st true (F.start st).rest := by
  obtain ⟨label, pads, cont, more, hstart, hpads, hmore⟩ := h.start_check hF st
  rw [hstart]
  refine .body (fun i hi => ?_) (.check hmore)
  have hpad : i.isEhPad = true := (hpads i hi).2
  have hnone : i.alloca? = none := Code.allocaId?_of_phi (Or.inr hpad)
  refine ⟨?_, fun ai hai => ?_⟩
  · cases i with
    | ir i => rfl
    | _ => cases hpad
  · unfold Code.allocaId? at hai
    rw [hnone] at hai
    cases hai

/-- Where a call of a compiled program is. In a function that the pass has seen, what the check that
is at work has read is right. -/
structure Call.Reads (x : Interpretation V M) (clExtraPad : BitVec 32)
    (funcs : ℕ → Func Instruction) (a : Call V M) : Prop where
  located : Located (SplitStackPass.run clExtraPad funcs a.func) a.config
  position : shouldSkip (funcs a.func) = false →
    ∃ covered, At (SplitStackPass.run clExtraPad funcs a.func) (framePad clExtraPad) (a.sem x)
      a.config.st covered a.config.rest

/-- The past does not matter. Let it be a check that has passed. -/
theorem Call.Reads.covers (h : a.Reads x clExtraPad funcs)
    (hskip : shouldSkip (funcs a.func) = false) :
    Covers (SplitStackPass.run clExtraPad funcs a.func) (framePad clExtraPad) (a.sem x)
      [.check 0 true] a.config := by
  obtain ⟨covered, hat⟩ := h.position hskip
  refine ⟨h.located, ?_, covered, hat, fun _ => since_concat [] rfl rfl⟩
  exact guarded_nil.concat (e := (Event.check 0 true : Event V)) fun hno =>
    absurd hno Bool.noConfusion

theorem run_wellFormed (clExtraPad : BitVec 32) (hF : ∀ g, (funcs g).code.WellFormed) (g : ℕ) :
    (SplitStackPass.run clExtraPad funcs g).WellFormed := by
  cases hskip : shouldSkip (funcs g) with
  | true =>
      unfold SplitStackPass.run instrumentFunction
      rw [if_pos hskip]
      exact hF g
  | false => exact (instrumentFunction_preserved clExtraPad (hF g) hskip).wellFormed

theorem reads_enter (hF : ∀ g, (funcs g).code.WellFormed) (x : Interpretation V M)
    (clExtraPad : BitVec 32) (g : ℕ) (other : ℕ → V) (w : World M) :
    (x.enter (SplitStackPass.run clExtraPad funcs) g other w).Reads x clExtraPad funcs :=
  ⟨located_start (run_wellFormed clExtraPad hF g) _, fun hskip =>
    ⟨true, at_start (instrumentFunction_shaped clExtraPad (hF g) hskip)
      (run_wellFormed clExtraPad hF g) _ _⟩⟩

/-- An instruction of the call, whether what it calls comes back or not. -/
theorem Call.Reads.step (hF : ∀ g, (funcs g).code.WellFormed) {sem : Semantics V (World M)}
    (h : a.Reads x clExtraPad funcs) (hsp : ∀ w, sem.sp w = w.sp)
    (hbound : ∀ w, sem.bound w = x.bound) {es : List (Event V)} {c : Config V (World M)}
    (hs : SplitStack.step (SplitStackPass.run clExtraPad funcs a.func) sem a.config
      = some (es, c)) :
    Call.Reads x clExtraPad funcs { a with config := c } := by
  refine ⟨located_step h.located hs, fun hskip => ?_⟩
  have hcovers : Covers (SplitStackPass.run clExtraPad funcs a.func) (framePad clExtraPad) sem
      [.check 0 true] a.config :=
    (h.covers hskip).congr rfl rfl rfl (hsp _) (hbound _)
  have hshaped := instrumentFunction_shaped clExtraPad (hF a.func) hskip
  obtain ⟨hnext, -⟩ := covers_step hshaped (run_wellFormed clExtraPad hF a.func) hcovers hs
  have hback : Covers (SplitStackPass.run clExtraPad funcs a.func) (framePad clExtraPad) (a.sem x)
      ([.check 0 true] ++ es) c :=
    hnext.congr rfl rfl rfl (hsp _).symm (hbound _).symm
  obtain ⟨covered, hat, -⟩ := hback.position
  exact ⟨covered, hat⟩

/-- **A check that fails is right**, and it is in a function that the pass has seen. -/
theorem Call.Reads.fails (h : a.Reads x clExtraPad funcs) (hfails : a.checkFails = true) :
    shouldSkip (funcs a.func) = false
      ∧ a.sp.toNat < x.bound.toNat + (framePad clExtraPad).toNat := by
  obtain ⟨n, pass, fail, rest, hrest, hok⟩ := Call.checkFails_iff.mp hfails
  have hskip : shouldSkip (funcs a.func) = false := by
    by_contra hskip
    -- what was skipped has nothing but the source
    have hcode : SplitStackPass.run clExtraPad funcs a.func = sourceCode funcs a.func := by
      unfold SplitStackPass.run instrumentFunction sourceCode
      rw [if_pos (Bool.eq_true_of_not_eq_false hskip)]
    obtain ⟨i, hi⟩ := source_ir (hcode ▸ h.located) hrest
    cases hi
  refine ⟨hskip, ?_⟩
  obtain ⟨covered, hat⟩ := h.position hskip
  rw [hrest] at hat
  have hcheck : (a.config.st.ss n).ok = checkOk (framePad clExtraPad) a.sp x.bound := hat.condBr.1
  by_contra hroom
  have hle : x.bound.toNat + (framePad clExtraPad).toNat ≤ a.sp.toNat := by omega
  have hfit : framePad clExtraPad ≤ a.sp := BitVec.le_def.mpr (by omega)
  rw [hok, (checkOk_iff hfit).mpr hle] at hcheck
  cases hcheck

/-- **One move.** -/
theorem reads_step (hF : ∀ g, (funcs g).code.WellFormed)
    (h : ∀ a ∈ t.top :: t.callers, a.Reads x clExtraPad funcs)
    (hs : CallStack.step x (SplitStackPass.run clExtraPad funcs) t m = some t') :
    ∀ a ∈ t'.top :: t'.callers, a.Reads x clExtraPad funcs := by
  rcases CallStack.step_cases hs with ⟨es, c, rfl, hrun, rfl⟩ | ⟨g, rfl, hg, rfl⟩
    | ⟨caller, callers, k, v, a, -, hsuf, hresume, rfl⟩
  · obtain ⟨htop, hcallers⟩ := List.forall_mem_cons.mp h
    exact List.forall_mem_cons.mpr
      ⟨htop.step hF (fun _ => rfl) (fun _ => rfl) hrun, hcallers⟩
  · exact List.forall_mem_cons.mpr ⟨reads_enter hF x clExtraPad g.1 g.2 _, h⟩
  · have hcaller := h caller (List.mem_cons_of_mem _ (hsuf.subset List.mem_cons_self))
    obtain ⟨⟨es, c⟩, hrun, rfl⟩ := Option.map_eq_some_iff.mp hresume
    refine List.forall_mem_cons.mpr
      ⟨hcaller.step hF (fun _ => rfl) (fun _ => rfl) hrun, fun b hb => ?_⟩
    exact h b (List.mem_cons_of_mem _ (hsuf.subset (List.mem_cons_of_mem _ hb)))

end Reads

/-! ## The stack under the calls -/

section Calls

variable {x : Executable V M} {t t' : CallStack V M} {m : Move V} {s : Stack}

/-- The backend keeps SP aligned. -/
def Executable.Aligns (x : Executable V M) : Prop :=
  ∀ g, ∀ id ∈ (x.funcs g).code.allocaIds, ∀ vs w v w', x.op g id vs w = some (v, w') →
    16 ∣ (w.sp - w'.sp).toNat

/-- What a move is to the stack, if it is anything. -/
inductive Does (x : Executable V M) (t : CallStack V M) : Move V → Action → Prop where
  | call {g : ℕ × (ℕ → V)} : t.top.callee? x = some g → Does x t .call (.call (x.prologue g.1))
  | alloca {ai : ValueId} {t' : CallStack V M} :
      t.top.config.rest.head?.bind Code.allocaId? = some ai → x.step t .run = some t' →
      16 ∣ (t.top.sp - t'.top.sp).toNat → Does x t .run (.alloca (t.top.sp - t'.top.sp) [])
  | check {n pass fail : Label} {rest : List Code} :
      t.top.config.rest = .condBr n pass fail :: rest → Does x t .run .check
  | restore (sp : BitVec 64) : Does x t .run (.restore sp)
  | ret (v : V) : Does x t (.ret v) .ret
  | unwind (calls : ℕ) (v : V) : Does x t (.unwind calls v) (.unwind calls)

/-- The calls are on the stack `s`. -/
structure CallStack.On (x : Executable V M) (t : CallStack V M) (s : Stack) : Prop where
  reads : ∀ a ∈ t.top :: t.callers, a.Reads x.toInterpretation x.clExtraPad x.funcs
  waiting : ∀ a ∈ t.callers, ∃ i rest, a.config.rest = .ir i :: rest
    ∧ (Code.ir i).allocaId? = none
  sp : s.sp = t.top.sp
  saved : t.callers.map Call.sp <+: s.saved
  checking : ∀ site, s.mode = .checking site → AtCheck x.frame t.top.config.rest
  failed : ∀ site, s.mode = .failed site → AtMore x.frame t.top.config.rest

/-- In front of code of the source no check is to be made. -/
theorem CallStack.On.running (h : t.On x s) {i : Instruction} {rest : List Code}
    (hi : t.top.config.rest = .ir i :: rest) : s.mode = .running := by
  cases hmode : s.mode with
  | running => rfl
  | checking site =>
      have hcheck := h.checking site hmode
      rw [hi] at hcheck
      cases hcheck.not_ir
  | failed site =>
      have hmore := h.failed site hmode
      rw [hi] at hmore
      cases hmore.head

/-- With code of the source to come nothing is asked of the calls. -/
theorem CallStack.On.of_running (hmode : s.mode = .running)
    (hreads : ∀ a ∈ t.top :: t.callers, a.Reads x.toInterpretation x.clExtraPad x.funcs)
    (hwaiting : ∀ a ∈ t.callers, ∃ i rest, a.config.rest = .ir i :: rest
      ∧ (Code.ir i).allocaId? = none)
    (hsp : s.sp = t.top.sp) (hsaved : t.callers.map Call.sp <+: s.saved) : t.On x s where
  reads := hreads
  waiting := hwaiting
  sp := hsp
  saved := hsaved
  checking site h := by
    rw [hmode] at h
    cases h
  failed site h := by
    rw [hmode] at h
    cases h

/-- A function starts with its check. -/
theorem Executable.enter_atCheck (x : Executable V M) (g : ℕ) (other : ℕ → V) (w : World M) :
    AtCheck x.frame (x.enter x.code g other w).config.rest := by
  have hstart : ∀ st : State V (World M), AtCheck x.frame ((x.code g).start st).rest := by
    intro st
    obtain ⟨label, pads, cont, more, hstart, hpads, -⟩ :=
      (x.code_shaped g).start_check (x.code_wellFormed g) st
    have hnil : pads = [] := List.eq_nil_iff_forall_not_mem.mpr fun i hi => (hpads i hi).1
    rw [hstart, hnil]
    exact ⟨cont, more, 0, Nat.zero_lt_succ 4, rfl⟩
  exact hstart _

/-- An instruction that calls nothing. -/
theorem CallStack.On.run (halign : x.Aligns) (h : t.On x s) {es : List (Event V)}
    {c : Config V (World M)}
    (hs : SplitStack.step (x.code t.top.func) (t.top.sem x) t.top.config = some (es, c))
    (hstep : x.step t .run = some { t with top := { t.top with config := c } }) :
    CallStack.On x { t with top := { t.top with config := c } } s
      ∨ ∃ a s', Does x t .run a ∧ s.step x.frame x.bound a = some s'
        ∧ CallStack.On x { t with top := { t.top with config := c } } s' := by
  have hreads := reads_step x.wellFormed h.reads hstep
  have htop := h.reads t.top List.mem_cons_self
  obtain ⟨covered, hat⟩ := htop.position (x.notSkipped _)
  have hnone : ∀ frame w, (t.top.sem x).morestack frame w = none := fun _ _ => rfl
  obtain ⟨i, rest, -, hi, -, -⟩ := step_eq_some hs
  cases hir : i.isIr with
  | true =>
      obtain ⟨i, rfl⟩ : ∃ i₀, i = .ir i₀ := by
        cases i with
        | ir i => exact ⟨i, rfl⟩
        | _ => cases hir
      have hmode := h.running hi
      cases hai : (Code.ir i).allocaId? with
      | some ai =>
          rcases alloca_step hat hi hai hs with ⟨-, hworld⟩ | ⟨hcheck, vs, v, hop⟩
          · refine Or.inl (.of_running hmode hreads h.waiting ?_ h.saved)
            show s.sp = c.st.world.sp
            rw [hworld]
            exact h.sp
          · obtain ⟨b, hb, -, -, hmem⟩ := htop.located.inst hi
            have hid : ai ∈ (x.funcs t.top.func).code.allocaIds := by
              rw [← x.code_allocaIds]
              exact (mem_allocaIds_iff (x.code_wellFormed _) hb hmem
                (Code.id?_of_alloca hai)).mpr hai
            have hdvd : 16 ∣ (t.top.sp - c.st.world.sp).toNat := halign _ ai hid vs _ v _ hop
            have hsp : s.sp - align16 (t.top.sp - c.st.world.sp) = c.st.world.sp := by
              rw [(align16_of_dvd hdvd).1, h.sp, BitVec.sub_eq_iff_eq_add, BitVec.add_comm,
                BitVec.sub_add_cancel]
            refine Or.inr ⟨.alloca (t.top.sp - c.st.world.sp) [],
              ⟨s.sp - align16 (t.top.sp - c.st.world.sp), s.saved, .checking .alloca⟩,
              .alloca (by rw [hi]; exact hai) hstep hdvd, if_pos hmode, ?_⟩
            exact ⟨hreads, h.waiting, hsp, h.saved, fun _ _ => hcheck, fun _ hfail => by
              cases hfail⟩
      | none =>
          have hle : t.top.sp ≤ c.st.world.sp := by
            refine step_sp (x.code_wellFormed _) hnone ?_ (x.term_sp _) htop.located hs ?_
            · rw [x.code_allocaIds]
              exact x.op_sp _
            · rw [hi]
              exact hai
          refine Or.inr ⟨.restore c.st.world.sp, { s with sp := c.st.world.sp }, .restore _,
            if_pos ⟨hmode, h.sp ▸ hle⟩, ?_⟩
          exact .of_running hmode hreads h.waiting rfl h.saved
  | false =>
      have hworld := step_world hnone hi hir hs
      have hsp : s.sp = c.st.world.sp := by
        rw [hworld]
        exact h.sp
      by_cases hbr : ∃ n pass fail, i = .condBr n pass fail
      · obtain ⟨n, pass, fail, rfl⟩ := hbr
        have hat' := hat
        rw [hi] at hat'
        obtain ⟨hok, -, -⟩ := hat'.condBr
        obtain ⟨site, hsite⟩ : ∃ site, s.mode.site? = some site := by
          cases hmode : s.mode with
          | running => exact ⟨_, rfl⟩
          | checking site => exact ⟨site, rfl⟩
          | failed site =>
              have hmore := h.failed site hmode
              rw [hi] at hmore
              cases hmore.head
        have hok' : checkOk x.frame s.sp x.bound = (t.top.config.st.ss n).ok := by
          rw [h.sp]
          exact hok.symm
        refine Or.inr ⟨.check,
          { s with mode := if checkOk x.frame s.sp x.bound then .running else .failed site },
          .check hi, Option.map_eq_some_iff.mpr ⟨site, hsite, rfl⟩, ?_⟩
        refine ⟨hreads, h.waiting, hsp, h.saved, fun site' hcheck => ?_, fun site' hfail => ?_⟩
        · dsimp only at hcheck
          split at hcheck <;> cases hcheck
        · dsimp only at hfail
          split at hfail
          · cases hfail
          · rename_i hno
            rw [hok'] at hno
            exact condBr_fails (x.code_wellFormed _) hat hi (Bool.eq_false_iff.mpr hno) hs
      · refine Or.inl ⟨hreads, h.waiting, hsp, h.saved, fun site hmode => ?_, fun site hmode => ?_⟩
        · rcases atCheck_step (h.checking site hmode) hs with hcheck | ⟨n, pass, fail, hrest⟩
          · exact hcheck
          · rw [hi, List.cons.injEq] at hrest
            exact absurd ⟨n, pass, fail, hrest.1⟩ hbr
        · exact Or.inl (atMore_step hnone (h.failed site hmode) hs)

/-- **One move** of a compiled program is one action of the stack, or none. -/
theorem on_step (halign : x.Aligns) (h : t.On x s) (hs : x.step t m = some t') :
    t'.On x s
      ∨ ∃ a s', Does x t m a ∧ s.step x.frame x.bound a = some s' ∧ t'.On x s' := by
  have hreads := reads_step x.wellFormed h.reads hs
  rcases CallStack.step_cases hs with ⟨es, c, rfl, hrun, rfl⟩ | ⟨g, rfl, hg, rfl⟩
    | ⟨caller, callers, k, v, a, hback, hsuf, hresume, rfl⟩
  · exact h.run halign hrun hs
  · obtain ⟨i, rest, hi, hno⟩ := Call.calls hg
    have hmode := h.running hi
    refine Or.inr ⟨.call (x.prologue g.1), _, .call hg, if_pos hmode, hreads,
      List.forall_mem_cons.mpr ⟨⟨i, rest, hi, hno⟩, h.waiting⟩, ?_, ?_, fun _ _ => ?_,
      fun _ hfail => by cases hfail⟩
    · show s.sp - x.prologue g.1 = _
      rw [x.enter_sp, h.sp]
      rfl
    · rw [List.map_cons, h.sp]
      exact List.cons_prefix_cons.mpr ⟨rfl, h.saved⟩
    · exact x.enter_atCheck g.1 g.2 _
  · have hcaller := h.waiting caller (hsuf.subset List.mem_cons_self)
    have hwaiting : ∀ b ∈ callers, ∃ i rest, b.config.rest = .ir i :: rest
        ∧ (Code.ir i).allocaId? = none := fun b hb =>
      h.waiting b (hsuf.subset (List.mem_cons_of_mem _ hb))
    obtain ⟨-, hsp⟩ := Call.resume_sp hcaller hresume
    have hon : ∀ {saved}, callers.map Call.sp <+: saved →
        CallStack.On x ⟨a, callers⟩ ⟨caller.sp, saved, .running⟩ := fun hsaved =>
      .of_running rfl hreads hwaiting hsp.symm hsaved
    rcases hback with ⟨rfl, hcallers, hreturns⟩ | ⟨calls, rfl, hcallers, hempty⟩
    · have hsaved := h.saved
      rw [hcallers, List.map_cons] at hsaved
      obtain ⟨below, hbelow⟩ := hsaved
      obtain ⟨i, rest, hi⟩ : ∃ i rest, t.top.config.rest = .ir i :: rest := by
        unfold Call.returns at hreturns
        split at hreturns
        · exact ⟨_, _, ‹_›⟩
        · cases hreturns
      have hstep : s.step x.frame x.bound .ret
          = some ⟨caller.sp, callers.map Call.sp ++ below, .running⟩ := by
        simp only [Stack.step]
        rw [h.running hi, ← hbelow]
        rfl
      exact Or.inr ⟨.ret, _, .ret v, hstep, hon (List.prefix_append _ _)⟩
    · have hsaved := h.saved.drop calls
      rw [← List.map_drop, hcallers, List.map_cons] at hsaved
      obtain ⟨below, hbelow⟩ := hsaved
      have hstep : s.step x.frame x.bound (.unwind calls)
          = some ⟨caller.sp, callers.map Call.sp ++ below, .running⟩ := by
        simp only [Stack.step]
        rw [← hbelow]
        cases hmode : s.mode with
        | running => rfl
        | failed site => rfl
        | checking site => exact absurd hempty (h.checking site hmode).ne_nil
      exact Or.inr ⟨.unwind calls, _, .unwind calls v, hstep, hon (List.prefix_append _ _)⟩

/-- A check fails on the stack where it fails in the program. -/
theorem CallStack.On.fails (h : t.On x s) (hfails : t.top.checkFails = true) :
    ∃ site, s.step x.frame x.bound .check = some { s with mode := .failed site } := by
  obtain ⟨n, pass, fail, rest, hrest, hno⟩ := Call.checkFails_iff.mp hfails
  have htop := h.reads t.top List.mem_cons_self
  obtain ⟨covered, hat⟩ := htop.position (x.notSkipped _)
  rw [hrest] at hat
  have hok : checkOk x.frame s.sp x.bound = false := by
    rw [h.sp, ← hno]
    exact hat.condBr.1.symm
  cases hmode : s.mode with
  | running => exact ⟨.entry, by simp only [Stack.step, hmode, Mode.site?, Option.map_some, hok,
      Bool.false_eq_true, if_false]⟩
  | checking site => exact ⟨site, by simp only [Stack.step, hmode, Mode.site?, Option.map_some,
      hok, Bool.false_eq_true, if_false]⟩
  | failed site =>
      have hmore := h.failed site hmode
      rw [hrest] at hmore
      cases hmore.head

/-- The first function has been called. -/
theorem on_launch (x : Executable V M) (g : ℕ) (other : ℕ → V) (w : World M) :
    (x.launch x.code g other w).On x ⟨w.sp - x.prologue g, [w.sp], .checking .entry⟩ where
  reads a ha := by
    rw [List.mem_singleton.mp ha]
    exact reads_enter x.wellFormed _ _ g other w
  waiting a ha := absurd ha List.not_mem_nil
  sp := (x.enter_sp g other w).symm
  saved := List.nil_prefix
  checking _ _ := x.enter_atCheck g other w
  failed _ hfail := by cases hfail

/-- **A compiled program runs on the stack.** Every run of it is one of `Stack`, from the call of
its first function on, with the same SP and the same SP in every call that waits. In front of code
of the source no check is to be made, a check that fails in the program fails on the stack, and the
stack does nothing but what the program does. -/
theorem runs_on_stack (x : Executable V M) (halign : x.Aligns) {g : ℕ} {other : ℕ → V} {w : World M}
    {ms : List (Move V)} {t : CallStack V M}
    (hs : exec x.step (x.launch x.code g other w) ms = some t) :
    ∃ as s, exec (Stack.step x.frame x.bound) ⟨w.sp, [], .running⟩ (.call (x.prologue g) :: as)
        = some s
      ∧ s.sp = t.top.sp ∧ t.callers.map Call.sp <+: s.saved
      ∧ (∀ i rest, t.top.config.rest = .ir i :: rest → s.mode = .running)
      ∧ (t.top.checkFails = true →
        ∃ site, s.step x.frame x.bound .check = some { s with mode := .failed site })
      ∧ ∀ s a, Takes (Stack.step x.frame x.bound) ⟨w.sp - x.prologue g, [w.sp], .checking .entry⟩
        as s a → ∃ t m, Takes x.step (x.launch x.code g other w) ms t m ∧ s.sp = t.top.sp
          ∧ Does x t m a := by
  obtain ⟨as, s, hrun, hon, hall⟩ :=
    exec_simulated (D := Does x) (on_step halign) (on_launch x g other w) hs
  refine ⟨as, s, hrun, hon.sp, hon.saved, fun i rest hi => hon.running hi, hon.fails,
    fun s a htakes => ?_⟩
  obtain ⟨t, m, htakes', hon', hdoes⟩ := hall s a htakes
  exact ⟨t, m, htakes', hon'.sp, hdoes⟩

end Calls

theorem recurseProgram_aligns : recurseProgram.Aligns := by
  intro g id hid vs w v w' h
  have hid : id = 3 := List.mem_singleton.mp hid
  replace h : some (0, if id = 3 then (⟨w.sp - 32, ()⟩ : World Unit) else w) = some (v, w') := h
  rw [if_pos hid, Option.some.injEq, Prod.mk.injEq] at h
  have hsp : w.sp - w'.sp = 32 := by
    rw [← h.2, BitVec.sub_eq_iff_eq_add, BitVec.add_comm, BitVec.sub_add_cancel]
  rw [hsp]
  decide

/-- The second call fails its check on the stack. -/
theorem runs_on_stack_recurse :
    ∃ as s site, exec (Stack.step 128 2816) ⟨3100, [], .running⟩ (.call 96 :: as) = some s
      ∧ s.step 128 2816 .check = some { s with mode := .failed site } := by
  have hlast : (exec recurseProgram.step (recurseProgram.launch recurseProgram.code 0 id ⟨3100, ()⟩)
      (List.replicate 12 .run ++ .call :: List.replicate 4 .run)).map (·.top.checkFails)
      = some true := by decide +kernel
  obtain ⟨t, hrun, hfails⟩ := Option.map_eq_some_iff.mp hlast
  obtain ⟨as, s, hstack, -, -, -, hcheck, -⟩ :=
    runs_on_stack recurseProgram recurseProgram_aligns hrun
  obtain ⟨site, hfailed⟩ := hcheck hfails
  exact ⟨as, s, site, hstack, hfailed⟩

/-! ## The margin of the handler -/

/-- A prologue takes no more than the padding, and an alloca no more than the space above the bound
and the padding. -/
def CallStack.Modest (x : Executable V M) (t : CallStack V M) : Move V → Prop
  | .call => ∀ g ∈ t.top.callee? x, x.prologue g.1 ≤ kFramePadding
  | .run => (t.top.config.rest.head?.bind Code.allocaId?).isSome = true →
      ∀ t' ∈ x.step t .run,
        (t.top.sp - t'.top.sp).toNat + x.bound.toNat ≤ t.top.sp.toNat + kFramePadding.toNat
  | .ret _ | .unwind _ _ => True

instance (x : Executable V M) (t : CallStack V M) : DecidablePred (t.Modest x)
  | .call => inferInstanceAs (Decidable (∀ g ∈ t.top.callee? x, x.prologue g.1 ≤ kFramePadding))
  | .run => inferInstanceAs (Decidable (_ = true → ∀ t' ∈ x.step t .run, _ ≤ _))
  | .ret _ | .unwind _ _ => .isTrue trivial

theorem Does.modest {x : Executable V M} {t : CallStack V M} {m : Move V} {s : Stack} {a : Action}
    (h : Does x t m a) (hsp : s.sp = t.top.sp) (hm : t.Modest x m) : Modest x.bound s a := by
  cases h with
  | call hg => exact hm _ hg
  | alloca hai hstep hdvd =>
      show Word.alignUp _ 16 + x.bound.toNat ≤ s.sp.toNat + kFramePadding.toNat
      rw [(align16_of_dvd hdvd).2, hsp]
      exact hm (by rw [hai]; rfl) _ hstep
  | check | restore | ret | unwind => exact trivial

/-- **The handler of a compiled program has its guard margin** while the thread starts above the
bound and every alloca is modest. -/
theorem compiled_margin_left (x : Executable V M) (halign : x.Aligns) (bottom : ℕ)
    (hbound : x.bound.toNat = bottom + kGuardMargin.toNat) {g : ℕ} {other : ℕ → V} {w : World M}
    (hstart : x.bound ≤ w.sp) (hprologue : x.prologue g ≤ kFramePadding) {ms : List (Move V)}
    {t : CallStack V M} (hs : exec x.step (x.launch x.code g other w) ms = some t)
    (hmodest : ∀ t m, Takes x.step (x.launch x.code g other w) ms t m → t.Modest x m)
    (hfails : t.top.checkFails = true) :
    bottom + (kGuardMargin.toNat - kFramePadding.toNat) ≤ t.top.sp.toNat := by
  obtain ⟨as, s, hrun, hsp, -, -, hcheck, hall⟩ := runs_on_stack x halign hs
  obtain ⟨site, hfailed⟩ := hcheck hfails
  have hcall : Stack.step x.frame x.bound ⟨w.sp, [], .running⟩ (.call (x.prologue g))
      = some ⟨w.sp - x.prologue g, [w.sp], .checking .entry⟩ := rfl
  -- the run up to the check, and the check
  have hlast : exec (Stack.step x.frame x.bound) ⟨w.sp, [], .running⟩
      (.call (x.prologue g) :: as ++ [.check]) = some { s with mode := .failed site } :=
    exec_concat.mpr ⟨s, hrun, hfailed⟩
  have hsteps : ∀ s a, Takes (Stack.step x.frame x.bound) ⟨w.sp, [], .running⟩
      (.call (x.prologue g) :: as ++ [.check]) s a → Modest x.bound s a := by
    intro s a htakes
    rcases takes_concat htakes with htakes | ⟨-, rfl⟩
    · rcases takes_cons htakes hcall with ⟨rfl, rfl⟩ | htakes
      · exact hprologue
      · obtain ⟨t, m, htakes', hsp', hdoes⟩ := hall s a htakes
        exact hdoes.modest hsp' (hmodest t m htakes')
    · exact trivial
  have hleft : GuardMarginLeft bottom { s with mode := .failed site } :=
    margin_left (framePad_bounds x.clExtraPad).2 hbound rfl rfl hstart hsteps _ site
      (visits_last hlast) rfl
  rw [← hsp]
  exact hleft

/-- The same program on a stack that ends at 4096. -/
theorem compiled_margin_left_recurse :
    ∃ t, exec (recurseProgram.withBound 0x3000).step
        (recurseProgram.launch recurseProgram.code 0 id ⟨0x311c, ()⟩)
        (List.replicate 12 .run ++ .call :: List.replicate 4 .run) = some t
      ∧ t.top.checkFails = true ∧ 0x1000 + (8192 - 128) ≤ t.top.sp.toNat := by
  have hlast : (exec (recurseProgram.withBound 0x3000).step
      (recurseProgram.launch recurseProgram.code 0 id ⟨0x311c, ()⟩)
      (List.replicate 12 .run ++ .call :: List.replicate 4 .run)).map (·.top.checkFails)
      = some true := by decide +kernel
  obtain ⟨t, hrun, hfails⟩ := Option.map_eq_some_iff.mp hlast
  have hall : TakesAll (recurseProgram.withBound 0x3000).step
      (fun t m => t.Modest (recurseProgram.withBound 0x3000) m)
      (recurseProgram.launch recurseProgram.code 0 id ⟨0x311c, ()⟩)
      (List.replicate 12 .run ++ .call :: List.replicate 4 .run) := by decide +kernel
  have hleft := compiled_margin_left (recurseProgram.withBound 0x3000)
    recurseProgram_aligns 0x1000 (by decide) (by decide) (by decide) hrun
    (fun t m htakes => hall.takes htakes) hfails
  exact ⟨t, hrun, hfails, hleft⟩

end Hopter.SplitStack
