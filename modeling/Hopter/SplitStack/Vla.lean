import Hopter.SplitStack.Stack

/-!
# What a dynamic alloca can do

The check behind an alloca sees SP where the alloca has left it. If the size is
larger than what there is, SP is below the guard margin by then, below the stack,
or has wrapped around and is above it. So the margin is there for the handler as
long as no alloca takes more than the space above the bound and one padding, and
the check is exact as long as SP does not wrap around.
-/

namespace Hopter.SplitStack

open Conc

variable {frame bound : BitVec 64}

/-! ## The margin of the handler -/

/-- The handler would still have the guard margin, up to a padding, in a stack that ends at
`bottom`. -/
def GuardMarginLeft (bottom : ℕ) (s : Stack) : Prop :=
  bottom + (kGuardMargin.toNat - kFramePadding.toNat) ≤ s.sp.toNat

instance (bottom : ℕ) (s : Stack) : Decidable (GuardMarginLeft bottom s) :=
  inferInstanceAs (Decidable (_ ≤ _))

/-- A prologue takes no more than the padding, and an alloca no more than the space above the bound
and the padding. -/
def Modest (bound : BitVec 64) (s : Stack) : Action → Prop
  | .call prologue => prologue ≤ kFramePadding
  | .alloca n _ => Word.alignUp n.toNat 16 + bound.toNat ≤ s.sp.toNat + kFramePadding.toNat
  | .check | .store _ | .restore _ | .ret | .unwind _ => True

instance (s : Stack) : DecidablePred (Modest bound s)
  | .call prologue => inferInstanceAs (Decidable (prologue ≤ kFramePadding))
  | .alloca n _ => inferInstanceAs (Decidable (Word.alignUp n.toNat 16 + bound.toNat ≤ _))
  | .check | .store _ | .restore _ | .ret | .unwind _ => .isTrue trivial

/-- A check fails no lower than a padding below the bound. A padding larger than the bound lets no
check fail that low, and otherwise no check wraps around. -/
structure Margin (frame bound : BitVec 64) (s : Stack) : Prop where
  saved : frame.toNat + 128 ≤ bound.toNat → ∀ sp ∈ s.saved, bound ≤ sp
  running : frame.toNat + 128 ≤ bound.toNat → s.mode = .running → bound ≤ s.sp
  checking : frame.toNat + 128 ≤ bound.toNat → ∀ site, s.mode = .checking site →
    bound.toNat ≤ s.sp.toNat + 128
  failed : ∀ site, s.mode = .failed site → bound.toNat ≤ s.sp.toNat + 128

theorem margin_step {s s' : Stack} {a : Action} (hframe : frame.toNat < 2 ^ 33)
    (hbound : 128 ≤ bound.toNat) (h : Margin frame bound s)
    (hs : s.step frame bound a = some s') (ha : Modest bound s a) : Margin frame bound s' := by
  rcases Stack.step_cases hs with ⟨p, rfl, hmode, rfl⟩ | ⟨n, probes, rfl, hmode, rfl⟩
    | ⟨site, rfl, hsite, rfl⟩ | ⟨x, rfl, hmode, hle, rfl⟩ | ⟨sp, rfl, hmode, hle, rfl⟩
    | ⟨sp, saved, -, hsuf, rfl⟩
  · refine ⟨fun hfit sp hsp => ?_, fun _ hrun => (by cases hrun), fun hfit _ _ => ?_,
      fun _ hfail => (by cases hfail)⟩
    · rcases List.mem_cons.mp hsp with rfl | hsp
      · exact h.running hfit hmode
      · exact h.saved hfit sp hsp
    · have hsp := BitVec.le_def.mp (h.running hfit hmode)
      have hp : p.toNat ≤ 128 := BitVec.le_def.mp ha
      have hle : p ≤ s.sp := BitVec.le_def.mpr (by omega)
      rw [BitVec.toNat_sub_of_le hle]
      omega
  · refine ⟨h.saved, fun _ hrun => (by cases hrun), fun hfit _ _ => ?_,
      fun _ hfail => (by cases hfail)⟩
    replace ha : Word.alignUp n.toNat 16 + bound.toNat ≤ s.sp.toNat + 128 := ha
    have hlt := s.sp.isLt
    have hsize : (align16 n).toNat = Word.alignUp n.toNat 16 := by
      rw [align16_toNat, Nat.mod_eq_of_lt (by omega)]
    have hle : align16 n ≤ s.sp := BitVec.le_def.mpr (by omega)
    rw [BitVec.toNat_sub_of_le hle]
    omega
  · -- a check that is made again is made above the bound
    have hlow : frame.toNat + 128 ≤ bound.toNat → bound.toNat ≤ s.sp.toNat + 128 := fun hfit => by
      rcases Mode.site?_eq_some hsite with ⟨hrun, -⟩ | hcheck
      · exact (BitVec.le_def.mp (h.running hfit hrun)).trans (Nat.le_add_right _ _)
      · exact h.checking hfit site hcheck
    cases hok : checkOk frame s.sp bound with
    | true =>
        refine ⟨h.saved, fun hfit _ => ?_, fun _ _ hcheck => (by cases hcheck),
          fun _ hfail => (by cases hfail)⟩
        have hsp := hlow hfit
        have hroom := (checkOk_iff (BitVec.le_def.mpr (by omega))).mp hok
        show bound ≤ s.sp
        exact BitVec.le_def.mpr (by omega)
    | false =>
        refine ⟨h.saved, fun _ hrun => (by cases hrun), fun _ _ hcheck => (by cases hcheck),
          fun _ _ => ?_⟩
        show bound.toNat ≤ s.sp.toNat + 128
        by_cases hfit : frame.toNat + 128 ≤ bound.toNat
        · exact hlow hfit
        · -- a check that wraps around does not fail
          have hnowrap : ¬ s.sp < frame := fun hlt => by
            rw [checkOk_of_lt hlt (by omega)] at hok
            cases hok
          rw [BitVec.lt_def] at hnowrap
          omega
  · exact h
  · refine ⟨h.saved, fun hfit _ => BitVec.le_trans (h.running hfit hmode) hle,
      fun _ _ hcheck => ?_, fun _ hfail => ?_⟩
    · rw [hmode] at hcheck
      cases hcheck
    · rw [hmode] at hfail
      cases hfail
  · have hmem : ∀ sp' ∈ sp :: saved, sp' ∈ s.saved := fun sp' hsp' => hsuf.subset hsp'
    exact ⟨fun hfit sp' hsp' => h.saved hfit sp' (hmem sp' (List.mem_cons_of_mem _ hsp')),
      fun hfit _ => h.saved hfit sp (hmem sp List.mem_cons_self),
      fun _ _ hcheck => (by cases hcheck), fun _ hfail => (by cases hfail)⟩

/-- A check that fails fails above the bound, up to a padding. -/
theorem margin_left {bottom : ℕ} (hframe : frame.toNat < 2 ^ 33)
    (hbound : bound.toNat = bottom + kGuardMargin.toNat) {s₀ : Stack}
    (hmode : s₀.mode = .running) (hsaved : s₀.saved = []) (hstart : bound ≤ s₀.sp)
    {as : List Action}
    (hmodest : ∀ s a, Takes (Stack.step frame bound) s₀ as s a → Modest bound s a) :
    ∀ s site, Visits (Stack.step frame bound) s₀ as s → s.mode = .failed site →
      GuardMarginLeft bottom s := by
  have hguard : kGuardMargin.toNat = 8192 := rfl
  have hpadding : kFramePadding.toNat = 128 := rfl
  have hinit : Margin frame bound s₀ := by
    refine ⟨fun _ sp hsp => ?_, fun _ _ => hstart, fun _ site hcheck => ?_, fun site hfail => ?_⟩
    · rw [hsaved] at hsp
      exact absurd hsp List.not_mem_nil
    · rw [hmode] at hcheck
      cases hcheck
    · rw [hmode] at hfail
      cases hfail
  intro s site hvisit hfailed
  have hmargin : Margin frame bound s := by
    refine hvisit.invariant hinit fun htakes h hs => ?_
    exact margin_step hframe (by omega) h hs (hmodest _ _ htakes)
  have hlow := hmargin.failed site hfailed
  unfold GuardMarginLeft
  omega

/-- **The handler has its guard margin** while the thread starts above the bound and every alloca is
modest. -/
theorem guard_margin_left (clExtraPad : BitVec 32) {bottom : ℕ} {bound : BitVec 64}
    (hbound : bound.toNat = bottom + kGuardMargin.toNat) {s₀ : Stack}
    (hmode : s₀.mode = .running) (hsaved : s₀.saved = []) (hstart : bound ≤ s₀.sp)
    {as : List Action}
    (hmodest : ∀ s a, Takes (Stack.step (framePad clExtraPad) bound) s₀ as s a → Modest bound s a) :
    ∀ s site, Visits (Stack.step (framePad clExtraPad) bound) s₀ as s → s.mode = .failed site →
      GuardMarginLeft bottom s :=
  margin_left (framePad_bounds clExtraPad).2 hbound hmode hsaved hstart hmodest

/-- An alloca that takes more fails its check and leaves the handler less. -/
theorem guard_margin_lost {bottom : ℕ} (hbound : bound.toNat = bottom + kGuardMargin.toNat)
    {s : Stack} (hmode : s.mode = .running) {n : BitVec 64} {probes : List (BitVec 64)}
    (hroom : Word.alignUp n.toNat 16 + frame.toNat ≤ s.sp.toNat)
    (hlarge : s.sp.toNat + kFramePadding.toNat < Word.alignUp n.toNat 16 + bound.toNat)
    (hframe : 128 ≤ frame.toNat) :
    ∃ s', exec (Stack.step frame bound) s [.alloca n probes, .check] = some s'
      ∧ s'.mode = .failed .alloca ∧ ¬ GuardMarginLeft bottom s' := by
  have hguard : kGuardMargin.toNat = 8192 := rfl
  have hpadding : kFramePadding.toNat = 128 := rfl
  have hlt := s.sp.isLt
  have hsize : (align16 n).toNat = Word.alignUp n.toNat 16 := by
    rw [align16_toNat, Nat.mod_eq_of_lt (by omega)]
  have hsp : (s.sp - align16 n).toNat = s.sp.toNat - Word.alignUp n.toNat 16 := by
    rw [BitVec.toNat_sub_of_le (BitVec.le_def.mpr (by omega)), hsize]
  have hfail : checkOk frame (s.sp - align16 n) bound = false := by
    rw [Bool.eq_false_iff, ne_eq, checkOk_iff (BitVec.le_def.mpr (by omega)), hsp]
    omega
  refine ⟨⟨s.sp - align16 n, s.saved, .failed .alloca⟩, ?_, rfl, ?_⟩
  · rw [exec_cons]
    simp only [Stack.step, if_pos hmode, Option.bind_some, exec_cons, exec_nil, Mode.site?,
      Option.map_some, hfail, Bool.false_eq_true, if_false]
  · unfold GuardMarginLeft
    rw [hsp]
    omega

/-- A main function with a frame of its own allocates two megabytes on a stack of two. -/
theorem vla_leaves_no_margin :
    let top := 0x8000000
    let maxStack := 2 * 1024 * 1024
    let bound := BitVec.ofNat 64 (top - maxStack) + kGuardMargin
    ∃ s, exec (Stack.step (framePad 0) bound) ⟨BitVec.ofNat 64 top, [], .running⟩
        [.call 96, .check, .alloca 2097152 [], .check] = some s
      ∧ s.mode = .failed .alloca ∧ ¬ GuardMarginLeft (top - maxStack) s :=
  ⟨⟨0x7dfffa0, [0x8000000], .failed .alloca⟩, by decide, rfl, by decide⟩

/-- Variable-length arrays of 900 bytes fail where the handler still has room. -/
def vlaRun : List Action :=
  [.call 96, .check, .alloca 900 [], .check, .alloca 900 [], .check]

theorem guard_margin_left_vlaRun :
    ∃ s, exec (Stack.step (framePad 0) 0x3000) ⟨0x3710, [], .running⟩ vlaRun = some s
      ∧ s.mode = .failed .alloca ∧ GuardMarginLeft 0x1000 s := by
  have hrun : exec (Stack.step (framePad 0) 0x3000) ⟨0x3710, [], .running⟩ vlaRun
      = some ⟨0x2f90, [0x3710], .failed .alloca⟩ := by decide
  have hall : TakesAll (Stack.step (framePad 0) 0x3000) (Modest 0x3000) ⟨0x3710, [], .running⟩
      vlaRun := by decide
  exact ⟨_, hrun, rfl, guard_margin_left 0 rfl rfl rfl (by decide)
    (fun s a htakes => hall.takes htakes) _ .alloca (visits_last hrun) rfl⟩

/-! ## Which sizes the check sees -/

/-- The check behind the alloca lets the function go on. -/
def Continues (frame bound : BitVec 64) (s : Stack) (n : BitVec 64) : Prop :=
  ∃ s', exec (Stack.step frame bound) s [.alloca n [], .check] = some s' ∧ s'.mode = .running

theorem continues_iff {s : Stack} (hmode : s.mode = .running) (n : BitVec 64) :
    Continues frame bound s n ↔ checkOk frame (s.sp - align16 n) bound = true := by
  unfold Continues
  rw [exec_cons]
  simp only [Stack.step, if_pos hmode, Option.bind_some, exec_cons, exec_nil, Mode.site?,
    Option.map_some, Option.some.injEq]
  cases checkOk frame (s.sp - align16 n) bound with
  | true => exact ⟨fun _ => rfl, fun _ => ⟨_, rfl, rfl⟩⟩
  | false =>
      refine ⟨fun hex => ?_, fun hno => by cases hno⟩
      obtain ⟨s', rfl, hrun⟩ := hex
      cases hrun

/-- **The check of a dynamic alloca is exact** for the sizes that leave SP above a frame. -/
theorem alloca_check_exact_iff (clExtraPad : BitVec 32) {bound : BitVec 64} {s : Stack}
    (hmode : s.mode = .running)
    (hroom : bound.toNat + (framePad clExtraPad).toNat ≤ s.sp.toNat) (n : BitVec 64) :
    (Continues (framePad clExtraPad) bound s n
      ↔ Word.alignUp n.toNat 16 + (framePad clExtraPad).toNat + bound.toNat ≤ s.sp.toNat)
    ↔ Word.alignUp n.toNat 16 + (framePad clExtraPad).toNat ≤ s.sp.toNat := by
  have hn := n.isLt
  have hsp := s.sp.isLt
  have hframe := (framePad_bounds clExtraPad).2
  -- a size is a multiple of 16, so it is 2 ^ 64 at most
  have hsize : Word.alignUp n.toNat 16 ≤ 2 ^ 64 := by
    unfold Word.alignUp
    omega
  have hneed : (s.sp - align16 n - framePad clExtraPad).toNat
      = (s.sp.toNat + 2 ^ 65 - Word.alignUp n.toNat 16 - (framePad clExtraPad).toNat) % 2 ^ 64 := by
    rw [BitVec.toNat_sub, BitVec.toNat_sub, align16_toNat]
    omega
  rw [continues_iff hmode]
  unfold checkOk
  rw [decide_eq_true_iff, BitVec.le_def, hneed]
  constructor
  · intro hexact
    by_contra hwrap
    -- SP - frame has wrapped around, and is above the bound
    have hpass : bound.toNat ≤ (s.sp.toNat + 2 ^ 65 - Word.alignUp n.toNat 16
        - (framePad clExtraPad).toNat) % 2 ^ 64 := by omega
    have hfit := hexact.mp hpass
    omega
  · intro hnowrap
    omega

/-- A size that is -16 as a signed number lifts SP above where it was. -/
theorem negative_size_unnoticed :
    let s : Stack := ⟨0x8000000, [], .running⟩
    let bound := 0x7e02000
    bound.toNat + (framePad 0).toNat ≤ s.sp.toNat
      ∧ Continues (framePad 0) bound s (-16)
      ∧ ¬ Word.alignUp (-16 : BitVec 64).toNat 16 + (framePad 0).toNat + bound.toNat
        ≤ s.sp.toNat
      ∧ s.sp - align16 (-16) = s.sp + 16 := by
  refine ⟨by decide, ⟨⟨0x8000010, [], .running⟩, by decide, rfl⟩, by decide, by decide⟩

/-- The array of 900 bytes that the test program has. -/
theorem alloca_check_exact_vla :
    Continues (framePad 0) 0x7e02000 ⟨0x8000000, [], .running⟩ 900
      ↔ Word.alignUp 900 16 + (framePad 0).toNat + 0x7e02000 ≤ 0x8000000 :=
  (alloca_check_exact_iff 0 rfl (by decide) 900).mpr (by decide)

end Hopter.SplitStack
