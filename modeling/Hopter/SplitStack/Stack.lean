import Hopter.Lib.Align
import Hopter.Lib.Run
import Hopter.SplitStack.Coverage

/-!
# The stack of a thread

Instrumented functions call, allocate and return on one stack, to any depth. A
prologue lowers SP and writes before its own check runs, so it is the last check
of the caller that has to leave room for it: `Window` says that it does, and every
check that passes opens it again. A dynamic alloca is different. It lowers SP by a
size nobody has looked at, and the check comes behind it.
-/

namespace Hopter.SplitStack

open Conc

/-- What the backend subtracts for `n` bytes: `(n + 15) & ~15`. -/
def align16 (n : BitVec 64) : BitVec 64 := (n + 15) &&& ~~~15

/-- Space between the bound and the bottom of the stack. -/
def kGuardMargin : BitVec 64 := 8 * 1024

/-- Which check of a function it is. -/
inductive Site where
  | entry
  | alloca
  deriving DecidableEq

inductive Mode where
  /-- Code of the source. -/
  | running
  | checking (site : Site)
  /-- `__morestack` is called. -/
  | failed (site : Site)
  deriving DecidableEq

/-- The check that can be made. Where code of the source leads back to the entry of its function,
that check is made again. -/
def Mode.site? : Mode → Option Site
  | .running => some .entry
  | .checking site => some site
  | .failed _ => none

/-- A check is made in the code of the source, or where SP has been lowered. -/
theorem Mode.site?_eq_some {mode : Mode} {site : Site} (h : mode.site? = some site) :
    mode = .running ∧ site = .entry ∨ mode = .checking site := by
  cases mode with
  | running => exact Or.inl ⟨rfl, (Option.some.inj h).symm⟩
  | checking site' => exact Or.inr (congrArg Mode.checking (Option.some.inj h))
  | failed site' => cases h

structure Stack where
  sp : BitVec 64
  /-- SP at the calls that have not returned, the last one first. -/
  saved : List (BitVec 64)
  mode : Mode
  deriving DecidableEq

inductive Action where
  /-- A call, with the prologue of the function. -/
  | call (prologue : BitVec 64)
  /-- A dynamic alloca, and what it writes on the way. -/
  | alloca (n : BitVec 64) (probes : List (BitVec 64))
  | check
  /-- Code of the source writes, at SP or above. -/
  | store (x : BitVec 64)
  /-- `llvm.stackrestore` gives allocas back. -/
  | restore (sp : BitVec 64)
  | ret
  /-- So many calls are unwound, by the overflow handler or by code of the source, and the next one
  catches. -/
  | unwind (calls : ℕ)
  deriving DecidableEq

namespace Stack

variable {frame : BitVec 64}

def step (frame bound : BitVec 64) (s : Stack) : Action → Option Stack
  | .call prologue =>
      if s.mode = .running then some ⟨s.sp - prologue, s.sp :: s.saved, .checking .entry⟩ else none
  | .alloca n _ =>
      if s.mode = .running then some ⟨s.sp - align16 n, s.saved, .checking .alloca⟩ else none
  | .check =>
      s.mode.site?.map fun site =>
        { s with mode := if checkOk frame s.sp bound then .running else .failed site }
  | .store x => if s.mode = .running ∧ s.sp ≤ x then some s else none
  | .restore sp => if s.mode = .running ∧ s.sp ≤ sp then some { s with sp := sp } else none
  | .ret =>
      match s.mode, s.saved with
      | .running, sp :: saved => some ⟨sp, saved, .running⟩
      | _, _ => none
  | .unwind calls =>
      match s.mode, s.saved.drop calls with
      | .running, sp :: saved | .failed _, sp :: saved => some ⟨sp, saved, .running⟩
      | _, _ => none

/-- The step writes at `x`. -/
def Writes (s : Stack) : Action → BitVec 64 → Prop
  | .call prologue, x => s.sp - prologue ≤ x ∧ x < s.sp
  | .alloca _ probes, x => x ∈ probes
  | .store y, x => x = y
  | .check, _ | .restore _, _ | .ret, _ | .unwind _, _ => False

/-- What is assumed of a step: a prologue lowers SP by no more than a frame, an alloca writes
nothing, and no check wraps around. -/
def Assumed (frame : BitVec 64) (s : Stack) : Action → Prop
  | .call prologue => prologue ≤ frame
  | .alloca _ probes => probes = []
  | .check => frame ≤ s.sp
  | .store _ | .restore _ | .ret | .unwind _ => True

instance (s : Stack) : DecidablePred (s.Assumed frame)
  | .call prologue => inferInstanceAs (Decidable (prologue ≤ frame))
  | .alloca _ probes => inferInstanceAs (Decidable (probes = []))
  | .check => inferInstanceAs (Decidable (frame ≤ s.sp))
  | .store _ | .restore _ | .ret | .unwind _ => .isTrue trivial

variable {bound : BitVec 64} {s s' : Stack}

/-- **Inversion.** -/
theorem step_cases {a : Action} (h : s.step frame bound a = some s') :
    (∃ p, a = .call p ∧ s.mode = .running
      ∧ s' = ⟨s.sp - p, s.sp :: s.saved, .checking .entry⟩)
    ∨ (∃ n probes, a = .alloca n probes ∧ s.mode = .running
      ∧ s' = ⟨s.sp - align16 n, s.saved, .checking .alloca⟩)
    ∨ (∃ site, a = .check ∧ s.mode.site? = some site
      ∧ s' = { s with mode := if checkOk frame s.sp bound then .running else .failed site })
    ∨ (∃ x, a = .store x ∧ s.mode = .running ∧ s.sp ≤ x ∧ s' = s)
    ∨ (∃ sp, a = .restore sp ∧ s.mode = .running ∧ s.sp ≤ sp ∧ s' = { s with sp := sp })
    ∨ ∃ sp saved, (a = .ret ∧ s.mode = .running ∨ ∃ calls, a = .unwind calls)
      ∧ (sp :: saved) <:+ s.saved ∧ s' = ⟨sp, saved, .running⟩ := by
  cases a with
  | call p =>
      obtain ⟨hmode, heq⟩ := Option.ite_none_right_eq_some.mp h
      exact Or.inl ⟨p, rfl, hmode, (Option.some.inj heq).symm⟩
  | alloca n probes =>
      obtain ⟨hmode, heq⟩ := Option.ite_none_right_eq_some.mp h
      exact Or.inr (Or.inl ⟨n, probes, rfl, hmode, (Option.some.inj heq).symm⟩)
  | check =>
      obtain ⟨site, hsite, heq⟩ := Option.map_eq_some_iff.mp h
      exact Or.inr (Or.inr (Or.inl ⟨site, rfl, hsite, heq.symm⟩))
  | store x =>
      obtain ⟨⟨hmode, hle⟩, heq⟩ := Option.ite_none_right_eq_some.mp h
      exact Or.inr (Or.inr (Or.inr (Or.inl ⟨x, rfl, hmode, hle, (Option.some.inj heq).symm⟩)))
  | restore sp =>
      obtain ⟨⟨hmode, hle⟩, heq⟩ := Option.ite_none_right_eq_some.mp h
      exact Or.inr (Or.inr (Or.inr (Or.inr (Or.inl
        ⟨sp, rfl, hmode, hle, (Option.some.inj heq).symm⟩))))
  | ret =>
      simp only [step] at h
      split at h
      · rename_i sp saved hmode hsaved
        refine Or.inr (Or.inr (Or.inr (Or.inr (Or.inr
          ⟨sp, saved, Or.inl ⟨rfl, hmode⟩, ?_, (Option.some.inj h).symm⟩))))
        rw [hsaved]
      · cases h
  | unwind calls =>
      have hback : ∀ {sp saved}, s.saved.drop calls = sp :: saved →
          (sp :: saved) <:+ s.saved := fun hsaved => hsaved ▸ List.drop_suffix calls s.saved
      simp only [step] at h
      split at h
      · rename_i sp saved hmode hsaved
        exact Or.inr (Or.inr (Or.inr (Or.inr (Or.inr
          ⟨sp, saved, Or.inr ⟨calls, rfl⟩, hback hsaved, (Option.some.inj h).symm⟩))))
      · rename_i site sp saved hmode hsaved
        exact Or.inr (Or.inr (Or.inr (Or.inr (Or.inr
          ⟨sp, saved, Or.inr ⟨calls, rfl⟩, hback hsaved, (Option.some.inj h).symm⟩))))
      · cases h

end Stack

/-! ## Arithmetic -/

theorem align16_toNat (n : BitVec 64) :
    (align16 n).toNat = Word.alignUp n.toNat 16 % 2 ^ 64 :=
  Word.toNat_alignUp n (m := 16) (k := 4) rfl

/-- A size that is a multiple of 16 is subtracted as it is. -/
theorem align16_of_dvd {n : BitVec 64} (h : 16 ∣ n.toNat) :
    align16 n = n ∧ Word.alignUp n.toNat 16 = n.toNat := by
  have hup : Word.alignUp n.toNat 16 = n.toNat := by
    unfold Word.alignUp
    omega
  refine ⟨BitVec.eq_of_toNat_eq ?_, hup⟩
  rw [align16_toNat, hup, Nat.mod_eq_of_lt n.isLt]

/-- `frame` is the padding rounded up. -/
theorem framePad_toNat (clExtraPad : BitVec 32) :
    (framePad clExtraPad).toNat = Word.alignUp (128 + clExtraPad.toNat) 16 := by
  have hlt := clExtraPad.isLt
  have hsum : (kFramePadding + clExtraPad.setWidth 64).toNat = 128 + clExtraPad.toNat := by
    rw [BitVec.toNat_add, BitVec.toNat_setWidth]
    show (128 + clExtraPad.toNat % 2 ^ 64) % 2 ^ 64 = _
    omega
  have halign := align16_toNat (kFramePadding + clExtraPad.setWidth 64)
  have hup := Word.alignUp_lt (n := 128 + clExtraPad.toNat) (a := 16) (by omega)
  rw [hsum, Nat.mod_eq_of_lt (by omega)] at halign
  exact halign

/-- At least `kFramePadding`, and far from wrapping around. -/
theorem framePad_bounds (clExtraPad : BitVec 32) :
    128 ≤ (framePad clExtraPad).toNat ∧ (framePad clExtraPad).toNat < 2 ^ 33 := by
  have hlt := clExtraPad.isLt
  have hle := Word.le_alignUp (n := 128 + clExtraPad.toNat) (a := 16) (by omega)
  have hup := Word.alignUp_lt (n := 128 + clExtraPad.toNat) (a := 16) (by omega)
  rw [framePad_toNat]
  omega

variable {frame bound sp : BitVec 64}

/-- A check that does not wrap around passes when there is room for a frame. -/
theorem checkOk_iff (h : frame ≤ sp) :
    checkOk frame sp bound = true ↔ bound.toNat + frame.toNat ≤ sp.toNat := by
  have hle := BitVec.le_def.mp h
  unfold checkOk
  rw [decide_eq_true_iff, BitVec.le_def, BitVec.toNat_sub_of_le h]
  omega

/-- One that does passes too, unless the bound is close to the end of memory. -/
theorem checkOk_of_lt (h : sp < frame) (hfit : bound.toNat + frame.toNat ≤ 2 ^ 64 + sp.toNat) :
    checkOk frame sp bound = true := by
  have hlt := BitVec.lt_def.mp h
  have hframe := frame.isLt
  unfold checkOk
  rw [decide_eq_true_iff, BitVec.le_def, BitVec.toNat_sub]
  omega

/-! ## The window -/

/-- Code of the source, and every call that has not returned, has a frame left above the bound. -/
structure Window (frame bound : BitVec 64) (s : Stack) : Prop where
  saved : ∀ sp ∈ s.saved, bound.toNat + frame.toNat ≤ sp.toNat
  running : s.mode = .running → bound.toNat + frame.toNat ≤ s.sp.toNat
  entry : s.mode = .checking .entry ∨ s.mode = .failed .entry → bound ≤ s.sp

/-- **A step keeps the window**, and what it writes is above the bound. -/
theorem window_step {s s' : Stack} {a : Action} (h : Window frame bound s)
    (hs : s.step frame bound a = some s') (ha : s.Assumed frame a) :
    Window frame bound s' ∧ ∀ x, s.Writes a x → bound ≤ x := by
  rcases Stack.step_cases hs with ⟨p, rfl, hmode, rfl⟩ | ⟨n, probes, rfl, hmode, rfl⟩
    | ⟨site, rfl, hsite, rfl⟩ | ⟨x, rfl, hmode, hle, rfl⟩ | ⟨sp, rfl, hmode, hle, rfl⟩
    | ⟨sp, saved, hback, hsuf, rfl⟩
  · have hroom := h.running hmode
    have hp := BitVec.le_def.mp ha
    -- the caller's check has left a frame
    have hlow : bound ≤ s.sp - p := by
      rw [BitVec.le_def, BitVec.toNat_sub_of_le (BitVec.le_def.mpr (by omega))]
      omega
    refine ⟨⟨?_, fun hrun => (by cases hrun), fun _ => hlow⟩, fun x hx => ?_⟩
    · intro sp hsp
      rcases List.mem_cons.mp hsp with rfl | hsp
      · exact hroom
      · exact h.saved sp hsp
    · exact BitVec.le_trans hlow hx.1
  · refine ⟨⟨h.saved, fun hrun => (by cases hrun), fun hentry => ?_⟩, fun x hx => ?_⟩
    · rcases hentry with hentry | hentry <;> cases hentry
    · replace ha : probes = [] := ha
      replace hx : x ∈ probes := hx
      rw [ha] at hx
      exact absurd hx List.not_mem_nil
  · refine ⟨?_, fun x hx => hx.elim⟩
    cases hok : checkOk frame s.sp bound with
    | true =>
        refine ⟨h.saved, fun _ => (checkOk_iff ha).mp hok, fun hentry => ?_⟩
        rcases hentry with hentry | hentry <;> cases hentry
    | false =>
        refine ⟨h.saved, fun hrun => (by cases hrun), fun hentry => ?_⟩
        rcases hentry with hentry | hentry
        · cases hentry
        · cases hentry
          rcases Mode.site?_eq_some hsite with ⟨hrun, -⟩ | hcheck
          · have hroom := h.running hrun
            show bound ≤ s.sp
            exact BitVec.le_def.mpr (by omega)
          · exact h.entry (Or.inl hcheck)
  · refine ⟨h, fun y hy => ?_⟩
    have hroom := h.running hmode
    have hle := BitVec.le_def.mp hle
    replace hy : y = x := hy
    rw [hy, BitVec.le_def]
    omega
  · have hroom := h.running hmode
    have hle := BitVec.le_def.mp hle
    refine ⟨⟨h.saved, fun _ => hroom.trans hle, fun hentry => ?_⟩, fun x hx => hx.elim⟩
    rw [hmode] at hentry
    rcases hentry with hentry | hentry <;> cases hentry
  · have hmem : ∀ sp' ∈ sp :: saved, sp' ∈ s.saved := fun sp' hsp' => hsuf.subset hsp'
    refine ⟨⟨fun sp' hsp' => h.saved sp' (hmem sp' (List.mem_cons_of_mem _ hsp')),
      fun _ => h.saved sp (hmem sp List.mem_cons_self), fun hentry => ?_⟩, fun x hx => ?_⟩
    · rcases hentry with hentry | hentry <;> cases hentry
    · rcases hback with ⟨rfl, -⟩ | ⟨calls, rfl⟩ <;> exact hx.elim

/-- **The rolling window.** -/
theorem rolling_window (clExtraPad : BitVec 32) (bound : BitVec 64) {s₀ t : Stack}
    {as : List Action} (hmode : s₀.mode = .running) (hsaved : s₀.saved = [])
    (hstart : bound.toNat + (framePad clExtraPad).toNat ≤ s₀.sp.toNat)
    (hrun : exec (Stack.step (framePad clExtraPad) bound) s₀ as = some t)
    (hassumed : ∀ s a, Takes (Stack.step (framePad clExtraPad) bound) s₀ as s a →
      s.Assumed (framePad clExtraPad) a) :
    (∀ s a, Takes (Stack.step (framePad clExtraPad) bound) s₀ as s a →
      ∀ x, s.Writes a x → bound ≤ x)
    ∧ ∀ s, Visits (Stack.step (framePad clExtraPad) bound) s₀ as s →
      (s.mode = .running → bound.toNat + (framePad clExtraPad).toNat ≤ s.sp.toNat)
      ∧ (s.mode = .failed .entry → bound ≤ s.sp) := by
  have hinit : Window (framePad clExtraPad) bound s₀ := by
    refine ⟨fun sp hsp => ?_, fun _ => hstart, fun hentry => ?_⟩
    · rw [hsaved] at hsp
      exact absurd hsp List.not_mem_nil
    · rw [hmode] at hentry
      rcases hentry with hentry | hentry <;> cases hentry
  have hvisits : ∀ {s}, Visits (Stack.step (framePad clExtraPad) bound) s₀ as s →
      Window (framePad clExtraPad) bound s := fun hvisit =>
    hvisit.invariant hinit fun htakes h hs => (window_step h hs (hassumed _ _ htakes)).1
  constructor
  · intro s a htakes
    obtain ⟨s', hs⟩ := htakes.possible hrun
    exact (window_step (hvisits htakes.visits) hs (hassumed s a htakes)).2
  · intro s hvisit
    exact ⟨(hvisits hvisit).running, fun hfailed => (hvisits hvisit).entry (Or.inr hfailed)⟩

/-- A function with a variable-length array calls another one, and the third call overflows. -/
def deepRun : List Action :=
  [.call 96, .check, .alloca 900 [], .check, .store 3184, .call 112, .check, .ret, .call 128,
    .check, .call 128, .check]

theorem rolling_window_deepRun :
    (∃ s, exec (Stack.step 128 2816) ⟨4192, [], .running⟩ deepRun = some s
      ∧ s.mode = .failed .entry ∧ 2816 ≤ s.sp) := by
  have hrun : exec (Stack.step (framePad 0) 2816) ⟨4192, [], .running⟩ deepRun
      = some ⟨2928, [3056, 3184, 4192], .failed .entry⟩ := by decide
  have hall : TakesAll (Stack.step (framePad 0) 2816) (fun s a => s.Assumed (framePad 0) a)
      ⟨4192, [], .running⟩ deepRun := by decide
  have hwindow := rolling_window 0 2816 rfl rfl (by decide) hrun fun s a htakes =>
    hall.takes htakes
  exact ⟨_, hrun, rfl, (hwindow.2 _ (visits_last hrun)).2 rfl⟩

end Hopter.SplitStack
