import Mathlib.Logic.Relation
import Hopter.Lib.Trace

/-!
# Simulations that compose

`Preserves` is about whole runs. Where machines are parts of a larger one, and what a
part emits depends on the others, what is needed is a relation between states that
every step keeps. `Catches` is what `Answer` comes to for two states when the silent
steps are taken: the second machine gets, in finitely many silent steps that keep the
relation, to where both machines move together, both stop, or the second one raises
an alarm.
-/

namespace Conc

variable {S₁ S₂ S₃ E O : Type}

/-- The second machine catches up with the first one. -/
inductive Catches (w : Observer E O) (next₁ : S₁ → Option (List E × S₁))
    (next₂ : S₂ → Option (List E × S₂)) (R : S₁ → S₂ → Prop) (s₁ : S₁) : S₂ → Prop where
  | silent {s₂ s₂' : S₂} {es : List E} : next₂ s₂ = some (es, s₂') → w.Calm es → w.sees es = [] →
      R s₁ s₂' → Catches w next₁ next₂ R s₁ s₂' → Catches w next₁ next₂ R s₁ s₂
  | both {s₁' : S₁} {s₂ s₂' : S₂} {es₁ es₂ : List E} : next₁ s₁ = some (es₁, s₁') →
      next₂ s₂ = some (es₂, s₂') → w.Calm es₁ → w.Calm es₂ → w.sees es₁ = w.sees es₂ →
      R s₁' s₂' → Catches w next₁ next₂ R s₁ s₂
  | stop {s₂ : S₂} : next₁ s₁ = none → next₂ s₂ = none → Catches w next₁ next₂ R s₁ s₂
  | alarm {s₂ s₂' : S₂} {es : List E} : next₂ s₂ = some (es, s₂') → ¬ w.Calm es →
      Catches w next₁ next₂ R s₁ s₂

variable {w : Observer E O} {next₁ : S₁ → Option (List E × S₁)}
  {next₂ : S₂ → Option (List E × S₂)} {next₃ : S₃ → Option (List E × S₃)}
  {R : S₁ → S₂ → Prop} {R' : S₂ → S₃ → Prop}

theorem Catches.of_answer {rank : S₂ → ℕ}
    (hR : ∀ {s₁ s₂}, R s₁ s₂ → Answer w next₁ next₂ R rank s₁ s₂) {s₁ : S₁} {s₂ : S₂}
    (h : R s₁ s₂) : Catches w next₁ next₂ R s₁ s₂ := by
  -- by induction on the rank
  induction hn : rank s₂ using Nat.strongRecOn generalizing s₂ with
  | ind n ih =>
      cases hR h with
      | silent hs hcalm hsees hR' hlt =>
          exact .silent hs hcalm hsees hR' (ih _ (hn ▸ hlt) hR' rfl)
      | both hs₁ hs₂ hcalm₁ hcalm₂ hsees hR' => exact .both hs₁ hs₂ hcalm₁ hcalm₂ hsees hR'
      | stop hs₁ hs₂ => exact .stop hs₁ hs₂
      | alarm hs halarm _ => exact .alarm hs halarm

/-- The third machine catches up with the second one. What is left is where they stop or move. -/
theorem Catches.meet {s₁ : S₁} {s₂ : S₂} {s₃ : S₃} (hR : R s₁ s₂)
    (h : Catches w next₂ next₃ R' s₂ s₃)
    (hstop : ∀ {s₃}, next₂ s₂ = none → next₃ s₃ = none →
      Catches w next₁ next₃ (Relation.Comp R R') s₁ s₃)
    (hboth : ∀ {s₃ t₂ t₃ es₂ es₃}, next₂ s₂ = some (es₂, t₂) → next₃ s₃ = some (es₃, t₃) →
      w.Calm es₂ → w.Calm es₃ → w.sees es₂ = w.sees es₃ → R' t₂ t₃ →
      Catches w next₁ next₃ (Relation.Comp R R') s₁ s₃) :
    Catches w next₁ next₃ (Relation.Comp R R') s₁ s₃ := by
  induction h with
  | silent hs hcalm hsees hR' _ ih => exact .silent hs hcalm hsees ⟨_, hR, hR'⟩ ih
  | both hs₂ hs₃ hcalm₂ hcalm₃ hsees hR' => exact hboth hs₂ hs₃ hcalm₂ hcalm₃ hsees hR'
  | stop hs₂ hs₃ => exact hstop hs₂ hs₃
  | alarm hs halarm => exact .alarm hs halarm

/-- **Simulations compose.** A silent step of the third machine is one that the second does not
make, or one that it makes silently. -/
theorem Catches.trans (h₂₃ : ∀ {s₂ s₃}, R' s₂ s₃ → Catches w next₂ next₃ R' s₂ s₃)
    {s₁ : S₁} {s₂ : S₂} {s₃ : S₃} (h₁₂ : Catches w next₁ next₂ R s₁ s₂) (hR : R s₁ s₂)
    (hR' : R' s₂ s₃) : Catches w next₁ next₃ (Relation.Comp R R') s₁ s₃ := by
  -- the second machine catches up in finitely many steps, and the third one with each of them
  induction h₁₂ generalizing s₃ with
  | silent hs hcalm hsees hRt _ ih =>
      refine (h₂₃ hR').meet hR (fun hs₂ _ => ?_) fun hs₂ hs₃ _ hcalm₃ hsees₃ hR₃ => ?_
      · rw [hs] at hs₂
        cases hs₂
      · rw [hs, Option.some.injEq, Prod.mk.injEq] at hs₂
        obtain ⟨rfl, rfl⟩ := hs₂
        exact .silent hs₃ hcalm₃ (hsees₃.symm.trans hsees) ⟨_, hRt, hR₃⟩ (ih hRt hR₃)
  | both hs₁ hs hcalm₁ _ hsees hRt =>
      refine (h₂₃ hR').meet hR (fun hs₂ _ => ?_) fun hs₂ hs₃ _ hcalm₃ hsees₃ hR₃ => ?_
      · rw [hs] at hs₂
        cases hs₂
      · rw [hs, Option.some.injEq, Prod.mk.injEq] at hs₂
        obtain ⟨rfl, rfl⟩ := hs₂
        exact .both hs₁ hs₃ hcalm₁ hcalm₃ (hsees.trans hsees₃) ⟨_, hRt, hR₃⟩
  | stop hs₁ hs =>
      refine (h₂₃ hR').meet hR (fun _ hs₃ => .stop hs₁ hs₃) fun hs₂ _ _ _ _ _ => ?_
      rw [hs] at hs₂
      cases hs₂
  | alarm hs hno =>
      refine (h₂₃ hR').meet hR (fun hs₂ _ => ?_) fun hs₂ _ hcalm₂ _ _ _ => ?_
      · rw [hs] at hs₂
        cases hs₂
      · rw [hs, Option.some.injEq, Prod.mk.injEq] at hs₂
        exact absurd (hs₂.1 ▸ hcalm₂) hno

end Conc
