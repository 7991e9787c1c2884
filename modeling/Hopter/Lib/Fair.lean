import Mathlib.Data.Fintype.Powerset
import Mathlib.Order.Filter.AtTopBot.Basic
import Mathlib.Order.OrderIsoNat
import Hopter.Lib.Interleave

/-!
# Fair schedulers

What goes on forever only gets somewhere when the scheduler forgets no thread.
Weak fairness says that a thread with something to do takes a step again, sooner or
later; until it does nobody else moves it, so it then takes the step that was
waiting for it.

The rules below follow one thread through an endless run. `Fair.next` finds the step
a thread is at, `Endless.leaves` the step with which it leaves a set of local states.

Where a thread waits for something others give and take, as for a mutex, its step is
possible and impossible in turns. Strong fairness is about that: what is possible
again and again is done again and again.
-/

namespace Conc

section

variable {S A : Type} {step : S → A → Option S} {σ : ℕ → S} {as : ℕ → A}

theorem Endless.shift (h : Endless step σ as) (k : ℕ) :
    Endless step (fun n => σ (k + n)) (fun n => as (k + n)) := fun n => h (k + n)

theorem Endless.reachable (h : Endless step σ as) (n : ℕ) : Reachable step (σ 0) (σ n) := by
  induction n with
  | zero => exact Reachable.init
  | succ n ih => exact ih.tail (h n)

/-- What gets closer as long as it is not there is reached. -/
theorem descends {Q : S → Prop} (μ : S → ℕ) {k : ℕ}
    (hdec : ∀ n, k ≤ n → ¬ Q (σ n) → μ (σ (n + 1)) < μ (σ n)) : ∃ m, k ≤ m ∧ Q (σ m) := by
  by_contra hnone
  have hnot : ∀ m, k ≤ m → ¬ Q (σ m) := fun m hm hQ => hnone ⟨m, hm, hQ⟩
  have hlow : ∀ j, μ (σ (k + j)) + j ≤ μ (σ k) := by
    intro j
    induction j with
    | zero => exact Nat.le_refl _
    | succ j ih =>
        have := hdec (k + j) (by omega) (hnot _ (by omega))
        rw [Nat.add_assoc] at this
        omega
  have := hlow (μ (σ k) + 1)
  omega

/-- What is possible again and again is done again and again. -/
def StronglyFair (step : S → A → Option S) (σ : ℕ → S) (as : ℕ → A) : Prop :=
  ∀ a, (∃ᶠ n in Filter.atTop, (step (σ n) a).isSome) → ∃ᶠ n in Filter.atTop, as n = a

/-- What is possible from some moment on is done again and again. -/
def WeaklyFair (step : S → A → Option S) (σ : ℕ → S) (as : ℕ → A) : Prop :=
  ∀ a, (∀ᶠ n in Filter.atTop, (step (σ n) a).isSome) → ∃ᶠ n in Filter.atTop, as n = a

/-- What stays possible as long as it is not done is done. -/
theorem WeaklyFair.next (h : WeaklyFair step σ as) {a : A} {n : ℕ}
    (hgo : ∀ m, n ≤ m → (∀ k, n ≤ k → k < m → as k ≠ a) → (step (σ m) a).isSome) :
    ∃ m, n ≤ m ∧ as m = a := by
  by_contra hnone
  have hnot : ∀ k, n ≤ k → as k ≠ a := by
    intro k hk he
    exact hnone ⟨k, hk, he⟩
  have hdone := h a (Filter.eventually_atTop.mpr ⟨n, fun m hm => hgo m hm fun k hk _ => hnot k hk⟩)
  exact hdone (Filter.eventually_atTop.mpr ⟨n, hnot⟩)

/-- Sets that never grow are the same from some moment on. -/
theorem settles {ι : Type} [Finite ι] (D : ℕ → Set ι) (h : ∀ n, D (n + 1) ⊆ D n) :
    ∃ N, ∀ n, N ≤ n → D n = D N := by
  obtain ⟨N, hN⟩ := WellFoundedGT.monotone_chain_condition
    (α := (Set ι)ᵒᵈ) ⟨fun n => OrderDual.toDual (D n), monotone_nat_of_le_succ h⟩
  exact ⟨N, fun n hn => (OrderDual.toDual.injective (hN n hn)).symm⟩

end

variable {σ ℓ α ι : Type} {P : Proc σ ℓ α} {cs : ℕ → Config σ ι ℓ} {es : ℕ → ι × α}

/-- No thread with something to do is forgotten. -/
def Fair (active : ℓ → Prop) (cs : ℕ → Config σ ι ℓ) (es : ℕ → ι × α) : Prop :=
  ∀ n i, active ((cs n).thread i) → ∃ m, n ≤ m ∧ (es m).1 = i

theorem Fair.shift {active : ℓ → Prop} (h : Fair active cs es) (k : ℕ) :
    Fair active (fun n => cs (k + n)) (fun n => es (k + n)) := by
  intro n i hi
  obtain ⟨m, hm, he⟩ := h (k + n) i hi
  refine ⟨m - k, by omega, ?_⟩
  show (es (k + (m - k))).1 = i
  rw [Nat.add_sub_cancel' (by omega), he]

variable [DecidableEq ι]

/-- A thread stays where it is as long as others move. -/
theorem Endless.waits (h : Endless (Config.step P) cs es) {i : ι} {n m : ℕ} (hnm : n ≤ m)
    (hothers : ∀ k, n ≤ k → k < m → (es k).1 ≠ i) : (cs m).thread i = (cs n).thread i := by
  induction m, hnm using Nat.le_induction with
  | base => rfl
  | succ m hm ih =>
      rw [Config.thread_of_step (h m) fun heq => hothers m hm (Nat.lt_succ_self m) heq.symm]
      exact ih fun k hk hkm => hothers k hk (Nat.lt_succ_of_lt hkm)

omit [DecidableEq ι] in
/-- A thread with something to do has its turn, and here is the first one. -/
theorem Fair.turn {active : ℓ → Prop} (hf : Fair active cs es) {n : ℕ} {i : ι}
    (hi : active ((cs n).thread i)) :
    ∃ m, n ≤ m ∧ (es m).1 = i ∧ ∀ k, n ≤ k → k < m → (es k).1 ≠ i := by
  have hex := hf n i hi
  classical
  obtain ⟨hle, he⟩ := Nat.find_spec hex
  exact ⟨Nat.find hex, hle, he, fun k hk hlt heq => Nat.find_min hex hlt ⟨hk, heq⟩⟩

/-- **The next step of a thread**, which is still where it was. -/
theorem Fair.next {active : ℓ → Prop} (hf : Fair active cs es)
    (h : Endless (Config.step P) cs es) {n : ℕ} {i : ι} (hi : active ((cs n).thread i)) :
    ∃ m, n ≤ m ∧ (es m).1 = i ∧ (cs m).thread i = (cs n).thread i
      ∧ ∀ k, n ≤ k → k < m → (es k).1 ≠ i := by
  obtain ⟨m, hle, he, hothers⟩ := hf.turn hi
  exact ⟨m, hle, he, h.waits hle hothers, hothers⟩

/-- **The step with which a thread leaves.** It is the thread's own. -/
theorem Endless.leaves (h : Endless (Config.step P) cs es) {Q : ℓ → Prop} {i : ι} {n m : ℕ}
    (hnm : n ≤ m) (hn : Q ((cs n).thread i)) (hm : ¬ Q ((cs m).thread i)) :
    ∃ k, n ≤ k ∧ (es k).1 = i ∧ Q ((cs k).thread i) ∧ ¬ Q ((cs (k + 1)).thread i) := by
  induction m, hnm using Nat.le_induction with
  | base => exact absurd hn hm
  | succ m hle ih =>
      by_cases hQ : Q ((cs m).thread i)
      · refine ⟨m, hle, ?_, hQ, hm⟩
        by_contra hne
        rw [Config.thread_of_step (h m) fun heq => hne heq.symm] at hm
        exact hm hQ
      · exact ih hQ

end Conc
