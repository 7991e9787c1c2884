import Mathlib.Logic.Function.Basic
import Mathlib.Logic.Relation
import Hopter.Lib.Run

/-!
# Interleaved sequential processes

A *process* says what one atomic action of a thread does to the state all
threads share and to the local state of the thread that takes it. A
configuration is the shared state with one local state for every thread, and an
action of the whole is a (thread, action) pair: the scheduler is the list of
these that makes a run, so "every interleaving" is "every list".

The threads are indexed by an arbitrary type, so nothing here bounds how many
there are.
-/

namespace Conc

variable {σ ℓ α ι : Type}

/-- What an action does in a shared and a local state; `none` when it is not possible there. -/
abbrev Proc (σ ℓ α : Type) := σ → ℓ → α → Option (σ × ℓ)

/-- The shared state, and where every thread is. -/
structure Config (σ ι ℓ : Type) where
  shared : σ
  thread : ι → ℓ

namespace Config

variable [DecidableEq ι]

/-- Thread `e.1` takes the atomic action `e.2`. -/
def step (P : Proc σ ℓ α) (c : Config σ ι ℓ) (e : ι × α) : Option (Config σ ι ℓ) :=
  (P c.shared (c.thread e.1) e.2).map fun r => ⟨r.1, Function.update c.thread e.1 r.2⟩

/-- What a step is made of. -/
theorem step_eq_some {P : Proc σ ℓ α} {c c' : Config σ ι ℓ} {e : ι × α} :
    step P c e = some c' ↔
      ∃ s l, P c.shared (c.thread e.1) e.2 = some (s, l)
        ∧ c' = ⟨s, Function.update c.thread e.1 l⟩ := by
  unfold step
  rw [Option.map_eq_some_iff]
  constructor
  · rintro ⟨⟨s, l⟩, h, rfl⟩
    exact ⟨s, l, h, rfl⟩
  · rintro ⟨s, l, h, rfl⟩
    exact ⟨(s, l), h, rfl⟩

theorem thread_of_step {P : Proc σ ℓ α} {c c' : Config σ ι ℓ} {e : ι × α}
    (h : step P c e = some c') {j : ι} (hj : j ≠ e.1) : c'.thread j = c.thread j := by
  obtain ⟨s, l, -, rfl⟩ := step_eq_some.mp h
  exact Function.update_of_ne hj _ _

theorem local_of_step {P : Proc σ ℓ α} {c c' : Config σ ι ℓ} {e : ι × α}
    (h : step P c e = some c') :
    P c.shared (c.thread e.1) e.2 = some (c'.shared, c'.thread e.1) := by
  obtain ⟨s, l, hP, rfl⟩ := step_eq_some.mp h
  rw [hP]
  simp

/-- What held of some thread still does when thread `i` has moved and has not lost it. -/
theorem exists_update {Q : ℓ → Prop} {thread : ι → ℓ} {i : ι} {l : ℓ} (hkeep : Q (thread i) → Q l)
    (h : ∃ j, Q (thread j)) : ∃ j, Q (Function.update thread i l j) := by
  obtain ⟨j, hj⟩ := h
  refine ⟨j, ?_⟩
  by_cases hji : j = i
  · subst hji
    rw [Function.update_self]
    exact hkeep hj
  · rw [Function.update_of_ne hji]
    exact hj

theorem exists_update_self {Q : ℓ → Prop} {thread : ι → ℓ} {i : ι} {l : ℓ} (h : Q l) :
    ∃ j, Q (Function.update thread i l j) := by
  refine ⟨i, ?_⟩
  rw [Function.update_self]
  exact h

/-- A single thread that repeats one action as long as it takes. -/
theorem exec_repeat {P : Proc σ ℓ α} {a : α} {x y : σ × ℓ}
    (h : Relation.ReflTransGen (fun x y => P x.1 x.2 a = some y) x y) {i : ι} (thread : ι → ℓ)
    (hi : thread i = x.2) :
    ∃ n, exec (step P) ⟨x.1, thread⟩ (List.replicate n (i, a))
      = some ⟨y.1, Function.update thread i y.2⟩ := by
  induction h with
  | refl => exact ⟨0, by rw [← hi, Function.update_eq_self]; rfl⟩
  | @tail y z _ hs ih =>
      obtain ⟨n, hn⟩ := ih
      refine ⟨n + 1, ?_⟩
      rw [List.replicate_succ', exec_concat]
      refine ⟨_, hn, step_eq_some.mpr ⟨z.1, z.2, ?_, ?_⟩⟩
      · show P y.1 (Function.update thread i y.2 i) a = some z
        rw [Function.update_self, hs]
      · rw [Function.update_idem]

end Config

end Conc
